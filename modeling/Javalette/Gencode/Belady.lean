import Javalette.Gencode.Moves
import Javalette.Gencode.StackSound
import Javalette.Library.FirstMax

/-!
# The choice of a register

`Chosen` is the rule that `bellady_ra` is documented to follow: among the registers with the least
spill score it takes the one whose values are used farthest away, and never one that holds the
only copy of an argument.  The second loop of `do_bellady_ra` does not use what the first one has
found, and takes the register whose values are used farthest away of all.  A build with assertions
does not get that far: it stops whenever no register is free.  `belladyRa_iff` says when the rule is
followed.

The register that is chosen is emptied by the calls that close the circle of `Target.calls`, and
`Kept.freeRegister` shows that this comes to an end.
-/

namespace Javalette.Gencode

variable {ν ι σ : Type} {R F : ℕ} (V : Vars ν)

/-- The registers that may be allocated. -/
def allowedRegs (s : State ν ι σ R F) (tag : RegTag) : List (RegName R F) :=
  (regNames R F tag).filter fun r => !s.deny r

/-- The register holds the only copy of an argument of the current quadruple. -/
def isNeeded (s : State ν ι σ R F) (tag : RegTag) (r : RegName R F) : Prop :=
  ∃ v ∈ s.regs r, V.used v ∧ s.countTags tag v = 1

/-- The spill score of a register. -/
def spillScore (s : State ν ι σ R F) (tag : RegTag) (r : RegName R F) : ℕ :=
  ((s.regs r).map fun v => if s.countTags tag v = 1 then spillRefs s v else 0).sum

/-- The variables of a register that have no other copy in a register. -/
def ownVars (s : State ν ι σ R F) (tag : RegTag) (r : RegName R F) : List ν :=
  (s.regs r).filter fun v => s.countTags tag v = 1

/-- The average distance of the next use, for the variables that have no other copy in a
register. -/
def avgNextUse (s : State ν ι σ R F) (tag : RegTag) (r : RegName R F) : ℚ :=
  ((ownVars s tag r).map V.nearestUse).sum / (ownVars s tag r).length

/-- The documented rule. -/
structure Chosen (s : State ν ι σ R F) (tag : RegTag) (r : RegName R F) : Prop where
  mem : r ∈ allowedRegs s tag
  free : (∃ r' ∈ allowedRegs s tag, s.regs r' = []) → s.regs r = []
  unneeded : ¬isNeeded V s tag r
  score : s.regs r ≠ [] → ∀ r' ∈ allowedRegs s tag, ¬isNeeded V s tag r' →
    spillScore s tag r ≤ spillScore s tag r'
  farthest : s.regs r ≠ [] → ∀ r' ∈ allowedRegs s tag, ¬isNeeded V s tag r' →
    spillScore s tag r' = spillScore s tag r → avgNextUse V s tag r' ≤ avgNextUse V s tag r

section Loops

variable [Build]

/-- The average as the second loop computes it, with a sum of type `int`. -/
def computedAvg (s : State ν ι σ R F) (tag : RegTag) (r : RegName R F) : ℚ :=
  Build.quotient (nextUses V s tag r).1 (nextUses V s tag r).2

/-- The two loops agree: some register is free; or there are no assertions, and either some register
has no variable without another copy, or the register with the greatest of the averages as they are
computed, the first of these, is as the rule demands. -/
def LoopsAgree (s : State ν ι σ R F) (tag : RegTag) : Prop :=
  (∃ r ∈ allowedRegs s tag, s.regs r = []) ∨ Build.ndebug = true ∧
    ((∃ r ∈ allowedRegs s tag, ∀ v ∈ s.regs r, s.countTags tag v ≠ 1) ∨
      ∀ r, FirstMax (computedAvg V s tag) (allowedRegs s tag) r →
        -1 < computedAvg V s tag r ∧ ¬isNeeded V s tag r ∧
          ∀ r' ∈ allowedRegs s tag, ¬isNeeded V s tag r' →
            spillScore s tag r ≤ spillScore s tag r' ∧
              (spillScore s tag r' = spillScore s tag r →
                avgNextUse V s tag r' ≤ avgNextUse V s tag r))

variable {V} {s : State ν ι σ R F} {tag : RegTag}

omit [Build] in
lemma mem_allowedRegs {r : RegName R F} :
    r ∈ allowedRegs s tag ↔ r.tag = tag ∧ s.deny r = false := by
  rw [allowedRegs, List.mem_filter, mem_regNames, Bool.not_eq_true']

/-! ## The first loop -/

lemma countRefs_returns (hrelease : Build.ndebug = true) (vl : List ν) :
    ∃ refs, countRefs V s tag vl = some refs := by
  induction vl with
  | nil => exact ⟨_, rfl⟩
  | cons v vl ih =>
      obtain ⟨refs, hrefs⟩ := ih
      rw [countRefs, if_neg (by simp [hrelease])]
      split
      · exact ⟨_, rfl⟩
      · exact ⟨_, by rw [hrefs, Option.map_some]⟩

/-- Without assertions the first loop comes to an end, whatever `min_refs` is then. -/
lemma findMinRefs_returns (hrelease : Build.ndebug = true) {rs : List (RegName R F)}
    (h : ∀ r ∈ rs, s.deny r = false → s.regs r ≠ []) (m : ℕ) :
    ∃ m', findMinRefs V s tag rs m = some m' := by
  induction rs generalizing m with
  | nil => exact ⟨m, rfl⟩
  | cons r rs ih =>
      have ih' := ih fun x hx => h x (List.mem_cons_of_mem _ hx)
      by_cases hdeny : s.deny r = true
      · rw [findMinRefs, if_pos hdeny]
        exact ih' m
      · have ⟨refs, hrefs⟩ : ∃ refs, countRefs V s tag (s.regs r) = some refs :=
          countRefs_returns hrelease _
        rw [findMinRefs, if_neg hdeny, hrefs, Option.bind_some,
          if_neg (h r List.mem_cons_self (Bool.not_eq_true _ ▸ hdeny))]
        exact ih' _

/-! ## The second loop -/

/-- A register without variables of its own is taken at once. -/
lemma farthestUse_of_zero {rs : List (RegName R F)} {best : ℚ} {bestI : Option (RegName R F)}
    (h : ∃ r ∈ rs, s.deny r = false ∧ (nextUses V s tag r).2 = 0) :
    ∃ r ∈ rs, s.deny r = false ∧ (nextUses V s tag r).2 = 0 ∧
      farthestUse V s tag rs best bestI = some r := by
  induction rs generalizing best bestI with
  | nil =>
      obtain ⟨r, hr, -⟩ := h
      cases hr
  | cons x rs ih =>
      have hrest : ¬(s.deny x = false ∧ (nextUses V s tag x).2 = 0) →
          ∃ r ∈ rs, s.deny r = false ∧ (nextUses V s tag r).2 = 0 := by
        intro hx
        obtain ⟨r, hr, hrr⟩ := h
        rcases List.mem_cons.mp hr with rfl | hr
        · exact absurd hrr hx
        · exact ⟨r, hr, hrr⟩
      have hlift : (∃ r ∈ rs, s.deny r = false ∧ (nextUses V s tag r).2 = 0 ∧
          farthestUse V s tag (x :: rs) best bestI = some r) → ∃ r ∈ x :: rs, s.deny r = false ∧
            (nextUses V s tag r).2 = 0 ∧ farthestUse V s tag (x :: rs) best bestI = some r :=
        fun ⟨r, hr, hrr⟩ => ⟨r, List.mem_cons_of_mem _ hr, hrr⟩
      by_cases hdeny : s.deny x = true
      · apply hlift
        rw [farthestUse, if_pos hdeny]
        exact ih (hrest fun hx => by simp [hdeny] at hx)
      · -- the loop breaks at the first register that holds the only copy of nothing
        by_cases hzero : (nextUses V s tag x).2 = 0
        · refine ⟨x, List.mem_cons_self, Bool.not_eq_true _ ▸ hdeny, hzero, ?_⟩
          rw [farthestUse, if_neg hdeny]
          exact if_pos hzero
        · apply hlift
          rw [farthestUse, if_neg hdeny]
          dsimp only
          rw [if_neg hzero]
          split <;> exact ih (hrest fun hx => hzero hx.2)

/-- What the second loop knows after some registers: that none is better than `-1`, or which one is
the best. -/
def BestOf (V : Vars ν) (s : State ν ι σ R F) (tag : RegTag) (done : List (RegName R F))
    (best : ℚ) : Option (RegName R F) → Prop
  | none => best = -1 ∧ ∀ r ∈ done, computedAvg V s tag r ≤ -1
  | some r => FirstMax (computedAvg V s tag) done r ∧ best = computedAvg V s tag r ∧ -1 < best

/-- One more register, with an average that is better or is not. -/
lemma BestOf.concat {done : List (RegName R F)} {best : ℚ} {bestI : Option (RegName R F)}
    (h : BestOf V s tag done best bestI) (x : RegName R F) :
    (best < computedAvg V s tag x → BestOf V s tag (done ++ [x]) (computedAvg V s tag x) (some x)) ∧
      (¬best < computedAvg V s tag x → BestOf V s tag (done ++ [x]) best bestI) := by
  cases bestI with
  | none =>
      obtain ⟨rfl, hdone⟩ := h
      refine ⟨fun hlt => ⟨?_, rfl, hlt⟩, fun hle => ⟨rfl, fun r hr => ?_⟩⟩
      · exact FirstMax.concat_of_forall_lt fun z hz => lt_of_le_of_lt (hdone z hz) hlt
      · rcases List.mem_append.mp hr with hr | hr
        · exact hdone r hr
        · exact List.mem_singleton.mp hr ▸ not_lt.mp hle
  | some r =>
      obtain ⟨hmax, rfl, hbest⟩ := h
      exact ⟨fun hlt => ⟨hmax.concat_of_lt hlt, rfl, hbest.trans hlt⟩,
        fun hle => ⟨hmax.concat_of_le (not_lt.mp hle), rfl, hbest⟩⟩

lemma farthestUse_spec {rs done : List (RegName R F)} {best : ℚ} {bestI : Option (RegName R F)}
    (hbest : BestOf V s tag done best bestI)
    (h : ∀ r ∈ rs, s.deny r = false → (nextUses V s tag r).2 ≠ 0) :
    ∃ best', BestOf V s tag (done ++ rs.filter fun r => !s.deny r) best'
      (farthestUse V s tag rs best bestI) := by
  induction rs generalizing done best bestI with
  | nil => exact ⟨best, by simpa [farthestUse] using hbest⟩
  | cons x rs ih =>
      have hrs := fun r hr => h r (List.mem_cons_of_mem _ hr)
      by_cases hdeny : s.deny x = true
      · rw [farthestUse, if_pos hdeny, List.filter_cons_of_neg (by simp [hdeny])]
        exact ih hbest hrs
      · have hd : s.deny x = false := Bool.not_eq_true _ ▸ hdeny
        obtain ⟨hbetter, hnot⟩ := hbest.concat x
        rw [farthestUse, if_neg hdeny, List.filter_cons_of_pos (by simp [hd]),
          ← List.singleton_append, ← List.append_assoc]
        dsimp only
        rw [if_neg (h x List.mem_cons_self hd)]
        split
        · next hlt => exact ih (hbetter hlt) hrs
        · next hle => exact ih (hnot hle) hrs

/-! ## The choice -/

omit [Build] in
lemma nextUses_eq_zero {r : RegName R F} :
    (nextUses V s tag r).2 = 0 ↔ ∀ v ∈ s.regs r, s.countTags tag v ≠ 1 := by
  rw [nextUses, List.length_eq_zero_iff, List.filter_eq_nil_iff]
  simp

omit [Build] in
lemma not_isNeeded {r : RegName R F} (h : ∀ v ∈ s.regs r, s.countTags tag v ≠ 1) :
    ¬isNeeded V s tag r :=
  fun ⟨v, hv, _, hcount⟩ => h v hv hcount

omit [Build] in
lemma spillScore_eq_zero {r : RegName R F} :
    spillScore s tag r = 0 ↔ ∀ v ∈ s.regs r, s.countTags tag v ≠ 1 := by
  rw [spillScore, List.sum_eq_zero_iff, List.forall_mem_map]
  refine forall₂_congr fun v _ => ⟨fun h hcount => ?_, fun h => if_neg h⟩
  rw [if_pos hcount, spillRefs] at h
  split at h <;> cases h

omit [Build] in
/-- A register without variables of its own has no distance. -/
lemma avgNextUse_eq_zero {r : RegName R F} (h : ∀ v ∈ s.regs r, s.countTags tag v ≠ 1) :
    avgNextUse V s tag r = 0 := by
  have hnil : ownVars s tag r = [] := by
    rw [ownVars, List.filter_eq_nil_iff]
    simpa using h
  rw [avgNextUse, hnil, List.length_nil, Nat.cast_zero, div_zero]

/-- A register with nothing in it is taken. -/
lemma doBelladyRa_free (h : ∃ r ∈ allowedRegs s tag, s.regs r = []) :
    ∃ r ∈ allowedRegs s tag, s.regs r = [] ∧ doBelladyRa V s tag = some r := by
  obtain ⟨r, hr, hempty⟩ := h
  have hsome : (findFreeReg s tag).isSome = true := by
    rw [findFreeReg, List.find?_isSome]
    obtain ⟨htag, hdeny⟩ := mem_allowedRegs.mp hr
    exact ⟨r, mem_regNames.mpr htag, by simp [hempty, hdeny]⟩
  obtain ⟨r', hr'⟩ := Option.isSome_iff_exists.mp hsome
  have hprop := List.find?_some hr'
  rw [Bool.and_eq_true, List.isEmpty_iff, Bool.not_eq_true'] at hprop
  refine ⟨r', mem_allowedRegs.mpr ⟨mem_regNames.mp (List.mem_of_find?_eq_some hr'), hprop.2⟩,
    hprop.1, ?_⟩
  rw [doBelladyRa, hr']

section Full

variable (hfull : ¬∃ r ∈ allowedRegs s tag, s.regs r = [])

include hfull

omit [Build] in
lemma findFreeReg_full : findFreeReg s tag = none := by
  rw [findFreeReg, List.find?_eq_none]
  intro r hr hprop
  rw [Bool.and_eq_true, List.isEmpty_iff, Bool.not_eq_true'] at hprop
  exact hfull ⟨r, mem_allowedRegs.mpr ⟨mem_regNames.mp hr, hprop.2⟩, hprop.1⟩

/-- With assertions nothing is returned if no register is free. -/
lemma doBelladyRa_debug (hdebug : Build.ndebug = false) : doBelladyRa V s tag = none := by
  rw [doBelladyRa, findFreeReg_full hfull]
  dsimp only
  cases findMinRefs V s tag (regNames R F tag) 100000 with
  | none => rfl
  | some m =>
      rw [Option.bind_some, hdebug]
      split
      · rfl
      · cases farthestUse V s tag (regNames R F tag) (-1) none <;> rfl

variable (hrelease : Build.ndebug = true)

include hrelease

/-- Without them the second loop decides. -/
lemma doBelladyRa_full :
    doBelladyRa V s tag = farthestUse V s tag (regNames R F tag) (-1) none := by
  obtain ⟨m, hm⟩ : ∃ m, findMinRefs V s tag (regNames R F tag) 100000 = some m := by
    refine findMinRefs_returns hrelease (fun r hr hd he => hfull ⟨r, ?_, he⟩) _
    exact mem_allowedRegs.mpr ⟨mem_regNames.mp hr, hd⟩
  rw [doBelladyRa, findFreeReg_full hfull]
  dsimp only
  rw [hm, Option.bind_some, hrelease, if_neg (by simp)]
  simp

/-- When every register has a variable of its own, the one with the farthest use is taken. -/
lemma doBelladyRa_farthest (hown : ∀ r ∈ allowedRegs s tag, (nextUses V s tag r).2 ≠ 0)
    {r : RegName R F} : doBelladyRa V s tag = some r ↔
      FirstMax (computedAvg V s tag) (allowedRegs s tag) r ∧ -1 < computedAvg V s tag r := by
  have hstart : BestOf V s tag [] (-1) none := ⟨rfl, by simp⟩
  have hregs : ∀ r ∈ regNames R F tag, s.deny r = false → (nextUses V s tag r).2 ≠ 0 :=
    fun r hr hd => hown r (mem_allowedRegs.mpr ⟨mem_regNames.mp hr, hd⟩)
  obtain ⟨best, hbest⟩ := farthestUse_spec hstart hregs
  rw [doBelladyRa_full hfull hrelease]
  cases hfar : farthestUse V s tag (regNames R F tag) (-1) none with
  | none =>
      rw [hfar] at hbest
      simp only [reduceCtorEq, false_iff, not_and, not_lt]
      exact fun hmax => hbest.2 r hmax.mem
  | some r' =>
      rw [hfar] at hbest
      obtain ⟨hmax, rfl, hpos⟩ := hbest
      constructor
      · intro heq
        obtain rfl := Option.some.inj heq
        exact ⟨hmax, hpos⟩
      · rintro ⟨hmax', -⟩
        rw [FirstMax.unique hmax hmax']

/-- When some register has none, the first such register is taken. -/
lemma doBelladyRa_zero (hzero : ∃ r ∈ allowedRegs s tag, ∀ v ∈ s.regs r, s.countTags tag v ≠ 1) :
    ∃ r ∈ allowedRegs s tag, (∀ v ∈ s.regs r, s.countTags tag v ≠ 1) ∧
      doBelladyRa V s tag = some r := by
  obtain ⟨r, hr, hown⟩ := hzero
  obtain ⟨htag, hd⟩ := mem_allowedRegs.mp hr
  have hex : ∃ r ∈ regNames R F tag, s.deny r = false ∧ (nextUses V s tag r).2 = 0 :=
    ⟨r, mem_regNames.mpr htag, hd, nextUses_eq_zero.mpr hown⟩
  obtain ⟨r', hr', hd', hzero', heq⟩ : ∃ r' ∈ regNames R F tag, s.deny r' = false ∧
      (nextUses V s tag r').2 = 0 ∧
        farthestUse V s tag (regNames R F tag) (-1) none = some r' := farthestUse_of_zero hex
  refine ⟨r', mem_allowedRegs.mpr ⟨mem_regNames.mp hr', hd'⟩, nextUses_eq_zero.mp hzero', ?_⟩
  rw [doBelladyRa_full hfull hrelease, heq]

end Full

end Loops

/-! ## The eviction -/

section Evict

variable [DecidableEq ν] {V} {s s' : State ν ι σ R F} {tag : RegTag} {r : RegName R F}
  {B : Backend ν ι σ R F} {K : Calls ν ι σ R F}

lemma emptyReg_of_empty (h : s.regs r = []) : emptyReg K r s = some s := by
  rw [emptyReg, h, freeVl, Option.map_some]
  simp only [State.setDeny, State.setRegs, Function.update_idem, Function.update_eq_self, ← h]

lemma freeRegister_of_empty (h : s.regs r = []) : freeRegister B K r s = some s := by
  cases r with
  | gp r => exact emptyReg_of_empty h
  | fpu r => exact if_pos h

lemma regs_emptyReg (h : emptyReg K r s = some s') : s'.regs r = [] := by
  obtain ⟨s₁, -, rfl⟩ := Option.map_eq_some_iff.mp h
  exact Function.update_self _ _ _

/-- The register is free afterwards. -/
lemma regs_freeRegister (hB : ∀ i s, (B.fpuRegFree i s).regs = s.regs)
    (h : freeRegister B K r s = some s') : s'.regs r = [] := by
  cases r with
  | gp r => exact regs_emptyReg h
  | fpu r =>
      rw [freeRegister, freeFpuReg] at h
      split at h
      · next hempty => exact Option.some.inj h ▸ hempty
      · obtain ⟨s₁, hs₁, rfl⟩ := Option.map_eq_some_iff.mp h
        rw [if_pos rfl, hB]
        exact regs_emptyReg hs₁

/-- What the backends do: they only write code when a register of the FPU becomes free, and when a
variable goes from a register to the stack. -/
structure Target.WritesCode (T : Target ν ι σ R F) : Prop where
  fpuRegFree : ∀ i s, (T.fpuRegFree i s).regs = s.regs
  genMov : ∀ K se v s r, s.bestSrc v = some (.reg r) →
    ∃ code own, T.genMov K (.stack se) v s = some { s with code := code, own := own }

/-- What holds of the variables in a register whenever the generator comes to choose one: they are
of the kind of the register, they have an up to date location there, and none that is permanent,
as only arrays have these. -/
structure Held (V : Vars ν) (s : State ν ι σ R F) (r : RegName R F) (v : ν) : Prop where
  kind : V.regType v = r.tag
  clean : ∃ n ∈ s.loc v, n.loc = .reg r ∧ n.dirty = false
  permanent : ∀ n ∈ s.loc v, n.permanent = false

/-- The tables as the generator keeps them. -/
structure Kept (V : Vars ν) (s : State ν ι σ R F) (tag : RegTag) : Prop where
  stack : s.stack.Linked
  nodup : ∀ r ∈ allowedRegs s tag, (s.regs r).Nodup
  held : ∀ r ∈ allowedRegs s tag, ∀ v ∈ s.regs r, Held V s r v

omit [DecidableEq ν] in
/-- A variable that is in a register is moved from a register. -/
lemma Held.bestSrc {v : ν} (h : Held V s r v) : ∃ r', s.bestSrc v = some (.reg r') := by
  obtain ⟨n, hn, hloc, hdirty⟩ := h.clean
  have hsome : ((s.loc v).find? fun n => !n.dirty && n.loc.isReg).isSome :=
    List.find?_isSome.mpr ⟨n, hn, by simp [hloc, hdirty, Loc.isReg]⟩
  obtain ⟨n', hn'⟩ := Option.isSome_iff_exists.mp hsome
  have hprop := List.find?_some hn'
  rw [Bool.and_eq_true] at hprop
  rw [State.bestSrc]
  dsimp only
  rw [hn', Option.some_or, Option.map_some]
  cases hl : n'.loc with
  | reg r' => exact ⟨r', rfl⟩
  | stack se => simp [hl, Loc.isReg] at hprop
  | int n => simp [hl, Loc.isReg] at hprop
  | double d => simp [hl, Loc.isReg] at hprop

variable [Build] [NeZero F] {T : Target ν ι σ R F}

omit [DecidableEq ν] [Build] [NeZero F] in
/-- Only the locations of the variable count. -/
lemma Held.congr {v : ν} (h : Held V s r v) (hloc : s'.loc v = s.loc v) : Held V s' r v :=
  ⟨h.kind, hloc ▸ h.clean, hloc ▸ h.permanent⟩

omit [DecidableEq ν] [Build] [NeZero F] in
lemma Held.find?_permanent {v : ν} (h : Held V s r v) {p : LocNode R F → Bool}
    (hp : ∀ n, p n = true → n.permanent = true) : (s.loc v).find? p = none := by
  refine List.find?_eq_none.mpr fun n hn hpn => ?_
  have := hp n hpn
  rw [h.permanent n hn] at this
  cases this

/-- What the variable of another register does not see of a step: the list of its locations, and
which registers are free. -/
structure Spares (s s' : State ν ι σ R F) (v : ν) : Prop where
  regs : s'.regs = s.regs
  deny : s'.deny = s.deny
  loc : ∀ w, w ≠ v → s'.loc w = s.loc w

omit [NeZero F] in
/-- The variable goes to a new element of the stack. -/
lemma Held.saveToNewSlot (hT : T.WritesCode) (hrelease : Build.ndebug = true) {v : ν}
    (h : Held V s r v) (hstack : s.stack.Linked) :
    ∃ s', saveToNewSlot T K V v s = some s' ∧ s'.stack.Linked ∧ Spares s s' v := by
  obtain ⟨stack, se, hinsert, hstack'⟩ := hstack.insertNew hrelease v (V.size v)
  obtain ⟨r', hsrc⟩ := h.bestSrc
  obtain ⟨code, own, hmov⟩ := hT.genMov K se v { s with stack := stack } r' hsrc
  rw [Gencode.saveToNewSlot, hinsert, Option.bind_some]
  dsimp only
  rw [hmov, Option.map_some]
  exact ⟨_, rfl, hstack', rfl, rfl, fun w hw => Function.update_of_ne hw _ _⟩

/-- A variable that leaves a register, when no register is free, is sent to the stack. -/
lemma Held.saveVarNotToLoc (hT : T.WritesCode) (hrelease : Build.ndebug = true) {v : ν}
    (h : Held V s r v) (hstack : s.stack.Linked) (hnone : s.available r.tag = 0) :
    ∃ s', saveVarNotToLoc T K V v none s = some s' ∧ s'.stack.Linked ∧ Spares s s' v := by
  have hne : (s.loc v).isEmpty = false := by
    obtain ⟨n, hn, -⟩ := h.clean
    exact List.isEmpty_eq_false_iff.mpr (List.ne_nil_of_mem hn)
  have hreg : savesToReg T V v s = false := by
    rw [savesToReg, h.kind, hnone]
    simp
  rw [Gencode.saveVarNotToLoc, hne, h.find?_permanent (by simp +contextual)]
  dsimp only
  rw [hreg, h.find?_permanent (by simp +contextual), if_neg Bool.false_ne_true,
    if_neg Bool.false_ne_true]
  dsimp only
  split
  · exact ⟨s, rfl, hstack, rfl, rfl, fun _ _ => rfl⟩
  · exact h.saveToNewSlot hT hrelease hstack

/-- The loop of `FREE_VL` comes to an end. -/
lemma freeVl_returns (hT : T.WritesCode) (hrelease : Build.ndebug = true) (depth : ℕ) {vl : List ν}
    (hnodup : vl.Nodup) (hheld : ∀ v ∈ vl, Held V s r v) (hstack : s.stack.Linked)
    (hnone : s.available r.tag = 0) :
    ∃ s', freeVl (T.calls V (depth + 1)) (.reg r) vl s = some s' := by
  induction vl generalizing s with
  | nil => exact ⟨s, rfl⟩
  | cons v vl ih =>
      obtain ⟨hv, hnodup'⟩ := List.nodup_cons.mp hnodup
      -- Whether `v` is saved or not, the variables after it are held as before.
      have hstep : ∃ s₁, (if s.shouldSave v (.reg r) then
          (T.calls V (depth + 1)).saveVarNotToLoc v none s else some s) = some s₁ ∧
            s₁.stack.Linked ∧ Spares s s₁ v := by
        split
        · exact (hheld v List.mem_cons_self).saveVarNotToLoc hT hrelease hstack hnone
        · exact ⟨s, rfl, hstack, rfl, rfl, fun _ _ => rfl⟩
      obtain ⟨s₁, hs₁, hstack₁, hspares⟩ := hstep
      rw [freeVl, hs₁, Option.bind_some]
      refine ih hnodup' (fun w hw => ?_) hstack₁ ?_
      · have hwv : w ≠ v := fun h => hv (h ▸ hw)
        refine (hheld w (List.mem_cons_of_mem _ hw)).congr ?_
        exact (Function.update_of_ne hwv _ _).trans (hspares.loc w hwv)
      · show (regNames R F r.tag).countP (fun r => (s₁.regs r).isEmpty && !s₁.deny r) = 0
        rw [hspares.regs, hspares.deny]
        exact hnone

/-- Without assertions, the eviction of a register comes to an end when no register is free. -/
lemma Kept.freeRegister (hs : Kept V s tag) (hT : T.WritesCode) (hrelease : Build.ndebug = true)
    (depth : ℕ) (hr : r ∈ allowedRegs s tag) (hfull : ¬∃ r ∈ allowedRegs s tag, s.regs r = []) :
    ∃ s', freeRegister T.toBackend (T.calls V (depth + 1)) r s = some s' := by
  have htag := (mem_allowedRegs.mp hr).1
  have hnone : (s.setDeny r true).available r.tag = 0 := by
    refine List.countP_eq_zero.mpr fun r' hr' hfree => ?_
    rw [Bool.and_eq_true, List.isEmpty_iff, Bool.not_eq_true'] at hfree
    by_cases heq : r' = r
    · rw [heq] at hfree
      simp [State.setDeny] at hfree
    · have hdeny : s.deny r' = false := by
        simpa [State.setDeny, Function.update_of_ne heq] using hfree.2
      exact hfull ⟨r', mem_allowedRegs.mpr ⟨(mem_regNames.mp hr').trans htag, hdeny⟩, hfree.1⟩
  have hheld : ∀ v ∈ s.regs r, Held V (s.setDeny r true) r v := fun v hv =>
    (hs.held r hr v hv).congr rfl
  obtain ⟨s₁, hs₁⟩ := freeVl_returns hT hrelease depth (hs.nodup r hr) hheld hs.stack hnone
  have hempty : ∃ s', emptyReg (T.calls V (depth + 1)) r s = some s' :=
    ⟨_, by rw [emptyReg, hs₁, Option.map_some]⟩
  cases r with
  | gp r => exact hempty
  | fpu r =>
      rw [Gencode.freeRegister, freeFpuReg]
      split
      · exact ⟨s, rfl⟩
      · obtain ⟨s₂, hs₂⟩ := hempty
        exact ⟨_, by rw [hs₂, Option.map_some]⟩

end Evict

/-! ## The rule -/

section Rule

variable [DecidableEq ν] [Build]

/-- `bellady_ra` follows the rule: it returns the register that the rule demands, which is free
afterwards, and evicts nothing if a register was free. -/
def FollowsBelady (B : Backend ν ι σ R F) (K : Calls ν ι σ R F) (V : Vars ν) (s : State ν ι σ R F)
    (tag : RegTag) : Prop :=
  ∃ r s', belladyRa B K V tag s = some (r, s') ∧ Chosen V s tag r ∧ s'.regs r = [] ∧
    ((∃ r' ∈ allowedRegs s tag, s.regs r' = []) → s' = s)

variable {V} {s : State ν ι σ R F} {tag : RegTag} {B : Backend ν ι σ R F} {K : Calls ν ι σ R F}

/-- The eviction is as it should be, whatever register is chosen. -/
lemma followsBelady_of_chosen (hB : ∀ i s, (B.fpuRegFree i s).regs = s.regs) {r : RegName R F}
    (hr : Chosen V s tag r) (heq : doBelladyRa V s tag = some r)
    (hevict : (¬∃ r ∈ allowedRegs s tag, s.regs r = []) → ∃ s', freeRegister B K r s = some s') :
    FollowsBelady B K V s tag := by
  by_cases hfree : ∃ r ∈ allowedRegs s tag, s.regs r = []
  · refine ⟨r, s, ?_, hr, hr.free hfree, fun _ => rfl⟩
    rw [belladyRa, heq, Option.bind_some, freeRegister_of_empty (hr.free hfree), Option.map_some]
  · obtain ⟨s', hs'⟩ := hevict hfree
    refine ⟨r, s', ?_, hr, regs_freeRegister hB hs', fun h => absurd h hfree⟩
    rw [belladyRa, heq, Option.bind_some, hs', Option.map_some]

lemma FollowsBelady.chosen (h : FollowsBelady B K V s tag) :
    ∃ r, Chosen V s tag r ∧ doBelladyRa V s tag = some r := by
  obtain ⟨r, s', heq, hr, -⟩ := h
  obtain ⟨r', hr', hmap⟩ := Option.bind_eq_some_iff.mp heq
  obtain ⟨s₁, -, hpair⟩ := Option.map_eq_some_iff.mp hmap
  exact ⟨r, hr, (Prod.mk.inj hpair).1 ▸ hr'⟩

/-- **`bellady_ra`** follows the rule if and only if the two loops agree. -/
theorem belladyRa_iff [NeZero F] {T : Target ν ι σ R F} (hT : T.WritesCode) (depth : ℕ)
    (hs : Kept V s tag) (hunneeded : ∃ r ∈ allowedRegs s tag, ¬isNeeded V s tag r) :
    FollowsBelady T.toBackend (T.calls V (depth + 1)) V s tag ↔ LoopsAgree V s tag := by
  by_cases hfree : ∃ r ∈ allowedRegs s tag, s.regs r = []
  · -- Nothing is chosen by the loops.
    obtain ⟨r, hr, hempty, heq⟩ := doBelladyRa_free (V := V) hfree
    have hnone : ∀ v ∈ s.regs r, s.countTags tag v ≠ 1 := by simp [hempty]
    refine ⟨fun _ => .inl hfree, fun _ => followsBelady_of_chosen hT.fpuRegFree ?_ heq ?_⟩
    · exact ⟨hr, fun _ => hempty, not_isNeeded hnone, fun hne => absurd hempty hne,
        fun hne => absurd hempty hne⟩
    · exact fun hfull => absurd hfree hfull
  have hne : ∀ r ∈ allowedRegs s tag, s.regs r ≠ [] := fun r hr he => hfree ⟨r, hr, he⟩
  by_cases hdebug : Build.ndebug = false
  · -- The last assertion fails.
    refine ⟨fun h => ?_, fun h => ?_⟩
    · obtain ⟨r, -, heq⟩ := h.chosen
      rw [doBelladyRa_debug hfree hdebug] at heq
      cases heq
    · rw [LoopsAgree, hdebug] at h
      exact absurd (h.resolve_left hfree).1 Bool.false_ne_true
  have hrelease : Build.ndebug = true := Bool.not_eq_false _ ▸ hdebug
  have hevict := fun {r} (hr : r ∈ allowedRegs s tag) => hs.freeRegister hT hrelease depth hr
  by_cases hzero : ∃ r ∈ allowedRegs s tag, ∀ v ∈ s.regs r, s.countTags tag v ≠ 1
  · obtain ⟨r, hr, hown, heq⟩ := doBelladyRa_zero (V := V) hfree hrelease hzero
    refine ⟨fun _ => .inr ⟨hrelease, .inl hzero⟩,
      fun _ => followsBelady_of_chosen hT.fpuRegFree ?_ heq (hevict hr)⟩
    refine ⟨hr, fun h => absurd h hfree, not_isNeeded hown, fun _ r' _ _ => ?_,
      fun _ r' hr' _ hscore => ?_⟩
    · rw [spillScore_eq_zero.mpr hown]
      exact Nat.zero_le _
    · rw [spillScore_eq_zero.mpr hown] at hscore
      rw [avgNextUse_eq_zero hown, avgNextUse_eq_zero (spillScore_eq_zero.mp hscore)]
  have hown : ∀ r ∈ allowedRegs s tag, (nextUses V s tag r).2 ≠ 0 := fun r hr h =>
    hzero ⟨r, hr, nextUses_eq_zero.mp h⟩
  have hchoice := fun r => doBelladyRa_farthest (V := V) (r := r) hfree hrelease hown
  constructor
  · intro h
    obtain ⟨r, hr, heq⟩ := h.chosen
    obtain ⟨hmax, hpos⟩ := (hchoice r).mp heq
    refine .inr ⟨hrelease, .inr fun r' hmax' => ?_⟩
    obtain rfl := hmax.unique hmax'
    have hnonempty := hne r hr.mem
    exact ⟨hpos, hr.unneeded, fun r' hr' hn =>
      ⟨hr.score hnonempty r' hr' hn, hr.farthest hnonempty r' hr' hn⟩⟩
  · intro h
    have hagree := ((h.resolve_left hfree).2).resolve_left hzero
    obtain ⟨r₀, hr₀, -⟩ := hunneeded
    obtain ⟨r, hmax⟩ := exists_firstMax (computedAvg V s tag) (List.ne_nil_of_mem hr₀)
    obtain ⟨hpos, hn, hmin⟩ := hagree r hmax
    refine followsBelady_of_chosen hT.fpuRegFree ?_ ((hchoice r).mpr ⟨hmax, hpos⟩)
      (hevict hmax.mem)
    exact ⟨hmax.mem, fun h => absurd h hfree, hn, fun _ r' hr' hn' => (hmin r' hr' hn').1,
      fun _ r' hr' hn' => (hmin r' hr' hn').2⟩

end Rule

/-! ## Two registers -/

/-- A backend without an FPU, which can only write code. -/
def twoRegsTarget : Target ℕ String Unit 2 1 where
  fpuStack := false
  fpuRegFree _ s := s
  genFpuLoad _ _ := none
  genFpuStore _ _ := none
  genFpuPop _ _ := none
  genMov _ _ _ s := some (s.emit ["mov"])
  genSwap _ _ _ s := some (s.emit ["xchg"])

/-- The current quadruple has the variable `0` as an argument; the next uses are `d` and `d'`
instructions away. -/
def twoVars (d d' : ℤ) : Vars ℕ where
  qtype _ := .int
  size _ := 4
  used v := v = 0
  nearestUse v := if v = 0 then d else d'

/-- The variables `0` and `1` are in the two registers, and nowhere else. -/
def twoRegs : State ℕ String Unit 2 1 where
  loc v := if h : v < 2 then [.fresh (.reg (.gp ⟨v, h⟩))] else []
  live _ := true
  regs
    | .gp r => [r.val]
    | .fpu _ => []
  deny _ := false
  stack := .init
  code := []
  own := ()

/-- `bellady_ra` follows the rule at the two registers. -/
def TwoRegsFollow (B : Build) (d d' : ℤ) : Prop :=
  FollowsBelady twoRegsTarget.toBackend (twoRegsTarget.calls (twoVars d d') 1) (twoVars d d')
    twoRegs .gp

lemma TwoRegsFollow.chosen {B : Build} {d d' : ℤ} (h : TwoRegsFollow B d d') :
    ∃ r, Chosen (twoVars d d') twoRegs .gp r ∧
      @doBelladyRa ℕ String Unit 2 1 B (twoVars d d') twoRegs .gp = some r :=
  FollowsBelady.chosen h

lemma writesCode_twoRegs : twoRegsTarget.WritesCode :=
  ⟨fun _ _ => rfl, fun _ _ _ _ _ _ => ⟨_, _, rfl⟩⟩

lemma countTags_twoRegs : ∀ r : Fin 2, twoRegs.countTags .gp r.val = 1 := by decide

lemma mem_allowedRegs_twoRegs {r : RegName 2 1} :
    r ∈ allowedRegs twoRegs .gp ↔ r = .gp 0 ∨ r = .gp 1 := by
  have hregs : allowedRegs twoRegs .gp = [.gp 0, .gp 1] := by decide
  rw [hregs, List.mem_cons, List.mem_singleton]

lemma isNeeded_twoRegs (d d' : ℤ) (r : Fin 2) :
    isNeeded (twoVars d d') twoRegs .gp (.gp r) ↔ r = 0 := by
  constructor
  · rintro ⟨v, hv, hused, -⟩
    obtain rfl : v = r.val := List.mem_singleton.mp hv
    exact Fin.ext (of_decide_eq_true hused)
  · rintro rfl
    exact ⟨0, List.mem_singleton_self _, rfl, countTags_twoRegs 0⟩

lemma kept_twoRegs (d d' : ℤ) : Kept (twoVars d d') twoRegs .gp := by
  refine ⟨.init_linked, fun r hr => ?_, fun r hr v hv => ?_⟩
  · rcases mem_allowedRegs_twoRegs.mp hr with rfl | rfl <;> decide
  · rcases mem_allowedRegs_twoRegs.mp hr with rfl | rfl
    · obtain rfl := List.mem_singleton.mp hv
      exact ⟨rfl, by decide, by decide⟩
    · obtain rfl := List.mem_singleton.mp hv
      exact ⟨rfl, by decide, by decide⟩

/-- **The only copy of an argument is evicted**, as it is used again farther away. -/
theorem belladyRa_evicts_argument :
    @doBelladyRa ℕ String Unit 2 1 release (twoVars 10 1) twoRegs .gp = some (.gp 0) ∧
      isNeeded (twoVars 10 1) twoRegs .gp (.gp 0) ∧ ¬isNeeded (twoVars 10 1) twoRegs .gp (.gp 1) ∧
      ¬TwoRegsFollow release 10 1 ∧ ¬TwoRegsFollow debug 10 1 := by
  have hchoice : @doBelladyRa ℕ String Unit 2 1 release (twoVars 10 1) twoRegs .gp =
      some (.gp 0) := by decide +kernel
  have hassert : @doBelladyRa ℕ String Unit 2 1 debug (twoVars 10 1) twoRegs .gp = none := by
    decide +kernel
  have hneeded := (isNeeded_twoRegs 10 1 0).mpr rfl
  refine ⟨hchoice, hneeded, fun h => ?_, fun h => ?_, fun h => ?_⟩
  · exact absurd ((isNeeded_twoRegs 10 1 1).mp h) (by decide)
  · obtain ⟨r, hr, heq⟩ := h.chosen
    obtain rfl := Option.some.inj (hchoice.symm.trans heq)
    exact hr.unneeded hneeded
  · obtain ⟨r, -, heq⟩ := h.chosen
    rw [hassert] at heq
    cases heq

/-- The register of the variable `1` is taken, which is sent to the stack. -/
theorem belladyRa_iff_twoRegs : TwoRegsFollow release 1 10 := by
  let _ : Build := release
  have hfar : computedAvg (twoVars 1 10) twoRegs .gp (.gp 0) <
      computedAvg (twoVars 1 10) twoRegs .gp (.gp 1) := by decide +kernel
  have hneeded := (isNeeded_twoRegs 1 10 0).mpr rfl
  have hunneeded : ¬isNeeded (twoVars 1 10) twoRegs .gp (.gp 1) := fun h =>
    absurd ((isNeeded_twoRegs 1 10 1).mp h) (by decide)
  have hmem : .gp 1 ∈ allowedRegs twoRegs .gp := mem_allowedRegs_twoRegs.mpr (.inr rfl)
  refine (belladyRa_iff writesCode_twoRegs 0 (kept_twoRegs 1 10) ⟨.gp 1, hmem, hunneeded⟩).mpr
    (.inr ⟨rfl, .inr fun r hr => ?_⟩)
  rcases mem_allowedRegs_twoRegs.mp hr.mem with rfl | rfl
  · exact absurd (hr.le hmem) (not_le.mpr hfar)
  · refine ⟨by decide +kernel, hunneeded, fun r' hr' hn => ?_⟩
    rcases mem_allowedRegs_twoRegs.mp hr' with rfl | rfl
    · exact absurd hneeded hn
    · exact ⟨le_rfl, fun _ => le_rfl⟩

end Javalette.Gencode
