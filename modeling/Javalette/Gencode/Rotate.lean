import Mathlib.Algebra.Ring.Parity
import Mathlib.Data.List.FinRange
import Mathlib.Data.Fintype.Basic
import Mathlib.Tactic.Ring
import Javalette.Gencode.Location

/-!
# `gencode.c`: the rotations of the FPU

`rol_fpu_regs` and `ror_fpu_regs` as they are written: a first pass over the register lists shifts
the locations of each variable that it has not met yet, and marks the variable by negating its
size; a second pass over the same lists negates the sizes again.  The second pass does that as often
as it meets a variable.  It asserts that the size is still negative, and with `NDEBUG` it goes on.

`State.rolFpuRegs` says what the functions are for; `rotations_iff` says when they do it.
-/

namespace Javalette.Gencode

/-- `fpu_regs`, and the fields `loc` and `size` of the variables. -/
@[ext] structure FpuTables (ν : Type) (R F : ℕ) where
  fpuRegs : Fin F → List ν
  loc : ν → List (LocNode R F)
  size : ν → ℤ

/-- The number of a register after `rol_fpu_regs`. -/
def decReg {F : ℕ} (i : Fin F) : Fin F :=
  if i.val = 0 then ⟨F - 1, by have := i.isLt; omega⟩
  else ⟨i.val - 1, by have := i.isLt; omega⟩

/-- The number of a register after `ror_fpu_regs`. -/
def incReg {F : ℕ} (i : Fin F) : Fin F :=
  if h : i.val + 1 = F then ⟨0, by omega⟩
  else ⟨i.val + 1, by have := i.isLt; omega⟩

namespace FpuTables

variable {ν : Type} {R F : ℕ}

/-- The variables that a loop over the register lists meets, as often as it meets them. -/
def slots (s : FpuTables ν R F) : List ν := (List.finRange F).flatMap s.fpuRegs

section

variable [DecidableEq ν]

/-- The size of the variable is negated. -/
def negSize (s : FpuTables ν R F) (v : ν) : FpuTables ν R F :=
  { s with size := Function.update s.size v (-s.size v) }

/-- A turn of the first loop: the locations are shifted, unless the variable is marked. -/
def shiftVar (ndebug : Bool) (dst : Fin F → Fin F) (s : FpuTables ν R F) (v : ν) :
    Option (FpuTables ν R F) :=
  if !ndebug ∧ s.size v = 0 then none
  else if s.size v > 0 then
    some (negSize { s with
      loc := Function.update s.loc v
        ((s.loc v).map fun n => { n with loc := n.loc.mapFpu dst }) } v)
  else some s

/-- A turn of the second loop: the mark is taken off. -/
def unmarkVar (ndebug : Bool) (s : FpuTables ν R F) (v : ν) : Option (FpuTables ν R F) :=
  if !ndebug ∧ ¬s.size v < 0 then none else some (s.negSize v)

/-- The lists move, those of the register `src i` to `i`, and then come the two loops over them. -/
def rotate (ndebug : Bool) (dst src : Fin F → Fin F) (s : FpuTables ν R F) :
    Option (FpuTables ν R F) := do
  let s := { s with fpuRegs := fun i => s.fpuRegs (src i) }
  let s ← s.slots.foldlM (shiftVar ndebug dst) s
  s.slots.foldlM (unmarkVar ndebug) s

/-- `rol_fpu_regs`. -/
def rolFpuRegs (ndebug : Bool) (s : FpuTables ν R F) : Option (FpuTables ν R F) :=
  s.rotate ndebug decReg incReg

/-- `ror_fpu_regs`. -/
def rorFpuRegs (ndebug : Bool) (s : FpuTables ν R F) : Option (FpuTables ν R F) :=
  s.rotate ndebug incReg decReg

end

/-! ## What is to hold -/

/-- A variable has a location in a register if and only if the register lists it, and the sizes
are positive. -/
structure Agree (s : FpuTables ν R F) : Prop where
  loc : ∀ v i, (∃ n ∈ s.loc v, n.loc = .reg (.fpu i)) ↔ v ∈ s.fpuRegs i
  size : ∀ v, 0 < s.size v

/-- The tables with the registers renamed by `dst`, whose inverse is `src`. -/
def renamed (dst src : Fin F → Fin F) (s : FpuTables ν R F) : FpuTables ν R F where
  fpuRegs i := s.fpuRegs (src i)
  loc v := (s.loc v).map fun n => { n with loc := n.loc.mapFpu dst }
  size := s.size

/-! ## The loops -/

section

variable {ndebug : Bool} {dst src : Fin F → Fin F} {s : FpuTables ν R F}

lemma decReg_incReg (i : Fin F) : decReg (incReg i) = i := by
  unfold incReg decReg
  have := i.isLt
  split
  · exact Fin.ext (by simp; omega)
  · exact Fin.ext (by simp)

lemma incReg_decReg (i : Fin F) : incReg (decReg i) = i := by
  unfold incReg decReg
  have := i.isLt
  split <;> rename_i h
  · rw [dif_pos (by simp; omega)]
    exact Fin.ext h.symm
  · rw [dif_neg (by simp; omega)]
    exact Fin.ext (by simp; omega)

variable [DecidableEq ν]

/-- What the first loop does to a list of variables with positive sizes. -/
def shifted (dst : Fin F → Fin F) (vs : List ν) (s : FpuTables ν R F) : FpuTables ν R F where
  fpuRegs := s.fpuRegs
  loc v := if v ∈ vs then (s.loc v).map fun n => { n with loc := n.loc.mapFpu dst } else s.loc v
  size v := if v ∈ vs then -s.size v else s.size v

lemma shifted_append {vs : List ν} {v : ν} (hpos : ∀ v, 0 < s.size v) :
    shiftVar ndebug dst (shifted dst vs s) v = some (shifted dst (vs ++ [v]) s) := by
  have hv := hpos v
  unfold shiftVar
  -- a variable of an earlier register has its size negated, and is passed over
  by_cases hmem : v ∈ vs
  · have hsize : (shifted dst vs s).size v = -s.size v := if_pos hmem
    rw [hsize, if_neg (by omega), if_neg (by omega)]
    congr 1
    ext1
    · rfl
    · funext u
      simp only [shifted, List.mem_append, List.mem_singleton]
      rcases eq_or_ne u v with rfl | hne
      · simp [hmem]
      · simp [hne]
    · funext u
      simp only [shifted, List.mem_append, List.mem_singleton]
      rcases eq_or_ne u v with rfl | hne
      · simp [hmem]
      · simp [hne]
  · have hsize : (shifted dst vs s).size v = s.size v := if_neg hmem
    rw [hsize, if_neg (by omega), if_pos hv]
    congr 1
    ext1
    · rfl
    · funext u
      simp only [shifted, negSize, List.mem_append, List.mem_singleton]
      rcases eq_or_ne u v with rfl | hne
      · simp [hmem]
      · simp [hne]
    · funext u
      simp only [shifted, negSize, List.mem_append, List.mem_singleton]
      rcases eq_or_ne u v with rfl | hne
      · simp [hmem]
      · simp [hne]

/-- The first loop shifts the locations of each variable once. -/
lemma foldlM_shiftVar (hpos : ∀ v, 0 < s.size v) (vs : List ν) :
    vs.foldlM (shiftVar ndebug dst) s = some (shifted dst vs s) := by
  induction vs using List.reverseRecOn with
  | nil => simp [shifted]
  | append_singleton vs v ih =>
    rw [List.foldlM_append, ih]
    simp only [Option.bind_eq_bind, Option.bind_some, List.foldlM_cons, List.foldlM_nil,
      shifted_append hpos]
    rfl

/-- What the second loop does to a list of variables. -/
def unmarked (vs : List ν) (s : FpuTables ν R F) : FpuTables ν R F :=
  { s with size := fun v => (-1) ^ vs.count v * s.size v }

lemma unmarked_append {vs : List ν} {v : ν} :
    (unmarked vs s).negSize v = unmarked (vs ++ [v]) s := by
  ext1
  · rfl
  · rfl
  · funext u
    simp only [unmarked, negSize, List.count_append]
    rcases eq_or_ne u v with rfl | hne
    · have hcount : (vs ++ [u]).count u = vs.count u + 1 := by simp
      rw [Function.update_self, ← List.count_append, hcount, pow_succ]
      ring
    · simp [hne, hne.symm]

/-- The second loop takes off each mark as often as it meets the variable, and with the assertion
it fails when it meets one again. -/
lemma foldlM_unmarkVar {vs : List ν} (hneg : ∀ v ∈ vs, s.size v < 0) :
    vs.foldlM (unmarkVar ndebug) s =
      if ndebug = true ∨ vs.Nodup then some (unmarked vs s) else none := by
  induction vs using List.reverseRecOn with
  | nil =>
    simp [unmarked]
  | append_singleton vs v ih =>
    have hv := hneg v (by simp)
    rw [List.foldlM_append, ih fun u hu => hneg u (List.mem_append_left _ hu)]
    have hstep : unmarkVar ndebug (unmarked vs s) v =
        if ndebug = true ∨ (unmarked vs s).size v < 0 then some (unmarked (vs ++ [v]) s)
        else none := by
      rw [unmarkVar, unmarked_append]
      cases ndebug <;> by_cases h : (unmarked vs s).size v < 0 <;> simp [h]
    by_cases hgo : ndebug = true ∨ vs.Nodup
    · rw [if_pos hgo]
      show (unmarkVar ndebug (unmarked vs s) v).bind some = _
      rw [Option.bind_fun_some, hstep]
      refine if_congr (or_congr_right' fun hdebug => ?_) rfl rfl
      have hnodup := hgo.resolve_left hdebug
      -- the size is negative if the variable has not been met before
      have hsize : (unmarked vs s).size v < 0 ↔ v ∉ vs := by
        show (-1) ^ vs.count v * s.size v < 0 ↔ _
        by_cases hmem : v ∈ vs
        · rw [List.count_eq_one_of_mem hnodup hmem, pow_one]
          exact iff_of_false (by omega) (not_not.mpr hmem)
        · rw [List.count_eq_zero_of_not_mem hmem, pow_zero, one_mul]
          exact iff_of_true hv hmem
      rw [hsize, ← List.concat_eq_append, List.nodup_concat]
      exact (and_iff_left hnodup).symm
    · rw [if_neg hgo, if_neg]
      · rfl
      · exact fun h => hgo (h.imp_right fun h => (List.nodup_append.mp h).1)

/-! ## The rotations -/

/-- The tables after the lists have been moved. -/
def moved (src : Fin F → Fin F) (s : FpuTables ν R F) : FpuTables ν R F :=
  { s with fpuRegs := fun i => s.fpuRegs (src i) }

omit [DecidableEq ν] in
/-- The loops meet the same variables wherever the lists are. -/
lemma slots_moved (hdst : ∀ i, dst (src i) = i) (hsrc : ∀ i, src (dst i) = i) :
    (s.moved src).slots.Perm s.slots := by
  let f : Equiv.Perm (Fin F) := ⟨src, dst, hdst, hsrc⟩
  have hmap : (s.moved src).slots = ((List.finRange F).map f).flatMap s.fpuRegs := by
    rw [List.flatMap_map]
    rfl
  rw [hmap]
  exact (Equiv.Perm.map_finRange_perm f).flatMap_right _

lemma rotate_eq (hs : s.Agree) (hdst : ∀ i, dst (src i) = i) (hsrc : ∀ i, src (dst i) = i) :
    s.rotate ndebug dst src = if ndebug = true ∨ s.slots.Nodup then
      some (unmarked s.slots (shifted dst s.slots (s.moved src))) else none := by
  have hperm := slots_moved (s := s) hdst hsrc
  have hfirst : (s.moved src).slots.foldlM (shiftVar ndebug dst) (s.moved src) =
      some (shifted dst (s.moved src).slots (s.moved src)) :=
    foldlM_shiftVar (s := s.moved src) hs.size _
  have hneg : ∀ v ∈ (s.moved src).slots,
      (shifted dst (s.moved src).slots (s.moved src)).size v < 0 := fun v hv => by
    have hpos := hs.size v
    have hsize : (shifted dst (s.moved src).slots (s.moved src)).size v = -s.size v := if_pos hv
    omega
  -- which registers hold the variables does not matter for the marks, only which variables
  have hshifted : shifted dst (s.moved src).slots (s.moved src) =
      shifted dst s.slots (s.moved src) := by
    ext1
    · rfl
    · funext v
      exact if_congr hperm.mem_iff rfl rfl
    · funext v
      exact if_congr hperm.mem_iff rfl rfl
  have hunmarked : ∀ s' : FpuTables ν R F,
      unmarked (s.moved src).slots s' = unmarked s.slots s' := fun s' => by
    ext1
    · rfl
    · rfl
    · funext v
      simp only [unmarked, hperm.count_eq]
  show ((s.moved src).slots.foldlM (shiftVar ndebug dst) (s.moved src)).bind _ = _
  rw [hfirst, Option.bind_some]
  show (s.moved src).slots.foldlM (unmarkVar ndebug) _ = _
  rw [foldlM_unmarkVar hneg, hshifted, hunmarked]
  exact if_congr (or_congr_right hperm.nodup_iff) rfl rfl

/-- Each variable that is in a register is in one only, or, where the assertions are compiled out,
in an odd number of them. -/
def MetOnce (ndebug : Bool) (s : FpuTables ν R F) : Prop :=
  ∀ v ∈ s.slots, if ndebug = true then Odd (s.slots.count v) else s.slots.count v = 1

omit [DecidableEq ν] in
@[simp] lemma mem_slots {v : ν} : v ∈ s.slots ↔ ∃ i, v ∈ s.fpuRegs i := by
  simp [slots]

lemma mapFpu_eq (hdst : ∀ i, dst (src i) = i) (hsrc : ∀ i, src (dst i) = i) {l : Loc R F}
    {i : Fin F} : l.mapFpu dst = .reg (.fpu i) ↔ l = .reg (.fpu (src i)) := by
  cases l with
  | reg r =>
    cases r with
    | gp r => simp [Loc.mapFpu]
    | fpu j =>
      simp only [Loc.mapFpu, Loc.reg.injEq, RegName.fpu.injEq]
      exact ⟨fun h => h ▸ (hsrc j).symm, fun h => h ▸ hdst i⟩
  | _ => simp [Loc.mapFpu]

omit [DecidableEq ν] in
/-- A variable in no register has no location to be shifted. -/
lemma Agree.loc_eq (hs : s.Agree) {v : ν} (hv : v ∉ s.slots) :
    (s.loc v).map (fun n => { n with loc := n.loc.mapFpu dst }) = s.loc v := by
  have hnode : ∀ n ∈ s.loc v, ({ n with loc := n.loc.mapFpu dst } : LocNode R F) = n := by
    intro n hn
    have hsame : n.loc.mapFpu dst = n.loc := by
      cases hloc : n.loc with
      | reg r =>
        cases r with
        | gp r => rfl
        | fpu i => exact absurd (mem_slots.mpr ⟨i, (hs.loc v i).mp ⟨n, hn, hloc⟩⟩) hv
      | _ => rfl
    rw [hsame]
  exact (List.map_congr_left hnode).trans (List.map_id _)

/-- A rotation does what it should if and only if the marks are taken off. -/
lemma rotate_eq_renamed (hs : s.Agree) (hdst : ∀ i, dst (src i) = i)
    (hsrc : ∀ i, src (dst i) = i) :
    s.rotate ndebug dst src = some (s.renamed dst src) ↔ s.MetOnce ndebug := by
  rw [rotate_eq hs hdst hsrc]
  have hsize : ∀ v ∈ s.slots, (unmarked s.slots (shifted dst s.slots (s.moved src))).size v =
      (-1) ^ s.slots.count v * -s.size v := fun v hv =>
    congrArg ((-1) ^ s.slots.count v * ·) (if_pos hv)
  constructor
  · intro h
    have hgo : ndebug = true ∨ s.slots.Nodup := by
      by_contra hno
      rw [if_neg hno] at h
      cases h
    rw [if_pos hgo] at h
    intro v hv
    split
    · -- an even number of negations would leave the size negative
      by_contra heven
      rw [Nat.not_odd_iff_even] at heven
      have hv' := congrFun (congrArg FpuTables.size (Option.some.inj h)) v
      rw [hsize v hv, heven.neg_one_pow, one_mul] at hv'
      have hpos := hs.size v
      have hsame : -s.size v = s.size v := hv'
      omega
    · rename_i hdebug
      exact List.count_eq_one_of_mem (hgo.resolve_left hdebug) hv
  · intro h
    have hodd : ∀ v ∈ s.slots, Odd (s.slots.count v) := fun v hv => by
      have hv := h v hv
      split at hv
      · exact hv
      · rw [hv]
        exact odd_one
    have hgo : ndebug = true ∨ s.slots.Nodup := by
      refine or_iff_not_imp_left.mpr fun hdebug => List.nodup_iff_count_le_one.mpr fun v => ?_
      by_cases hv : v ∈ s.slots
      · have hcount := h v hv
        rw [if_neg hdebug] at hcount
        exact hcount.le
      · rw [List.count_eq_zero_of_not_mem hv]
        exact Nat.zero_le 1
    rw [if_pos hgo]
    congr 1
    ext1
    · rfl
    · funext v
      show (if v ∈ s.slots then _ else _) = _
      split
      · rfl
      · rename_i hv
        exact (hs.loc_eq hv).symm
    · funext v
      by_cases hv : v ∈ s.slots
      · rw [hsize v hv, (hodd v hv).neg_one_pow, neg_one_mul, neg_neg]
        rfl
      · show (-1) ^ s.slots.count v * (if v ∈ s.slots then _ else _) = s.size v
        rw [List.count_eq_zero_of_not_mem hv, if_neg hv, pow_zero, one_mul]
        rfl

omit [DecidableEq ν] in
lemma Agree.renamed (hs : s.Agree) (hdst : ∀ i, dst (src i) = i) (hsrc : ∀ i, src (dst i) = i) :
    (s.renamed dst src).Agree := by
  refine ⟨fun v i => ?_, hs.size⟩
  rw [show (∃ n ∈ (s.renamed dst src).loc v, n.loc = .reg (.fpu i)) ↔
      ∃ n ∈ s.loc v, n.loc.mapFpu dst = .reg (.fpu i) by simp [FpuTables.renamed]]
  simp only [mapFpu_eq hdst hsrc]
  exact hs.loc v (src i)

lemma MetOnce.renamed (h : s.MetOnce ndebug) (hdst : ∀ i, dst (src i) = i)
    (hsrc : ∀ i, src (dst i) = i) : (s.renamed dst src).MetOnce ndebug := by
  have hperm : (s.renamed dst src).slots.Perm s.slots := slots_moved hdst hsrc
  intro v hv
  rw [hperm.count_eq]
  exact h v (hperm.mem_iff.mp hv)

lemma mapFpu_mapFpu (hsrc : ∀ i, src (dst i) = i) (l : Loc R F) :
    (l.mapFpu dst).mapFpu src = l := by
  cases l with
  | reg r => cases r <;> simp [Loc.mapFpu, hsrc]
  | _ => rfl

omit [DecidableEq ν] in
lemma renamed_renamed (hsrc : ∀ i, src (dst i) = i) :
    (s.renamed dst src).renamed src dst = s := by
  ext1
  · funext i
    exact congrArg s.fpuRegs (hsrc i)
  · funext v
    simp [renamed, mapFpu_mapFpu hsrc, Function.comp_def]
  · rfl

/-- What the rotations are to do. -/
structure RotatesExactly (ndebug : Bool) (s : FpuTables ν R F) : Prop where
  rol : s.rolFpuRegs ndebug = some (s.renamed decReg incReg)
  rolAgree : (s.renamed decReg incReg).Agree
  ror : s.rorFpuRegs ndebug = some (s.renamed incReg decReg)
  rorAgree : (s.renamed incReg decReg).Agree
  rolRor : (s.rolFpuRegs ndebug).bind (rorFpuRegs ndebug) = some s
  rorRol : (s.rorFpuRegs ndebug).bind (rolFpuRegs ndebug) = some s

/-- The rotations shift the lists and the locations, change nothing else, and are inverse to each
other, if and only if each variable that is in a register is in one only; where the assertions are
compiled out, if it is in an odd number of them. -/
theorem rotations_iff (hs : s.Agree) : s.RotatesExactly ndebug ↔ s.MetOnce ndebug := by
  constructor
  · intro h
    exact (rotate_eq_renamed hs decReg_incReg incReg_decReg).mp h.rol
  · intro h
    have hrol := (rotate_eq_renamed hs decReg_incReg incReg_decReg).mpr h
    have hror := (rotate_eq_renamed hs incReg_decReg decReg_incReg).mpr h
    have hrolAgree := hs.renamed decReg_incReg incReg_decReg
    have hrorAgree := hs.renamed incReg_decReg decReg_incReg
    refine ⟨hrol, hrolAgree, hror, hrorAgree, ?_, ?_⟩
    · have hback := (rotate_eq_renamed hrolAgree incReg_decReg decReg_incReg).mpr
        (h.renamed decReg_incReg incReg_decReg)
      rw [renamed_renamed incReg_decReg] at hback
      exact (congrArg (Option.bind · _) hrol).trans hback
    · have hback := (rotate_eq_renamed hrorAgree decReg_incReg incReg_decReg).mpr
        (h.renamed incReg_decReg decReg_incReg)
      rw [renamed_renamed decReg_incReg] at hback
      exact (congrArg (Option.bind · _) hror).trans hback

end

/-- Two variables that are in the first of eight registers together; one of them is in the
registers `regs`. -/
def sharing (regs : List (Fin 8)) : FpuTables Bool 0 8 where
  fpuRegs i := (if i ∈ regs then [false] else []) ++ if i = 0 then [true] else []
  loc v := (if v = true then [0] else regs).map fun i => .fresh (.reg (.fpu i))
  size v := if v = true then 4 else 8

lemma agree_sharing (regs : List (Fin 8)) : (sharing regs).Agree where
  loc v i := by cases v <;> simp [sharing, LocNode.fresh, eq_comm]
  size v := by cases v <;> simp [sharing]

theorem rotations_iff_sharing :
    (sharing [0]).RotatesExactly false ∧ (sharing [0, 1, 2]).RotatesExactly true := by
  constructor
  · refine (rotations_iff (agree_sharing _)).mpr fun v _ => ?_
    revert v
    decide
  · refine (rotations_iff (agree_sharing _)).mpr fun v _ => ?_
    revert v
    decide

/-- One variable, in both of two registers. -/
def inBoth : FpuTables Unit 0 2 where
  fpuRegs _ := [()]
  loc _ := [.fresh (.reg (.fpu 0)), .fresh (.reg (.fpu 1))]
  size _ := 8

lemma agree_inBoth : inBoth.Agree := by
  refine ⟨fun v i => ?_, fun _ => show (0 : ℤ) < 8 by decide⟩
  revert v i
  decide

/-- The assertion of the second loop fails for a variable in two registers; without the assertion
its size is negative in the end. -/
theorem rotations_inBoth :
    inBoth.Agree ∧ inBoth.rolFpuRegs false = none ∧
      (inBoth.rolFpuRegs true).map (fun s => s.size ()) = some (-8) ∧
      ¬inBoth.RotatesExactly false ∧ ¬inBoth.RotatesExactly true := by
  have hnone : inBoth.rolFpuRegs false = none := rfl
  have hsize : (inBoth.rolFpuRegs true).map (fun s => s.size ()) = some (-8) := rfl
  refine ⟨agree_inBoth, hnone, hsize, fun h => ?_, fun h => ?_⟩
  · have hrol := h.rol
    rw [hnone] at hrol
    cases hrol
  · rw [h.rol] at hsize
    exact absurd hsize (by decide)

end FpuTables

/-! ## The tables of the generator -/

section

variable {ν ι σ : Type} {R F : ℕ} [DecidableEq ν]

/-- The part of the tables that the rotations read and write. -/
def State.fpuTables (V : Vars ν) (s : State ν ι σ R F) : FpuTables ν R F where
  fpuRegs i := s.regs (.fpu i)
  loc := s.loc
  size v := V.size v

lemma rolReg_eq (i : Fin F) : rolReg i = decReg i := by
  have hi := i.isLt
  unfold rolReg decReg
  split <;> rename_i h
  · exact Fin.ext (by simp only [h, Nat.zero_add]; exact Nat.mod_eq_of_lt (by omega))
  · refine Fin.ext ?_
    show (i.val + (F - 1)) % F = i.val - 1
    rw [show i.val + (F - 1) = i.val - 1 + F by omega, Nat.add_mod_right]
    exact Nat.mod_eq_of_lt (by omega)

lemma rorReg_eq (i : Fin F) : rorReg i = incReg i := by
  have hi := i.isLt
  unfold rorReg incReg
  split <;> rename_i h
  · exact Fin.ext (by simp only [h, Nat.mod_self])
  · exact Fin.ext (Nat.mod_eq_of_lt (by omega))

/-- The rotation that the other modules speak of is the one the source is to do. -/
lemma fpuTables_rotateFpu {V : Vars ν} {s : State ν ι σ R F} (hs : (s.fpuTables V).Agree)
    (dst src : Fin F → Fin F) :
    (s.rotateFpu dst src).fpuTables V = (s.fpuTables V).renamed dst src := by
  ext1
  · rfl
  · funext v
    show (if _ then _ else _) = _
    split
    · rfl
    · rename_i hv
      refine (hs.loc_eq fun hmem => hv ?_).symm
      obtain ⟨i, hi⟩ := FpuTables.mem_slots.mp hmem
      exact List.any_eq_true.mpr ⟨i, List.mem_finRange i, decide_eq_true hi⟩
  · rfl

/-- `rol_fpu_regs` does with the tables of the generator what `State.rolFpuRegs` says, as long as
no variable is in two registers of the FPU. -/
lemma rolFpuRegs_fpuTables {V : Vars ν} {s : State ν ι σ R F} {ndebug : Bool}
    (hs : (s.fpuTables V).Agree) (hmet : (s.fpuTables V).MetOnce ndebug) :
    (s.fpuTables V).rolFpuRegs ndebug = some (s.rolFpuRegs.fpuTables V) ∧
      (s.fpuTables V).rorFpuRegs ndebug = some (s.rorFpuRegs.fpuTables V) := by
  have hrol : s.rolFpuRegs.fpuTables V = (s.fpuTables V).renamed decReg incReg := by
    rw [State.rolFpuRegs, fpuTables_rotateFpu hs, funext rolReg_eq, funext rorReg_eq]
  have hror : s.rorFpuRegs.fpuTables V = (s.fpuTables V).renamed incReg decReg := by
    rw [State.rorFpuRegs, fpuTables_rotateFpu hs, funext rolReg_eq, funext rorReg_eq]
  rw [hrol, hror]
  constructor
  · apply (FpuTables.rotate_eq_renamed hs FpuTables.decReg_incReg FpuTables.incReg_decReg).mpr
    exact hmet
  · apply (FpuTables.rotate_eq_renamed hs FpuTables.incReg_decReg FpuTables.decReg_incReg).mpr
    exact hmet

end

end Javalette.Gencode
