import Javalette.Flow.Liveness

/-!
# The distance to the next use

`nearest_use_distance_from_quadr` of `quadr.c` counts the quadruples up to the next use of a
variable: through the rest of a block, and from its end on with the distances in the tables
`vars_at_start` of the two successors.  The documentation of the compiler wants the minimum over
the successors.

The function looks into the table of the first successor both times, and would take the larger
of two distances.  It gives the right answer where the first successor decides.
-/

namespace Javalette.Flow

open Rbtree BackwardFlow

variable {ν : Type} [LinearOrder ν] {n : ℕ} {β : Type}

/-! ## The function -/

/-- `nearest_use_dist` in the element that `rb_search` finds, or the initial `-1`.  The `unsigned`
is assigned to an `int`. -/
def useDist (t : DescrSet ν) (v : ν) : ℤ :=
  match t.search v with
  | .nil => -1
  | .node _ _ x _ => x.rest.toInt

/-- The loop of `nearest_use_distance_from_quadr`: the count, and whether it was returned from
within the loop.  The assertion looks at the flag `live`. -/
def scanUses (live : Bool) (v : ν) : List (Quadr ν β) → ℤ → Option (ℤ × Bool)
  | [], dist => some (dist, false)
  | q :: qs, dist =>
      if usedInQuadr q v then some (dist, true)
      else if live && assignedInQuadr q v then none
      else scanUses live v qs (dist + 1)

/-- `INT_MAX / 64`. -/
def farAway : ℤ := 33554431

/-- What follows the loop, from the two distances found. -/
def combineDist (dist bd1 bd2 : ℤ) : ℤ :=
  if bd1 = -1 ∧ bd2 = -1 then dist + farAway
  else if bd1 ≠ -1 ∧ bd2 ≠ -1 then dist + if bd1 < bd2 then bd2 else bd1
  else if bd1 ≠ -1 then dist + bd1
  else dist + bd2

/-- The part after the loop.  Both searches are made in the table of `child1`. -/
def childrenDist (tables : Fin n → DescrSet ν) (v : ν) (dist : ℤ) :
    Option (Fin n) × Option (Fin n) → Option ℤ
  | (none, none) => some (combineDist dist (-1) (-1))
  | (some c, none) => some (combineDist dist (useDist (tables c) v) (-1))
  | (some c, some _) => some (combineDist dist (useDist (tables c) v) (useDist (tables c) v))
  | (none, some _) => none

/-- `nearest_use_distance_from_quadr`, for the quadruples of the block `b` from `quadr` on. -/
def nearestUseDistanceFromQuadr (live : Bool) (f : QuadrFunc ν n) (tables : Fin n → DescrSet ν)
    (b : Fin n) (qs : List (Quadr ν (Fin n))) (v : ν) : Option ℤ :=
  (scanUses live v qs 0).bind fun p =>
    if p.2 then some p.1 else childrenDist tables v p.1 (children f b)

/-! ## What the tables mean -/

/-- The distance in a table, if the variable is in it. -/
def nud? (t : DescrSet ν) (v : ν) : Option ℕ :=
  match t.search v with
  | .nil => none
  | .node _ _ x _ => some x.rest.toNat

/-- The number of quadruples up to the first use, or the number of all of them plus the minimum
over the successors that have a distance. -/
def distanceFrom (f : QuadrFunc ν n) (nud : Fin n → ν → Option ℕ) (b : Fin n)
    (qs : List (Quadr ν (Fin n))) (v : ν) : Option ℕ :=
  match qs.findIdx? fun q => usedInQuadr q v with
  | some i => some i
  | none => (((succs f b).filterMap fun c => nud c v).min?).map fun d => qs.length + d

/-- The variable is live before the quadruples `qs` at the end of the block `b`. -/
def LiveAt (f : QuadrFunc ν n) (b : Fin n) (qs : List (Quadr ν (Fin n))) (v : ν) : Prop :=
  Exposed qs v ∨ ¬Assigned qs v ∧ ∃ c ∈ succs f b, LiveAtStart f c v

/-- The table of a block is right: it has what is live, with the distances, which fit an `int`. -/
structure TableCorrect (f : QuadrFunc ν n) (tables : Fin n → DescrSet ν) (b : Fin n) : Prop where
  live : ∀ v, v ∈ (tables b).keys ↔ LiveAtStart f b v
  dist : ∀ v d, nud? (tables b) v = some d →
    distanceFrom f (fun c => nud? (tables c)) b (f.blocks b) v = some d
  fits : ∀ v d, nud? (tables b) v = some d → d < 2 ^ 31

/-- Where the first successor decides: the variable is used in the rest of the block, or there is
no second successor, or the variable is in the table of the first one at no greater distance.  (A
variable that is not there comes out right by accident, at the distance `INT_MAX / 64`.) -/
def FirstDecides (f : QuadrFunc ν n) (tables : Fin n → DescrSet ν) (b : Fin n)
    (qs : List (Quadr ν (Fin n))) (v : ν) : Prop :=
  (∃ q ∈ qs, usedInQuadr q v = true) ∨ (children f b).2 = none ∨
    ∃ c₁ c₂, children f b = (some c₁, some c₂) ∧
      match nud? (tables c₁) v, nud? (tables c₂) v with
      | some d₁, some d₂ => d₁ ≤ d₂
      | some _, none => True
      | none, some d₂ => (d₂ : ℤ) = farAway
      | none, none => False

/-! ## The loop -/

section Scan

variable {qs : List (Quadr ν β)} {v : ν}

/-- A use that is exposed is reached. -/
lemma scanUses_of_exposed (live : Bool) (h : Exposed qs v) (d : ℤ) :
    ∃ i : ℕ, qs.findIdx? (fun q => usedInQuadr q v) = some i ∧
      scanUses live v qs d = some (d + i, true) := by
  induction qs generalizing d with
  | nil => exact absurd h (not_exposed_nil v)
  | cons q qs ih =>
      rw [scanUses, List.findIdx?_cons]
      by_cases hused : usedInQuadr q v = true
      · exact ⟨0, by rw [if_pos hused], by rw [if_pos hused]; simp⟩
      · obtain ⟨hassigned, hqs⟩ := (exposed_cons.mp h).resolve_left hused
        obtain ⟨i, hidx, hscan⟩ := ih hqs (d + 1)
        refine ⟨i + 1, by rw [if_neg hused, hidx]; rfl, ?_⟩
        rw [if_neg hused, hassigned, Bool.and_false, if_neg Bool.false_ne_true, hscan]
        push_cast
        rw [add_comm (i : ℤ) 1, add_assoc]

/-- Without a use and without an assignment the loop goes through to the end. -/
lemma scanUses_of_not_exposed (live : Bool) (h : ¬Exposed qs v) (ha : ¬Assigned qs v) (d : ℤ) :
    qs.findIdx? (fun q => usedInQuadr q v) = none ∧
      scanUses live v qs d = some (d + qs.length, false) := by
  induction qs generalizing d with
  | nil => simp [scanUses]
  | cons q qs ih =>
      rw [exposed_cons, not_or] at h
      rw [assigned_cons, not_or, Bool.not_eq_true] at ha
      have hqs : ¬Exposed qs v := fun hqs => h.2 ⟨ha.1, hqs⟩
      obtain ⟨hidx, hscan⟩ := ih hqs ha.2 (d + 1)
      rw [scanUses, List.findIdx?_cons, if_neg h.1, if_neg h.1, ha.1, Bool.and_false,
        if_neg Bool.false_ne_true, hidx, hscan, List.length_cons]
      refine ⟨rfl, ?_⟩
      push_cast
      rw [add_comm (qs.length : ℤ) 1, add_assoc]

lemma findIdx?_eq_none_iff_unused :
    qs.findIdx? (fun q => usedInQuadr q v) = none ↔ ¬∃ q ∈ qs, usedInQuadr q v = true := by
  rw [List.findIdx?_eq_none_iff]
  simp

end Scan

/-! ## The end of the block -/

section Children

variable {f : QuadrFunc ν n} {tables : Fin n → DescrSet ν} {v : ν}

lemma nud?_isSome_iff {t : DescrSet ν} : (nud? t v).isSome = true ↔ v ∈ t.keys := by
  unfold nud?
  rcases t.search_spec v with ⟨h, hv⟩ | ⟨c, l, x, r, h, -, hv⟩
  · simp [h, hv]
  · simp [h, hv]

/-- The number read from a table, for a distance that fits an `int`. -/
lemma useDist_eq {t : DescrSet ν} (hfits : ∀ d, nud? t v = some d → d < 2 ^ 31) :
    useDist t v = match nud? t v with
      | none => -1
      | some d => (d : ℤ) := by
  unfold useDist nud? at *
  cases h : t.search v with
  | nil => rfl
  | node c l x r =>
      rw [h] at hfits
      have hlt := hfits _ rfl
      exact BitVec.toInt_eq_toNat_of_lt (by omega)

/-- After the loop, where `v` is at the start of some successor. -/
lemma childrenDist_iff {b : Fin n}
    (hfits : ∀ c ∈ succs f b, ∀ d, nud? (tables c) v = some d → d < 2 ^ 31)
    (hlive : ∃ c ∈ succs f b, (nud? (tables c) v).isSome = true) (k : ℕ) :
    (∃ d : ℕ, (((succs f b).filterMap fun c => nud? (tables c) v).min?).map (k + ·) = some d ∧
        childrenDist tables v k (children f b) = some (d : ℤ)) ↔
      (children f b).2 = none ∨ ∃ c₁ c₂, children f b = (some c₁, some c₂) ∧
        match nud? (tables c₁) v, nud? (tables c₂) v with
        | some d₁, some d₂ => d₁ ≤ d₂
        | some _, none => True
        | none, some d₂ => (d₂ : ℤ) = farAway
        | none, none => False := by
  unfold succs at hfits hlive ⊢
  rcases h : children f b with ⟨o₁, o₂⟩
  rw [h] at hfits hlive
  cases o₁ with
  | none =>
      cases o₂ with
      | none => simp at hlive
      | some c₂ => simp [childrenDist]
  | some c₁ =>
      have h₁ := useDist_eq (hfits c₁ (by simp))
      cases o₂ with
      | none =>
          -- with two successors the second table counts only where the first one has nothing
          cases hn₁ : nud? (tables c₁) v with
          | none => simp [hn₁] at hlive
          | some d₁ =>
              rw [hn₁] at h₁
              simp [hn₁, childrenDist, combineDist, h₁]
      | some c₂ =>
          cases hn₁ : nud? (tables c₁) v with
          | none =>
              rw [hn₁] at h₁
              cases hn₂ : nud? (tables c₂) v with
              | none => simp [hn₁, hn₂] at hlive
              | some d₂ =>
                  simp [hn₁, hn₂, childrenDist, combineDist, h₁]
                  omega
          | some d₁ =>
              rw [hn₁] at h₁
              cases hn₂ : nud? (tables c₂) v with
              | none =>
                  simp [hn₁, hn₂, childrenDist, combineDist, h₁]
              | some d₂ =>
                  simp [hn₁, hn₂, childrenDist, combineDist, h₁]

end Children

/-- **The query for the next use** agrees with the tables exactly where the first successor
decides. -/
theorem nearestUseDistance_iff (live : Bool) (f : QuadrFunc ν n) (tables : Fin n → DescrSet ν)
    (b : Fin n) (hcorrect : ∀ c, c = b ∨ c ∈ succs f b → TableCorrect f tables c)
    {pre qs : List (Quadr ν (Fin n))} (hqs : f.blocks b = pre ++ qs) {v : ν}
    (hv : LiveAt f b qs v) :
    (∃ d : ℕ, distanceFrom f (fun c => nud? (tables c)) b qs v = some d ∧
        nearestUseDistanceFromQuadr live f tables b qs v = some (d : ℤ) ∧
        (pre = [] → nud? (tables b) v = some d)) ↔
      FirstDecides f tables b qs v := by
  -- At the first quadruple of the block its own table says the same.
  have hown : ∀ d, distanceFrom f (fun c => nud? (tables c)) b qs v = some d →
      pre = [] → nud? (tables b) v = some d := by
    intro d hd hpre
    rw [hpre, List.nil_append] at hqs
    have hstart : LiveAtStart f b v := by
      rcases hv with hv | ⟨ha, c, hc, hlive⟩
      · exact ⟨_, .last b, hqs ▸ hv⟩
      · obtain ⟨qs', hpath, hexp⟩ := hlive
        exact ⟨_, .edge hc hpath, exposed_append.mpr (.inr ⟨hqs ▸ ha, hexp⟩)⟩
    have hcb := hcorrect b (.inl rfl)
    obtain ⟨d', hd'⟩ := Option.isSome_iff_exists.mp (nud?_isSome_iff.mpr ((hcb.live v).mpr hstart))
    have hdist := hcb.dist v d' hd'
    rw [hqs, hd] at hdist
    rw [hd', Option.some.inj hdist]
  by_cases hexp : Exposed qs v
  · obtain ⟨i, hidx, hscan⟩ := scanUses_of_exposed live hexp 0
    have hdist : distanceFrom f (fun c => nud? (tables c)) b qs v = some i := by
      rw [distanceFrom, hidx]
    have hres : nearestUseDistanceFromQuadr live f tables b qs v = some (i : ℤ) := by
      rw [nearestUseDistanceFromQuadr, hscan, zero_add]
      rfl
    refine ⟨fun _ => .inl ?_, fun _ => ⟨i, hdist, hres, hown i hdist⟩⟩
    by_contra hno
    rw [findIdx?_eq_none_iff_unused.mpr hno] at hidx
    cases hidx
  · obtain ⟨ha, c, hc, hlive⟩ := hv.resolve_left hexp
    obtain ⟨hidx, hscan⟩ := scanUses_of_not_exposed live hexp ha 0
    have hunused := findIdx?_eq_none_iff_unused.mp hidx
    have hdist : ∀ d, distanceFrom f (fun c => nud? (tables c)) b qs v = some d ↔
        (((succs f b).filterMap fun c => nud? (tables c) v).min?).map (qs.length + ·) = some d := by
      intro d
      rw [distanceFrom, hidx]
    have hres : nearestUseDistanceFromQuadr live f tables b qs v =
        childrenDist tables v qs.length (children f b) := by
      rw [nearestUseDistanceFromQuadr, hscan, zero_add]
      rfl
    have hsome : (nud? (tables c) v).isSome = true :=
      nud?_isSome_iff.mpr (((hcorrect c (.inr hc)).live v).mpr hlive)
    have hiff := childrenDist_iff (fun c hc => (hcorrect c (.inr hc)).fits v) ⟨c, hc, hsome⟩
      qs.length
    rw [FirstDecides, or_iff_right hunused, ← hiff, hres]
    constructor
    · rintro ⟨d, hd, hchildren, -⟩
      exact ⟨d, (hdist d).mp hd, hchildren⟩
    · rintro ⟨d, hd, hchildren⟩
      exact ⟨d, (hdist d).mpr hd, hchildren, hown d ((hdist d).mpr hd)⟩

/-! ## A branch with the nearer use in the second arm -/

/-- A conditional jump to block `2`; the variable `1` is used first in block `1` and second in
block `2`. -/
def twoArms : QuadrFunc ℕ 3 where
  blocks
    | 0 => [⟨.ifEq, .label 2, .var 0, .var 0⟩]
    | 1 => [⟨.ret, .none, .var 1, .none⟩]
    | 2 => [⟨.add, .var 2, .var 0, .var 0⟩, ⟨.ret, .none, .var 1, .none⟩]

/-- The tables of its blocks. -/
def twoArmsTables : Fin 3 → DescrSet ℕ
  | 0 => (RbSet.empty.insertIfAbsent ⟨0, 0⟩).insertIfAbsent ⟨1, 1⟩
  | 1 => RbSet.empty.insertIfAbsent ⟨1, 0⟩
  | 2 => (RbSet.empty.insertIfAbsent ⟨0, 0⟩).insertIfAbsent ⟨1, 1⟩

/-- Liveness at the start of a block, one block at a time. -/
lemma liveAtStart_iff {f : QuadrFunc ν n} {b : Fin n} {v : ν} :
    LiveAtStart f b v ↔ LiveAt f b (f.blocks b) v := by
  constructor
  · rintro ⟨qs, hpath, hexp⟩
    cases hpath with
    | last => exact .inl hexp
    | edge hc hpath =>
        rcases exposed_append.mp hexp with hexp | ⟨ha, hexp⟩
        · exact .inl hexp
        · exact .inr ⟨ha, _, hc, _, hpath, hexp⟩
  · rintro (hexp | ⟨ha, c, hc, qs, hpath, hexp⟩)
    · exact ⟨_, .last b, hexp⟩
    · exact ⟨_, .edge hc hpath, exposed_append.mpr (.inr ⟨ha, hexp⟩)⟩

lemma block_cases : ∀ b : Fin 3, b = 0 ∨ b = 1 ∨ b = 2 := by decide

lemma succs_twoArms : ∀ b : Fin 3, succs twoArms b = if b = 0 then [2, 1] else [] := by
  decide

lemma liveAtStart_twoArms (b : Fin 3) (v : ℕ) :
    LiveAtStart twoArms b v ↔ v ∈ (twoArmsTables b).keys := by
  have h₁ : LiveAtStart twoArms 1 v ↔ 1 = v := by
    rw [liveAtStart_iff, LiveAt, succs_twoArms]
    simp [twoArms, usedInQuadr]
  have h₂ : LiveAtStart twoArms 2 v ↔ 1 = v ∨ 0 = v := by
    rw [liveAtStart_iff, LiveAt, succs_twoArms]
    simp [twoArms, usedInQuadr, assignedInQuadr, QuadrArg.isVar]
    omega
  have h₀ : LiveAtStart twoArms 0 v ↔ 1 = v ∨ 0 = v := by
    rw [liveAtStart_iff, LiveAt, succs_twoArms]
    simp [h₁, h₂]
    simp [twoArms, usedInQuadr, assignedInQuadr, QuadrArg.isVar]
    omega
  rcases block_cases b with rfl | rfl | rfl
  · exact h₀.trans (by simp [twoArmsTables, @eq_comm _ v])
  · exact h₁.trans (by simp [twoArmsTables, @eq_comm _ v])
  · exact h₂.trans (by simp [twoArmsTables, @eq_comm _ v])

lemma nud?_twoArms : ∀ (b : Fin 3) {v d : ℕ}, nud? (twoArmsTables b) v = some d →
    (v = 0 ∧ b ≠ 1 ∧ d = 0) ∨ (v = 1 ∧ d = if b = 1 then 0 else 1) := by
  intro b v d h
  have hv : v ∈ (twoArmsTables b).keys := nud?_isSome_iff.mp (by rw [h]; rfl)
  rcases block_cases b with rfl | rfl | rfl
  · rcases (by simpa [twoArmsTables] using hv : v = 1 ∨ v = 0) with rfl | rfl
    · exact .inr ⟨rfl, (Option.some.inj h).symm⟩
    · exact .inl ⟨rfl, by decide, (Option.some.inj h).symm⟩
  · obtain rfl : v = 1 := by simpa [twoArmsTables] using hv
    exact .inr ⟨rfl, (Option.some.inj h).symm⟩
  · rcases (by simpa [twoArmsTables] using hv : v = 1 ∨ v = 0) with rfl | rfl
    · exact .inr ⟨rfl, (Option.some.inj h).symm⟩
    · exact .inl ⟨rfl, by decide, (Option.some.inj h).symm⟩

lemma twoArmsTables_correct (b : Fin 3) : TableCorrect twoArms twoArmsTables b where
  live v := (liveAtStart_twoArms b v).symm
  dist v d h := by
    rcases nud?_twoArms b h with ⟨rfl, hb, rfl⟩ | ⟨rfl, rfl⟩
    · revert hb
      revert b
      decide
    · revert b
      decide
  fits v d h := by
    rcases nud?_twoArms b h with ⟨rfl, hb, rfl⟩ | ⟨rfl, rfl⟩
    · omega
    · split <;> omega

/-- The query at the first quadruple goes to the farther use. -/
theorem nearestUseDistance_diverges :
    (∀ b, TableCorrect twoArms twoArmsTables b) ∧ LiveAt twoArms 0 (twoArms.blocks 0) 1 ∧
      nearestUseDistanceFromQuadr true twoArms twoArmsTables 0 (twoArms.blocks 0) 1 = some 2 ∧
      distanceFrom twoArms (fun c => nud? (twoArmsTables c)) 0 (twoArms.blocks 0) 1 = some 1 ∧
      nud? (twoArmsTables 0) 1 = some 1 :=
  ⟨twoArmsTables_correct,
    liveAtStart_iff.mp ((liveAtStart_twoArms 0 1).mpr (by simp [twoArmsTables])), by decide,
    by decide, by decide⟩

/-! ## A loop with an exit -/

/-- A loop in block `0` and block `1`, and the variable `2` that goes through both. -/
def loopExit : QuadrFunc ℕ 3 where
  blocks
    | 0 => [⟨.ifEq, .label 2, .var 0, .var 1⟩]
    | 1 => [⟨.add, .var 0, .var 0, .var 1⟩, ⟨.goto, .label 0, .none, .none⟩]
    | 2 => [⟨.ret, .none, .var 2, .none⟩]

lemma exposed_loopExit (b : Fin 3) (v : ℕ) :
    Exposed (loopExit.blocks b) v ↔ if b = 2 then v = 2 else v = 0 ∨ v = 1 := by
  rcases block_cases b with rfl | rfl | rfl <;>
    simp [loopExit, usedInQuadr, assignedInQuadr, QuadrArg.isVar] <;> omega

/-- Only the variable `2` goes through a block, and block `2` uses it. -/
lemma eq_two_of_through {b : Fin 3} {v : ℕ} (h : Live (problem loopExit) b v)
    (hv : ¬Exposed (loopExit.blocks b) v) : v = 2 := by
  induction h with
  | gen h => exact absurd h hv
  | @step b c v hc _ _ ih =>
      by_cases hexp : Exposed (loopExit.blocks c) v
      · rw [exposed_loopExit] at hexp hv
        split at hexp
        · exact hexp
        · have hb : b = 2 := by
            by_contra hb
            rw [if_neg hb] at hv
            exact hv hexp
          subst hb
          exact absurd hc List.not_mem_nil
      · exact ih hexp

lemma notMem_kill_loopExit (b : Fin 3) : 2 ∉ (problem loopExit).kill b := by
  rintro ⟨⟨q, hq, ha⟩, -⟩
  revert b q
  decide

lemma live_loopExit {b : Fin 3} {v : ℕ} :
    LiveAtStart loopExit b v ↔ v = 2 ∨ b ≠ 2 ∧ (v = 0 ∨ v = 1) := by
  have h₂ : Live (problem loopExit) 2 2 := .gen ((exposed_loopExit 2 2).mpr rfl)
  have h₀ : Live (problem loopExit) 0 2 := .step (by decide) (notMem_kill_loopExit 0) h₂
  have h₁ : Live (problem loopExit) 1 2 := .step (by decide) (notMem_kill_loopExit 1) h₀
  rw [← live_iff]
  constructor
  · intro h
    by_cases hexp : Exposed (loopExit.blocks b) v
    · rw [exposed_loopExit] at hexp
      split at hexp
      · exact .inl hexp
      · exact .inr ⟨‹_›, hexp⟩
    · exact .inl (eq_two_of_through h hexp)
  · rintro (rfl | ⟨hb, hv⟩)
    · rcases block_cases b with rfl | rfl | rfl
      · exact h₀
      · exact h₁
      · exact h₂
    · exact .gen ((exposed_loopExit b v).mpr (by rwa [if_neg hb]))

/-- The tables of its blocks.  Round the loop the use of `2` is farther than by the exit. -/
def loopTables : Fin 3 → DescrSet ℕ
  | 0 => ((RbSet.empty.insertIfAbsent ⟨0, 0⟩).insertIfAbsent ⟨1, 0⟩).insertIfAbsent ⟨2, 1⟩
  | 1 => ((RbSet.empty.insertIfAbsent ⟨0, 0⟩).insertIfAbsent ⟨1, 0⟩).insertIfAbsent ⟨2, 3⟩
  | 2 => RbSet.empty.insertIfAbsent ⟨2, 0⟩

lemma mem_keys_loopTables (b : Fin 3) (v : ℕ) :
    v ∈ (loopTables b).keys ↔ v = 2 ∨ b ≠ 2 ∧ (v = 0 ∨ v = 1) := by
  rcases block_cases b with rfl | rfl | rfl <;> simp [loopTables] <;> omega

lemma nud?_loopTables {b : Fin 3} {v d : ℕ} (h : nud? (loopTables b) v = some d) :
    distanceFrom loopExit (fun c => nud? (loopTables c)) b (loopExit.blocks b) v = some d ∧
      d ≤ 3 := by
  have hv := (mem_keys_loopTables b v).mp (nud?_isSome_iff.mp (by rw [h]; rfl))
  obtain rfl : (nud? (loopTables b) v).getD 0 = d := by rw [h]; rfl
  rw [← h]
  clear h
  rcases hv with rfl | ⟨hb, rfl | rfl⟩ <;> revert b <;> decide

lemma loopTables_correct (b : Fin 3) : TableCorrect loopExit loopTables b where
  live v := (mem_keys_loopTables b v).trans live_loopExit.symm
  dist _ _ h := (nud?_loopTables h).1
  fits _ _ h := (nud?_loopTables h).2.trans_lt (by decide)

theorem nearestUseDistance_iff_loopExit :
    ∃ d : ℕ,
      distanceFrom loopExit (fun c => nud? (loopTables c)) 0 (loopExit.blocks 0) 2 = some d ∧
      nearestUseDistanceFromQuadr true loopExit loopTables 0 (loopExit.blocks 0) 2 =
          some (d : ℤ) ∧ nud? (loopTables 0) 2 = some d := by
  obtain ⟨d, hd, hres, hown⟩ := (nearestUseDistance_iff true loopExit loopTables 0
    (fun c _ => loopTables_correct c)
    (show loopExit.blocks 0 = [] ++ loopExit.blocks 0 from rfl)
    (liveAtStart_iff.mp (live_loopExit.mpr (.inl rfl)))).mpr
      (.inr (.inr ⟨2, 1, by decide, show 0 ≤ 3 by decide⟩))
  exact ⟨d, hd, hres, hown rfl⟩

end Javalette.Flow
