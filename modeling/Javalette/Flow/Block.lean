import Javalette.Flow.Model
import Javalette.Library.BackwardFlow

/-!
# What the sets of a block mean

`LiveAtStart` is liveness as it is meant: some path from the start of the block comes to a
quadruple that uses the variable, before any that assigns it.  `problem` is the data-flow
problem with the sets `live_in` and `live_def` that `compute_live_def_use` computes for each
block, and `live_iff` says that its least solution is `LiveAtStart`.

The set `live_def` is not the set of all assigned variables: an upward-exposed use takes the
variable out again.  For the solution this makes no difference, because such a variable is live
at the start of the block anyway.
-/

namespace Javalette.Flow

open Rbtree BackwardFlow

variable {ν : Type} [LinearOrder ν] {n : ℕ} {β : Type}

/-! ## Uses and assignments in a list of quadruples -/

/-- The variable is used before any assignment to it. -/
def Exposed (qs : List (Quadr ν β)) (v : ν) : Prop :=
  ∃ l₁ q l₂, qs = l₁ ++ q :: l₂ ∧ usedInQuadr q v = true ∧ ∀ q' ∈ l₁, assignedInQuadr q' v = false

/-- The variable is assigned. -/
def Assigned (qs : List (Quadr ν β)) (v : ν) : Prop := ∃ q ∈ qs, assignedInQuadr q v = true

@[simp] lemma not_exposed_nil (v : ν) : ¬Exposed ([] : List (Quadr ν β)) v := by
  rintro ⟨l₁, q, l₂, h, -⟩
  simp at h

@[simp] lemma exposed_cons {q : Quadr ν β} {qs : List (Quadr ν β)} {v : ν} :
    Exposed (q :: qs) v ↔
      usedInQuadr q v = true ∨ assignedInQuadr q v = false ∧ Exposed qs v := by
  constructor
  · rintro ⟨l₁, q', l₂, heq, huse, hclear⟩
    cases l₁ with
    | nil =>
        obtain ⟨rfl, -⟩ := List.cons.inj heq
        exact .inl huse
    | cons q₀ l₁ =>
        obtain ⟨rfl, rfl⟩ := List.cons.inj heq
        exact .inr ⟨hclear q (by simp), l₁, q', l₂, rfl, huse,
          fun q' hq => hclear q' (by simp [hq])⟩
  · rintro (huse | ⟨hclear, l₁, q', l₂, rfl, huse, hclear'⟩)
    · exact ⟨[], q, qs, rfl, huse, by simp⟩
    · refine ⟨q :: l₁, q', l₂, rfl, huse, fun q'' hq => ?_⟩
      rcases List.mem_cons.mp hq with rfl | hq
      · exact hclear
      · exact hclear' q'' hq

@[simp] lemma assigned_cons {q : Quadr ν β} {qs : List (Quadr ν β)} {v : ν} :
    Assigned (q :: qs) v ↔ assignedInQuadr q v = true ∨ Assigned qs v := by
  simp [Assigned]

@[simp] lemma not_assigned_nil (v : ν) : ¬Assigned ([] : List (Quadr ν β)) v := by
  simp [Assigned]

/-- A use is exposed in the first part, or in the second and the first does not assign. -/
lemma exposed_append {qs qs' : List (Quadr ν β)} {v : ν} :
    Exposed (qs ++ qs') v ↔ Exposed qs v ∨ ¬Assigned qs v ∧ Exposed qs' v := by
  induction qs with
  | nil => simp
  | cons q qs ih =>
      rw [List.cons_append, exposed_cons, exposed_cons, assigned_cons, ih, not_or,
        Bool.not_eq_true]
      tauto

/-! ## `compute_live_def_use` -/

@[simp] lemma found_iff {δ : Type} {s : RbSet ν δ} {v : ν} : found s v = true ↔ v ∈ s.keys := by
  rcases s.search_spec v with ⟨h, hv⟩ | ⟨c, l, x, r, h, -, hv⟩
  · simp [found, h, hv]
  · simp [found, h, hv]

@[simp] lemma mem_keys_rbDeleteFound {δ : Type} {s : RbSet ν δ} {v w : ν} :
    w ∈ (rbDeleteFound s v).keys ↔ w ≠ v ∧ w ∈ s.keys := by
  unfold rbDeleteFound
  split
  · simp
  · next h =>
      rw [found_iff] at h
      exact ⟨fun hw => ⟨ne_of_mem_of_not_mem hw h, hw⟩, And.right⟩

lemma mem_updateLive_fst {use : DescrSet ν} {kill : KeySet ν} {v w : ν} {nud : BitVec 32} :
    w ∈ (updateLive use kill v nud).1.keys ↔ w = v ∨ w ∈ use.keys := by
  unfold updateLive
  split
  · next h =>
      rw [found_iff] at h
      rw [RbSet.keys_modify]
      exact ⟨.inr, fun hw => hw.elim (fun heq => heq ▸ h) id⟩
  · simp

lemma mem_updateLive_snd {use : DescrSet ν} {kill : KeySet ν} {v w : ν} {nud : BitVec 32} :
    w ∈ (updateLive use kill v nud).2.keys ↔ w ≠ v ∧ w ∈ kill.keys := by
  unfold updateLive
  split <;> simp

lemma mem_updateLiveArg_fst {a : QuadrArg ν β} {nud : BitVec 32} {s : DescrSet ν × KeySet ν}
    {w : ν} : w ∈ (updateLiveArg a nud s).1.keys ↔ a.isVar w = true ∨ w ∈ s.1.keys := by
  cases a with
  | var v => simp [updateLiveArg, mem_updateLive_fst, QuadrArg.isVar, eq_comm]
  | _ => simp [updateLiveArg, QuadrArg.isVar]

lemma mem_updateLiveArg_snd {a : QuadrArg ν β} {nud : BitVec 32} {s : DescrSet ν × KeySet ν}
    {w : ν} : w ∈ (updateLiveArg a nud s).2.keys ↔ a.isVar w = false ∧ w ∈ s.2.keys := by
  cases a with
  | var v => simp [updateLiveArg, mem_updateLive_snd, QuadrArg.isVar, eq_comm]
  | _ => simp [updateLiveArg, QuadrArg.isVar]

lemma assignedInQuadr_iff {q : Quadr ν β} {w : ν} :
    assignedInQuadr q w = true ↔ q.op ≠ .writePtr ∧ q.result = .var w := by
  simp [assignedInQuadr]

lemma usedInQuadr_iff {q : Quadr ν β} {w : ν} :
    usedInQuadr q w = true ↔
      q.arg2.isVar w = true ∨ q.arg1.isVar w = true ∨ q.op = .writePtr ∧ q.result = .var w := by
  simp only [usedInQuadr, Bool.or_eq_true, Bool.and_eq_true, decide_eq_true_eq,
    QuadrArg.isVar_iff]
  tauto

/-- The first part of `liveQuadr`, which looks at the result only. -/
lemma mem_liveResult {q : Quadr ν β} {nud : BitVec 32} {s : DescrSet ν × KeySet ν} {w : ν} :
    (w ∈ (liveResult q nud s).1.keys ↔ (q.op = .writePtr ∧ q.result = .var w) ∨
        assignedInQuadr q w = false ∧ w ∈ s.1.keys) ∧
      (w ∈ (liveResult q nud s).2.keys ↔ ¬(q.op = .writePtr ∧ q.result = .var w) ∧
        (assignedInQuadr q w = true ∨ w ∈ s.2.keys)) := by
  rw [← Bool.not_eq_true, assignedInQuadr_iff]
  unfold liveResult
  split
  · next v hv =>
      rw [hv, QuadrArg.var.injEq]
      by_cases hop : q.op = .writePtr
      · have huse : usedInQuadr q v = true := usedInQuadr_iff.mpr (.inr (.inr ⟨hop, hv⟩))
        have hassign : ¬assignedInQuadr q v = true := fun h => (assignedInQuadr_iff.mp h).1 hop
        rw [if_neg hassign, if_pos huse, mem_updateLive_fst, mem_updateLive_snd]
        simp [hop, eq_comm]
      · rw [if_pos (assignedInQuadr_iff.mpr ⟨hop, hv⟩)]
        simp [hop, eq_comm]
  · next hv =>
      have hv' : q.result ≠ .var w := hv w
      simp [hv']

/-- One quadruple adds to `live_in` what it uses and takes away what it assigns. -/
lemma mem_liveQuadr_fst {q : Quadr ν β} {i : ℕ} {s : DescrSet ν × KeySet ν} {w : ν} :
    w ∈ (liveQuadr q i s).1.keys ↔
      usedInQuadr q w = true ∨ assignedInQuadr q w = false ∧ w ∈ s.1.keys := by
  rw [liveQuadr, mem_updateLiveArg_fst, mem_updateLiveArg_fst, mem_liveResult.1, usedInQuadr_iff,
    or_assoc, or_assoc]

/-- One quadruple adds to `live_def` what it assigns and takes away what it uses. -/
lemma mem_liveQuadr_snd {q : Quadr ν β} {i : ℕ} {s : DescrSet ν × KeySet ν} {w : ν} :
    w ∈ (liveQuadr q i s).2.keys ↔
      usedInQuadr q w = false ∧ (assignedInQuadr q w = true ∨ w ∈ s.2.keys) := by
  rw [liveQuadr, mem_updateLiveArg_snd, mem_updateLiveArg_snd, mem_liveResult.2,
    ← Bool.not_eq_true (usedInQuadr q w), usedInQuadr_iff, not_or, not_or, Bool.not_eq_true,
    Bool.not_eq_true, and_assoc, and_assoc]

lemma mem_foldr_liveQuadr (qs : List (Quadr ν β)) (i : ℕ) (v : ν) :
    let s := (qs.zipIdx i).foldr (fun qi s => liveQuadr qi.1 qi.2 s)
      (RbSet.empty, (RbSet.empty : KeySet ν))
    (v ∈ s.1.keys ↔ Exposed qs v) ∧ (v ∈ s.2.keys ↔ Assigned qs v ∧ ¬Exposed qs v) := by
  induction qs generalizing i with
  | nil => simp
  | cons q qs ih =>
      obtain ⟨h₁, h₂⟩ := ih (i + 1)
      rw [List.zipIdx_cons, List.foldr_cons]
      dsimp only
      rw [mem_liveQuadr_fst, mem_liveQuadr_snd, exposed_cons, assigned_cons, h₁, h₂]
      refine ⟨Iff.rfl, ?_⟩
      rw [not_or, not_and, Bool.not_eq_true]
      cases assignedInQuadr q v
      · simp only [Bool.false_eq_true, false_or, forall_const]
        tauto
      · simp

lemma mem_computeLiveDefUse_liveIn {qs : List (Quadr ν β)} {v : ν} :
    v ∈ (computeLiveDefUse qs).liveIn.keys ↔ Exposed qs v :=
  (mem_foldr_liveQuadr qs 0 v).1

/-- `live_def` has what is assigned and has no upward-exposed use. -/
lemma mem_computeLiveDefUse_liveDef {qs : List (Quadr ν β)} {v : ν} :
    v ∈ (computeLiveDefUse qs).liveDef.keys ↔ Assigned qs v ∧ ¬Exposed qs v :=
  (mem_foldr_liveQuadr qs 0 v).2

/-! ## Liveness along paths -/

/-- The successors of a block in the block graph. -/
def succs (f : QuadrFunc ν n) (b : Fin n) : List (Fin n) :=
  (children f b).1.toList ++ (children f b).2.toList

/-- The quadruples along a path in the block graph, from the start of a block on. -/
inductive PathFrom (f : QuadrFunc ν n) : Fin n → List (Quadr ν (Fin n)) → Prop
  | last (b) : PathFrom f b (f.blocks b)
  | edge {b c qs} : c ∈ succs f b → PathFrom f c qs → PathFrom f b (f.blocks b ++ qs)

/-- Some path from the start of the block comes to a use of the variable, before any
assignment to it. -/
def LiveAtStart (f : QuadrFunc ν n) (b : Fin n) (v : ν) : Prop :=
  ∃ qs, PathFrom f b qs ∧ Exposed qs v

/-- The data-flow problem that the analysis solves. -/
def problem (f : QuadrFunc ν n) : Problem (Fin n) ν where
  succ := succs f
  gen b := {v | Exposed (f.blocks b) v}
  kill b := {v | Assigned (f.blocks b) v ∧ ¬Exposed (f.blocks b) v}

/-- **The least solution is liveness along paths.** -/
theorem live_iff {f : QuadrFunc ν n} {b : Fin n} {v : ν} :
    Live (problem f) b v ↔ LiveAtStart f b v := by
  constructor
  · intro h
    induction h with
    | gen h => exact ⟨_, .last _, h⟩
    | @step b c v hc hk _ ih =>
        obtain ⟨qs, hpath, hexp⟩ := ih
        refine ⟨_, .edge hc hpath, exposed_append.mpr ?_⟩
        by_cases hgen : Exposed (f.blocks b) v
        · exact .inl hgen
        · exact .inr ⟨fun ha => hk ⟨ha, hgen⟩, hexp⟩
  · rintro ⟨qs, hpath, hexp⟩
    induction hpath with
    | last b => exact .gen hexp
    | edge hc _ ih =>
        rcases exposed_append.mp hexp with h | ⟨hna, h⟩
        · exact .gen h
        · exact .step hc (fun hk => hna hk.1) (ih h)

end Javalette.Flow
