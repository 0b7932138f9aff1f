import Javalette.Flow.Liveness
import Mathlib.Data.List.Count

/-!
# The traversal marks

`begin_traversal` and `visit` in any order, after `set_root` on fresh blocks.  The mark of the
current traversal counts the traversals as long as it is not negative; then the marks that are
equal to it are those of this traversal, for all marks of earlier ones are smaller.

The recursion of `do_liveness` is run once more with the list of the blocks that it enters.
-/

namespace Javalette.Flow

open Rbtree BackwardFlow DepthFirst

variable {ν : Type} [LinearOrder ν] {n : ℕ}

/-! ## Sequences of operations -/

/-- An operation on the marks. -/
inductive MarkOp (n : ℕ)
  | beginTraversal
  | visit (b : Fin n)
  deriving DecidableEq

/-- One operation. -/
def FlowState.apply (s : FlowState ν n) : MarkOp n → FlowState ν n
  | .beginTraversal => s.beginTraversal
  | .visit b => s.visit b

/-- A sequence of operations, the first one first. -/
def FlowState.applyAll (s : FlowState ν n) (ops : List (MarkOp n)) : FlowState ν n :=
  ops.foldl FlowState.apply s

/-- How many traversals a sequence of operations begins. -/
def traversals (ops : List (MarkOp n)) : ℕ := ops.count .beginTraversal

namespace FlowState

variable (s : FlowState ν n)

@[simp] lemma applyAll_nil : s.applyAll [] = s := rfl

@[simp] lemma applyAll_cons (op : MarkOp n) (ops : List (MarkOp n)) :
    s.applyAll (op :: ops) = (s.apply op).applyAll ops := rfl

lemma applyAll_append (ops ops' : List (MarkOp n)) :
    s.applyAll (ops ++ ops') = (s.applyAll ops).applyAll ops' := List.foldl_append ..

/-- The operations leave the sets of the blocks alone. -/
lemma flowData_applyAll (ops : List (MarkOp n)) : (s.applyAll ops).flowData = s.flowData := by
  induction ops generalizing s with
  | nil => rfl
  | cons op ops ih =>
      rw [applyAll_cons, ih]
      cases op with
      | visit b => rfl
      | beginTraversal =>
          rw [apply, beginTraversal]
          split <;> rfl

end FlowState

/-- The marks after `k` traversals have begun: none of them is from the future. -/
structure Counted (k : ℕ) (s : FlowState ν n) : Prop where
  cur : s.curVisitedMark = BitVec.ofNat 16 k
  marks : ∀ b, (s.visitedMark b).toNat ≤ k

namespace Counted

variable {k : ℕ} {s : FlowState ν n}

lemma toNat_cur (h : Counted k s) (hk : k < 65536) : s.curVisitedMark.toNat = k := by
  rw [h.cur, BitVec.toNat_ofNat]
  omega

lemma nonneg (h : Counted k s) (hk : k ≤ 32767) : Nonneg s := by
  rw [Nonneg, h.toNat_cur (by omega)]
  omega

/-- As long as the counter is a positive `short`, a traversal begins with a mark of its own. -/
lemma beginTraversal_eq (h : Counted k s) (hk : k ≤ 32767) :
    s.beginTraversal = { s with curVisitedMark := BitVec.ofNat 16 (k + 1) } := by
  have hcur : s.curVisitedMark + 1 = BitVec.ofNat 16 (k + 1) := by
    rw [h.cur, BitVec.ofNat_add]
    rfl
  have hne : ¬s.curVisitedMark + 1 = 0 := by
    rw [hcur, ← BitVec.toNat_inj, BitVec.toNat_ofNat]
    simp
    omega
  rw [FlowState.beginTraversal, if_neg hne, hcur]

lemma beginTraversal (h : Counted k s) (hk : k ≤ 32767) : Counted (k + 1) s.beginTraversal := by
  rw [h.beginTraversal_eq hk]
  exact ⟨rfl, fun b => (h.marks b).trans (Nat.le_succ k)⟩

lemma visit (h : Counted k s) (hk : k < 65536) (b : Fin n) : Counted k (s.visit b) := by
  refine ⟨h.cur, fun c => ?_⟩
  by_cases hc : c = b
  · have hm : (s.visit b).visitedMark c = s.curVisitedMark := by simp [FlowState.visit, hc]
    rw [hm, h.toNat_cur hk]
  · have hm : (s.visit b).visitedMark c = s.visitedMark c := by simp [FlowState.visit, hc]
    rw [hm]
    exact h.marks c

/-- The marks of the earlier traversals are smaller than the new one. -/
lemma marked_begin (h : Counted k s) (hk : k < 32767) : Marked s.beginTraversal ∅ := by
  have h' := h.beginTraversal (by omega)
  intro b
  rw [visited_iff (h'.nonneg (by omega))]
  simp only [Finset.notMem_empty, iff_false]
  intro heq
  have hm : s.beginTraversal.visitedMark b = s.visitedMark b := by
    rw [h.beginTraversal_eq (by omega)]
  have hnat := h'.toNat_cur (by omega)
  rw [← heq, hm] at hnat
  have := h.marks b
  omega

/-- The marks after a sequence of operations, up to the first traversal with a negative mark. -/
lemma applyAll (h : Counted k s) (ops : List (MarkOp n)) (hops : k + traversals ops ≤ 32768) :
    Counted (k + traversals ops) (s.applyAll ops) := by
  induction ops generalizing k s with
  | nil => exact h
  | cons op ops ih =>
      rw [FlowState.applyAll_cons]
      cases op with
      | beginTraversal =>
          have htr : traversals (.beginTraversal :: ops) = traversals ops + 1 :=
            List.count_cons_self
          have hk : k + 1 + traversals ops ≤ 32768 := by omega
          rw [htr, ← Nat.add_assoc, Nat.add_right_comm]
          exact ih (h.beginTraversal (by omega)) hk
      | visit b =>
          have htr : traversals (.visit b :: ops) = traversals ops :=
            List.count_cons_of_ne (by simp)
          rw [htr] at hops ⊢
          exact ih (h.visit (by omega) b) hops

end Counted

lemma counted_initialState (f : QuadrFunc ν n) : Counted 0 (initialState f) :=
  ⟨rfl, fun _ => le_rfl⟩

/-- Visits without a new traversal in between add to the marks of the traversal. -/
lemma Marked.applyAll {s : FlowState ν n} {vis : Finset (Fin n)} (h : Marked s vis)
    (hn : Nonneg s) {ops : List (MarkOp n)} (hops : .beginTraversal ∉ ops) (b : Fin n) :
    (s.applyAll ops).visited b = true ↔ b ∈ vis ∨ .visit b ∈ ops := by
  induction ops generalizing s vis with
  | nil => simpa using h b
  | cons op ops ih =>
      cases op with
      | beginTraversal => exact absurd (List.mem_cons_self ..) hops
      | visit c =>
          have hrest : MarkOp.beginTraversal ∉ ops := fun hm => hops (List.mem_cons_of_mem _ hm)
          have hn' : Nonneg (s.visit c) := hn
          rw [FlowState.applyAll_cons, FlowState.apply, ih (h.visit hn c) hn' hrest]
          simp only [Finset.mem_insert, List.mem_cons, MarkOp.visit.injEq]
          tauto

/-! ## The blocks that a traversal enters -/

/-- `enterChild` with the blocks that are entered. -/
def enterChildEntered (go : FlowState ν n → Fin n → Option (FlowState ν n × List (Fin n)))
    (s : FlowState ν n) : Option (Fin n) → Option (FlowState ν n × List (Fin n))
  | none => some (s, [])
  | some c => if s.visited c then some (s, []) else go s c

/-- `do_liveness` with the blocks that it is called for, in this order. -/
def doLivenessEntered (f : QuadrFunc ν n) :
    ℕ → FlowState ν n → Fin n → Option (FlowState ν n × List (Fin n))
  | 0, _, _ => none
  | fuel + 1, s, block => do
      let s := s.visit block
      let (s, l₁) ← enterChildEntered (doLivenessEntered f fuel) s (children f block).1
      let (s, l₂) ← enterChildEntered (doLivenessEntered f fuel) s (children f block).2
      let s ← childInOut fuel s block (children f block).1
      let s ← childInOut fuel s block (children f block).2
      return (s, block :: (l₁ ++ l₂))

lemma map_enterChildEntered {go : FlowState ν n → Fin n → Option (FlowState ν n × List (Fin n))}
    {go' : FlowState ν n → Fin n → Option (FlowState ν n)}
    (hgo : ∀ s b, (go s b).map Prod.fst = go' s b) (s : FlowState ν n) (oc : Option (Fin n)) :
    (enterChildEntered go s oc).map Prod.fst = enterChild go' s oc := by
  cases oc with
  | none => rfl
  | some c =>
      rw [enterChildEntered, enterChild]
      split
      · rfl
      · exact hgo s c

/-- Without the list it is `do_liveness`. -/
lemma map_doLivenessEntered (f : QuadrFunc ν n) (fuel : ℕ) (s : FlowState ν n) (b : Fin n) :
    (doLivenessEntered f fuel s b).map Prod.fst = doLiveness f fuel s b := by
  induction fuel generalizing s b with
  | zero => rfl
  | succ fuel ih =>
      rw [doLivenessEntered, doLiveness]
      simp only [Option.bind_eq_bind, Option.pure_def]
      rw [← map_enterChildEntered ih]
      cases enterChildEntered (doLivenessEntered f fuel) (s.visit b) (children f b).1 with
      | none => rfl
      | some r =>
          simp only [Option.bind_some, Option.map_some]
          rw [← map_enterChildEntered ih]
          cases enterChildEntered (doLivenessEntered f fuel) r.1 (children f b).2 with
          | none => rfl
          | some r' =>
              simp only [Option.bind_some, Option.map_some]
              cases childInOut fuel r'.1 b (children f b).1 with
              | none => rfl
              | some s₁ =>
                  simp only [Option.bind_some]
                  cases childInOut fuel s₁ b (children f b).2 <;> rfl

/-- A part of a traversal has entered the blocks `l`, each once and none of those that had been
visited, and left the state `s`. -/
structure Entered (V : Finset ν) (vis : Finset (Fin n)) (l : List (Fin n)) (s : FlowState ν n) :
    Prop where
  bounded : Bounded V s
  nonneg : Nonneg s
  marked : Marked s (vis ∪ l.toFinset)
  nodup : l.Nodup
  fresh : ∀ b ∈ l, b ∉ vis

namespace Entered

variable {V : Finset ν} {vis : Finset (Fin n)} {s s' : FlowState ν n} {l l' : List (Fin n)}

lemma append (h : Entered V vis l s) (h' : Entered V (vis ∪ l.toFinset) l' s') :
    Entered V vis (l ++ l') s' where
  bounded := h'.bounded
  nonneg := h'.nonneg
  marked := by
    rw [List.toFinset_append, ← Finset.union_assoc]
    exact h'.marked
  nodup := List.nodup_append.mpr ⟨h.nodup, h'.nodup, fun b hb c hc heq =>
    h'.fresh c hc (Finset.mem_union_right _ (List.mem_toFinset.mpr (heq ▸ hb)))⟩
  fresh b hb := (List.mem_append.mp hb).elim (h.fresh b) fun hb hvis =>
    h'.fresh b hb (Finset.mem_union_left _ hvis)

/-- The sets of a block may change. -/
lemma inOut (h : Entered V vis l s) {b : Fin n} {vs : Set ν} (hio : InOut s b vs s')
    (hV : Bounded V s') : Entered V vis l s' where
  bounded := hV
  nonneg := by
    rw [Nonneg, hio.cur]
    exact h.nonneg
  marked c := by
    rw [← h.marked c, FlowState.visited, FlowState.visited, hio.marks, hio.cur]
  nodup := h.nodup
  fresh := h.fresh

end Entered

section Traversal

variable {V : Finset ν}

/-- One child, if there is one and it has not been visited. -/
lemma enterChildEntered_spec {vis : Finset (Fin n)} {s : FlowState ν n}
    {g : FlowState ν n → Fin n → Option (FlowState ν n × List (Fin n))}
    (hgo : ∀ c, c ∉ vis → ∃ s' l, g s c = some (s', l) ∧ Entered V vis l s')
    (hV : Bounded V s) (hn : Nonneg s) (hm : Marked s vis) (oc : Option (Fin n)) :
    ∃ s' l, enterChildEntered g s oc = some (s', l) ∧ Entered V vis l s' := by
  have hstay : Entered V vis [] s := ⟨hV, hn, by simpa using hm, List.nodup_nil, by simp⟩
  cases oc with
  | none => exact ⟨s, [], rfl, hstay⟩
  | some c =>
      by_cases hc : c ∈ vis
      · exact ⟨s, [], if_pos ((hm c).mpr hc), hstay⟩
      · obtain ⟨s', l, heq, h⟩ := hgo c hc
        exact ⟨s', l, (if_neg fun hv => hc ((hm c).mp hv)).trans heq, h⟩

/-- **A traversal** with a mark of its own ends after it has entered each block at most once.
The induction is on the number of the blocks that have not been visited. -/
theorem doLivenessEntered_spec (f : QuadrFunc ν n) (k : ℕ) {s : FlowState ν n}
    {vis : Finset (Fin n)} {b : Fin n} {fuel : ℕ} (hV : Bounded V s) (hn : Nonneg s)
    (hm : Marked s vis) (hb : b ∉ vis) (hk : (Finset.univ \ vis).card ≤ k)
    (hfuel : V.card + k < fuel) :
    ∃ s' l, doLivenessEntered f fuel s b = some (s', l) ∧ Entered V vis l s' := by
  induction k generalizing s vis b fuel with
  | zero =>
      have hmem : b ∈ Finset.univ \ vis := by simp [hb]
      have hpos := Finset.card_pos.mpr ⟨b, hmem⟩
      omega
  | succ k ih =>
      obtain ⟨fuel, rfl⟩ : ∃ j, fuel = j + 1 := ⟨fuel - 1, by omega⟩
      -- `b` has been visited now, so one block fewer is left for either successor
      have hsmaller : ∀ {vis' : Finset (Fin n)}, b ∈ vis' → vis ⊆ vis' →
          (Finset.univ \ vis').card ≤ k := by
        intro vis' hb' hsub
        have hlt : (Finset.univ \ vis').card < (Finset.univ \ vis).card := by
          refine Finset.card_lt_card ((Finset.ssubset_iff_of_subset ?_).mpr ⟨b, ?_, ?_⟩)
          · exact Finset.sdiff_subset_sdiff le_rfl hsub
          · simp [hb]
          · simp [hb']
        omega
      have hvis : insert b vis = vis ∪ [b].toFinset := by
        rw [Finset.union_comm, List.toFinset_cons, List.toFinset_nil]
        rfl
      have hself : Entered V vis [b] (s.visit b) :=
        ⟨hV, hn, hvis ▸ hm.visit hn b, List.nodup_singleton b, by simpa using hb⟩
      obtain ⟨s₁, l₁, heq₁, h₁⟩ := enterChildEntered_spec (g := doLivenessEntered f fuel)
        (fun c hc => ih hself.bounded hself.nonneg hself.marked hc
          (hsmaller (by simp) Finset.subset_union_left) (by omega))
        hself.bounded hself.nonneg hself.marked (children f b).1
      have h₁ := hself.append h₁
      obtain ⟨s₂, l₂, heq₂, h₂⟩ := enterChildEntered_spec (g := doLivenessEntered f fuel)
        (fun c hc => ih h₁.bounded h₁.nonneg h₁.marked hc
          (hsmaller (by simp) Finset.subset_union_left) (by omega))
        h₁.bounded h₁.nonneg h₁.marked (children f b).2
      have h₂ := h₁.append h₂
      have hroom : V.card < fuel := by omega
      obtain ⟨s₃, heq₃, hio₃, hV₃⟩ := childInOut_spec h₂.bounded hroom b (children f b).1
      obtain ⟨s₄, heq₄, hio₄, hV₄⟩ := childInOut_spec hV₃ hroom b (children f b).2
      refine ⟨s₄, b :: (l₁ ++ l₂), ?_, (h₂.inOut hio₃ hV₃).inOut hio₄ hV₄⟩
      rw [doLivenessEntered]
      simp only [heq₁, heq₂, heq₃, heq₄, Option.bind_eq_bind, Option.bind_some, Option.pure_def]

end Traversal

/-! ## What the marks are for -/

/-- `visited` is true exactly of what has been visited since the latest `begin_traversal`, and a
`do_liveness` that comes right after it ends, having entered each block at most once.  The
operations start on the marks that `set_root` and new blocks give. -/
structure MarksMeanVisited (f : QuadrFunc ν n) (ops : List (MarkOp n)) : Prop where
  visited : ∀ pre post, ops = pre ++ .beginTraversal :: post → .beginTraversal ∉ post →
    ∀ b, ((initialState f).applyAll ops).visited b = true ↔ .visit b ∈ post
  once : ∀ pre, ops = pre ++ [.beginTraversal] → ∀ root, ∃ fuel s l,
    doLivenessEntered f fuel ((initialState f).applyAll ops) root = some (s, l) ∧ l.Nodup

/-- A traversal has just begun, and its mark is not negative. -/
lemma marked_applyAll_begin (f : QuadrFunc ν n) {pre : List (MarkOp n)}
    (h : traversals pre < 32767) :
    Nonneg ((initialState f).applyAll pre).beginTraversal ∧
      Marked ((initialState f).applyAll pre).beginTraversal ∅ := by
  have hc := (counted_initialState f).applyAll pre (by omega)
  rw [Nat.zero_add] at hc
  exact ⟨(hc.beginTraversal (by omega)).nonneg (by omega), hc.marked_begin h⟩

/-- Few traversals are told apart. -/
lemma marksMeanVisited_of_le (f : QuadrFunc ν n) {ops : List (MarkOp n)}
    (h : traversals ops ≤ 32767) : MarksMeanVisited f ops where
  visited := by
    rintro pre post rfl hpost b
    have hlt : traversals pre < 32767 := by
      rw [traversals, List.count_append, List.count_cons_self] at h
      exact lt_of_lt_of_le (by rw [traversals]; omega) h
    obtain ⟨hn, hm⟩ := marked_applyAll_begin f hlt
    rw [FlowState.applyAll_append, FlowState.applyAll_cons, FlowState.apply,
      hm.applyAll hn hpost]
    simp
  once := by
    rintro pre rfl root
    have hlt : traversals pre < 32767 := by
      rw [traversals, List.count_append, List.count_cons_self] at h
      exact lt_of_lt_of_le (by rw [traversals]; omega) h
    obtain ⟨hn, hm⟩ := marked_applyAll_begin f hlt
    obtain ⟨V, hV⟩ := exists_bound f
    have hV' : Bounded V ((initialState f).applyAll (pre ++ [.beginTraversal])) := by
      intro b v hv
      refine hV b v ?_
      rw [FlowState.ins, FlowState.flowData_applyAll] at hv
      exact hv
    rw [FlowState.applyAll_append] at hV' ⊢
    obtain ⟨s, l, heq, hl⟩ := doLivenessEntered_spec f _ hV' hn hm (Finset.notMem_empty root)
      le_rfl (Nat.lt_succ_self _)
    exact ⟨_, s, l, heq, hl.nodup⟩

/-- A function each of whose blocks jumps to itself. -/
def loops (ν : Type) (n : ℕ) : QuadrFunc ν n where
  blocks b := [⟨.goto, .label b, .none, .none⟩]

omit [LinearOrder ν] in
lemma reachesCycle_loops (b : Fin n) : ReachesCycle (loops ν n) b := by
  refine ⟨b, .refl, .single ?_⟩
  simp [Edge, succs, children, loops, labelOf]

/-- The traversal number `32768` has a negative mark. -/
lemma applyAll_begin_neg (f : QuadrFunc ν n) {pre : List (MarkOp n)}
    (h : traversals pre = 32767) :
    ((initialState f).applyAll pre).beginTraversal.curVisitedMark.toInt < 0 := by
  have hc := (counted_initialState f).applyAll pre (by omega)
  rw [Nat.zero_add, h] at hc
  rw [(hc.beginTraversal le_rfl).cur]
  decide

/-- With a negative mark `do_liveness` does not come out of a loop. -/
lemma not_marksMeanVisited (pre : List (MarkOp (n + 1))) (h : traversals pre = 32767) :
    ¬MarksMeanVisited (loops ν (n + 1)) (pre ++ [.beginTraversal]) := by
  intro hmarks
  obtain ⟨fuel, s, l, heq, -⟩ := hmarks.once pre rfl firstBlock
  have hrun := map_doLivenessEntered (loops ν (n + 1)) fuel
    ((initialState (loops ν (n + 1))).applyAll (pre ++ [.beginTraversal])) firstBlock
  rw [heq, FlowState.applyAll_append] at hrun
  have hnone : doLiveness (loops ν (n + 1)) fuel _ firstBlock = none :=
    doLiveness_eq_none (applyAll_begin_neg (loops ν (n + 1)) h) (reachesCycle_loops firstBlock)
  exact Option.some_ne_none s (hrun.trans hnone)

/-- Every number of traversals up to the last is reached. -/
lemma exists_prefix {ops : List (MarkOp n)} {k : ℕ} (h : k < traversals ops) :
    ∃ pre, pre ++ [.beginTraversal] <+: ops ∧ traversals pre = k := by
  induction ops generalizing k with
  | nil => exact absurd h (Nat.not_lt_zero k)
  | cons op ops ih =>
      cases op with
      | visit b =>
          have htr : ∀ l, traversals (.visit b :: l) = traversals l := fun l =>
            List.count_cons_of_ne (by simp)
          obtain ⟨pre, hpre, hk⟩ := ih (htr ops ▸ h)
          exact ⟨.visit b :: pre, List.cons_prefix_cons.mpr ⟨rfl, hpre⟩, (htr pre).trans hk⟩
      | beginTraversal =>
          have htr : ∀ l : List (MarkOp n), traversals (.beginTraversal :: l) = traversals l + 1 :=
            fun l => List.count_cons_self
          cases k with
          | zero => exact ⟨[], List.cons_prefix_cons.mpr ⟨rfl, List.nil_prefix⟩, rfl⟩
          | succ k =>
              obtain ⟨pre, hpre, hk⟩ := ih (k := k) (by rw [htr] at h; omega)
              exact ⟨.beginTraversal :: pre, List.cons_prefix_cons.mpr ⟨rfl, hpre⟩,
                (htr pre).trans (congrArg Nat.succ hk)⟩

/-- A run does not begin more traversals than a longer one. -/
lemma traversals_le {ops ops' : List (MarkOp n)} (h : ops' <+: ops) :
    traversals ops' ≤ traversals ops := h.sublist.count_le _

/-- **The marks** mean what they are for, in every graph and at every moment, if and only if no
more than `32767` traversals begin. -/
theorem marks_iff (ops : List (MarkOp (n + 1))) :
    (∀ f : QuadrFunc ν (n + 1), ∀ ops', ops' <+: ops → MarksMeanVisited f ops') ↔
      traversals ops ≤ 32767 := by
  constructor
  · intro h
    by_contra hmany
    obtain ⟨pre, hpre, hk⟩ := exists_prefix (Nat.lt_of_not_le hmany)
    exact not_marksMeanVisited pre hk (h _ _ hpre)
  · intro h f ops' hprefix
    exact marksMeanVisited_of_le f ((traversals_le hprefix).trans h)

/-- With a negative mark what has been visited does not count as visited. -/
lemma visited_visit_of_neg {s : FlowState ν n} (h : s.curVisitedMark.toInt < 0) (b : Fin n) :
    (s.visit b).visited b = false := by
  have hneg : (s.visit b).curVisitedMark.toInt < 0 := h
  rw [FlowState.visited, decide_eq_false_iff_not]
  omega

lemma traversals_replicate (k : ℕ) :
    traversals (List.replicate k (.beginTraversal : MarkOp n)) = k := List.count_replicate_self

/-- The state in which the traversal number `k + 1` starts. -/
def startOf (f : QuadrFunc ν n) (k : ℕ) : FlowState ν n :=
  ((initialState f).applyAll (List.replicate k .beginTraversal)).beginTraversal

/-- The traversal number `32768` of a function with one block that jumps to itself: what has been
visited does not count as visited, and `do_liveness` calls itself for ever. -/
theorem marks_negative :
    (∀ fuel, doLiveness (loops ℕ 1) fuel (startOf (loops ℕ 1) 32767) 0 = none) ∧
      ((startOf (loops ℕ 1) 32767).visit 0).visited 0 = false ∧
      ¬∀ (f : QuadrFunc ℕ 1) (ops : List (MarkOp 1)), MarksMeanVisited f ops := by
  have hneg := applyAll_begin_neg (loops ℕ 1) (traversals_replicate 32767)
  refine ⟨fun fuel => doLiveness_eq_none hneg (reachesCycle_loops 0),
    visited_visit_of_neg hneg 0, fun h => ?_⟩
  exact not_marksMeanVisited _ (traversals_replicate 32767) (h _ _)

end Javalette.Flow
