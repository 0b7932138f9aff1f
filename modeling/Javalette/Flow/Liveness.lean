import Javalette.Flow.Round
import Mathlib.Data.Finset.Union

/-!
# The liveness analysis

The rounds of `analyze_liveness` are the rounds of `BackwardFlow` over the blocks in the order
in which a depth-first search leaves them.  The analysis stops after the first round that finds
nothing new, and then it has found exactly the liveness along paths.

That is so for as long as the mark of the traversal, a `short`, does not become negative.
After `32767` rounds it does; the mark that `visit` then stores in the `unsigned short` of a
block never compares equal to it, and `do_liveness` goes round a cycle of the graph for ever.
`Shallow` says that the analysis does not come to that: what is live is found in time.
-/

namespace Javalette.Flow

open Rbtree BackwardFlow DepthFirst

variable {ν : Type} [LinearOrder ν] {n : ℕ}

/-! ## The depth-first order of the blocks -/

/-- The blocks that can be reached from the first one, in the order in which a depth-first
search leaves them. -/
def postorder (f : QuadrFunc ν n) (root : Fin n) : List (Fin n) :=
  match dfs (succs f) n root ∅ with
  | some (_, l) => l
  | none => []

/-- A block that control can reach. -/
def Reachable (f : QuadrFunc ν n) (root b : Fin n) : Prop :=
  Relation.ReflTransGen (Edge (succs f)) root b

section Postorder

variable (f : QuadrFunc ν n) (root : Fin n)

omit [LinearOrder ν] in
/-- The search behind the order. -/
lemma dfs_postorder : ∃ vis, dfs (succs f) n root ∅ = some (vis, postorder f root) ∧
    Searched (succs f) ∅ [root] vis (postorder f root) := by
  obtain ⟨vis, l, heq, h⟩ := dfs_spec (succs f) n (Finset.notMem_empty root) (by simp)
  have hl : postorder f root = l := by rw [postorder, heq]
  exact ⟨vis, hl ▸ heq, hl ▸ h⟩

omit [LinearOrder ν] in
lemma mem_postorder {b : Fin n} : b ∈ postorder f root ↔ Reachable f root b := by
  obtain ⟨vis, -, h⟩ := dfs_postorder f root
  have hvis : ∀ x, x ∈ vis ↔ x ∈ postorder f root := fun x => by simp [h.visited x]
  constructor
  · intro hb
    obtain ⟨r, hr, hreach⟩ := h.reached b hb
    exact List.mem_singleton.mp hr ▸ hreach
  · intro hb
    induction hb with
    | refl => exact (hvis root).mp (h.entered root (by simp))
    | tail _ hc ih => exact (hvis _).mp (h.closed _ ih _ hc)

lemma closed_postorder : Closed (problem f) (postorder f root) where
  nodup := (dfs_postorder f root).choose_spec.2.nodup
  succ_mem _ hb _ hc :=
    (mem_postorder f root).mpr (((mem_postorder f root).mp hb).tail hc)

omit [LinearOrder ν] in
/-- An edge that does not lead to an earlier block closes a cycle. -/
lemma reach_of_not_precedes {b c : Fin n} (hb : b ∈ postorder f root) (hc : c ∈ succs f b)
    (h : ¬Precedes (postorder f root) c b) : Relation.ReflTransGen (Edge (succs f)) c b := by
  obtain ⟨vis, -, hs⟩ := dfs_postorder f root
  obtain ⟨l₁, l₂, heq⟩ := List.append_of_mem hb
  rcases hs.order ∅ (by simp) l₁ b l₂ heq c hc with hc | hc | hc
  · exact absurd hc (Finset.notMem_empty c)
  · exact absurd ⟨l₁, l₂, heq, hc⟩ h
  · exact hc

end Postorder

/-- What is live at the start of a reachable block is found in 32766 rounds: there is a path to
an exposed use on which few enough edges lead to a block that the depth-first search does not
leave earlier. -/
def Shallow (f : QuadrFunc ν n) (root : Fin n) : Prop :=
  ∀ b, Reachable f root b → ∀ v, LiveAtStart f b v →
    Within (problem f) (postorder f root) 32766 b v

/-! ## The rounds -/

/-- The state after `k` rounds. -/
structure After (f : QuadrFunc ν n) (root : Fin n) (V : Finset ν) (k : ℕ) (s : FlowState ν n) :
    Prop where
  cur : s.curVisitedMark = BitVec.ofNat 16 k
  marks : ∀ b, (s.visitedMark b).toNat ≤ k
  kills : s.kills = (problem f).kill
  bounded : Bounded V s
  ins : ∀ b ∈ postorder f root, ∀ v,
    v ∈ s.ins b ↔ Within (problem f) (postorder f root) k b v
  outs : ∀ b, ∀ v ∈ s.outs b, ∃ c ∈ succs f b, v ∈ s.ins c

/-- The analysis has found what it looks for. -/
structure Finished (f : QuadrFunc ν n) (root : Fin n) (s : FlowState ν n) : Prop where
  ins : ∀ b, Reachable f root b → ∀ v, v ∈ s.ins b ↔ LiveAtStart f b v
  outs : ∀ b, Reachable f root b → ∀ v, v ∈ s.outs b ↔ ∃ c ∈ succs f b, v ∈ s.ins c

section Rounds

variable {f : QuadrFunc ν n} {root : Fin n} {V : Finset ν}

/-- The state in which `do_liveness` is called for the first block. -/
def startRound (s : FlowState ν n) : FlowState ν n := { s with changed := false }.beginTraversal

/-- A fresh traversal has visited nothing, while its mark is positive. -/
lemma After.ready {k : ℕ} {s : FlowState ν n} (h : After f root V k s) (hk : k < 32767) :
    Ready f V (startRound s) ∅ ∧ (startRound s).curVisitedMark = BitVec.ofNat 16 (k + 1) ∧
      (startRound s).visitedMark = s.visitedMark ∧ (startRound s).flowData = s.flowData ∧
      (startRound s).changed = false := by
  have hcur : s.curVisitedMark + 1 = BitVec.ofNat 16 (k + 1) := by
    rw [h.cur, BitVec.ofNat_add]
    rfl
  have hne : ¬s.curVisitedMark + 1 = 0 := by
    rw [hcur, ← BitVec.toNat_inj, BitVec.toNat_ofNat]
    simp
    omega
  have heq : startRound s =
      { s with changed := false, curVisitedMark := s.curVisitedMark + 1 } := by
    rw [startRound, FlowState.beginTraversal, if_neg hne]
  rw [heq]
  refine ⟨⟨h.bounded, h.kills, fun b => ?_, ?_⟩, hcur, rfl, rfl, rfl⟩
  · have hm := h.marks b
    rw [visited_iff (by rw [Nonneg, hcur, BitVec.toNat_ofNat]; omega)]
    simp only [Finset.notMem_empty, iff_false]
    intro heq
    have := congrArg BitVec.toNat (heq.trans hcur)
    rw [BitVec.toNat_ofNat] at this
    omega
  · rw [Nonneg, hcur, BitVec.toNat_ofNat]
    omega

/-- **A round.**  It tells by `changed` whether it has found something new. -/
lemma After.round {k : ℕ} {s : FlowState ν n} (h : After f root V k s) (hk : k < 32767)
    {fuel : ℕ} (hfuel : V.card + n < fuel) :
    ∃ s', doLiveness f fuel (startRound s) root = some s' ∧ After f root V (k + 1) s' ∧
      (s'.changed = true ↔ ∃ b ∈ postorder f root, ∃ v,
        Within (problem f) (postorder f root) (k + 1) b v ∧
          ¬Within (problem f) (postorder f root) k b v) ∧
      ∀ b ∈ postorder f root, ∀ c ∈ succs f b, s.ins c ⊆ s'.outs b := by
  obtain ⟨hready, hcur, hmarks, hdata, hchanged⟩ := h.ready hk
  obtain ⟨vis, hdfs, -⟩ := dfs_postorder f root
  obtain ⟨s', heq, hran, hready'⟩ := doLiveness_spec n hready hdfs hfuel
  have hins : (startRound s).ins = s.ins := funext fun b => by rw [FlowState.ins, hdata]; rfl
  have houts : (startRound s).outs = s.outs := funext fun b => by rw [FlowState.outs, hdata]; rfl
  -- from what is within `k` a round over the order makes what is within `k + 1`
  have hwithin : ∀ b ∈ postorder f root, ∀ v,
      v ∈ s'.ins b ↔ Within (problem f) (postorder f root) (k + 1) b v := by
    rw [hran.ins, hins]
    exact round_within (closed_postorder f root) h.ins
  refine ⟨s', heq, ⟨hran.cur.trans hcur, fun b => ?_, hready'.kills, hready'.bounded, hwithin,
    fun b v hv => ?_⟩, ?_, fun b hb c hc => hins ▸ hran.outs_sup b hb c hc⟩
  · rcases hran.marks b with hm | hm
    · rw [hm, hmarks]
      exact (h.marks b).trans (Nat.le_succ k)
    · rw [hm, hcur, BitVec.toNat_ofNat]
      exact Nat.mod_le _ _
  · rcases hran.outs_sub b v hv with hv | hv
    · rw [houts] at hv
      obtain ⟨c, hc, hv⟩ := h.outs b v hv
      exact ⟨c, hc, hran.ins_mono c (hins.symm ▸ hv)⟩
    · exact hv
  · rw [hran.changed, hchanged, hins]
    simp only [Bool.false_eq_true, false_or]
    constructor
    · rintro ⟨b, v, hv, hn⟩
      by_cases hb : b ∈ postorder f root
      · exact ⟨b, hb, v, (hwithin b hb v).mp hv, fun hw => hn ((h.ins b hb v).mpr hw)⟩
      · rw [hran.ins, round_of_notMem _ hb, hins] at hv
        exact absurd hv hn
    · rintro ⟨b, hb, v, hv, hn⟩
      exact ⟨b, v, (hwithin b hb v).mpr hv, fun hin => hn ((h.ins b hb v).mp hin)⟩

/-- A round that finds nothing new ends the analysis. -/
lemma After.finished {k : ℕ} {s s' : FlowState ν n} (h : After f root V k s)
    (h' : After f root V (k + 1) s')
    (hstable : ∀ b ∈ postorder f root, ∀ v,
      Within (problem f) (postorder f root) (k + 1) b v →
        Within (problem f) (postorder f root) k b v)
    (hsup : ∀ b ∈ postorder f root, ∀ c ∈ succs f b, s.ins c ⊆ s'.outs b) :
    Finished f root s' := by
  have hcl := closed_postorder f root
  have hins : ∀ b, Reachable f root b → ∀ v, v ∈ s'.ins b ↔ LiveAtStart f b v := by
    intro b hb v
    have hmem := (mem_postorder f root).mpr hb
    rw [h'.ins b hmem, ← live_iff]
    exact ⟨Within.live, fun hl => (live_of_stable hcl hstable hmem hl).succ⟩
  refine ⟨hins, fun b hb v => ⟨h'.outs b v, ?_⟩⟩
  rintro ⟨c, hc, hv⟩
  have hmem := (mem_postorder f root).mpr hb
  have hcmem := hcl.succ_mem b hmem c hc
  exact hsup b hmem c hc ((h.ins c hcmem v).mpr (hstable c hcmem v ((h'.ins c hcmem v).mp hv)))

/-- A turn of the loop. -/
lemma livenessLoop_turn {fuel : ℕ} {s : FlowState ν n} (h : s.changed = true) :
    livenessLoop f root (fuel + 1) s =
      (doLiveness f fuel (startRound s) root).bind (livenessLoop f root fuel) := by
  rw [livenessLoop, if_pos h]
  rfl

lemma livenessLoop_done {fuel : ℕ} {s : FlowState ν n} (h : s.changed = false) :
    livenessLoop f root (fuel + 1) s = some s := by
  rw [livenessLoop, if_neg (by simp [h])]
  rfl

/-- The loop of the analysis ends, if everything is found in time, with whatever a round keeps. -/
lemma livenessLoop_invariant (hsh : Shallow f root) {I : FlowState ν n → Prop}
    (hI : ∀ {k fuel s s'}, After f root V k s → k < 32767 → V.card + n < fuel → I s →
      doLiveness f fuel (startRound s) root = some s' → I s') {j k fuel : ℕ} {s : FlowState ν n}
    (h : After f root V k s) (hs : I s) (hchanged : s.changed = true) (hk : k + j = 32766)
    (hfuel : V.card + n + j + 2 ≤ fuel) :
    ∃ s', livenessLoop f root fuel s = some s' ∧ Finished f root s' ∧ I s' := by
  induction j generalizing k fuel s with
  | zero =>
      obtain ⟨fuel, rfl⟩ : ∃ i, fuel = i + 2 := ⟨fuel - 2, by omega⟩
      have hroom : V.card + n < fuel + 1 := by omega
      obtain ⟨s', heq, h', hch, hsup⟩ := h.round (by omega) hroom
      -- everything has been found by now
      have hstable : ∀ b ∈ postorder f root, ∀ v,
          Within (problem f) (postorder f root) (k + 1) b v →
            Within (problem f) (postorder f root) k b v := by
        intro b hb v hv
        rw [show k = 32766 by omega]
        exact hsh b ((mem_postorder f root).mp hb) v (live_iff.mp hv.live)
      have hfalse : s'.changed = false := by
        rw [← Bool.not_eq_true, hch]
        rintro ⟨b, hb, v, hv, hn⟩
        exact hn (hstable b hb v hv)
      refine ⟨s', ?_, h.finished h' hstable hsup, hI h (by omega) hroom hs heq⟩
      rw [livenessLoop_turn hchanged, heq, Option.bind_some, livenessLoop_done hfalse]
  | succ j ih =>
      obtain ⟨fuel, rfl⟩ : ∃ i, fuel = i + 2 := ⟨fuel - 2, by omega⟩
      have hroom : V.card + n < fuel + 1 := by omega
      obtain ⟨s', heq, h', hch, hsup⟩ := h.round (by omega) hroom
      have hs' : I s' := hI h (by omega) hroom hs heq
      rw [livenessLoop_turn hchanged, heq, Option.bind_some]
      by_cases hc : s'.changed = true
      · exact ih h' hs' hc (by omega) (by omega)
      · refine ⟨s', livenessLoop_done (Bool.not_eq_true _ ▸ hc), h.finished h' ?_ hsup, hs'⟩
        intro b hb v hv
        by_contra hn
        exact hc (hch.mpr ⟨b, hb, v, hv, hn⟩)

/-- The loop of the analysis ends, if everything is found in time. -/
lemma livenessLoop_of_shallow (hsh : Shallow f root) {j k fuel : ℕ} {s : FlowState ν n}
    (h : After f root V k s) (hchanged : s.changed = true) (hk : k + j = 32766)
    (hfuel : V.card + n + j + 2 ≤ fuel) :
    ∃ s', livenessLoop f root fuel s = some s' ∧ Finished f root s' := by
  obtain ⟨s', heq, hfin, -⟩ := livenessLoop_invariant hsh (I := fun _ => True)
    (fun _ _ _ _ _ => trivial) h trivial hchanged hk hfuel
  exact ⟨s', heq, hfin⟩

/-! ## Running out of marks -/

lemma updateIn_cur (s : FlowState ν n) (b c : Fin n) (v : ν) (nud : BitVec 32) :
    (updateIn s b c v nud).curVisitedMark = s.curVisitedMark := by
  unfold updateIn
  dsimp only
  split
  · rfl
  · split <;> rfl

lemma computeInOut_cur {fuel : ℕ} {s s' : FlowState ν n} {b c : Fin n} {ov : Option ν}
    (h : computeInOut fuel s b c ov = some s') : s'.curVisitedMark = s.curVisitedMark := by
  induction fuel generalizing s s' ov with
  | zero => cases h
  | succ fuel ih =>
      cases ov with
      | none => exact congrArg FlowState.curVisitedMark (Option.some.inj h).symm
      | some v =>
          rw [computeInOut] at h
          obtain ⟨nd, -, h⟩ := Option.bind_eq_some_iff.mp h
          obtain ⟨nd₁, -, h⟩ := Option.bind_eq_some_iff.mp h
          obtain ⟨s₁, h₁, h⟩ := Option.bind_eq_some_iff.mp h
          obtain ⟨nd₂, -, h⟩ := Option.bind_eq_some_iff.mp h
          rw [ih h]
          cases hr : nd₁.right with
          | none =>
              rw [hr, descend] at h₁
              obtain rfl := Option.some.inj h₁
              exact updateIn_cur ..
          | some w =>
              rw [hr, descend] at h₁
              exact (ih h₁).trans (updateIn_cur ..)

lemma childInOut_cur {fuel : ℕ} {s s' : FlowState ν n} {b : Fin n} {oc : Option (Fin n)}
    (h : childInOut fuel s b oc = some s') : s'.curVisitedMark = s.curVisitedMark := by
  cases oc with
  | none => exact congrArg FlowState.curVisitedMark (Option.some.inj h).symm
  | some c => exact computeInOut_cur h

/-- A traversal does not change its mark. -/
lemma doLiveness_cur {fuel : ℕ} {s s' : FlowState ν n} {b : Fin n}
    (h : doLiveness f fuel s b = some s') : s'.curVisitedMark = s.curVisitedMark := by
  induction fuel generalizing s s' b with
  | zero => cases h
  | succ fuel ih =>
      have hchild : ∀ {s s' : FlowState ν n} {oc : Option (Fin n)},
          enterChild (doLiveness f fuel) s oc = some s' → s'.curVisitedMark = s.curVisitedMark := by
        intro s s' oc h
        cases oc with
        | none => exact congrArg FlowState.curVisitedMark (Option.some.inj h).symm
        | some c =>
            rw [enterChild] at h
            split at h
            · exact congrArg FlowState.curVisitedMark (Option.some.inj h).symm
            · exact ih h
      rw [doLiveness] at h
      obtain ⟨s₁, h₁, h⟩ := Option.bind_eq_some_iff.mp h
      obtain ⟨s₂, h₂, h⟩ := Option.bind_eq_some_iff.mp h
      obtain ⟨s₃, h₃, h⟩ := Option.bind_eq_some_iff.mp h
      rw [childInOut_cur h, childInOut_cur h₃, hchild h₂, hchild h₁]
      rfl

/-- A block from which a cycle can be reached. -/
def ReachesCycle (f : QuadrFunc ν n) (b : Fin n) : Prop :=
  ∃ c, Relation.ReflTransGen (Edge (succs f)) b c ∧ Relation.TransGen (Edge (succs f)) c c

omit [LinearOrder ν] in
/-- On the way to a cycle, and round it, there is always a next block. -/
lemma ReachesCycle.exists_succ {b : Fin n} (h : ReachesCycle f b) :
    ∃ c ∈ succs f b, ReachesCycle f c := by
  obtain ⟨c, hbc, hcc⟩ := h
  rcases Relation.ReflTransGen.cases_head hbc with rfl | ⟨d, hbd, hdc⟩
  · obtain ⟨d, hbd, hdb⟩ := Relation.TransGen.head'_iff.mp hcc
    exact ⟨d, hbd, b, hdb, hcc⟩
  · exact ⟨d, hbd, c, hdc, hcc⟩

/-- With a negative mark nothing counts as visited, and a cycle is never left. -/
lemma doLiveness_eq_none {fuel : ℕ} {s : FlowState ν n} (hneg : s.curVisitedMark.toInt < 0)
    {b : Fin n} (hb : ReachesCycle f b) : doLiveness f fuel s b = none := by
  induction fuel generalizing s b with
  | zero => rfl
  | succ fuel ih =>
      -- with a negative mark no block ever counts as visited
      have hvisited : ∀ {s : FlowState ν n} (c : Fin n), s.curVisitedMark.toInt < 0 →
          s.visited c = false := by
        intro s c hneg
        rw [FlowState.visited, decide_eq_false_iff_not]
        omega
      have henter : ∀ {s : FlowState ν n} {c : Fin n} {oc : Option (Fin n)},
          s.curVisitedMark.toInt < 0 → c ∈ oc → ReachesCycle f c →
            enterChild (doLiveness f fuel) s oc = none := by
        intro s c oc hneg hc hcycle
        obtain rfl := Option.mem_def.mp hc
        rw [enterChild, hvisited c hneg]
        exact ih hneg hcycle
      obtain ⟨c, hc, hcycle⟩ := hb.exists_succ
      have hneg' : (s.visit b).curVisitedMark.toInt < 0 := hneg
      rw [doLiveness]
      rcases mem_succs.mp hc with hc | hc
      · rw [henter hneg' hc hcycle]
        rfl
      · cases h₁ : enterChild (doLiveness f fuel) (s.visit b) (children f b).1 with
        | none => rfl
        | some s₁ =>
            have hcur : s₁.curVisitedMark = (s.visit b).curVisitedMark := by
              revert h₁
              cases (children f b).1 with
              | none => exact fun h => congrArg FlowState.curVisitedMark (Option.some.inj h).symm
              | some d =>
                  rw [enterChild, hvisited d hneg', if_neg (by simp)]
                  exact fun h => doLiveness_cur h
            have h₂ := henter (hcur ▸ hneg') hc hcycle
            simp only [h₂, Option.bind_eq_bind, Option.bind_some, Option.bind_none]

/-- When something is not found in time, a cycle can be reached. -/
lemma reachesCycle_of_not_shallow (h : ¬Shallow f root) : ReachesCycle f root := by
  by_contra hno
  refine h fun b hb v hv => Within.mono (k := 1) (by omega) ?_
  refine within_one (closed_postorder f root) (fun b hb c hc => ?_) ((mem_postorder f root).mpr hb)
    (live_iff.mpr hv)
  by_contra hp
  have hcb := reach_of_not_precedes f root hb hc hp
  exact hno ⟨b, (mem_postorder f root).mp hb, Relation.TransGen.head' hc hcb⟩

/-- The loop does not end, if something is not found in time. -/
lemma livenessLoop_of_not_shallow (hsh : ¬Shallow f root) {j k fuel : ℕ} {s : FlowState ν n}
    (h : After f root V k s) (hchanged : s.changed = true) (hk : k + j = 32767)
    (hfuel : V.card + n + j + 2 ≤ fuel) : livenessLoop f root fuel s = none := by
  induction j generalizing k fuel s with
  | zero =>
      obtain ⟨fuel, rfl⟩ : ∃ i, fuel = i + 1 := ⟨fuel - 1, by omega⟩
      have hcur : (startRound s).curVisitedMark = 32768 := by
        have hs : s.curVisitedMark = 32767 := by
          rw [h.cur, show k = 32767 by omega]
          rfl
        rw [startRound, FlowState.beginTraversal]
        simp only [hs]
        rfl
      rw [livenessLoop_turn hchanged, doLiveness_eq_none (by rw [hcur]; decide)
        (reachesCycle_of_not_shallow hsh)]
      rfl
  | succ j ih =>
      obtain ⟨fuel, rfl⟩ : ∃ i, fuel = i + 1 := ⟨fuel - 1, by omega⟩
      have hroom : V.card + n < fuel := by omega
      obtain ⟨s', heq, h', hch, -⟩ := h.round (by omega) hroom
      have hc : s'.changed = true := by
        by_contra hc
        refine hsh fun b hb v hv => Within.mono (k := k) (by omega) ?_
        refine live_of_stable (closed_postorder f root) (fun b hb v hw => ?_)
          ((mem_postorder f root).mpr hb) (live_iff.mpr hv)
        by_contra hn
        exact hc (hch.mpr ⟨b, hb, v, hw, hn⟩)
      rw [livenessLoop_turn hchanged, heq, Option.bind_some]
      exact ih h' hc (by omega) (by omega)

end Rounds

/-! ## The results -/

omit [LinearOrder ν] in
lemma rbSize_eq {δ : Type} (t : ColorTree (RbPair ν δ)) : rbSize t = t.toList.length := by
  induction t with
  | nil => rfl
  | node c l x r ihl ihr =>
      rw [rbSize, ihl, ihr, ColorTree.toList_node, List.length_append, List.length_cons]
      omega

omit [LinearOrder ν] in
/-- `make_live_at_end` writes every key once, and not past the end of the array. -/
lemma makeLiveAtEnd_spec {lsize : ℕ} (t : ColorTree (RbPair ν Unit)) (a : List ν)
    (hsize : a.length + rbSize t ≤ lsize) :
    ∃ a', makeLiveAtEnd lsize t a = some (a ++ a') ∧ a'.Perm (t.toList.map RbPair.first) := by
  induction t generalizing a with
  | nil => exact ⟨[], by simp [makeLiveAtEnd], .refl _⟩
  | node c l x r ihl ihr =>
      rw [rbSize] at hsize
      have hassert : assert (decide (a.length < lsize)) = some () := assert_of (by simp; omega)
      obtain ⟨al, hal, hpl⟩ := ihl (a ++ [x.first]) (by simp; omega)
      have hlen : al.length = rbSize l := by rw [hpl.length_eq, List.length_map, rbSize_eq]
      obtain ⟨ar, har, hpr⟩ := ihr (a ++ [x.first] ++ al) (by simp; omega)
      refine ⟨x.first :: (al ++ ar), ?_, ?_⟩
      · rw [makeLiveAtEnd, hassert]
        have hlist : a ++ x.first :: (al ++ ar) = a ++ [x.first] ++ al ++ ar := by simp
        rw [hlist]
        cases l with
        | nil =>
            obtain rfl : al = [] := List.eq_nil_of_length_eq_zero hlen
            rw [List.append_nil] at har ⊢
            exact har
        | node cl ll xl rl =>
            cases r with
            | nil =>
                obtain rfl : ar = [] := List.eq_nil_of_length_eq_zero hpr.length_eq
                rw [List.append_nil]
                exact hal
            | node cr lr xr rr =>
                simp only [Option.bind_eq_bind, Option.bind_some, hal, har]
      · rw [ColorTree.toList_node, List.map_append, List.map_cons]
        exact ((hpl.append hpr).cons _).trans List.perm_middle.symm

/-- `finish_liveness_computation` passes its assertions. -/
lemma finishLivenessComputation_spec (fd : FlowData ν) :
    ∃ a, finishLivenessComputation fd = some ⟨fd.liveIn, a⟩ ∧ a.Perm fd.liveOut.keys := by
  have hsize : ([] : List ν).length + rbSize fd.liveOut.tree ≤ rbSize fd.liveOut.tree := by simp
  obtain ⟨a, ha, hp⟩ := makeLiveAtEnd_spec fd.liveOut.tree [] hsize
  refine ⟨a, ?_, hp⟩
  have hlen : a.length = rbSize fd.liveOut.tree := by
    rw [hp.length_eq, List.length_map, rbSize_eq]
  rw [List.nil_append] at ha
  rw [finishLivenessComputation, ha]
  simp only [Option.bind_eq_bind, Option.bind_some, hlen, decide_true, assert_of, Option.pure_def]

/-- The results of all blocks. -/
lemma finishAll_spec (s : FlowState ν n) :
    ∃ g : Fin n → BlockLiveness ν, finishAll s (List.finRange n) = some ((List.finRange n).map g) ∧
      ∀ b, (g b).varsAtStart = (s.flowData b).liveIn ∧
        (g b).liveAtEnd.Perm (s.flowData b).liveOut.keys := by
  choose a ha hp using fun b => finishLivenessComputation_spec (s.flowData b)
  refine ⟨fun b => ⟨(s.flowData b).liveIn, a b⟩, ?_, fun b => ⟨rfl, hp b⟩⟩
  induction List.finRange n with
  | nil => rfl
  | cons b bs ih => simp only [finishAll, ha, ih, Option.bind_eq_bind, Option.bind_some,
      Option.pure_def, List.map_cons]

/-- The results are right for the blocks that control can reach: `vars_at_start` is what is live
along paths, and `live_at_end` has, without duplicates, what is live at the start of the
successors. -/
def Exact (f : QuadrFunc ν n) (root : Fin n) (r : List (BlockLiveness ν)) : Prop :=
  ∀ b : Fin n, Reachable f root b → ∃ res, r[b.val]? = some res ∧
    (∀ v, v ∈ res.varsAtStart.keys ↔ LiveAtStart f b v) ∧ res.liveAtEnd.Nodup ∧
    ∀ v, v ∈ res.liveAtEnd ↔
      ∃ c ∈ succs f b, ∃ resc, r[c.val]? = some resc ∧ v ∈ resc.varsAtStart.keys

/-- The analysis ends, and its results are right. -/
def AnalysisCorrect (f : QuadrFunc ν (n + 1)) : Prop :=
  ∃ N, ∀ fuel ≥ N, ∃ r, analyzeLiveness fuel f = some r ∧ Exact f firstBlock r

lemma Finished.exact {f : QuadrFunc ν n} {root : Fin n} {s : FlowState ν n}
    (h : Finished f root s) : ∃ r, finishAll s (List.finRange n) = some r ∧ Exact f root r := by
  obtain ⟨g, heq, hg⟩ := finishAll_spec s
  have hget : ∀ b : Fin n, ((List.finRange n).map g)[b.val]? = some (g b) := by
    intro b
    rw [List.getElem?_map, List.getElem?_eq_getElem (by simp), List.getElem_finRange]
    rfl
  refine ⟨_, heq, fun b hb => ⟨g b, hget b, fun v => ?_, ?_, fun v => ?_⟩⟩
  · rw [(hg b).1]
    exact h.ins b hb v
  · exact (hg b).2.nodup_iff.mpr (RbSet.keys_nodup _)
  · rw [(hg b).2.mem_iff]
    refine (h.outs b hb v).trans (exists_congr fun c => and_congr_right fun _ => ?_)
    simp only [hget, Option.some.injEq, exists_eq_left', (hg c).1]
    rfl

/-! ## The analysis -/

/-- All variables that some block has an exposed use of. -/
lemma exists_bound (f : QuadrFunc ν n) : ∃ V : Finset ν, Bounded V (initialState f) := by
  refine ⟨Finset.univ.biUnion fun b => ((initialState f).flowData b).liveIn.keys.toFinset,
    fun b v hv => ?_⟩
  exact Finset.mem_biUnion.mpr ⟨b, Finset.mem_univ b, List.mem_toFinset.mpr hv⟩

/-- Before the first round. -/
lemma after_initial {f : QuadrFunc ν n} {V : Finset ν} (hV : Bounded V (initialState f))
    (root : Fin n) : After f root V 0 (initialState f) where
  cur := rfl
  marks _ := le_rfl
  kills := funext fun b => Set.ext fun v => mem_computeLiveDefUse_liveDef
  bounded := hV
  ins b _ v := mem_computeLiveDefUse_liveIn.trans (within_zero (P := problem f)).symm
  outs b v hv := absurd hv (by simp [FlowState.outs, initialState, computeLiveDefUse])

/-- What is found in time is found. -/
lemma analysisCorrect_of_shallow {f : QuadrFunc ν (n + 1)} (h : Shallow f firstBlock) :
    AnalysisCorrect f := by
  obtain ⟨V, hV⟩ := exists_bound f
  refine ⟨V.card + (n + 1) + 32766 + 2, fun fuel hfuel => ?_⟩
  obtain ⟨s, heq, hfin⟩ :=
    livenessLoop_of_shallow h (after_initial hV firstBlock) rfl (j := 32766) rfl hfuel
  obtain ⟨r, hr, hexact⟩ := hfin.exact
  exact ⟨r, by rw [analyzeLiveness, heq]; exact hr, hexact⟩

/-- When something is not found in time, the analysis does not end. -/
lemma not_analysisCorrect_of_not_shallow {f : QuadrFunc ν (n + 1)} (h : ¬Shallow f firstBlock) :
    ¬AnalysisCorrect f := by
  rintro ⟨N, hN⟩
  obtain ⟨V, hV⟩ := exists_bound f
  obtain ⟨r, hr, -⟩ := hN (N + (V.card + (n + 1) + 32767 + 2)) (by omega)
  rw [analyzeLiveness, livenessLoop_of_not_shallow h (after_initial hV firstBlock) rfl
    (j := 32767) rfl (by omega)] at hr
  cases hr

/-- **The liveness analysis** ends with the exact result if and only if everything that is live
is found before the marks run out. -/
theorem liveness_exact_iff (f : QuadrFunc ν (n + 1)) :
    AnalysisCorrect f ↔ Shallow f firstBlock := by
  constructor
  · intro h
    by_contra hn
    exact not_analysisCorrect_of_not_shallow hn h
  · exact analysisCorrect_of_shallow

/-! ## A chain that is too long

Each block but the last jumps back to the block before it, or falls through to the next one.
The depth-first search runs to the end of the chain, so a round takes a fact from the first
block only one block further. -/

/-- The chain with blocks `0` to `m`, where only block `0` uses the variable `0`. -/
def chain (m : ℕ) : QuadrFunc ℕ (m + 1) where
  blocks b :=
    if b.val = m then [⟨.ret, .none, .none, .none⟩]
    else [⟨.ifEq, .label ⟨b.val - 1, by omega⟩, .var (min b.val 1), .var (min b.val 1)⟩]

lemma succs_chain {m : ℕ} {b : Fin (m + 1)} (hb : b.val ≠ m) :
    succs (chain m) b = [⟨b.val - 1, by omega⟩, ⟨b.val + 1, by omega⟩] := by
  have hlt : b.val < m := by omega
  simp [succs, children, chain, next, labelOf, hb, hlt]

lemma succs_chain_last {m : ℕ} {b : Fin (m + 1)} (hb : b.val = m) : succs (chain m) b = [] := by
  simp [succs, children, chain, hb]

/-- An edge of the chain leads one block forward, or at most one block back. -/
lemma chain_edge {m : ℕ} {b c : Fin (m + 1)} (h : c ∈ succs (chain m) b) :
    b.val ≤ c.val + 1 := by
  by_cases hb : b.val = m
  · rw [succs_chain_last hb] at h
    simp at h
  · rw [succs_chain hb] at h
    simp only [List.mem_cons, List.not_mem_nil, or_false] at h
    rcases h with rfl | rfl <;> simp <;> omega

lemma chain_exposed {m : ℕ} {b : Fin (m + 1)} (h : Exposed ((chain m).blocks b) 0) : b.val = 0 := by
  by_cases hb : b.val = m
  · simp [chain, hb, usedInQuadr, QuadrArg.isVar] at h
  · have hmin : min b.val 1 = 0 := by simpa [chain, hb, usedInQuadr, QuadrArg.isVar] using h
    omega

lemma chain_not_assigned {m : ℕ} (b : Fin (m + 1)) (v : ℕ) : ¬Assigned ((chain m).blocks b) v := by
  by_cases hb : b.val = m
  · simp [chain, hb, assignedInQuadr, QuadrArg.isVar]
  · simp [chain, hb, assignedInQuadr, QuadrArg.isVar]

/-- A search that comes to a block of the chain from the left leaves the rest of the chain from
the right to the left. -/
lemma dfs_chain {m d i : ℕ} (hi : i + d = m) {k : ℕ} (hk : d < k) {vis : Finset (Fin (m + 1))}
    (hvis : ∀ j, j ∈ vis ↔ j.val < i) :
    ∃ vis' l, dfs (succs (chain m)) k ⟨i, by omega⟩ vis = some (vis', l) ∧
      l.Pairwise (fun a b => b.val < a.val) ∧ ∀ j ∈ l, i ≤ j.val := by
  obtain ⟨k, rfl⟩ : ∃ k', k = k' + 1 := ⟨k - 1, by omega⟩
  induction d generalizing i k vis with
  | zero =>
      refine ⟨insert ⟨i, by omega⟩ vis, [⟨i, by omega⟩], ?_, by simp, by simp⟩
      rw [dfs, succs_chain_last (by simpa using hi)]
      rfl
  | succ d ih =>
      obtain ⟨k, rfl⟩ : ∃ k', k = k' + 1 := ⟨k - 1, by omega⟩
      have hvis' : ∀ j : Fin (m + 1), j ∈ insert ⟨i, by omega⟩ vis ↔ j.val < i + 1 := by
        intro j
        rw [Finset.mem_insert, hvis, Fin.ext_iff]
        simp only
        omega
      obtain ⟨vis', l, heq, hpair, hge⟩ := ih (i := i + 1) (by omega) hvis' k (by omega)
      refine ⟨vis', l ++ [⟨i, by omega⟩], ?_, ?_, ?_⟩
      · rw [dfs, succs_chain (show i ≠ m by omega)]
        -- the way back is visited already, so the search goes on to the end of the chain
        have hback : enterUnvisited (dfs (succs (chain m)) (k + 1)) ⟨i - 1, by omega⟩
            (insert ⟨i, by omega⟩ vis) = some (insert ⟨i, by omega⟩ vis, []) :=
          if_pos ((hvis' _).mpr (show i - 1 < i + 1 by omega))
        have hnext : enterUnvisited (dfs (succs (chain m)) (k + 1)) ⟨i + 1, by omega⟩
            (insert ⟨i, by omega⟩ vis) = some (vis', l) :=
          (if_neg fun h => absurd ((hvis' _).mp h) (by simp)).trans heq
        simp only [visitAll, hback, hnext, Option.bind_eq_bind, Option.bind_some, Option.pure_def,
          List.nil_append, List.append_nil]
      · rw [List.pairwise_append]
        refine ⟨hpair, by simp, fun a ha b hb => ?_⟩
        rw [List.mem_singleton.mp hb]
        exact hge a ha
      · intro j hj
        rcases List.mem_append.mp hj with hj | hj
        · exact (Nat.le_succ i).trans (hge j hj)
        · rw [List.mem_singleton.mp hj]

/-- A fact moves back by one block in each round. -/
lemma chain_within {m k : ℕ} {b : Fin (m + 1)} {v : ℕ}
    (h : Within (problem (chain m)) (postorder (chain m) firstBlock) k b v) (hv : v = 0) :
    b.val ≤ k := by
  have hvis : ∀ j : Fin (m + 1), j ∈ (∅ : Finset (Fin (m + 1))) ↔ j.val < 0 := by simp
  obtain ⟨vis, l, heq, hpair, -⟩ := dfs_chain (Nat.zero_add m) (Nat.lt_succ_self m) hvis
  have hl : postorder (chain m) firstBlock = l := by rw [postorder, firstBlock, heq]
  rw [hl] at h
  clear heq hl
  induction h with
  | gen h =>
      subst hv
      rw [chain_exposed h]
      exact Nat.zero_le _
  | @forward k b c v hc hp _ _ ih =>
      obtain ⟨l₁, l₂, rfl, hmem⟩ := hp
      have hlt := (List.pairwise_append.mp hpair).2.2 c hmem b (by simp)
      exact hlt.le.trans (ih hv)
  | back hc _ _ _ ih =>
      have := chain_edge hc
      have := ih hv
      omega

lemma chain_reachable {m i : ℕ} (hi : i < m + 1) : Reachable (chain m) firstBlock ⟨i, hi⟩ := by
  induction i with
  | zero => exact .refl
  | succ i ih =>
      refine (ih (by omega)).tail ?_
      rw [Edge, succs_chain (show i ≠ m by omega)]
      simp

lemma chain_live {m i : ℕ} (hi : i < m) :
    Live (problem (chain m)) (⟨i, by omega⟩ : Fin (m + 1)) 0 := by
  have hkill : ∀ b, 0 ∉ (problem (chain m)).kill b := fun b h => chain_not_assigned b 0 h.1
  induction i with
  | zero =>
      refine .gen ?_
      show Exposed ((chain m).blocks _) 0
      simp [chain, hi.ne, usedInQuadr, QuadrArg.isVar]
  | succ i ih =>
      refine .step ?_ (hkill _) (ih (by omega))
      show _ ∈ succs (chain m) _
      rw [succs_chain (show i + 1 ≠ m by omega)]
      simp

/-- **The analysis of a chain of 32769 blocks does not end.** -/
theorem liveness_chain_diverges : ¬AnalysisCorrect (chain 32768) := by
  refine not_analysisCorrect_of_not_shallow fun h => ?_
  have hlive := live_iff.mp (chain_live (m := 32768) (i := 32767) (by omega))
  have hwithin := h _ (chain_reachable (by omega)) 0 hlive
  have hle := chain_within hwithin rfl
  simp at hle

end Javalette.Flow
