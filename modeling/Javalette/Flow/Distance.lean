import Javalette.Flow.NextUse
import Javalette.Library.FirstArrival

/-!
# The distances in `vars_at_start`

`compute_in_out` sets the `nearest_use_dist` of a variable when the variable enters the set
`live_in` of a block.  When the variable is there already, a smaller distance is meant to be
taken, but it is compared with and stored in the element of the successor's set, where nothing
ever becomes smaller.  So the distance of a variable that goes through a block is the one by way
of the successor whose set had the variable first.

`nearestUseDist_iff` says for which functions these distances are shortest all the same.
-/

namespace Javalette.Flow

open Rbtree BackwardFlow DepthFirst

variable {ν : Type} [LinearOrder ν] {n : ℕ} {β : Type}

/-! ## The distances of a block -/

lemma nud?_eq_lookup (t : DescrSet ν) (v : ν) : nud? t v = (t.lookup v).map BitVec.toNat := by
  unfold nud? RbSet.lookup
  cases t.search v <;> rfl

lemma lookup_rbDeleteFound {δ : Type} (s : RbSet ν δ) (v w : ν) :
    (rbDeleteFound s v).lookup w = if w = v then none else s.lookup w := by
  unfold rbDeleteFound
  split
  · exact s.lookup_delete v w
  · next h =>
      rw [found_iff] at h
      split
      · next hw => rw [hw, RbSet.lookup_eq_none_iff.mpr h]
      · rfl

lemma lookup_updateLive (use : DescrSet ν) (kill : KeySet ν) (v w : ν) (nud : BitVec 32) :
    (updateLive use kill v nud).1.lookup w = if w = v then some nud else use.lookup w := by
  unfold updateLive
  split
  · next h =>
      rw [found_iff] at h
      rw [RbSet.lookup_modify]
      by_cases hw : w = v
      · subst hw
        obtain ⟨d, hd⟩ := Option.ne_none_iff_exists'.mp (mt RbSet.lookup_eq_none_iff.mp
          (not_not_intro h))
        simp [hd]
      · rw [if_neg hw, if_neg hw]
  · next h =>
      rw [found_iff] at h
      rw [RbSet.lookup_insertIfAbsent]
      simp [h]

lemma lookup_updateLiveArg (a : QuadrArg ν β) (nud : BitVec 32) (s : DescrSet ν × KeySet ν)
    (w : ν) : (updateLiveArg a nud s).1.lookup w =
      if a.isVar w = true then some nud else s.1.lookup w := by
  cases a with
  | var v =>
      rw [updateLiveArg, lookup_updateLive]
      simp [QuadrArg.isVar, eq_comm]
  | _ => simp [updateLiveArg, QuadrArg.isVar]

lemma lookup_liveResult (q : Quadr ν β) (nud : BitVec 32) (s : DescrSet ν × KeySet ν) (w : ν) :
    (liveResult q nud s).1.lookup w =
      if q.op = .writePtr ∧ q.result.isVar w = true then some nud
      else if assignedInQuadr q w = true then none else s.1.lookup w := by
  unfold liveResult
  split
  · next v hv =>
      by_cases hop : q.op = .writePtr
      · have huse : usedInQuadr q v = true := usedInQuadr_iff.mpr (.inr (.inr ⟨hop, hv⟩))
        have hassign : ¬assignedInQuadr q v = true := fun h => (assignedInQuadr_iff.mp h).1 hop
        rw [if_neg hassign, if_pos huse, lookup_updateLive]
        simp [hop, hv, assignedInQuadr, QuadrArg.isVar, @eq_comm _ w]
      · rw [if_pos (assignedInQuadr_iff.mpr ⟨hop, hv⟩), lookup_rbDeleteFound]
        simp [hop, hv, assignedInQuadr, QuadrArg.isVar, @eq_comm _ w]
  · next hv =>
      have hv' : ¬q.result.isVar w = true := fun h => hv w (QuadrArg.isVar_iff.mp h)
      simp [hv', assignedInQuadr]

/-- A use in the quadruple number `i` sets the distance to `i`; an assignment forgets it. -/
lemma lookup_liveQuadr (q : Quadr ν β) (i : ℕ) (s : DescrSet ν × KeySet ν) (w : ν) :
    (liveQuadr q i s).1.lookup w =
      if usedInQuadr q w = true then some (BitVec.ofNat 32 i)
      else if assignedInQuadr q w = true then none else s.1.lookup w := by
  rw [liveQuadr, lookup_updateLiveArg, lookup_updateLiveArg, lookup_liveResult]
  simp only [usedInQuadr, Bool.or_eq_true, Bool.and_eq_true, decide_eq_true_eq]
  by_cases h₂ : q.arg2.isVar w = true
  · simp [h₂]
  · by_cases h₁ : q.arg1.isVar w = true
    · simp [h₁]
    · simp only [h₁, h₂, Bool.false_eq_true, if_false, false_or]

/-- The distance of an exposed use is the number of quadruples before it. -/
lemma lookup_foldr_liveQuadr {qs : List (Quadr ν β)} {v : ν} (h : Exposed qs v) (i : ℕ) :
    ∃ j, qs.findIdx? (fun q => usedInQuadr q v) = some j ∧
      ((qs.zipIdx i).foldr (fun qi s => liveQuadr qi.1 qi.2 s)
        (RbSet.empty, (RbSet.empty : KeySet ν))).1.lookup v = some (BitVec.ofNat 32 (i + j)) := by
  induction qs generalizing i with
  | nil => exact absurd h (not_exposed_nil v)
  | cons q qs ih =>
      rw [List.zipIdx_cons, List.foldr_cons, List.findIdx?_cons]
      dsimp only
      rw [lookup_liveQuadr]
      by_cases hused : usedInQuadr q v = true
      · exact ⟨0, by rw [if_pos hused], by rw [if_pos hused, add_zero]⟩
      · obtain ⟨hassigned, hqs⟩ := (exposed_cons.mp h).resolve_left hused
        obtain ⟨j, hj, hlook⟩ := ih hqs (i + 1)
        refine ⟨j + 1, by rw [if_neg hused, hj]; rfl, ?_⟩
        rw [if_neg hused, hassigned, if_neg Bool.false_ne_true, hlook, add_assoc, add_comm 1]

/-- The length of a block, and the number of quadruples in it before the first use. -/
def lengths (f : QuadrFunc ν n) : Lengths (Fin n) ν where
  weight b := (f.blocks b).length
  use b v := ((f.blocks b).findIdx? fun q => usedInQuadr q v).getD 0

/-- The number of all quadruples. -/
def quadrNum (f : QuadrFunc ν n) : ℕ := ∑ b, (f.blocks b).length

/-- The distances in the sets `live_in`. -/
def FlowState.nuds (s : FlowState ν n) : Dists (Fin n) ν := fun b v => nud? (s.flowData b).liveIn v

lemma FlowState.nuds_isSome {s : FlowState ν n} {b : Fin n} {v : ν} :
    (s.nuds b v).isSome = true ↔ v ∈ s.ins b := nud?_isSome_iff

lemma FlowState.arrived_nuds (s : FlowState ν n) : arrived s.nuds = s.ins := by
  funext b
  ext v
  exact FlowState.nuds_isSome

omit [LinearOrder ν] in
lemma length_le_quadrNum (f : QuadrFunc ν n) (b : Fin n) : (f.blocks b).length ≤ quadrNum f :=
  Finset.single_le_sum (f := fun b => (f.blocks b).length) (fun _ _ => Nat.zero_le _)
    (Finset.mem_univ b)

/-- An exposed use is within the block. -/
lemma use_lt {f : QuadrFunc ν n} {b : Fin n} {v : ν} (h : Exposed (f.blocks b) v) :
    (f.blocks b).findIdx? (fun q => usedInQuadr q v) = some ((lengths f).use b v) ∧
      (lengths f).use b v < (f.blocks b).length := by
  obtain ⟨j, hj, -⟩ := lookup_foldr_liveQuadr h 0
  have huse : (lengths f).use b v = j := by simp [lengths, hj]
  rw [huse]
  exact ⟨hj, (List.findIdx?_eq_some_iff_getElem.mp hj).1⟩

/-- The distances before the first round. -/
lemma nuds_initial {f : QuadrFunc ν n} (hnum : quadrNum f < 2 ^ 31) {b : Fin n} {v : ν}
    (h : v ∈ (problem f).gen b) : (initialState f).nuds b v = some ((lengths f).use b v) := by
  obtain ⟨j, hj, hlook⟩ := lookup_foldr_liveQuadr h 0
  obtain ⟨hidx, hlt⟩ := use_lt h
  obtain rfl := Option.some.inj (hj.symm.trans hidx)
  have hle := length_le_quadrNum f b
  rw [FlowState.nuds, nud?_eq_lookup]
  show Option.map BitVec.toNat ((computeLiveDefUse (f.blocks b)).liveIn.lookup v) = _
  rw [computeLiveDefUse]
  dsimp only
  rw [hlook, Option.map_some, zero_add, BitVec.toNat_ofNat, Nat.mod_eq_of_lt (by omega)]

/-! ## One round -/

/-- The distances do not exceed the lengths of the blocks together. -/
structure Measured (f : QuadrFunc ν n) (s : FlowState ν n) : Prop where
  instrs : ∀ b, (s.flowData b).instrNum = (f.blocks b).length
  spread : Spread (lengths f) s.nuds

lemma Measured.le_quadrNum {f : QuadrFunc ν n} {s : FlowState ν n} (h : Measured f s) {b : Fin n}
    {v : ν} {d : ℕ} (hd : s.nuds b v = some d) : d ≤ quadrNum f :=
  h.spread.le_sum hd

namespace FlowState

lemma nuds_setIn (s : FlowState ν n) (b : Fin n) (t : DescrSet ν) :
    (s.setIn b t).nuds = Function.update s.nuds b (nud? t) := by
  funext c v
  by_cases h : c = b
  · subst h
    simp [nuds, setIn]
  · simp [nuds, setIn, h]

@[simp] lemma nuds_setOut (s : FlowState ν n) (b : Fin n) (t : KeySet ν) :
    (s.setOut b t).nuds = s.nuds := by
  funext c v
  by_cases h : c = b
  · subst h
    simp [nuds, setOut]
  · simp [nuds, setOut, h]

lemma instrNum_setIn (s : FlowState ν n) (b c : Fin n) (t : DescrSet ν) :
    ((s.setIn b t).flowData c).instrNum = (s.flowData c).instrNum := by
  by_cases h : c = b
  · subst h
    simp [setIn]
  · simp [setIn, h]

lemma instrNum_setOut (s : FlowState ν n) (b c : Fin n) (t : KeySet ν) :
    ((s.setOut b t).flowData c).instrNum = (s.flowData c).instrNum := by
  by_cases h : c = b
  · subst h
    simp [setOut]
  · simp [setOut, h]

end FlowState

/-- What the block `b` is given on the way from the state `s` to the state `s'`. -/
structure Passed (f : QuadrFunc ν n) (s : FlowState ν n) (b : Fin n) (given : ν → Option ℕ)
    (s' : FlowState ν n) : Prop where
  measured : Measured f s'
  nuds : s'.nuds = pass (s.kills b) (f.blocks b).length s.nuds b given

/-- An insertion keeps the distances within their bound. -/
lemma Measured.pass_one {f : QuadrFunc ν n} {s s' : FlowState ν n} (h : Measured f s)
    {b c : Fin n} {v : ν} {d : ℕ} (hd : s.nuds c v = some d) {K : Set ν}
    (hinstr : ∀ a, (s'.flowData a).instrNum = (s.flowData a).instrNum)
    (hnuds : s'.nuds = pass K (f.blocks b).length s.nuds b
      fun w => if w = v then some d else none) :
    Measured f s' := by
  refine ⟨fun a => (hinstr a).trans (h.instrs a), ?_⟩
  have hold : ∀ b' v' d', s.nuds b' v' = some d' → s'.nuds b' v' = some d' := by
    intro b' v' d' hd'
    rw [hnuds]
    exact pass_of_some hd'
  by_cases hn : s.nuds b v = none ∧ v ∉ K
  · refine h.spread.insert (b := b) hd hn.1 ?_ hold fun b' v' d' hd' => ?_
    · rw [hnuds, pass_self, hn.1, if_neg hn.2, if_pos rfl]
      rfl
    · by_cases heq : b' = b ∧ v' = v
      · exact .inr heq
      · left
        rw [hnuds] at hd'
        by_cases hb : b' = b
        · have hv : v' ≠ v := fun hv => heq ⟨hb, hv⟩
          rw [hb, pass_self, if_neg hv] at hd'
          simpa [hb] using hd'
        · rwa [pass_of_ne hb] at hd'
  · -- nothing new
    have hsame : s'.nuds = s.nuds := by
      rw [hnuds]
      funext b' v'
      by_cases hb : b' = b
      · subst hb
        rw [pass_self]
        by_cases hv : v' = v
        · subst hv
          rw [not_and_or, not_not] at hn
          rcases hn with hn | hn
          · obtain ⟨d', hd'⟩ := Option.ne_none_iff_exists'.mp hn
            rw [hd', Option.some_or]
          · simp [hn]
        · simp [hv]
      · rw [pass_of_ne hb]
    rw [hsame]
    exact h.spread

/-- One variable of the `in` set of a successor, with its distance. -/
lemma inOutNode_passed {f : QuadrFunc ν n} (hnum : quadrNum f < 2 ^ 31) {s : FlowState ν n}
    (h : Measured f s) {b c : Fin n} {v : ν} {nud : BitVec 32}
    (hd : s.nuds c v = some nud.toNat) :
    Passed f s b (fun w => if w = v then some nud.toNat else none) (inOutNode s b c v nud) := by
  have hlow := h.le_quadrNum hd
  have hlen := length_le_quadrNum f b
  have hsum : (nud + BitVec.ofNat 32 (s.flowData b).instrNum).toNat =
      (f.blocks b).length + nud.toNat := by
    rw [BitVec.toNat_add, BitVec.toNat_ofNat, h.instrs, Nat.mod_eq_of_lt (by omega),
      Nat.mod_eq_of_lt (by omega), add_comm]
  have hnuds : (inOutNode s b c v nud).nuds = pass (s.kills b) (f.blocks b).length s.nuds b
      fun w => if w = v then some nud.toNat else none := by
    rw [inOutNode, FlowState.nuds_setOut, updateIn]
    dsimp only
    split
    · next hdef =>
        -- killed by the block
        funext a w
        by_cases ha : a = b
        · subst ha
          rw [pass_self]
          by_cases hw : w = v
          · subst hw
            have hkill : w ∈ s.kills a := found_iff.mp hdef
            rw [if_pos hkill, Option.or_none]
          · simp [hw]
        · rw [pass_of_ne ha]
    · next hdef =>
        split
        · next hin =>
            -- already there: nothing becomes smaller
            have hmod : (s.flowData c).liveIn.modify v (fun d =>
                if d > nud + BitVec.ofNat 32 (s.flowData b).instrNum then
                  nud + BitVec.ofNat 32 (s.flowData b).instrNum else d) =
                (s.flowData c).liveIn := by
              refine RbSet.modify_eq_self fun d hlook => if_neg ?_
              rw [FlowState.nuds, nud?_eq_lookup, hlook, Option.map_some, Option.some.injEq] at hd
              rw [gt_iff_lt, BitVec.lt_def, hsum]
              omega
            rw [hmod, FlowState.nuds_setIn]
            have hsame : Function.update s.nuds c (nud? (s.flowData c).liveIn) = s.nuds :=
              Function.update_eq_self c s.nuds
            rw [hsame]
            funext a w
            by_cases ha : a = b
            · subst ha
              rw [pass_self]
              by_cases hw : w = v
              · subst hw
                obtain ⟨d, hd⟩ := Option.isSome_iff_exists.mp
                  (FlowState.nuds_isSome.mpr (found_iff.mp hin : w ∈ s.ins a))
                rw [hd, Option.some_or]
              · simp [hw]
            · rw [pass_of_ne ha]
        · next hin =>
            -- inserted
            rw [found_iff] at hdef hin
            have hset : ({ s.setIn b ((s.flowData b).liveIn.insertIfAbsent
                ⟨v, nud + BitVec.ofNat 32 (s.flowData b).instrNum⟩) with changed := true }
                  : FlowState ν n).nuds = Function.update s.nuds b
                    (nud? ((s.flowData b).liveIn.insertIfAbsent
                      ⟨v, nud + BitVec.ofNat 32 (s.flowData b).instrNum⟩)) :=
              s.nuds_setIn b _
            rw [hset]
            funext a w
            by_cases ha : a = b
            · subst ha
              rw [Function.update_self, pass_self, nud?_eq_lookup, RbSet.lookup_insertIfAbsent,
                FlowState.nuds, nud?_eq_lookup]
              by_cases hw : w = v
              · subst hw
                have hlook := RbSet.lookup_eq_none_iff.mpr hin
                have hkill : w ∉ s.kills a := hdef
                simp [hin, hlook, hkill, hsum]
              · simp [hw]
            · rw [Function.update_of_ne ha, pass_of_ne ha]
  refine ⟨h.pass_one hd (fun a => ?_) hnuds, hnuds⟩
  rw [inOutNode, FlowState.instrNum_setOut, updateIn]
  dsimp only
  split
  · rfl
  · split
    · exact s.instrNum_setIn _ _ _
    · exact s.instrNum_setIn _ _ _

/-- What is read from a node is the distance in the set. -/
lemma nud?_of_node? {t : DescrSet ν} {v : ν} {nd : NodeView ν (BitVec 32)}
    (h : node? t v = some nd) : nud? t v = some nd.key.rest.toNat := by
  unfold node? at h
  unfold nud?
  cases hs : t.search v with
  | nil => rw [hs] at h; cases h
  | node col l x r =>
      rw [hs] at h
      obtain rfl := Option.some.inj h
      rfl

/-- A list of variables that the successor has. -/
lemma foldl_passOn_passed {f : QuadrFunc ν n} (hnum : quadrNum f < 2 ^ 31) {b c : Fin n}
    (vs : List ν) {s : FlowState ν n} (h : Measured f s) (hvs : ∀ v ∈ vs, v ∈ s.ins c) :
    Passed f s b (fun v => if v ∈ vs then s.nuds c v else none) (vs.foldl (passOn b c) s) := by
  induction vs generalizing s with
  | nil =>
      refine ⟨h, funext fun a => ?_⟩
      by_cases ha : a = b
      · subst ha
        funext v
        simp [pass_self]
      · rw [pass_of_ne ha]
        rfl
  | cons v vs ih =>
      obtain ⟨nd, hnd⟩ := exists_node? (hvs v (by simp))
      have hd : s.nuds c v = some nd.key.rest.toNat := nud?_of_node? hnd
      have h₁ := inOutNode_passed hnum h (b := b) hd
      have hin₁ := (inOutNode_spec s (b := b) nd.key.rest (hvs v (by simp))).1
      have hs₁ : passOn b c s v = inOutNode s b c v nd.key.rest := by rw [passOn, hnd]
      rw [List.foldl_cons, hs₁]
      have h₂ := ih h₁.measured fun w hw =>
        hin₁.mem_ins.mpr (.inl (hvs w (List.mem_cons_of_mem v hw)))
      refine ⟨h₂.measured, ?_⟩
      rw [h₂.nuds, hin₁.kills, h₁.nuds]
      refine pass_pass fun w _ _ => ?_
      by_cases hw : w = v
      · subst hw
        simp [hd]
      · -- what the successor has does not change on the way
        by_cases hmem : w ∈ vs
        · obtain ⟨d, hd'⟩ := Option.isSome_iff_exists.mp
            (FlowState.nuds_isSome.mpr (hvs w (List.mem_cons_of_mem v hmem)))
          have hkeep := pass_of_some (K := s.kills b) (w := (f.blocks b).length) (b := b)
            (g := fun w => if w = v then some nd.key.rest.toNat else none) hd'
          simp [hw, hmem, hkeep, hd']
        · simp [hw, hmem]

/-- One successor, if there is one. -/
lemma childInOut_passed {f : QuadrFunc ν n} (hnum : quadrNum f < 2 ^ 31) {V : Finset ν}
    {s s' : FlowState ν n} (hV : Bounded V s) {fuel : ℕ} (hfuel : V.card < fuel) {b : Fin n}
    {oc : Option (Fin n)} (h : Measured f s) (heq : childInOut fuel s b oc = some s') :
    Passed f s b (fun v => oc.toList.findSome? (s.nuds · v)) s' := by
  cases oc with
  | none =>
      obtain rfl := Option.some.inj heq
      refine ⟨h, funext fun a => ?_⟩
      by_cases ha : a = b
      · subst ha
        funext v
        simp [pass_self]
      · rw [pass_of_ne ha]
  | some c =>
      obtain ⟨heq', -⟩ := computeInOut_eq (s.inTree c) ((hV.height_le c).trans_lt hfuel)
        (s := s) b (c := c) (p := []) rfl
      rw [childInOut, rootKey_eq] at heq
      obtain rfl := Option.some.inj (heq'.symm.trans heq)
      -- every entry of the successor's table is passed on once
      have hmem : ∀ v, v ∈ passOrder (s.inTree c) ↔ v ∈ s.ins c := by
        intro v
        rw [mem_passOrder, FlowState.inTree, RbSet.toList_keyTree]
        rfl
      have hpass := foldl_passOn_passed hnum (b := b) (passOrder (s.inTree c)) h
        fun v hv => (hmem v).mp hv
      refine ⟨hpass.measured, hpass.nuds.trans (pass_congr fun v _ _ => ?_)⟩
      simp only [Option.toList_some, List.findSome?_cons, List.findSome?_nil]
      by_cases hv : v ∈ passOrder (s.inTree c)
      · rw [if_pos hv]
        cases s.nuds c v <;> rfl
      · rw [if_neg hv]
        have hnone : s.nuds c v = none := by
          rw [← Option.not_isSome_iff_eq_none, FlowState.nuds_isSome, ← hmem]
          exact hv
        rw [hnone]

/-- **A block** takes the distance of a new variable from the first successor that has one. -/
lemma inOut_nuds {f : QuadrFunc ν n} (hnum : quadrNum f < 2 ^ 31) {V : Finset ν}
    {s s₁ s' : FlowState ν n} (hV : Bounded V s) (hkill : s.kills = (problem f).kill) {fuel : ℕ}
    (hfuel : V.card < fuel) {b : Fin n} (h : Measured f s)
    (heq₁ : childInOut fuel s b (children f b).1 = some s₁)
    (heq' : childInOut fuel s₁ b (children f b).2 = some s') :
    Measured f s' ∧ s'.nuds = visitDist (problem f) (lengths f) s.nuds b := by
  obtain ⟨s₂, heq₂, h₁, hV₁⟩ := childInOut_spec hV hfuel b (children f b).1
  obtain rfl := Option.some.inj (heq₂.symm.trans heq₁)
  have hp₁ := childInOut_passed hnum hV hfuel h heq₁
  have hp' := childInOut_passed hnum hV₁ hfuel hp₁.measured heq'
  refine ⟨hp'.measured, ?_⟩
  rw [hp'.nuds, h₁.kills, hp₁.nuds, hkill]
  refine pass_pass fun v hv hn => ?_
  show _ = (succs f b).findSome? (s.nuds · v)
  rw [succs, List.findSome?_append]
  cases hg : (children f b).1.toList.findSome? (s.nuds · v) with
  | some d => simp
  | none =>
      -- the first successor has nothing to give, so the second still has what it had
      have hsame : ∀ c, pass ((problem f).kill b) (f.blocks b).length s.nuds b
          (fun v => (children f b).1.toList.findSome? (s.nuds · v)) c v = s.nuds c v := by
        intro c
        by_cases hc : c = b
        · subst hc
          rw [pass_self, hg, hn]
          simp
        · rw [pass_of_ne hc]
      simp only [hsame]

/-- The distances after a part of a round. -/
structure RanDist (f : QuadrFunc ν n) (s : FlowState ν n) (l : List (Fin n))
    (s' : FlowState ν n) : Prop where
  measured : Measured f s'
  nuds : s'.nuds = roundDist (problem f) (lengths f) l s.nuds

lemma RanDist.append {f : QuadrFunc ν n} {s s' s'' : FlowState ν n} {l l' : List (Fin n)}
    (h : RanDist f s l s') (h' : RanDist f s' l' s'') : RanDist f s (l ++ l') s'' where
  measured := h'.measured
  nuds := by rw [h'.nuds, h.nuds, roundDist, roundDist, roundDist, List.foldl_append]

/-- The distances after `do_liveness`. -/
lemma doLiveness_nuds {f : QuadrFunc ν n} (hnum : quadrNum f < 2 ^ 31) {V : Finset ν} (k : ℕ)
    {s s' : FlowState ν n} {vis vis' : Finset (Fin n)} {b : Fin n} {l : List (Fin n)} {fuel : ℕ}
    (hs : Ready f V s vis) (h : Measured f s) (hdfs : dfs (succs f) k b vis = some (vis', l))
    (hfuel : V.card + k < fuel) (heq : doLiveness f fuel s b = some s') : RanDist f s l s' := by
  induction k generalizing s s' vis vis' b l fuel with
  | zero => cases hdfs
  | succ k ih =>
      obtain ⟨fuel, rfl⟩ : ∃ j, fuel = j + 1 := ⟨fuel - 1, by omega⟩
      -- a successor already visited is left alone, and a new one is a search one level deeper
      have henter : ∀ {s s' : FlowState ν n} {vis vis' : Finset (Fin n)} {l : List (Fin n)}
          {oc : Option (Fin n)}, Ready f V s vis → Measured f s →
          visitAll (dfs (succs f) k) oc.toList vis = some (vis', l) →
          enterChild (doLiveness f fuel) s oc = some s' → RanDist f s l s' ∧ Ready f V s' vis' := by
        intro s s' vis vis' l oc hs h hdfs heq
        obtain ⟨s₀, heq₀, -, hs₀⟩ := enterChild_spec (g := doLiveness f fuel)
          (fun hs h => doLiveness_spec k hs h (by omega)) hs hdfs
        obtain rfl := Option.some.inj (heq₀.symm.trans heq)
        refine ⟨?_, hs₀⟩
        cases oc with
        | none =>
            obtain ⟨rfl, rfl⟩ := Prod.mk.inj (Option.some.inj hdfs)
            obtain rfl := Option.some.inj heq
            exact ⟨h, rfl⟩
        | some c =>
            rw [Option.toList_some, visitAll] at hdfs
            obtain ⟨⟨vis₁, l₁⟩, h₁, hdfs⟩ := Option.bind_eq_some_iff.mp hdfs
            obtain ⟨rfl, rfl⟩ := Prod.mk.inj (Option.some.inj hdfs)
            rw [List.append_nil]
            rw [enterChild] at heq
            by_cases hc : c ∈ vis
            · obtain ⟨rfl, rfl⟩ := Prod.mk.inj (Option.some.inj ((if_pos hc).symm.trans h₁))
              rw [if_pos ((hs.marked c).mpr hc)] at heq
              obtain rfl := Option.some.inj heq
              exact ⟨h, rfl⟩
            · rw [if_neg fun hv => hc ((hs.marked c).mp hv)] at heq
              exact ih hs h ((if_neg hc).symm.trans h₁) (by omega) heq
      rw [dfs] at hdfs
      obtain ⟨⟨vis₀, l₀⟩, h₀, hdfs⟩ := Option.bind_eq_some_iff.mp hdfs
      obtain ⟨rfl, rfl⟩ := Prod.mk.inj (Option.some.inj hdfs)
      obtain ⟨vis₁, l₁, l₂, h₁, h₂, rfl⟩ := visitAll_append h₀
      rw [doLiveness] at heq
      obtain ⟨s₁, heq₁, heq⟩ := Option.bind_eq_some_iff.mp heq
      obtain ⟨s₂, heq₂, heq⟩ := Option.bind_eq_some_iff.mp heq
      obtain ⟨s₃, heq₃, heq⟩ := Option.bind_eq_some_iff.mp heq
      have hstart : Ready f V (s.visit b) (insert b vis) :=
        ⟨hs.bounded, hs.kills, hs.marked.visit hs.nonneg b, hs.nonneg⟩
      have hmeasured : Measured f (s.visit b) := ⟨h.instrs, h.spread⟩
      obtain ⟨hr₁, hs₁⟩ := henter hstart hmeasured h₁ heq₁
      obtain ⟨hr₂, hs₂⟩ := henter hs₁ hr₁.measured h₂ heq₂
      have hroom : V.card < fuel := by omega
      obtain ⟨hmeas, hnuds⟩ := inOut_nuds hnum hs₂.bounded hs₂.kills hroom hr₂.measured heq₃ heq
      have hblock : RanDist f s₂ [b] s' := ⟨hmeas, hnuds⟩
      have hall := (hr₁.append hr₂).append hblock
      exact ⟨hall.measured, hall.nuds⟩

/-! ## The analysis -/

/-- What is known of the distances after each round. -/
structure Distances (f : QuadrFunc ν n) (root : Fin n) (s : FlowState ν n) : Prop where
  measured : Measured f s
  kept : Kept (problem f) (lengths f) (postorder f root) s.nuds

/-- **A round** keeps it. -/
lemma Distances.round {f : QuadrFunc ν n} (hnum : quadrNum f < 2 ^ 31) {root : Fin n}
    {V : Finset ν} {k fuel : ℕ} {s s' : FlowState ν n} (h : After f root V k s) (hk : k < 32767)
    (hfuel : V.card + n < fuel) (hs : Distances f root s)
    (heq : doLiveness f fuel (startRound s) root = some s') : Distances f root s' := by
  obtain ⟨hready, -, -, hdata, -⟩ := h.ready hk
  obtain ⟨vis, hdfs, -⟩ := dfs_postorder f root
  have hnuds : (startRound s).nuds = s.nuds :=
    funext fun b => funext fun v => by rw [FlowState.nuds, hdata]; rfl
  have hmeas : Measured f (startRound s) :=
    ⟨fun b => by rw [hdata]; exact hs.measured.instrs b, by rw [hnuds]; exact hs.measured.spread⟩
  have hran := doLiveness_nuds hnum n hready hmeas hdfs hfuel heq
  refine ⟨hran.measured, ?_⟩
  rw [hran.nuds, hnuds]
  refine roundDist_kept (k := k) (closed_postorder f root) (fun b hb v => ?_) hs.kept
  rw [FlowState.arrived_nuds]
  exact h.ins b hb v

/-- Before the first round. -/
lemma distances_initial {f : QuadrFunc ν n} (hnum : quadrNum f < 2 ^ 31) (root : Fin n) :
    Distances f root (initialState f) := by
  have hmem : ∀ b v d, (initialState f).nuds b v = some d →
      v ∈ (problem f).gen b ∧ d = (lengths f).use b v := by
    intro b v d hd
    have hv : v ∈ (problem f).gen b :=
      mem_computeLiveDefUse_liveIn.mp (FlowState.nuds_isSome.mp (by rw [hd]; rfl))
    exact ⟨hv, Option.some.inj (hd.symm.trans (nuds_initial hnum hv))⟩
  refine ⟨⟨fun b => rfl, fun b v d hd => ?_⟩,
    ⟨fun b v hv => nuds_initial hnum hv, fun b v d hd => ?_,
      fun b v d hd hg => absurd (hmem b v d hd).1 hg⟩, fun _ b _ v d hd e he => ?_⟩
  · obtain ⟨hv, rfl⟩ := hmem b v d hd
    refine ⟨{b}, fun a ha => ?_, ?_⟩
    · rw [Finset.mem_singleton.mp ha, hd]
      rfl
    · rw [Finset.sum_singleton]
      exact (use_lt hv).2.le
  · obtain ⟨hv, rfl⟩ := hmem b v d hd
    exact .gen hv
  · obtain ⟨hv, rfl⟩ := hmem b v d hd
    cases he with
    | gen _ => exact le_rfl
    | step _ hg _ _ => exact absurd hv hg

/-- The table `vars_at_start` of a block in the results of the analysis. -/
def varsAtStart (r : List (BlockLiveness ν)) (b : Fin n) : DescrSet ν :=
  match r[b.val]? with
  | some res => res.varsAtStart
  | none => RbSet.empty

/-- The tables of all blocks that control can reach are right. -/
def TablesCorrect (f : QuadrFunc ν n) (root : Fin n) (r : List (BlockLiveness ν)) : Prop :=
  ∀ b, Reachable f root b → TableCorrect f (varsAtStart r) b

/-- The analysis ends, and the tables are right. -/
def DistancesCorrect (f : QuadrFunc ν (n + 1)) : Prop :=
  ∃ N, ∀ fuel ≥ N, ∃ r, analyzeLiveness fuel f = some r ∧ TablesCorrect f firstBlock r

/-- The run of an analysis that ends. -/
lemma analysis_run {f : QuadrFunc ν (n + 1)} (hnum : quadrNum f < 2 ^ 31)
    (h : Shallow f firstBlock) : ∃ N, ∀ fuel ≥ N, ∃ s r, analyzeLiveness fuel f = some r ∧
      Finished f firstBlock s ∧ Distances f firstBlock s ∧
      ∀ b, varsAtStart r b = (s.flowData b).liveIn := by
  obtain ⟨V, hV⟩ := exists_bound f
  refine ⟨V.card + (n + 1) + 32766 + 2, fun fuel hfuel => ?_⟩
  obtain ⟨s, heq, hfin, hdist⟩ := livenessLoop_invariant h (I := Distances f firstBlock)
    (fun ha hk hfuel hs heq => hs.round hnum ha hk hfuel heq) (after_initial hV firstBlock)
    (distances_initial hnum firstBlock) rfl (j := 32766) rfl hfuel
  obtain ⟨g, hg, hvars⟩ := finishAll_spec s
  refine ⟨s, _, by rw [analyzeLiveness, heq]; exact hg, hfin, hdist, fun b => ?_⟩
  have hget : ((List.finRange (n + 1)).map g)[b.val]? = some (g b) := by
    have hlt : b.val < (List.finRange (n + 1)).length := by
      rw [List.length_finRange]
      exact b.isLt
    rw [List.getElem?_map, List.getElem?_eq_getElem hlt, List.getElem_finRange]
    rfl
  rw [varsAtStart, hget]
  exact (hvars b).1

section Final

variable {f : QuadrFunc ν n} {root : Fin n} {s : FlowState ν n} {r : List (BlockLiveness ν)}

/-- The distance of a variable that goes through a block, in the tables of its successors. -/
lemma distanceFrom_of_through (hdist : Distances f root s) {b : Fin n} {v : ν} {d : ℕ}
    (hd : s.nuds b v = some d) (hg : v ∉ (problem f).gen b) :
    distanceFrom f s.nuds b (f.blocks b) v = some d ↔
      ∀ c ∈ succs f b, ∀ e, s.nuds c v = some e → d ≤ (f.blocks b).length + e := by
  obtain ⟨hk, c, hc, -, d', hd', rfl⟩ := hdist.kept.arrived.via b v d hd hg
  have hunused := (scanUses_of_not_exposed true hg (fun ha => hk ⟨ha, hg⟩) 0).1
  have hmem : d' ∈ (succs f b).filterMap fun c => s.nuds c v := List.mem_filterMap.mpr ⟨c, hc, hd'⟩
  have hmin : distanceFrom f s.nuds b (f.blocks b) v = some ((f.blocks b).length + d') ↔
      ((succs f b).filterMap fun c => s.nuds c v).min? = some d' := by
    rw [distanceFrom, hunused]
    simp
  refine hmin.trans (List.min?_eq_some_iff.trans ⟨fun h c hc e he => ?_, fun h => ⟨hmem, ?_⟩⟩)
  · exact Nat.add_le_add_left (h.2 e (List.mem_filterMap.mpr ⟨c, hc, he⟩)) _
  · intro e he
    obtain ⟨c, hc, he⟩ := List.mem_filterMap.mp he
    exact Nat.le_of_add_le_add_left (h c hc e he)

/-- The tables are right when no distance in them could be lowered by way of a successor. -/
lemma tablesCorrect_iff (hnum : quadrNum f < 2 ^ 31) (hfin : Finished f root s)
    (hdist : Distances f root s) (hvars : ∀ b, varsAtStart r b = (s.flowData b).liveIn) :
    TablesCorrect f root r ↔ LocallyMinimal (problem f) (lengths f) (postorder f root) s.nuds := by
  have htables : (fun c => nud? (varsAtStart r c)) = s.nuds := by
    funext c v
    rw [hvars]
    rfl
  constructor
  · intro h b hb v d hd hg c hc e he
    have hcorrect := (h b ((mem_postorder f root).mp hb)).dist v d
    rw [htables, congrFun (congrFun htables b) v] at hcorrect
    exact (distanceFrom_of_through hdist hd hg).mp (hcorrect hd) c hc e he
  · intro h b hb
    refine ⟨fun v => ?_, fun v d hd => ?_, fun v d hd => ?_⟩
    · rw [hvars]
      exact hfin.ins b hb v
    · rw [congrFun (congrFun htables b) v] at hd
      rw [htables]
      by_cases hg : v ∈ (problem f).gen b
      · have huse := hdist.kept.arrived.gen b v hg
        rw [hd] at huse
        rw [distanceFrom, (use_lt hg).1, Option.some.inj huse]
      · exact (distanceFrom_of_through hdist hd hg).mpr
          fun c hc e he => h b ((mem_postorder f root).mpr hb) v d hd hg c hc e he
    · rw [congrFun (congrFun htables b) v] at hd
      exact (hdist.measured.le_quadrNum hd).trans_lt hnum

/-- The tables are right when every variable that goes through a block comes from a nearest
successor. -/
lemma tablesCorrect_iff_nearestFirst (hnum : quadrNum f < 2 ^ 31) (hfin : Finished f root s)
    (hdist : Distances f root s) (hvars : ∀ b, varsAtStart r b = (s.flowData b).liveIn) :
    TablesCorrect f root r ↔ NearestFirst (problem f) (lengths f) (postorder f root) := by
  rw [tablesCorrect_iff hnum hfin hdist hvars]
  constructor
  · refine nearestFirst_of_locallyMinimal (closed_postorder f root) hdist.kept.arrived ?_
    intro b hb v hlive
    exact FlowState.nuds_isSome.mpr
      ((hfin.ins b ((mem_postorder f root).mp hb) v).mpr (live_iff.mp hlive))
  · exact fun h => hdist.kept.arrived.locallyMinimal (hdist.kept.minimal h)

end Final

/-- What the tables take to be right: the distances fit an `int`, everything live is found before
the marks run out, and each variable that goes through a block comes to it from a nearest
successor. -/
structure NearestArrive (f : QuadrFunc ν (n + 1)) : Prop where
  fits : quadrNum f < 2 ^ 31
  shallow : Shallow f firstBlock
  nearest : NearestFirst (problem f) (lengths f) (postorder f firstBlock)

/-- **The distances at the start of the blocks** are shortest where the variables arrive from
nearest successors, and only there. -/
theorem nearestUseDist_iff (f : QuadrFunc ν (n + 1)) :
    (NearestArrive f → DistancesCorrect f) ∧
      (quadrNum f < 2 ^ 31 → DistancesCorrect f → NearestArrive f) := by
  constructor
  · intro h
    obtain ⟨N, hN⟩ := analysis_run h.fits h.shallow
    refine ⟨N, fun fuel hfuel => ?_⟩
    obtain ⟨s, r, heq, hfin, hdist, hvars⟩ := hN fuel hfuel
    exact ⟨r, heq, (tablesCorrect_iff_nearestFirst h.fits hfin hdist hvars).mpr h.nearest⟩
  · rintro hnum ⟨N, hN⟩
    have hsh : Shallow f firstBlock := by
      by_contra hn
      obtain ⟨V, hV⟩ := exists_bound f
      obtain ⟨r, hr, -⟩ := hN (N + (V.card + (n + 1) + 32767 + 2)) (by omega)
      rw [analyzeLiveness, livenessLoop_of_not_shallow hn (after_initial hV firstBlock) rfl
        (j := 32767) rfl (by omega)] at hr
      cases hr
    obtain ⟨N', hN'⟩ := analysis_run hnum hsh
    obtain ⟨s, r, heq, hfin, hdist, hvars⟩ := hN' (N + N') (by omega)
    obtain ⟨r', heq', hcorrect⟩ := hN (N + N') (by omega)
    obtain rfl := Option.some.inj (heq.symm.trans heq')
    exact ⟨hnum, hsh, (tablesCorrect_iff_nearestFirst hnum hfin hdist hvars).mp hcorrect⟩

/-- **The analysis of `twoArms`** gives the variable `1` the distance by way of the farther
arm. -/
theorem nearestUseDist_farther : ∃ r, analyzeLiveness 12 twoArms = some r ∧
    nud? (varsAtStart r (firstBlock : Fin 3)) 1 = some 2 ∧
    distanceFrom twoArms (fun c => nud? (varsAtStart r c)) firstBlock
      (twoArms.blocks firstBlock) 1 = some 1 ∧ ¬TablesCorrect twoArms firstBlock r := by
  have h : (analyzeLiveness 12 twoArms).map (fun r =>
      (nud? (varsAtStart r (firstBlock : Fin 3)) 1,
        distanceFrom twoArms (fun c => nud? (varsAtStart r c)) firstBlock
          (twoArms.blocks firstBlock) 1)) = some (some 2, some 1) := by
    decide +kernel
  obtain ⟨r, hr, hpair⟩ := Option.map_eq_some_iff.mp h
  have htable := congrArg Prod.fst hpair
  have hshort := congrArg Prod.snd hpair
  refine ⟨r, hr, htable, hshort, fun hcorrect => ?_⟩
  have hdist := (hcorrect firstBlock .refl).dist 1 2 htable
  cases hshort.symm.trans hdist

lemma precedes_loopExit : Precedes (postorder loopExit firstBlock) 2 0 :=
  ⟨[2, 1], [], by decide, by decide⟩

/-- The variable comes to the head of the loop from the jump target. -/
lemma arrives_loopExit :
    ArrivesFrom (problem loopExit) (postorder loopExit firstBlock) 0 2 2 := by
  have hprec := precedes_loopExit
  refine ⟨0, ?_, [], [1], by decide, .inl ⟨hprec, .gen ((exposed_loopExit 2 2).mpr rfl)⟩, by simp⟩
  rw [within_zero]
  exact fun h => absurd ((exposed_loopExit 0 2).mp h) (by decide)

/-- What is live is found in two rounds, the second one for the way round the loop. -/
lemma within_loopExit {b : Fin 3} {v : ℕ} (h : Live (problem loopExit) b v) :
    Within (problem loopExit) (postorder loopExit firstBlock) 2 b v := by
  by_cases hexp : Exposed (loopExit.blocks b) v
  · exact .gen hexp
  · obtain rfl := eq_two_of_through h hexp
    have hhead : ∀ k, Within (problem loopExit) (postorder loopExit firstBlock) (k + 1) 0 2 :=
      fun k => .forward (by decide) precedes_loopExit (notMem_kill_loopExit 0)
        (.gen ((exposed_loopExit 2 2).mpr rfl))
    rcases block_cases b with rfl | rfl | rfl
    · exact hhead 1
    · exact (hhead 0).step (c := 0) (by decide) (notMem_kill_loopExit 1)
    · exact absurd ((exposed_loopExit 2 2).mpr rfl) hexp

theorem nearestUseDist_iff_loopExit : DistancesCorrect loopExit := by
  refine (nearestUseDist_iff loopExit).1 ⟨by decide, fun b _ v hlive => ?_, ?_⟩
  · exact (within_loopExit (live_iff.mpr hlive)).mono (by decide)
  · intro b _ v hgen hkill c hc c' hc' e hwalk
    rcases block_cases b with rfl | rfl | rfl
    · -- the exit is a nearest successor, since the variable is used at its start
      obtain rfl : v = 2 := eq_two_of_through (.step hc' hkill hwalk.live) hgen
      obtain rfl := arrives_loopExit.unique hkill hc
      exact ⟨0, Nat.zero_le e, .gen ((exposed_loopExit 2 2).mpr rfl)⟩
    · -- the only successor is the head of the loop
      obtain ⟨-, -, l₁, l₂, hs, -⟩ := hc
      obtain rfl : c' = 0 := List.mem_singleton.mp hc'
      obtain rfl : c = 0 := List.mem_singleton.mp <| by
        rw [show [0] = l₁ ++ c :: l₂ from hs]
        simp
      exact ⟨e, le_rfl, hwalk⟩
    · cases hc'

end Javalette.Flow
