import Javalette.Flow.Block
import Javalette.Library.DepthFirst

/-!
# One round of the analysis

`compute_in_out` adds the `in` set of a successor to the sets of a block, whatever the shape of
the tree and even when the tree is the one it inserts into: an insertion that happens while a
tree traverses itself finds the variable already there, so the shape stays.
-/

namespace Javalette.Flow

open Rbtree BackwardFlow

variable {ν : Type} [LinearOrder ν] {n : ℕ}

namespace FlowState

/-- The sets `live_in`. -/
def ins (s : FlowState ν n) : Facts (Fin n) ν := fun b => {v | v ∈ (s.flowData b).liveIn.keys}

/-- The sets `live_out`. -/
def outs (s : FlowState ν n) : Facts (Fin n) ν := fun b => {v | v ∈ (s.flowData b).liveOut.keys}

/-- The sets `live_def`. -/
def kills (s : FlowState ν n) : Facts (Fin n) ν := fun b => {v | v ∈ (s.flowData b).liveDef.keys}

/-- The shape of the tree `live_in` of a block. -/
def inTree (s : FlowState ν n) (b : Fin n) : ColorTree ν := (s.flowData b).liveIn.keyTree

end FlowState

/-- The facts `vs` have come to the start of a block of the state `s` through its end, and
nothing else has changed but the marks of the traversal. -/
structure InOut (s : FlowState ν n) (b : Fin n) (vs : Set ν) (s' : FlowState ν n) : Prop where
  marks : s'.visitedMark = s.visitedMark
  cur : s'.curVisitedMark = s.curVisitedMark
  kills : s'.kills = s.kills
  ins : s'.ins = Function.update s.ins b (s.ins b ∪ {v | v ∉ s.kills b ∧ v ∈ vs})
  outs : s'.outs = Function.update s.outs b (s.outs b ∪ vs)
  changed : s'.changed = true ↔ s.changed = true ∨ ∃ v ∈ vs, v ∉ s.kills b ∧ v ∉ s.ins b

namespace InOut

variable {s s' s'' : FlowState ν n} {b : Fin n} {vs vs' : Set ν}

lemma mem_ins_self (h : InOut s b vs s') {v : ν} :
    v ∈ s'.ins b ↔ v ∈ s.ins b ∨ v ∉ s.kills b ∧ v ∈ vs := by
  rw [h.ins, Function.update_self]
  rfl

lemma mem_ins (h : InOut s b vs s') {c : Fin n} {v : ν} :
    v ∈ s'.ins c ↔ v ∈ s.ins c ∨ c = b ∧ v ∉ s.kills b ∧ v ∈ vs := by
  by_cases hc : c = b
  · subst hc
    simp [h.mem_ins_self]
  · rw [h.ins, Function.update_of_ne hc]
    simp [hc]

lemma mem_outs (h : InOut s b vs s') {c : Fin n} {v : ν} :
    v ∈ s'.outs c ↔ v ∈ s.outs c ∨ c = b ∧ v ∈ vs := by
  by_cases hc : c = b
  · subst hc
    rw [h.outs, Function.update_self]
    simp
  · rw [h.outs, Function.update_of_ne hc]
    simp [hc]

lemma refl (s : FlowState ν n) (b : Fin n) : InOut s b ∅ s where
  marks := rfl
  cur := rfl
  kills := rfl
  ins := by simp
  outs := by simp
  changed := by simp

lemma trans (h : InOut s b vs s') (h' : InOut s' b vs' s'') : InOut s b (vs ∪ vs') s'' where
  marks := h'.marks.trans h.marks
  cur := h'.cur.trans h.cur
  kills := h'.kills.trans h.kills
  ins := by
    rw [h'.ins, h.ins, h.kills, Function.update_self, Function.update_idem]
    congr 1
    ext v
    simp only [Set.mem_union, Set.mem_ofPred_eq]
    tauto
  outs := by
    rw [h'.outs, h.outs, Function.update_self, Function.update_idem, Set.union_assoc]
  changed := by
    rw [h'.changed, h.changed, h.kills, or_assoc]
    refine or_congr_right ⟨?_, ?_⟩
    · rintro (⟨v, hv, hk, hn⟩ | ⟨v, hv, hk, hn⟩)
      · exact ⟨v, .inl hv, hk, hn⟩
      · exact ⟨v, .inr hv, hk, fun hin => hn (h.mem_ins_self.mpr (.inl hin))⟩
    · rintro ⟨v, hv | hv, hk, hn⟩
      · exact .inl ⟨v, hv, hk, hn⟩
      · by_cases hvs : v ∈ vs
        · exact .inl ⟨v, hvs, hk, hn⟩
        · refine .inr ⟨v, hv, hk, fun hin => ?_⟩
          exact (h.mem_ins_self.mp hin).elim hn fun h => hvs h.2

lemma congr (h : InOut s b vs s') (heq : ∀ v, v ∈ vs ↔ v ∈ vs') : InOut s b vs' s' :=
  (Set.ext heq : vs = vs') ▸ h

end InOut

/-! ## Single steps -/

namespace FlowState

variable (s : FlowState ν n) (b : Fin n)

lemma ins_setIn (t : DescrSet ν) :
    (s.setIn b t).ins = Function.update s.ins b {v | v ∈ t.keys} := by
  funext c
  by_cases h : c = b
  · subst h
    simp [ins, setIn]
  · simp [ins, setIn, h]

lemma inTree_setIn (t : DescrSet ν) :
    (s.setIn b t).inTree = Function.update s.inTree b t.keyTree := by
  funext c
  by_cases h : c = b
  · subst h
    simp [inTree, setIn]
  · simp [inTree, setIn, h]

@[simp] lemma outs_setIn (t : DescrSet ν) : (s.setIn b t).outs = s.outs := by
  funext c
  by_cases h : c = b
  · subst h
    simp [outs, setIn]
  · simp [outs, setIn, h]

@[simp] lemma kills_setIn (t : DescrSet ν) : (s.setIn b t).kills = s.kills := by
  funext c
  by_cases h : c = b
  · subst h
    simp [kills, setIn]
  · simp [kills, setIn, h]

lemma outs_setOut (t : KeySet ν) :
    (s.setOut b t).outs = Function.update s.outs b {v | v ∈ t.keys} := by
  funext c
  by_cases h : c = b
  · subst h
    simp [outs, setOut]
  · simp [outs, setOut, h]

@[simp] lemma ins_setOut (t : KeySet ν) : (s.setOut b t).ins = s.ins := by
  funext c
  by_cases h : c = b
  · subst h
    simp [ins, setOut]
  · simp [ins, setOut, h]

@[simp] lemma inTree_setOut (t : KeySet ν) : (s.setOut b t).inTree = s.inTree := by
  funext c
  by_cases h : c = b
  · subst h
    simp [inTree, setOut]
  · simp [inTree, setOut, h]

@[simp] lemma kills_setOut (t : KeySet ν) : (s.setOut b t).kills = s.kills := by
  funext c
  by_cases h : c = b
  · subst h
    simp [kills, setOut]
  · simp [kills, setOut, h]

end FlowState

/-- A turn that leaves the marks and `live_out` alone until the insertion at its end. -/
lemma InOut.setOut {s s' : FlowState ν n} {b : Fin n} {v : ν}
    (marks : s'.visitedMark = s.visitedMark) (cur : s'.curVisitedMark = s.curVisitedMark)
    (kills : s'.kills = s.kills) (outs : s'.outs = s.outs)
    (ins : s'.ins = Function.update s.ins b (s.ins b ∪ {w | w ∉ s.kills b ∧ w ∈ ({v} : Set ν)}))
    (changed : s'.changed = true ↔ s.changed = true ∨ v ∉ s.kills b ∧ v ∉ s.ins b) :
    InOut s b {v} (s'.setOut b ((s'.flowData b).liveOut.insertIfAbsent ⟨v, ()⟩)) where
  marks := marks
  cur := cur
  kills := by rw [FlowState.kills_setOut, kills]
  ins := by rw [FlowState.ins_setOut, ins]
  outs := by
    rw [FlowState.outs_setOut, outs]
    congr 1
    ext w
    rw [Set.mem_union, Set.mem_singleton_iff, or_comm, ← outs]
    exact RbSet.mem_keys_insertIfAbsent
  changed := by simpa [FlowState.setOut] using changed

/-- One variable of the `in` set of a successor. -/
lemma inOutNode_spec (s : FlowState ν n) {b c : Fin n} {v : ν} (nud : BitVec 32)
    (hv : v ∈ s.ins c) :
    InOut s b {v} (inOutNode s b c v nud) ∧ (inOutNode s b c v nud).inTree c = s.inTree c := by
  rw [inOutNode, FlowState.inTree_setOut]
  by_cases hdef : v ∈ s.kills b
  · -- killed by the block
    have heq : updateIn s b c v nud = s := if_pos (found_iff.mpr hdef)
    rw [heq]
    refine ⟨.setOut rfl rfl rfl rfl ?_ (by simp [hdef]), rfl⟩
    have hempty : {w | w ∉ s.kills b ∧ w ∈ ({v} : Set ν)} = ∅ := by
      ext w
      simp only [Set.mem_ofPred_eq, Set.mem_singleton_iff, Set.mem_empty_iff_false, iff_false,
        not_and]
      rintro hw rfl
      exact hw hdef
    rw [hempty, Set.union_empty, Function.update_eq_self]
  · have hdef' : ¬found (s.flowData b).liveDef v = true := fun h => hdef (found_iff.mp h)
    have hsingle : {w | w ∉ s.kills b ∧ w ∈ ({v} : Set ν)} = {v} := by
      ext w
      simp only [Set.mem_ofPred_eq, Set.mem_singleton_iff, and_iff_right_iff_imp]
      rintro rfl
      exact hdef
    by_cases hin : v ∈ s.ins b
    · -- already there: the traversed node is updated in place
      have heq : updateIn s b c v nud = s.setIn c _ :=
        (if_neg hdef').trans (if_pos (found_iff.mpr hin))
      rw [heq]
      refine ⟨.setOut rfl rfl (s.kills_setIn _ _) (s.outs_setIn _ _) ?_ ?_, ?_⟩
      · rw [FlowState.ins_setIn, hsingle, Set.union_singleton, Set.insert_eq_of_mem hin,
          Function.update_eq_self, RbSet.keys_modify]
        exact Function.update_eq_self c s.ins
      · simp [FlowState.setIn, hdef, hin]
      · rw [FlowState.inTree_setIn, Function.update_self, RbSet.keyTree_modify]
        rfl
    · -- inserted; then the block is not its own successor here
      have hne : c ≠ b := fun h => hin (h ▸ hv)
      have hin' : ¬found (s.flowData b).liveIn v = true := fun h => hin (found_iff.mp h)
      have heq : updateIn s b c v nud = { s.setIn b _ with changed := true } :=
        (if_neg hdef').trans (if_neg hin')
      rw [heq]
      refine ⟨.setOut rfl rfl (s.kills_setIn _ _) (s.outs_setIn _ _) ?_ (by simp [hdef, hin]), ?_⟩
      · refine (s.ins_setIn _ _).trans ?_
        congr 1
        ext w
        rw [hsingle, Set.mem_union, Set.mem_singleton_iff, or_comm]
        exact RbSet.mem_keys_insertIfAbsent
      · refine (congrFun (s.inTree_setIn _ _) c).trans ?_
        rw [Function.update_of_ne hne]

/-! ## `compute_in_out` -/

/-- The key at the root of a tree of keys. -/
def rootVal : ColorTree ν → Option ν
  | .nil => none
  | .node _ _ v _ => some v

omit [LinearOrder ν] in
lemma rootKey_eq {δ : Type} (t : ColorTree (RbPair ν δ)) :
    rootKey t = rootVal (t.map RbPair.first) := by
  cases t <;> rfl

/-- Reading a node that is somewhere in the tree. -/
lemma node?_eq {δ : Type} {s : RbSet ν δ} {p : ColorTree.Path ν} {col : Color}
    {l r : ColorTree ν} {v : ν} (h : ColorTree.plug p (.node col l v r) = s.keyTree) :
    ∃ x, node? s v = some ⟨x, rootVal l, rootVal r⟩ := by
  obtain ⟨q, t, hq, ht⟩ := ColorTree.exists_of_map_eq_plug h.symm
  cases t with
  | nil => cases ht
  | node col' l' x r' =>
      obtain ⟨-, rfl, rfl, rfl⟩ := ColorTree.node.inj ht
      refine ⟨x, ?_⟩
      rw [node?, RbSet.search_of_plug hq.symm]
      dsimp only
      rw [rootKey_eq, rootKey_eq]

/-- A variable of a part of the tree `live_in` is in the set. -/
lemma mem_ins_of_plug {s : FlowState ν n} {c : Fin n} {p : ColorTree.Path ν} {t : ColorTree ν}
    (h : ColorTree.plug p t = s.inTree c) {v : ν} (hv : v ∈ t.toList) : v ∈ s.ins c := by
  show v ∈ (s.flowData c).liveIn.keys
  rw [← RbSet.toList_keyTree, ← FlowState.inTree, ← h, ColorTree.toList_plug]
  simp [hv]

/-- The order in which `compute_in_out` goes through a tree. -/
def passOrder : ColorTree ν → List ν
  | .nil => []
  | .node _ l v r => v :: (passOrder r ++ passOrder l)

omit [LinearOrder ν] in
lemma mem_passOrder {t : ColorTree ν} {v : ν} : v ∈ passOrder t ↔ v ∈ t.toList := by
  induction t with
  | nil => rfl
  | node col l w r ihl ihr =>
      rw [passOrder, List.mem_cons, List.mem_append, ihl, ihr, ColorTree.toList_node,
        List.mem_append, List.mem_cons]
      tauto

/-- What `compute_in_out` does at the node of a variable. -/
def passOn (b c : Fin n) (s : FlowState ν n) (v : ν) : FlowState ν n :=
  match node? (s.flowData c).liveIn v with
  | none => s
  | some nd => inOutNode s b c v nd.key.rest

/-- The node of a variable that is in the set. -/
lemma exists_node? {s : FlowState ν n} {c : Fin n} {v : ν} (hv : v ∈ s.ins c) :
    ∃ nd, node? (s.flowData c).liveIn v = some nd := by
  unfold node?
  rcases (s.flowData c).liveIn.search_spec v with ⟨-, hn⟩ | ⟨col, l, x, r, h, -, -⟩
  · exact absurd hv hn
  · exact ⟨⟨x, rootKey l, rootKey r⟩, by rw [h]⟩

lemma passOn_spec {s : FlowState ν n} (b : Fin n) {c : Fin n} {v : ν} (hv : v ∈ s.ins c) :
    InOut s b {v} (passOn b c s v) ∧ (passOn b c s v).inTree c = s.inTree c := by
  obtain ⟨nd, hnd⟩ := exists_node? hv
  rw [passOn, hnd]
  exact inOutNode_spec s nd.key.rest hv

/-- **`compute_in_out`** goes through the nodes in their order, whatever happens to the tree on
the way. -/
lemma computeInOut_eq (t : ColorTree ν) {fuel : ℕ} (hfuel : t.height < fuel)
    {s : FlowState ν n} (b : Fin n) {c : Fin n} {p : ColorTree.Path ν}
    (h : ColorTree.plug p t = s.inTree c) :
    computeInOut fuel s b c (rootVal t) = some ((passOrder t).foldl (passOn b c) s) ∧
      ((passOrder t).foldl (passOn b c) s).inTree c = s.inTree c := by
  obtain ⟨fuel, rfl⟩ : ∃ k, fuel = k + 1 := ⟨fuel - 1, by omega⟩
  induction t generalizing s p fuel with
  | nil => exact ⟨rfl, rfl⟩
  | node col l v r ihl ihr =>
      rw [ColorTree.height] at hfuel
      obtain ⟨fuel, rfl⟩ : ∃ k, fuel = k + 1 := ⟨fuel - 1, by omega⟩
      obtain ⟨x, hx⟩ := node?_eq (s := (s.flowData c).liveIn) h
      obtain ⟨-, ht₁⟩ := passOn_spec b (mem_ins_of_plug h (v := v) (by simp))
      have hs₁ : passOn b c s v = inOutNode s b c v x.rest := by rw [passOn, hx]
      set s₁ := passOn b c s v
      have hplug₁ : ColorTree.plug p (.node col l v r) = s₁.inTree c := h.trans ht₁.symm
      obtain ⟨x₁, hx₁⟩ := node?_eq (s := (s₁.flowData c).liveIn) hplug₁
      obtain ⟨heq₂, ht₂⟩ := ihr (s := s₁) (p := ⟨.right, col, v, l⟩ :: p) hplug₁ fuel (by omega)
      set s₂ := (passOrder r).foldl (passOn b c) s₁ with hs₂
      have hplug₂ : ColorTree.plug p (.node col l v r) = s₂.inTree c := hplug₁.trans ht₂.symm
      obtain ⟨x₂, hx₂⟩ := node?_eq (s := (s₂.flowData c).liveIn) hplug₂
      obtain ⟨heq₃, ht₃⟩ := ihl (s := s₂) (p := ⟨.left, col, v, r⟩ :: p) hplug₂ fuel (by omega)
      -- the passes change counts only, so the node is found in the same tree after each of them
      have hright : descend (fun s v => computeInOut (fuel + 1) s b c v) s₁ (rootVal r) =
          some s₂ := by
        cases r with
        | nil => exact heq₂
        | node colr lr vr rr => exact heq₂
      have hfold : (passOrder (.node col l v r)).foldl (passOn b c) s =
          (passOrder l).foldl (passOn b c) s₂ := by
        rw [passOrder, List.foldl_cons, List.foldl_append]
      rw [hfold]
      refine ⟨?_, ht₃.trans (ht₂.trans ht₁)⟩
      rw [rootVal, computeInOut, hx]
      simp only [Option.bind_eq_bind, Option.bind_some, ← hs₁, hx₁]
      rw [hright, Option.bind_some, hx₂, Option.bind_some, heq₃]

/-- A list of variables that the successor has. -/
lemma foldl_passOn_spec {b c : Fin n} (vs : List ν) {s : FlowState ν n}
    (hvs : ∀ v ∈ vs, v ∈ s.ins c) : InOut s b {v | v ∈ vs} (vs.foldl (passOn b c) s) := by
  induction vs generalizing s with
  | nil => exact (InOut.refl s b).congr (by simp)
  | cons v vs ih =>
      obtain ⟨h₁, -⟩ := passOn_spec b (hvs v (by simp))
      have h₂ := ih (s := passOn b c s v) fun w hw =>
        h₁.mem_ins.mpr (.inl (hvs w (List.mem_cons_of_mem v hw)))
      exact (h₁.trans h₂).congr (by simp)

/-- **`compute_in_out`** passes on every variable below the node it is called for. -/
lemma computeInOut_spec (t : ColorTree ν) {fuel : ℕ} (hfuel : t.height < fuel)
    {s : FlowState ν n} (b : Fin n) {c : Fin n} {p : ColorTree.Path ν}
    (h : ColorTree.plug p t = s.inTree c) :
    ∃ s', computeInOut fuel s b c (rootVal t) = some s' ∧ InOut s b {v | v ∈ t.toList} s' ∧
      s'.inTree c = s.inTree c := by
  obtain ⟨heq, ht⟩ := computeInOut_eq t hfuel b h
  refine ⟨_, heq, (foldl_passOn_spec (passOrder t) fun v hv => ?_).congr fun v => ?_, ht⟩
  · exact mem_ins_of_plug h (mem_passOrder.mp hv)
  · exact mem_passOrder

/-! ## A block -/

/-- The variables of all the sets `live_in` are among `V`. -/
def Bounded (V : Finset ν) (s : FlowState ν n) : Prop := ∀ b, ∀ v ∈ s.ins b, v ∈ V

/-- The tree of a bounded set is not higher than the bound allows. -/
lemma Bounded.height_le {V : Finset ν} {s : FlowState ν n} (hV : Bounded V s) (b : Fin n) :
    (s.inTree b).height ≤ V.card := by
  refine (ColorTree.height_le_length _).trans ?_
  have hnd := RbSet.keys_nodup (s.flowData b).liveIn
  rw [FlowState.inTree, RbSet.toList_keyTree, ← List.toFinset_card_of_nodup hnd]
  exact Finset.card_le_card fun v hv => hV b v (List.mem_toFinset.mp hv)

lemma InOut.bounded {V : Finset ν} {s s' : FlowState ν n} {b : Fin n} {vs : Set ν}
    (h : InOut s b vs s') (hV : Bounded V s) (hvs : ∀ v ∈ vs, v ∈ V) : Bounded V s' := by
  intro c v hv
  exact (h.mem_ins.mp hv).elim (hV c v) fun h => hvs v h.2.2

/-- One successor of a block, if there is one. -/
lemma childInOut_spec {V : Finset ν} {s : FlowState ν n} (hV : Bounded V s) {fuel : ℕ}
    (hfuel : V.card < fuel) (b : Fin n) (oc : Option (Fin n)) :
    ∃ s', childInOut fuel s b oc = some s' ∧ InOut s b {v | ∃ c ∈ oc, v ∈ s.ins c} s' ∧
      Bounded V s' := by
  cases oc with
  | none =>
      refine ⟨s, rfl, (InOut.refl s b).congr (by simp), hV⟩
  | some c =>
      obtain ⟨s', heq, h, -⟩ := computeInOut_spec (s.inTree c) ((hV.height_le c).trans_lt hfuel)
        (s := s) b (c := c) (p := []) rfl
      have hvs : ∀ v, v ∈ (s.inTree c).toList ↔ ∃ c' ∈ some c, v ∈ s.ins c' := by
        intro v
        rw [FlowState.inTree, RbSet.toList_keyTree]
        simp [FlowState.ins]
      refine ⟨s', ?_, h.congr hvs, h.bounded hV fun v hv => ?_⟩
      · rw [childInOut, rootKey_eq]
        exact heq
      · obtain ⟨c', -, hv⟩ := (hvs v).mp hv
        exact hV c' v hv

/-- A round over the blocks `l` has led from the state `s` to the state `s'`. -/
structure Ran (f : QuadrFunc ν n) (s : FlowState ν n) (l : List (Fin n)) (s' : FlowState ν n) :
    Prop where
  cur : s'.curVisitedMark = s.curVisitedMark
  marks : ∀ b, s'.visitedMark b = s.visitedMark b ∨ s'.visitedMark b = s.curVisitedMark
  kills : s'.kills = s.kills
  ins : s'.ins = roundOver (problem f) l s.ins
  changed : s'.changed = true ↔ s.changed = true ∨ ∃ b v, v ∈ s'.ins b ∧ v ∉ s.ins b
  outs_mono : ∀ b, s.outs b ⊆ s'.outs b
  outs_sub : ∀ b, ∀ v ∈ s'.outs b, v ∈ s.outs b ∨ ∃ c ∈ succs f b, v ∈ s'.ins c
  outs_sup : ∀ b ∈ l, ∀ c ∈ succs f b, s.ins c ⊆ s'.outs b

namespace Ran

variable {f : QuadrFunc ν n} {s s' s'' : FlowState ν n} {l l' : List (Fin n)}

lemma ins_mono (h : Ran f s l s') (b : Fin n) : s.ins b ⊆ s'.ins b := by
  rw [h.ins]
  exact subset_round l s.ins b

/-- Marking a block changes no set. -/
lemma visit (f : QuadrFunc ν n) (s : FlowState ν n) (b : Fin n) : Ran f s [] (s.visit b) where
  cur := rfl
  marks c := by
    by_cases hc : c = b
    · subst hc
      exact .inr (Function.update_self ..)
    · exact .inl (Function.update_of_ne hc ..)
  kills := rfl
  ins := rfl
  changed := ⟨.inl, fun h => h.elim id fun ⟨_, _, hv, hn⟩ => absurd hv hn⟩
  outs_mono _ := subset_rfl
  outs_sub _ _ hv := .inl hv
  outs_sup := by simp

lemma refl (f : QuadrFunc ν n) (s : FlowState ν n) : Ran f s [] s where
  cur := rfl
  marks _ := .inl rfl
  kills := rfl
  ins := rfl
  changed := ⟨.inl, fun h => h.elim id fun ⟨_, _, hv, hn⟩ => absurd hv hn⟩
  outs_mono _ := subset_rfl
  outs_sub _ _ hv := .inl hv
  outs_sup := by simp

lemma append (h : Ran f s l s') (h' : Ran f s' l' s'') : Ran f s (l ++ l') s'' where
  cur := h'.cur.trans h.cur
  marks b := by
    rcases h'.marks b with hm | hm
    · rw [hm]
      exact h.marks b
    · exact .inr (hm.trans h.cur)
  kills := h'.kills.trans h.kills
  ins := by rw [h'.ins, h.ins, roundOver, roundOver, roundOver, List.foldl_append]
  changed := by
    rw [h'.changed, h.changed, or_assoc]
    refine or_congr_right ⟨?_, ?_⟩
    · rintro (⟨b, v, hv, hn⟩ | ⟨b, v, hv, hn⟩)
      · exact ⟨b, v, h'.ins_mono b hv, hn⟩
      · exact ⟨b, v, hv, fun hin => hn (h.ins_mono b hin)⟩
    · rintro ⟨b, v, hv, hn⟩
      -- what was added in the end came in the first part or in the second
      by_cases hin : v ∈ s'.ins b
      · exact .inl ⟨b, v, hin, hn⟩
      · exact .inr ⟨b, v, hv, hin⟩
  outs_mono b := (h.outs_mono b).trans (h'.outs_mono b)
  outs_sub b v hv := by
    rcases h'.outs_sub b v hv with hv | hv
    · rcases h.outs_sub b v hv with hv | hv
      · exact .inl hv
      · obtain ⟨c, hc, hv⟩ := hv
        exact .inr ⟨c, hc, h'.ins_mono c hv⟩
    · exact .inr hv
  outs_sup b hb c hc := by
    rcases List.mem_append.mp hb with hb | hb
    · exact (h.outs_sup b hb c hc).trans (h'.outs_mono b)
    · exact (h.ins_mono c).trans (h'.outs_sup b hb c hc)

end Ran

/-- Adding the `in` sets of all its successors to the sets of a block is one visit. -/
lemma InOut.ran {f : QuadrFunc ν n} {s s' : FlowState ν n} {b : Fin n}
    (h : InOut s b {v | ∃ c ∈ succs f b, v ∈ s.ins c} s') (hkill : s.kills = (problem f).kill) :
    Ran f s [b] s' where
  cur := h.cur
  marks c := .inl (congrFun h.marks c)
  kills := h.kills
  ins := by
    rw [h.ins, hkill]
    rfl
  changed := by
    rw [h.changed]
    refine or_congr_right ⟨?_, ?_⟩
    · rintro ⟨v, hv, hk, hn⟩
      exact ⟨b, v, h.mem_ins_self.mpr (.inr ⟨hk, hv⟩), hn⟩
    · rintro ⟨c, v, hv, hn⟩
      obtain ⟨rfl, hk, hv⟩ := (h.mem_ins.mp hv).resolve_left hn
      exact ⟨v, hv, hk, hn⟩
  outs_mono c v hv := h.mem_outs.mpr (.inl hv)
  outs_sub c v hv := by
    refine (h.mem_outs.mp hv).imp_right ?_
    rintro ⟨rfl, d, hd, hv⟩
    exact ⟨d, hd, h.mem_ins.mpr (.inl hv)⟩
  outs_sup c hc d hd v hv := by
    obtain rfl := List.mem_singleton.mp hc
    exact h.mem_outs.mpr (.inr ⟨rfl, d, hd, hv⟩)

omit [LinearOrder ν] in
lemma mem_succs {f : QuadrFunc ν n} {b c : Fin n} :
    c ∈ succs f b ↔ c ∈ (children f b).1 ∨ c ∈ (children f b).2 := by
  simp [succs]

/-- **A block**: after its successors have been visited it gets their `in` sets.  What the
first successor changes in the second, when this is the block itself, the block has anyway. -/
lemma inOut_ran {f : QuadrFunc ν n} {V : Finset ν} {s : FlowState ν n} (hV : Bounded V s)
    (hkill : s.kills = (problem f).kill) {fuel : ℕ} (hfuel : V.card < fuel) (b : Fin n) :
    ∃ s₁ s', childInOut fuel s b (children f b).1 = some s₁ ∧
      childInOut fuel s₁ b (children f b).2 = some s' ∧ Ran f s [b] s' ∧ Bounded V s' ∧
      s'.visitedMark = s.visitedMark := by
  obtain ⟨s₁, heq₁, h₁, hV₁⟩ := childInOut_spec hV hfuel b (children f b).1
  obtain ⟨s', heq', h', hV'⟩ := childInOut_spec hV₁ hfuel b (children f b).2
  have h : InOut s b {v | ∃ c ∈ succs f b, v ∈ s.ins c} s' := by
    refine (h₁.trans h').congr fun v => ⟨?_, ?_⟩
    · rintro (⟨c, hc, hv⟩ | ⟨c, hc, hv⟩)
      · exact ⟨c, mem_succs.mpr (.inl hc), hv⟩
      · rcases h₁.mem_ins.mp hv with hv | ⟨-, -, c', hc', hv⟩
        · exact ⟨c, mem_succs.mpr (.inr hc), hv⟩
        · exact ⟨c', mem_succs.mpr (.inl hc'), hv⟩
    · rintro ⟨c, hc, hv⟩
      rcases mem_succs.mp hc with hc | hc
      · exact .inl ⟨c, hc, hv⟩
      · exact .inr ⟨c, hc, h₁.mem_ins.mpr (.inl hv)⟩
  exact ⟨s₁, s', heq₁, heq', h.ran hkill, hV', h'.marks.trans h₁.marks⟩

/-! ## `do_liveness` -/

open DepthFirst

/-- The marks of the current traversal are on the blocks `vis`. -/
def Marked (s : FlowState ν n) (vis : Finset (Fin n)) : Prop :=
  ∀ b, s.visited b = true ↔ b ∈ vis

/-- The mark of the current traversal is not negative. -/
def Nonneg (s : FlowState ν n) : Prop := s.curVisitedMark.toNat < 2 ^ 15

lemma visited_iff {s : FlowState ν n} (h : Nonneg s) (b : Fin n) :
    s.visited b = true ↔ s.visitedMark b = s.curVisitedMark := by
  rw [FlowState.visited, decide_eq_true_eq, BitVec.toInt_eq_toNat_of_lt, Nat.cast_inj,
    BitVec.toNat_inj]
  exact (by simpa [Nonneg] using (show 2 * s.curVisitedMark.toNat < 2 ^ 16 by
    have := h
    unfold Nonneg at this
    omega))

lemma Marked.visit {s : FlowState ν n} {vis : Finset (Fin n)} (h : Marked s vis) (hn : Nonneg s)
    (b : Fin n) : Marked (s.visit b) (insert b vis) := by
  intro c
  rw [visited_iff (s := s.visit b) hn, Finset.mem_insert, ← h c, visited_iff hn]
  by_cases hc : c = b
  · subst hc
    simp [FlowState.visit]
  · simp [FlowState.visit, hc]

/-- The state in which a traversal has come to the blocks `vis`. -/
structure Ready (f : QuadrFunc ν n) (V : Finset ν) (s : FlowState ν n) (vis : Finset (Fin n)) :
    Prop where
  bounded : Bounded V s
  kills : s.kills = (problem f).kill
  marked : Marked s vis
  nonneg : Nonneg s

section Traversal

variable {f : QuadrFunc ν n} {V : Finset ν}

/-- A step that keeps the marks and the current mark keeps a traversal where it is. -/
lemma Ready.congr {s s' : FlowState ν n} {vis : Finset (Fin n)} (h : Ready f V s vis)
    {l : List (Fin n)} (hr : Ran f s l s') (hV : Bounded V s')
    (hm : s'.visitedMark = s.visitedMark) : Ready f V s' vis where
  bounded := hV
  kills := hr.kills.trans h.kills
  marked b := by rw [← h.marked b, FlowState.visited, FlowState.visited, hm, hr.cur]
  nonneg := by
    rw [Nonneg, hr.cur]
    exact h.nonneg

/-- One child, if there is one and it has not been visited. -/
lemma enterChild_spec {k : ℕ} {g : FlowState ν n → Fin n → Option (FlowState ν n)}
    (hgo : ∀ {s vis c vis' l}, Ready f V s vis → dfs (succs f) k c vis = some (vis', l) →
      ∃ s', g s c = some s' ∧ Ran f s l s' ∧ Ready f V s' vis')
    {s : FlowState ν n} {vis vis' : Finset (Fin n)} {l : List (Fin n)} {oc : Option (Fin n)}
    (hs : Ready f V s vis) (h : visitAll (dfs (succs f) k) oc.toList vis = some (vis', l)) :
    ∃ s', enterChild g s oc = some s' ∧ Ran f s l s' ∧ Ready f V s' vis' := by
  cases oc with
  | none =>
      obtain ⟨rfl, rfl⟩ := Prod.mk.inj (Option.some.inj h)
      exact ⟨s, rfl, .refl f s, hs⟩
  | some c =>
      rw [Option.toList_some, visitAll] at h
      obtain ⟨⟨vis₁, l₁⟩, h₁, h⟩ := Option.bind_eq_some_iff.mp h
      obtain ⟨rfl, rfl⟩ := Prod.mk.inj (Option.some.inj h)
      rw [List.append_nil]
      by_cases hc : c ∈ vis
      · obtain ⟨rfl, rfl⟩ := Prod.mk.inj (Option.some.inj ((if_pos hc).symm.trans h₁))
        exact ⟨s, if_pos ((hs.marked c).mpr hc), .refl f s, hs⟩
      · obtain ⟨s', heq, hr, hs'⟩ := hgo hs ((if_neg hc).symm.trans h₁)
        exact ⟨s', (if_neg fun h => hc ((hs.marked c).mp h)).trans heq, hr, hs'⟩

/-- **`do_liveness`** is a depth-first search that visits each block when it leaves it. -/
theorem doLiveness_spec (k : ℕ) {s : FlowState ν n} {vis vis' : Finset (Fin n)} {b : Fin n}
    {l : List (Fin n)} {fuel : ℕ} (hs : Ready f V s vis)
    (h : dfs (succs f) k b vis = some (vis', l)) (hfuel : V.card + k < fuel) :
    ∃ s', doLiveness f fuel s b = some s' ∧ Ran f s l s' ∧ Ready f V s' vis' := by
  induction k generalizing s vis vis' b l fuel with
  | zero => cases h
  | succ k ih =>
      obtain ⟨fuel, rfl⟩ : ∃ j, fuel = j + 1 := ⟨fuel - 1, by omega⟩
      rw [dfs] at h
      obtain ⟨⟨vis₀, l₀⟩, h₀, h⟩ := Option.bind_eq_some_iff.mp h
      obtain ⟨rfl, rfl⟩ := Prod.mk.inj (Option.some.inj h)
      obtain ⟨vis₁, l₁, l₂, h₁, h₂, rfl⟩ := visitAll_append h₀
      have hstart : Ready f V (s.visit b) (insert b vis) :=
        ⟨hs.bounded, hs.kills, hs.marked.visit hs.nonneg b, hs.nonneg⟩
      obtain ⟨s₁, heq₁, hr₁, hs₁⟩ := enterChild_spec (g := doLiveness f fuel)
        (fun hs h => ih hs h (by omega)) hstart h₁
      obtain ⟨s₂, heq₂, hr₂, hs₂⟩ := enterChild_spec (g := doLiveness f fuel)
        (fun hs h => ih hs h (by omega)) hs₁ h₂
      have hroom : V.card < fuel := by omega
      obtain ⟨s₃, s', heq₃, heq', hr', hV', hm'⟩ := inOut_ran hs₂.bounded hs₂.kills hroom b
      refine ⟨s', ?_, ?_, hs₂.congr hr' hV' hm'⟩
      · rw [doLiveness]
        simp only [heq₁, heq₂, heq₃, heq', Option.bind_eq_bind, Option.bind_some]
      · exact (Ran.visit f s b).append ((hr₁.append hr₂).append hr')

end Traversal

end Javalette.Flow
