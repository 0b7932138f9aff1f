import Javalette.RbTree.Correctness
import Javalette.RbTree.KeySet

/-!
# Copying a red-black tree

`rb_copy` copies the nodes into a tree that `rb_new` has made, and leaves its black height at
zero.  So it is a tree again only when there is nothing to copy: the path stack, whose capacity
comes from the black height, has no room for a path.

`rb_copy_subtree` asks `malloc` for the size of a pointer and stores a node there.
-/

namespace Javalette.Rbtree

variable {α δ : Type}

/-- `rb_copy_subtree`, where `malloc` returns `as k`, `as (k + 1)` and so on.  Whether the block
that it returns for the size of a pointer is `roomy` enough for a node is not ours to know. -/
def rbCopySubtree (roomy : Bool) (as : ℕ → Ptr) :
    ℕ → Heap α δ → ℕ → Ptr → Option (Ptr × Heap α δ × ℕ)
  | 0, _, _, _ => none
  | fuel + 1, h, k, node => do
      if node = theNil then return (theNil, h, k)
      let ret := as k
      let h := h.store ret ⟨none, NULL, NULL, .black⟩
      let (l, h, k) ← rbCopySubtree roomy as fuel h (k + 1) (← h node).left
      assert roomy
      let h ← h.setLeft ret l
      let (r, h, k) ← rbCopySubtree roomy as fuel h k (← h node).right
      let h ← h.setRight ret r
      let h ← h.setColor ret (← h node).color
      let h ← h.setKey ret (← h node).key
      return (ret, h, k)

/-- `rb_copy`. -/
def rbCopy (roomy : Bool) (as : ℕ → Ptr) (fuel : ℕ) (tree : RbTree) (h : Heap α δ) :
    Option (RbTree × Heap α δ) := do
  let result := rbNew
  let (root, h, _) ← rbCopySubtree roomy as fuel h 0 tree.root
  return ({ result with root := root }, h)

open ColorTree

/-! ## What is copied -/

/-- What an allocation of the nodes `as k`, …, `as (k' - 1)` has done to the heap. -/
def Allocated (as : ℕ → Ptr) (k k' : ℕ) (h h' : Heap α δ) : Prop :=
  k ≤ k' ∧ ∀ q, (∀ i, k ≤ i → i < k' → q ≠ as i) → h' q = h q

/-- Where there is room for the nodes, `rb_copy_subtree` makes a tree of the same shape, colours
and keys out of new nodes. -/
theorem rbCopySubtree_eq {as : ℕ → Ptr} (hinj : Function.Injective as) {t : HTree α δ} {fuel k : ℕ}
    {h : Heap α δ} (ht : Holds h t) (hnil : theNil ∉ addrs t) (hfuel : t.height < fuel)
    (hfresh : ∀ i, k ≤ i → h (as i) = none) :
    ∃ (t' : HTree α δ) (h' : Heap α δ) (k' : ℕ),
      rbCopySubtree true as fuel h k (addr t) = some (addr t', h', k') ∧
        Allocated as k k' h h' ∧ Holds h' t' ∧ t'.map Prod.snd = t.map Prod.snd ∧
        ∀ q ∈ addrs t', ∃ i, k ≤ i ∧ i < k' ∧ q = as i := by
  induction t generalizing fuel k h with
  | nil =>
      obtain ⟨fuel, rfl⟩ : ∃ j, fuel = j + 1 := ⟨fuel - 1, by omega⟩
      exact ⟨.nil, h, k, by simp [rbCopySubtree], ⟨le_rfl, fun _ _ => rfl⟩, trivial, rfl, by simp⟩
  | node c l v r ihl ihr =>
      obtain ⟨fuel, rfl⟩ : ∃ j, fuel = j + 1 := ⟨fuel - 1, by omega⟩
      obtain ⟨hv, hl, hr⟩ := ht
      have hheight : l.height < fuel ∧ r.height < fuel := by
        have : max l.height r.height + 1 < fuel + 1 := hfuel
        omega
      simp only [addrs_node, List.mem_append, List.mem_cons, not_or] at hnil
      -- the new node is none of the old ones
      have hnew : ∀ q n, h q = some n → ∀ i, k ≤ i → q ≠ as i := by
        rintro q n hq i hi rfl
        exact Option.some_ne_none n (hq.symm.trans (hfresh i hi))
      have hcells : ∀ {u : HTree α δ}, Holds h u → ∀ q ∈ addrs u, ∀ i, k ≤ i → q ≠ as i := by
        intro u hu q hq
        obtain ⟨w, hw, rfl⟩ := List.mem_map.mp hq
        obtain ⟨n, hn, -⟩ := hu.cell_of_mem hw
        exact hnew w.1 n hn
      obtain ⟨l', h₁, k₁, heq₁, ⟨hk₁, hfr₁⟩, hl', hmap₁, has₁⟩ :=
        ihl (h := h.store (as k) ⟨none, NULL, NULL, .black⟩) (k := k + 1)
          (hl.congr fun q hq => store_ne _ _ (hcells hl q hq k le_rfl)) hnil.1 hheight.1
          fun i hi => (store_ne _ _ fun he => by have := hinj he; omega).trans
            (hfresh i (by omega))
      have hkeep₁ : ∀ q, (∀ i, k ≤ i → q ≠ as i) → h₁ q = h q := fun q hq =>
        (hfr₁ q fun i hi _ => hq i (by omega)).trans (store_ne _ _ (hq k le_rfl))
      have hret₁ : h₁ (as k) = some ⟨none, NULL, NULL, .black⟩ :=
        (hfr₁ _ fun i hi _ he => by have := hinj he; omega).trans (store_same _ _ _)
      have hset₁ : h₁.setLeft (as k) (addr l') =
          some (h₁.store (as k) ⟨none, addr l', NULL, .black⟩) := by
        simp [Heap.setLeft, hret₁]
      obtain ⟨r', h₂, k₂, heq₂, ⟨hk₂, hfr₂⟩, hr', hmap₂, has₂⟩ :=
        ihr (h := h₁.store (as k) ⟨none, addr l', NULL, .black⟩) (k := k₁)
          (hr.congr fun q hq => (store_ne _ _ (hcells hr q hq k le_rfl)).trans
            (hkeep₁ q (hcells hr q hq))) hnil.2.2 hheight.2
          fun i hi => (store_ne _ _ fun he => by have := hinj he; omega).trans
            ((hfr₁ _ fun j _ hj he => by have := hinj he; omega).trans
              ((store_ne _ _ fun he => by have := hinj he; omega).trans (hfresh i (by omega))))
      have hkeep₂ : ∀ q, (∀ i, k ≤ i → q ≠ as i) → h₂ q = h q := fun q hq =>
        (hfr₂ q fun i hi _ => hq i (by omega)).trans
          ((store_ne _ _ (hq k le_rfl)).trans (hkeep₁ q hq))
      have hret₂ : h₂ (as k) = some ⟨none, addr l', NULL, .black⟩ :=
        (hfr₂ _ fun i hi _ he => by have := hinj he; omega).trans (store_same _ _ _)
      have hv₁ : h₁ v.1 = some (cell .left c (addr l) v.2 (addr r)) :=
        (hkeep₁ _ (hnew _ _ hv)).trans hv
      have hv₂ : h₂ v.1 = some (cell .left c (addr l) v.2 (addr r)) :=
        (hkeep₂ _ (hnew _ _ hv)).trans hv
      have hne : v.1 ≠ as k := hnew _ _ hv k le_rfl
      have hne' : v.1 ≠ theNil := fun he => hnil.2.1 he.symm
      have hl₂ : Holds h₂ l' := hl'.congr fun q hq => by
        obtain ⟨i, hi, hi', rfl⟩ := has₁ q hq
        refine (hfr₂ _ fun j hj _ he => ?_).trans (store_ne _ _ fun he => ?_)
        · have := hinj he
          omega
        · have := hinj he
          omega
      have hout : ∀ {u : HTree α δ} {m m' : ℕ}, k < m →
          (∀ q ∈ addrs u, ∃ i, m ≤ i ∧ i < m' ∧ q = as i) → ∀ q ∈ addrs u, q ≠ as k := by
        rintro u m m' hm hu q hq rfl
        obtain ⟨i, hi, -, he⟩ := hu _ hq
        have := hinj he
        omega
      refine ⟨.node c l' (as k, v.2) r', h₂.store (as k) (cell .left c (addr l') v.2 (addr r')), k₂,
        ?_, ⟨by omega, fun q hq => ?_⟩, ⟨store_same _ _ _, ?_, ?_⟩, ?_, fun q hq => ?_⟩
      · rw [addr_node, rbCopySubtree, if_neg hne']
        simp [hv, hv₁, hv₂, heq₁, heq₂, hset₁, hret₂, hne, Heap.setRight, Heap.setColor,
          Heap.setKey, cell, assert, store_store]
      · refine (store_ne _ _ (hq k le_rfl (by omega))).trans ?_
        refine (hfr₂ q fun i hi hi' => hq i (by omega) hi').trans ?_
        refine (store_ne _ _ (hq k le_rfl (by omega))).trans ?_
        exact (hfr₁ q fun i hi hi' => hq i (by omega) (by omega)).trans
          (store_ne _ _ (hq k le_rfl (by omega)))
      · exact hl₂.congr fun q hq => store_ne _ _ (hout (Nat.lt_succ_self k) has₁ q hq)
      · exact hr'.congr fun q hq => store_ne _ _ (hout (by omega) has₂ q hq)
      · simp [hmap₁, hmap₂]
      · rw [addrs_node, List.mem_append, List.mem_cons] at hq
        rcases hq with hq | rfl | hq
        · obtain ⟨i, hi, hi', rfl⟩ := has₁ q hq
          exact ⟨i, by omega, by omega, rfl⟩
        · exact ⟨k, le_rfl, by omega, rfl⟩
        · obtain ⟨i, hi, hi', rfl⟩ := has₂ q hq
          exact ⟨i, by omega, hi', rfl⟩

variable [LinearOrder α]

/-! ## The operations, up to the addresses of the nodes -/

/-- The directions `rb_insert` takes, in a tree without addresses. -/
def insertKeyCut (x v : RbPair α δ) : Ordering := if x.first < v.first then .lt else .gt

lemma insertCut_eq_insertKeyCut (x : RbPair α δ) :
    insertCut x = fun v : Ptr × RbPair α δ => insertKeyCut x v.2 := rfl

/-- The operations on one tree. -/
inductive TreeOp (α δ : Type)
  | insert (x : RbPair α δ)
  | insertIfAbsent (x : RbPair α δ)
  | delete (x : RbPair α δ)
  | search (x : RbPair α δ)

namespace TreeOp

/-- The operation on the tree number `i`. -/
def on (i : ℕ) : TreeOp α δ → Op α δ
  | .insert x => .insert i x
  | .insertIfAbsent x => .insertIfAbsent i x
  | .delete x => .delete i x
  | .search x => .search i x

/-- The pair at the root of a tree, if it is not empty. -/
def rootPair : ColorTree (RbPair α δ) → Option (RbPair α δ)
  | .nil => none
  | .node _ _ v _ => some v

/-- The pair of the node that an operation returns. -/
def answer (u : ColorTree (RbPair α δ)) : TreeOp α δ → Option (RbPair α δ)
  | .insertIfAbsent x | .search x => rootPair (zoom (keyCut x.first) u []).2
  | .insert _ | .delete _ => none

/-- The tree after an operation. -/
def after (u : ColorTree (RbPair α δ)) : TreeOp α δ → ColorTree (RbPair α δ)
  | .insert x => ColorTree.insert (insertKeyCut x) x u
  | .insertIfAbsent x =>
      match (zoom (keyCut x.first) u []).2 with
      | .nil => ColorTree.insert (keyCut x.first) x u
      | .node _ _ _ _ => u
  | .delete x => ColorTree.delete (keyCut x.first) u
  | .search _ => u

end TreeOp

/-- The pair of the node that a function returned; it may be `NULL`. -/
def pairAt (h : Heap α δ) (q : Ptr) : Option (RbPair α δ) :=
  if q = NULL then none else (h q).bind RbNode.key

/-- What an operation on the tree number `i` has done: its result depends only on the shape, the
colours and the keys of the tree, and it has not touched the other trees. -/
structure Done (w : World α δ) (ts : List (List Ptr × HTree α δ)) (i : ℕ) (op : TreeOp α δ)
    (q : Ptr) (w' : World α δ) (ts' : List (List Ptr × HTree α δ)) : Prop where
  inv : Inv w' ts'
  tree : ∀ S t, ts[i]? = some (S, t) → ∃ S' t', ts'[i]? = some (S', t') ∧
    t'.map Prod.snd = op.after (t.map Prod.snd) ∧
      pairAt w'.heap q = op.answer (t.map Prod.snd)
  others : ∀ j, i ≠ j → ts'[j]? = ts[j]? ∧ w'.trees[j]? = w.trees[j]?
  cells : ∀ j S t, i ≠ j → ts[j]? = some (S, t) → ∀ p ∈ S, w'.heap p = w.heap p

section Steps

variable {w : World α δ} {ts : List (List Ptr × HTree α δ)} {i : ℕ} {S : List Ptr}
  {t : HTree α δ}

/-- The search of the functions that stop at an equal key, with the addresses forgotten. -/
lemma zoom_findCut_map (x : RbPair α δ) (t : HTree α δ) :
    (zoom (keyCut x.first) (t.map Prod.snd) []).2 = (zoom (findCut x) t []).2.map Prod.snd := by
  have hz := zoom_map Prod.snd (keyCut x.first) t []
  rw [List.map_nil] at hz
  rw [hz, findCut_eq_keyCut]

/-- The result of an operation that has written only cells of its own tree, or new ones. -/
lemma Done.of_set (hi : Inv w ts) (hst : ts[i]? = some (S, t)) {op : TreeOp α δ} {q : Ptr}
    {T' : RbTree} {h' : Heap α δ} {S' F : List Ptr} {t' : HTree α δ} (ht : IsTree h' S' T' t')
    (hfr : EqOff F w.heap h') (hsub : S' ⊆ F) (hF : ∀ q ∈ F, q ∈ S ∨ Fresh w.heap q)
    (htree : t'.map Prod.snd = op.after (t.map Prod.snd))
    (hans : pairAt h' q = op.answer (t.map Prod.snd)) :
    Done w ts i op q ⟨h', w.trees.set i T'⟩ (ts.set i (S', t')) where
  inv := hi.set hst ht hfr hsub hF
  tree S₀ t₀ hst₀ := by
    obtain ⟨rfl, rfl⟩ := Prod.mk.inj (Option.some.inj (hst.symm.trans hst₀))
    exact ⟨S', t', List.getElem?_set_self (List.getElem?_eq_some_iff.mp hst).1, htree, hans⟩
  others j hne := ⟨List.getElem?_set_ne hne, List.getElem?_set_ne hne⟩
  cells j S₀ t₀ hne hst₀ p hp := by
    have hlt : j < w.trees.length := hi.length ▸ (List.getElem?_eq_some_iff.mp hst₀).1
    have hold := hi.tree j _ _ (List.getElem?_eq_getElem hlt) hst₀
    refine hfr p (fun hpF => ?_) fun heq => hold.loc.nil_notMem (heq ▸ hp)
    rcases hF p hpF with hpS | hpf
    · exact hi.disjoint i j _ _ hne hst hst₀ hpS hp
    · exact hi.notMem_of_fresh hpf hst₀ hp

/-- **One operation.** -/
lemma Inv.done (hi : Inv w ts) (hst : ts[i]? = some (S, t)) (op : TreeOp α δ) {a : Ptr}
    (ha : Fresh w.heap a) :
    ∃ N, ∀ fuel ≥ N, ∃ q w' ts', w.exec fuel a (op.on i) = some (q, w') ∧
      Done w ts i op q w' ts' := by
  have hlt : i < w.trees.length := hi.length ▸ (List.getElem?_eq_some_iff.mp hst).1
  obtain ⟨T, S₀, t₀, hT, hst₀, ht⟩ := hi.at hlt
  obtain ⟨rfl, rfl⟩ := Prod.mk.inj (Option.some.inj (hst.symm.trans hst₀))
  have hnew : ∀ q ∈ a :: S, q ∈ S ∨ Fresh w.heap q := fun q hq =>
    (List.mem_cons.mp hq).elim (fun h => .inr (h ▸ ha)) .inl
  refine ⟨2 * T.bh + 3, fun fuel hfuel => ?_⟩
  have hfuel' : 2 * T.bh < fuel := by omega
  cases op with
  | insert x =>
      obtain ⟨T', h', heq, t', ht', hfr, -, hins⟩ := rbInsert_spec ht hfuel' x ha
      refine ⟨NULL, _, _, by simp [TreeOp.on, World.exec, hT, heq],
        Done.of_set hi hst ht' hfr (List.Subset.refl _) hnew ?_ rfl⟩
      rw [hins, insertCut_eq_insertKeyCut, map_insert]
      rfl
  | insertIfAbsent x =>
      -- the key is there and its pair is answered, or a node was linked
      obtain ⟨q, T', h', heq, hcase⟩ := rbInsertIfAbsent_eq ht hfuel' x ha
      have hzoom := zoom_findCut_map x t
      rcases hcase with ⟨c, l, v, r, hz, rfl, -, ht', hfr⟩ | ⟨rfl, hz, t', ht', hfr, -, hins⟩
      · rw [hz, map_node] at hzoom
        obtain ⟨n, hn, hkey⟩ := ht'.loc.tree.cell_of_mem (mem_of_zoom_eq hz)
        refine ⟨v.1, _, _, by simp [TreeOp.on, World.exec, hT, heq],
          Done.of_set hi hst ht' hfr (List.Subset.refl _) (fun q hq => .inl hq) ?_ ?_⟩
        · rw [TreeOp.after, hzoom]
        · rw [TreeOp.answer, hzoom, pairAt, if_neg (ht'.loc.ne_null_of_cell hn), hn]
          exact hkey
      · rw [hz, map_nil] at hzoom
        refine ⟨NULL, _, _, by simp [TreeOp.on, World.exec, hT, heq],
          Done.of_set hi hst ht' hfr (List.Subset.refl _) hnew ?_ ?_⟩
        · rw [TreeOp.after, hzoom, hins, findCut_eq_keyCut, map_insert]
        · rw [TreeOp.answer, hzoom]
          rfl
  | delete x =>
      obtain ⟨T', h', S', t', heq, ht', hsub, hfr, hread⟩ := rbDelete_eq ht hfuel x
      refine ⟨NULL, _, _, by simp [TreeOp.on, World.exec, hT, heq],
        Done.of_set hi hst ht' hfr hsub (fun q hq => .inl hq) ?_ rfl⟩
      rw [hread, findCut_eq_keyCut, map_delete]
      rfl
  | search x =>
      obtain ⟨h', heq, hl'⟩ := rbSearch_eq ht.loc ht.balanced hfuel' x
      have ht' : IsTree h' S T t := ⟨hl'.reframe, ht.balanced, ht.sorted⟩
      have hzoom := zoom_findCut_map x t
      generalize hq : (if addr (zoom (findCut x) t []).2 = theNil then NULL
        else addr (zoom (findCut x) t []).2) = q at heq
      refine ⟨q, ⟨h', w.trees.set i T⟩, _, by simp [TreeOp.on, World.exec, hT, heq, set_self hT],
        Done.of_set hi hst ht' hl'.frame (List.Subset.refl _) (fun q hq => .inl hq) rfl ?_⟩
      rw [TreeOp.answer, hzoom, ← hq]
      rcases zoom_snd (findCut x) t [] with hz | ⟨c, l, v, r, hz, -⟩
      · simp [hz, TreeOp.rootPair, pairAt]
      · obtain ⟨n, hn, hkey⟩ := ht'.loc.tree.cell_of_mem (mem_of_zoom_eq hz)
        have hfoc := loc_zoom hl' (findCut x)
        rw [hz] at hfoc
        rw [hz, addr_node, if_neg hfoc.addr_ne_nil, pairAt, if_neg (ht'.loc.ne_null_of_cell hn), hn]
        exact hkey

end Steps

/-! ## What a copy is for -/

/-- The tree number `i` of the one world and the tree number `j` of the other are valid, and have
the same shape, colours and keys. -/
def SameTree (w : World α δ) (i : ℕ) (w' : World α δ) (j : ℕ) : Prop :=
  ∃ T S t T' S' t', w.trees[i]? = some T ∧ IsTree w.heap S T t ∧
    w'.trees[j]? = some T' ∧ IsTree w'.heap S' T' t' ∧ t'.map Prod.snd = t.map Prod.snd

/-- The tree number `i` has not changed, down to its last cell. -/
def Untouched (w w' : World α δ) (i : ℕ) : Prop :=
  w'.trees[i]? = w.trees[i]? ∧ ∃ T S t, w.trees[i]? = some T ∧ IsTree w.heap S T t ∧
    IsTree w'.heap S T t ∧ ∀ q ∈ S, w'.heap q = w.heap q

/-- The operations on the tree number 0 in the one world succeed, and those on the tree number 1
in the other have the same results and leave the same trees.  The other one of the two trees does
not change.  The addresses are those that `malloc` returns in the two worlds. -/
def Alike (w w' : World α δ) : List (TreeOp α δ × Ptr × Ptr) → Prop
  | [] => True
  | (op, a, a') :: ops => Fresh w.heap a → Fresh w'.heap a' →
      ∃ N, ∀ fuel ≥ N, ∃ q w₁ q' w₁', w.exec fuel a (op.on 0) = some (q, w₁) ∧
        w'.exec fuel a' (op.on 1) = some (q', w₁') ∧ pairAt w₁.heap q = pairAt w₁'.heap q' ∧
        SameTree w₁ 0 w₁' 1 ∧ Untouched w w₁ 1 ∧ Untouched w' w₁' 0 ∧ Alike w₁ w₁' ops

/-- `rb_copy` makes an independent tree with the same contents. -/
def CopyCorrect (roomy : Bool) (as : ℕ → Ptr) (T : RbTree) (h : Heap α δ) : Prop :=
  ∃ N, ∀ fuel ≥ N, ∃ T' h', rbCopy roomy as fuel T h = some (T', h') ∧
    SameTree ⟨h', [T, T']⟩ 0 ⟨h', [T, T']⟩ 1 ∧ Untouched ⟨h, [T]⟩ ⟨h', [T]⟩ 0 ∧
    ∀ ops, Alike ⟨h', [T, T']⟩ ⟨h', [T, T']⟩ ops

lemma Inv.exists_tree {w : World α δ} {ts : List (List Ptr × HTree α δ)} (hi : Inv w ts) {i : ℕ}
    {S : List Ptr} {t : HTree α δ} (hst : ts[i]? = some (S, t)) :
    ∃ T, w.trees[i]? = some T ∧ IsTree w.heap S T t := by
  have hlt : i < w.trees.length := hi.length ▸ (List.getElem?_eq_some_iff.mp hst).1
  have hT := List.getElem?_eq_getElem hlt
  exact ⟨_, hT, hi.tree i _ _ hT hst⟩

lemma Done.untouched {w w' : World α δ} {ts ts' : List (List Ptr × HTree α δ)} {i j : ℕ}
    {op : TreeOp α δ} {q : Ptr} (hd : Done w ts i op q w' ts') (hi : Inv w ts) (hne : i ≠ j)
    {S : List Ptr} {t : HTree α δ} (hst : ts[j]? = some (S, t)) : Untouched w w' j := by
  obtain ⟨T, hT, ht⟩ := hi.exists_tree hst
  obtain ⟨T', hT', ht'⟩ := hd.inv.exists_tree ((hd.others j hne).1.trans hst)
  have htrees := (hd.others j hne).2
  obtain rfl := Option.some.inj (hT'.symm.trans (htrees.trans hT))
  exact ⟨htrees, T', S, t, hT, ht, ht', hd.cells j S t hne hst⟩

/-- Two trees in two worlds, each with another tree beside it. -/
lemma alike_of_inv (ops : List (TreeOp α δ × Ptr × Ptr)) {w w' : World α δ}
    {ts ts' : List (List Ptr × HTree α δ)} (hi : Inv w ts) (hi' : Inv w' ts')
    {S₀ S₁ S₀' S₁' : List Ptr} {t₀ t₁ t₀' t₁' : HTree α δ} (h₀ : ts[0]? = some (S₀, t₀))
    (h₁ : ts[1]? = some (S₁, t₁)) (h₀' : ts'[0]? = some (S₀', t₀'))
    (h₁' : ts'[1]? = some (S₁', t₁')) (heq : t₁'.map Prod.snd = t₀.map Prod.snd) :
    Alike w w' ops := by
  induction ops generalizing w w' ts ts' S₀ S₁ S₀' S₁' t₀ t₁ t₀' t₁' with
  | nil => trivial
  | cons op ops ih =>
      obtain ⟨op, a, a'⟩ := op
      intro ha ha'
      obtain ⟨N, hN⟩ := hi.done h₀ op ha
      obtain ⟨N', hN'⟩ := hi'.done h₁' op ha'
      refine ⟨max N N', fun fuel hfuel => ?_⟩
      obtain ⟨q, w₁, us, hexec, hd⟩ := hN fuel (le_trans (le_max_left N N') hfuel)
      obtain ⟨q', w₁', us', hexec', hd'⟩ := hN' fuel (le_trans (le_max_right N N') hfuel)
      obtain ⟨R, r, hr, htree, hans⟩ := hd.tree S₀ t₀ h₀
      obtain ⟨R', r', hr', htree', hans'⟩ := hd'.tree S₁' t₁' h₁'
      have hother : us[1]? = some (S₁, t₁) := (hd.others 1 (by decide)).1.trans h₁
      have hother' : us'[0]? = some (S₀', t₀') := (hd'.others 0 (by decide)).1.trans h₀'
      have hsame : r'.map Prod.snd = r.map Prod.snd := by rw [htree, htree', heq]
      refine ⟨q, w₁, q', w₁', hexec, hexec', by rw [hans, hans', heq], ?_, ?_, ?_,
        ih hd.inv hd'.inv hr hother hother' hr' hsame⟩
      · obtain ⟨T, hT, ht⟩ := hd.inv.exists_tree hr
        obtain ⟨T', hT', ht'⟩ := hd'.inv.exists_tree hr'
        exact ⟨T, R, r, T', R', r', hT, ht, hT', ht', hsame⟩
      · exact hd.untouched hi (by decide) h₁
      · exact hd'.untouched hi' (by decide) h₀'

omit [LinearOrder α] in
/-- What `rb_copy` leaves in the header. -/
lemma bh_of_rbCopy {roomy : Bool} {as : ℕ → Ptr} {fuel : ℕ} {T T' : RbTree} {h h' : Heap α δ}
    (heq : rbCopy roomy as fuel T h = some (T', h')) : T'.bh = 0 := by
  obtain ⟨r, -, hr⟩ := Option.bind_eq_some_iff.mp heq
  obtain ⟨rfl, -⟩ := Prod.mk.inj (Option.some.inj hr)
  rfl

/-- A tree whose black height is zero has no nodes. -/
lemma root_eq_of_copyCorrect {roomy : Bool} {as : ℕ → Ptr} {T : RbTree} {h : Heap α δ}
    (hcopy : CopyCorrect roomy as T h) : T.root = theNil := by
  obtain ⟨N, hN⟩ := hcopy
  obtain ⟨T', h', heq, ⟨T₀, S, t, T₁, S', t', hT₀, ht, hT₁, ht', hsame⟩, -⟩ := hN N le_rfl
  obtain rfl := Option.some.inj (hT₀ : some T = some T₀)
  obtain rfl := Option.some.inj (hT₁ : some T' = some T₁)
  have hbal := ht'.balanced
  rw [bh_of_rbCopy heq] at hbal
  rw [hbal.eq_nil, map_nil] at hsame
  cases t with
  | nil => exact ht.loc.root
  | node c l v r => cases hsame

/-- The empty tree is copied, and then there are two of them. -/
lemma copyCorrect_of_root {roomy : Bool} {as : ℕ → Ptr} {T : RbTree} {h : Heap α δ} {S : List Ptr}
    {t : HTree α δ} (ht : IsTree h S T t) (hroot : T.root = theNil) :
    CopyCorrect roomy as T h := by
  have hnil : t = .nil := by
    cases t with
    | nil => rfl
    | node c l v r =>
        have haddr : T.root = v.1 := ht.loc.root
        exact absurd (haddr.symm.trans hroot) (ht.loc.addr_ne_nil)
  subst hnil
  have hS : S = [] := ht.loc.perm.symm.eq_nil
  subst hS
  have hnew : IsTree h [] rbNew (.nil : HTree α δ) :=
    ⟨Loc.empty ht.loc.nilCell ht.loc.null rfl rfl, .nil, .nil⟩
  -- an empty tree and its copy have no cells, so nothing they do can meet
  have hinv : Inv ⟨h, [T, rbNew]⟩ [([], .nil), ([], .nil)] := by
    refine ⟨rfl, fun i U st hU hst => ?_, fun i j st st' _ hst _ => ?_, ht.loc.nilCell, ht.loc.null⟩
    · match i, hU, hst with
      | 0, hU, hst => exact Option.some.inj hU ▸ Option.some.inj hst ▸ ht
      | 1, hU, hst => exact Option.some.inj hU ▸ Option.some.inj hst ▸ hnew
    · have hmem := List.mem_of_getElem? hst
      have hnil : st.1 = [] := by
        rcases List.mem_cons.mp hmem with rfl | hmem
        · rfl
        · rw [List.mem_singleton.mp hmem]
      rw [hnil]
      exact List.disjoint_nil_left _
  refine ⟨1, fun fuel hfuel => ?_⟩
  obtain ⟨fuel, rfl⟩ : ∃ j, fuel = j + 1 := ⟨fuel - 1, by omega⟩
  refine ⟨rbNew, h, by simp [rbCopy, rbCopySubtree, hroot, rbNew], ?_, ?_, fun ops => ?_⟩
  · exact ⟨T, [], .nil, rbNew, [], .nil, rfl, ht, rfl, hnew, rfl⟩
  · exact ⟨rfl, T, [], .nil, rfl, ht, ht, fun _ _ => rfl⟩
  · exact alike_of_inv ops hinv hinv rfl rfl rfl rfl rfl

/-- **`rb_copy`** makes a tree if and only if there is nothing to copy. -/
theorem rbCopy_iff {roomy : Bool} {as : ℕ → Ptr} {T : RbTree} {h : Heap α δ} {S : List Ptr}
    {t : HTree α δ} (ht : IsTree h S T t) : CopyCorrect roomy as T h ↔ T.root = theNil :=
  ⟨root_eq_of_copyCorrect, copyCorrect_of_root ht⟩

/-- The heap with one node, which has the key `5`. -/
def oneHeap : Heap ℕ Unit :=
  (World.initial.heap).store 2 ⟨some ⟨5, ()⟩, theNil, theNil, .black⟩

/-- The tree with that node. -/
def oneTree : RbTree := ⟨2, theNil, fun _ => theNil, 1, 1⟩

lemma isTree_oneTree : IsTree oneHeap [2] oneTree (.node .black .nil (2, ⟨5, ()⟩) .nil) := by
  refine ⟨⟨⟨rfl, trivial, trivial⟩, trivial, ?_, by decide, by decide, fun _ _ _ => rfl,
    ⟨⟨none, NULL, NULL, .black⟩, rfl, rfl, rfl⟩, rfl, rfl, rfl⟩, ?_, by simp⟩
  · simp
  · exact .black .nil .nil

/-- Before the first operation a new tree is copied, and the tree with one node is not. -/
theorem rbCopy_iff_new :
    CopyCorrect true (fun i => i + 2) rbNew (World.initial : World ℕ Unit).heap ∧
      ¬CopyCorrect true (fun i => i + 3) oneTree oneHeap := by
  have hnew : IsTree (World.initial : World ℕ Unit).heap [] rbNew .nil :=
    ⟨Loc.empty inv_initial.nilCell inv_initial.null rfl rfl, .nil, .nil⟩
  exact ⟨(rbCopy_iff hnew).mpr rfl, fun hcopy => absurd ((rbCopy_iff isTree_oneTree).mp hcopy)
    (by decide)⟩

/-- A tree with one key: there is no room on the path stack of the copy for the way to a second
one. -/
theorem rbCopy_one :
    IsTree oneHeap [2] oneTree (.node .black .nil (2, ⟨5, ()⟩) .nil) ∧
      (∀ fuel, ((rbCopy true (fun i => i + 3) 2 oneTree oneHeap).bind fun r =>
        rbInsert fuel r.1 r.2 ⟨7, ()⟩ 4) = none) ∧
      ∀ roomy as, ¬CopyCorrect roomy as oneTree oneHeap := by
  refine ⟨isTree_oneTree, fun fuel => ?_,
    fun roomy as hcopy => absurd (root_eq_of_copyCorrect hcopy) (by decide)⟩
  cases fuel with
  | zero => rfl
  | succ fuel => rfl

end Javalette.Rbtree
