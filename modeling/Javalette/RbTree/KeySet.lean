import Javalette.RbTree.Delete

/-!
# Trees without duplicate keys, as their clients see them

The clients of `rbtree.c` that fill a tree with `rb_insert_if_absent` never have two equal keys
in it.  An `RbSet` is such a tree with its addresses forgotten: a red-black search tree of
payloads, together with the proof that the keys increase strictly.  A node is named by its key,
which stays the same for as long as the node is in the tree, while rotations move the node
about; so a client that holds on to a node while the tree changes can be modelled faithfully
by holding on to the key.

`Implements` connects an `RbSet` with the heap, and the last section shows that the functions
of `rbtree.c` compute the operations on `RbSet`.
-/

namespace Javalette.Rbtree

open ColorTree

variable {α δ : Type} [LinearOrder α]

/-- The directions towards a key. -/
def keyCut (k : α) (x : RbPair α δ) : Ordering :=
  if k = x.first then .eq else if k < x.first then .lt else .gt

lemma findCut_eq_keyCut (x : RbPair α δ) :
    findCut x = fun v : Ptr × RbPair α δ => keyCut x.first v.2 := rfl

@[simp] lemma keyCut_eq_eq {k : α} {x : RbPair α δ} : keyCut k x = .eq ↔ x.first = k :=
  (findCut_eq_eq (x := ⟨k, x.rest⟩) (v := (NULL, x))).trans eq_comm

@[simp] lemma keyCut_eq_lt {k : α} {x : RbPair α δ} : keyCut k x = .lt ↔ k < x.first :=
  findCut_eq_lt (x := ⟨k, x.rest⟩) (v := (NULL, x))

@[simp] lemma keyCut_eq_gt {k : α} {x : RbPair α δ} : keyCut k x = .gt ↔ x.first < k :=
  findCut_eq_gt (x := ⟨k, x.rest⟩) (v := (NULL, x))

lemma isCut_keyCut (k : α) :
    IsCut (fun x y : RbPair α δ => x.first < y.first) (keyCut k) where
  lt_of_lt hlt h := keyCut_eq_lt.mpr ((keyCut_eq_lt.mp h).trans hlt)
  gt_of_gt hlt h := keyCut_eq_gt.mpr (hlt.trans (keyCut_eq_gt.mp h))

/-- A tree with strictly increasing keys. -/
structure RbSet (α δ : Type) [LinearOrder α] where
  tree : ColorTree (RbPair α δ)
  ordered : tree.toList.Pairwise fun x y => x.first < y.first

namespace RbSet

/-- The keys, in increasing order. -/
def keys (s : RbSet α δ) : List α := s.tree.toList.map RbPair.first

/-- The tree of the keys alone. -/
def keyTree (s : RbSet α δ) : ColorTree α := s.tree.map RbPair.first

/-- `rb_new`. -/
def empty : RbSet α δ := ⟨.nil, .nil⟩

/-- The node that `rb_search` returns, with the subtree below it; empty for `NULL`. -/
def search (s : RbSet α δ) (k : α) : ColorTree (RbPair α δ) := (zoom (keyCut k) s.tree []).2

lemma keys_nodup (s : RbSet α δ) : s.keys.Nodup := by
  rw [keys, List.Nodup, List.pairwise_map]
  exact s.ordered.imp fun h => h.ne

/-- A search finds the key, or the key is not there. -/
lemma search_spec (s : RbSet α δ) (k : α) :
    (s.search k = .nil ∧ k ∉ s.keys) ∨
      ∃ c l x r, s.search k = .node c l x r ∧ x.first = k ∧ k ∈ s.keys := by
  have hplug := plug_zoom (keyCut k) s.tree []
  rw [plug_nil] at hplug
  rcases zoom_snd (keyCut k) s.tree [] with hz | ⟨c, l, x, r, hz, hx⟩
  · refine .inl ⟨hz, fun hk => ?_⟩
    obtain ⟨x, hx, rfl⟩ := List.mem_map.mp hk
    exact ne_eq_of_zoom_eq_nil (isCut_keyCut x.first) s.ordered hz x hx (keyCut_eq_eq.mpr rfl)
  · refine .inr ⟨c, l, x, r, hz, keyCut_eq_eq.mp hx, List.mem_map.mpr ⟨x, ?_, keyCut_eq_eq.mp hx⟩⟩
    rw [← hplug, hz, toList_plug]
    simp

lemma search_eq_nil {s : RbSet α δ} {k : α} : s.search k = .nil ↔ k ∉ s.keys := by
  rcases s.search_spec k with ⟨h, hk⟩ | ⟨c, l, x, r, h, -, hk⟩
  · simp [h, hk]
  · simp [h, hk]

/-- A search for the key of a node ends at that node. -/
lemma search_of_plug {s : RbSet α δ} {p : Path (RbPair α δ)} {c : Color}
    {l r : ColorTree (RbPair α δ)} {x : RbPair α δ} (h : plug p (.node c l x r) = s.tree) :
    s.search x.first = .node c l x r := by
  have hord := s.ordered
  rw [← h, toList_plug, toList_node, List.append_assoc, List.pairwise_append] at hord
  obtain ⟨-, hord, hbefore⟩ := hord
  rw [List.append_assoc, List.pairwise_append, List.cons_append, List.pairwise_cons] at hord
  have hsplit : Splits (keyCut x.first) p := by
    refine ⟨fun v hv => keyCut_eq_gt.mpr (hbefore v hv x (by simp)), fun v hv => ?_⟩
    exact keyCut_eq_lt.mpr (hord.2.1.1 v (by simp [hv]))
  have hx : keyCut x.first x = .eq := keyCut_eq_eq.mpr rfl
  rw [search, ← h, zoom_plug hsplit, zoom, hx]

/-! ## The operations -/

/-- The keys still increase when a new one has been put where the search for it ended. -/
lemma ordered_insert {s : RbSet α δ} {x : RbPair α δ} (h : s.search x.first = .nil) :
    (insert (keyCut x.first) x s.tree).toList.Pairwise fun x y => x.first < y.first := by
  obtain ⟨hb, ha⟩ := splits_zoom (isCut_keyCut x.first) (t := s.tree) (p := []) s.ordered
    (splits_nil _)
  have hplug := plug_zoom (keyCut x.first) s.tree []
  have hord := s.ordered
  rw [search] at h
  rw [h, plug_nil] at hplug
  rw [← hplug, toList_plug, toList_nil, List.append_nil, List.pairwise_append] at hord
  rw [toList_insert, List.pairwise_append, List.pairwise_cons]
  refine ⟨hord.1, ⟨fun u hu => keyCut_eq_lt.mp (ha u hu), hord.2.1⟩, fun u hu w hw => ?_⟩
  rcases List.mem_cons.mp hw with rfl | hw
  · exact keyCut_eq_gt.mp (hb u hu)
  · exact hord.2.2 u hu w hw

/-- `rb_insert_if_absent`; the node it returns, if there is one, is `search`. -/
def insertIfAbsent (s : RbSet α δ) (x : RbPair α δ) : RbSet α δ :=
  match h : s.search x.first with
  | .nil => ⟨insert (keyCut x.first) x s.tree, ordered_insert h⟩
  | .node _ _ _ _ => s

lemma ordered_delete (s : RbSet α δ) (k : α) :
    (delete (keyCut k) s.tree).toList.Pairwise fun x y => x.first < y.first := by
  have hord := s.ordered
  rcases delete_spec (keyCut k) s.tree with ⟨-, h⟩ | ⟨us, v, ws, -, hread, h⟩
  · rw [h]
    exact hord
  · rw [h]
    rw [hread] at hord
    exact hord.sublist (by simp)

/-- `rb_delete`. -/
def delete (s : RbSet α δ) (k : α) : RbSet α δ :=
  ⟨ColorTree.delete (keyCut k) s.tree, ordered_delete s k⟩

/-- The tree with the payload of the node with key `k` changed in place. -/
def modifyTree (k : α) (f : δ → δ) (s : RbSet α δ) : ColorTree (RbPair α δ) :=
  match (zoom (keyCut k) s.tree []).2 with
  | .nil => s.tree
  | .node c l x r => plug (zoom (keyCut k) s.tree []).1 (.node c l ⟨x.first, f x.rest⟩ r)

lemma map_first_modifyTree (k : α) (f : δ → δ) (s : RbSet α δ) :
    (modifyTree k f s).map RbPair.first = s.keyTree := by
  have hplug := plug_zoom (keyCut k) s.tree []
  rw [plug_nil] at hplug
  unfold modifyTree
  rcases zoom_snd (keyCut k) s.tree [] with hz | ⟨c, l, x, r, hz, -⟩
  · rw [hz]
    rfl
  · rw [hz] at hplug ⊢
    have := congrArg (ColorTree.map RbPair.first) hplug
    rw [map_plug, map_node] at this
    dsimp only
    rw [map_plug, map_node, this, keyTree]

/-- What hangs off a node but its key is changed in place. -/
def modify (s : RbSet α δ) (k : α) (f : δ → δ) : RbSet α δ where
  tree := modifyTree k f s
  ordered := by
    have hord := s.ordered
    rw [← List.pairwise_map (f := RbPair.first), ← toList_map] at hord ⊢
    rwa [map_first_modifyTree]

/-! ## The keys after an operation -/

lemma toList_keyTree (s : RbSet α δ) : s.keyTree.toList = s.keys := toList_map _ _

@[simp] lemma keys_empty : (empty : RbSet α δ).keys = [] := rfl

lemma insertIfAbsent_of_mem {s : RbSet α δ} {x : RbPair α δ} (h : x.first ∈ s.keys) :
    s.insertIfAbsent x = s := by
  unfold insertIfAbsent
  split
  · next heq => exact absurd h (search_eq_nil.mp heq)
  · rfl

@[simp] lemma mem_keys_insertIfAbsent {s : RbSet α δ} {x : RbPair α δ} {k : α} :
    k ∈ (s.insertIfAbsent x).keys ↔ k = x.first ∨ k ∈ s.keys := by
  by_cases h : x.first ∈ s.keys
  · rw [insertIfAbsent_of_mem h]
    exact ⟨.inr, fun hk => hk.elim (fun heq => heq ▸ h) id⟩
  · unfold insertIfAbsent
    split
    · next heq =>
        have hplug := plug_zoom (keyCut x.first) s.tree []
        rw [search] at heq
        rw [heq, plug_nil] at hplug
        have hread := congrArg toList hplug
        rw [toList_plug, toList_nil, List.append_nil] at hread
        rw [keys, keys, toList_insert, ← hread]
        simp only [List.map_append, List.map_cons, List.mem_append, List.mem_cons]
        rw [or_left_comm]
    · next heq => exact absurd (search_eq_nil.mpr h) (by simp [heq])

lemma keys_delete (s : RbSet α δ) (k : α) :
    (s.delete k).keys = (ColorTree.delete (keyCut k) s.tree).toList.map RbPair.first := rfl

@[simp] lemma mem_keys_delete {s : RbSet α δ} {k k' : α} :
    k' ∈ (s.delete k).keys ↔ k' ≠ k ∧ k' ∈ s.keys := by
  rcases delete_spec (keyCut k) s.tree with ⟨hz, h⟩ | ⟨us, v, ws, hv, hread, h⟩
  · have hk : k ∉ s.keys := search_eq_nil.mp hz
    rw [keys_delete, h, ← keys]
    exact ⟨fun hk' => ⟨ne_of_mem_of_not_mem hk' hk, hk'⟩, And.right⟩
  · have hnd := s.keys_nodup
    obtain rfl := keyCut_eq_eq.mp hv
    rw [keys, hread, List.map_append, List.map_cons, List.nodup_append, List.nodup_cons] at hnd
    obtain ⟨-, ⟨hws, -⟩, hus⟩ := hnd
    rw [keys_delete, h, keys, hread]
    simp only [List.map_append, List.map_cons, List.mem_append, List.mem_cons]
    constructor
    · rintro (hk | hk)
      · exact ⟨hus _ hk _ (by simp), .inl hk⟩
      · exact ⟨ne_of_mem_of_not_mem hk hws, .inr (.inr hk)⟩
    · rintro ⟨hne, hk | rfl | hk⟩
      · exact .inl hk
      · exact absurd rfl hne
      · exact .inr hk

@[simp] lemma keyTree_modify (s : RbSet α δ) (k : α) (f : δ → δ) :
    (s.modify k f).keyTree = s.keyTree := map_first_modifyTree k f s

@[simp] lemma keys_modify (s : RbSet α δ) (k : α) (f : δ → δ) :
    (s.modify k f).keys = s.keys := by
  rw [← toList_keyTree, keyTree_modify, toList_keyTree]

/-! ## The payloads after an operation -/

/-- What hangs off the key that `rb_search` finds. -/
def lookup (s : RbSet α δ) (k : α) : Option δ :=
  match s.search k with
  | .nil => none
  | .node _ _ x _ => some x.rest

lemma pair_unique {s : RbSet α δ} {x y : RbPair α δ} (hx : x ∈ s.tree.toList)
    (hy : y ∈ s.tree.toList) (h : x.first = y.first) : x = y :=
  List.inj_on_of_nodup_map s.keys_nodup hx hy h

lemma lookup_eq_some_iff {s : RbSet α δ} {k : α} {d : δ} :
    s.lookup k = some d ↔ ⟨k, d⟩ ∈ s.tree.toList := by
  have hplug := plug_zoom (keyCut k) s.tree []
  rw [plug_nil] at hplug
  unfold lookup
  rcases s.search_spec k with ⟨h, hk⟩ | ⟨c, l, x, r, h, rfl, hk⟩
  · rw [h]
    exact ⟨fun h => absurd h (by simp), fun hd => absurd (List.mem_map.mpr ⟨_, hd, rfl⟩) hk⟩
  · have hx : x ∈ s.tree.toList := by
      rw [search] at h
      rw [← hplug, h, toList_plug]
      simp
    rw [h]
    dsimp only
    rw [Option.some.injEq]
    constructor
    · rintro rfl
      exact hx
    · intro hd
      exact congrArg RbPair.rest (pair_unique hx hd rfl)

lemma lookup_eq_none_iff {s : RbSet α δ} {k : α} : s.lookup k = none ↔ k ∉ s.keys := by
  unfold lookup
  rcases s.search_spec k with ⟨h, hk⟩ | ⟨c, l, x, r, h, -, hk⟩
  · simp [h, hk]
  · simp [h, hk]

@[simp] lemma lookup_empty (k : α) : (empty : RbSet α δ).lookup k = none := rfl

lemma lookup_insertIfAbsent (s : RbSet α δ) (x : RbPair α δ) (k : α) :
    (s.insertIfAbsent x).lookup k =
      if k = x.first ∧ x.first ∉ s.keys then some x.rest else s.lookup k := by
  by_cases hx : x.first ∈ s.keys
  · rw [insertIfAbsent_of_mem hx, if_neg fun h => h.2 hx]
  · have hmem : ∀ y, y ∈ (s.insertIfAbsent x).tree.toList ↔ y = x ∨ y ∈ s.tree.toList := by
      intro y
      unfold insertIfAbsent
      split
      · next heq =>
          have hplug := plug_zoom (keyCut x.first) s.tree []
          rw [search] at heq
          rw [heq, plug_nil] at hplug
          have hread := congrArg toList hplug
          rw [toList_plug, toList_nil, List.append_nil] at hread
          rw [toList_insert, ← hread]
          simp only [List.mem_append, List.mem_cons]
          rw [or_left_comm]
      · next heq => exact absurd (search_eq_nil.mpr hx) (by simp [heq])
    apply Option.ext
    intro d
    rw [lookup_eq_some_iff, hmem]
    by_cases hk : k = x.first
    · subst hk
      have hd : ⟨x.first, d⟩ ∉ s.tree.toList := fun hd => hx (List.mem_map.mpr ⟨_, hd, rfl⟩)
      rw [if_pos ⟨rfl, hx⟩, or_iff_left hd, Option.some.injEq]
      exact ⟨fun h => (congrArg RbPair.rest h).symm, fun h => by rw [← h]⟩
    · rw [if_neg fun h => hk h.1, ← lookup_eq_some_iff, or_iff_right]
      exact fun h => hk (congrArg RbPair.first h)

lemma lookup_delete (s : RbSet α δ) (k k' : α) :
    (s.delete k).lookup k' = if k' = k then none else s.lookup k' := by
  by_cases hk : k' = k
  · rw [if_pos hk, lookup_eq_none_iff, mem_keys_delete]
    exact fun h => h.1 hk
  · rw [if_neg hk]
    apply Option.ext
    intro d
    rw [lookup_eq_some_iff, lookup_eq_some_iff]
    rcases delete_spec (keyCut k) s.tree with ⟨-, h⟩ | ⟨us, v, ws, hv, hread, h⟩
    · show _ ∈ (ColorTree.delete (keyCut k) s.tree).toList ↔ _
      rw [h]
    · have hne : (⟨k', d⟩ : RbPair α δ) ≠ v := by
        rintro rfl
        exact hk (keyCut_eq_eq.mp hv)
      show _ ∈ (ColorTree.delete (keyCut k) s.tree).toList ↔ _
      rw [h, hread]
      simp [hne]

/-- A change that changes nothing. -/
lemma modify_eq_self {s : RbSet α δ} {k : α} {f : δ → δ} (h : ∀ d, s.lookup k = some d → f d = d) :
    s.modify k f = s := by
  have hplug := plug_zoom (keyCut k) s.tree []
  rw [plug_nil] at hplug
  have htree : modifyTree k f s = s.tree := by
    unfold modifyTree
    rcases zoom_snd (keyCut k) s.tree [] with hz | ⟨c, l, x, r, hz, -⟩
    · rw [hz]
    · have hx : s.lookup k = some x.rest := by rw [lookup, search, hz]
      rw [hz] at hplug ⊢
      dsimp only
      rw [h _ hx]
      exact hplug
  obtain ⟨t, ht⟩ := s
  unfold modify
  simpa using htree

lemma lookup_modify (s : RbSet α δ) (k k' : α) (f : δ → δ) :
    (s.modify k f).lookup k' = if k' = k then (s.lookup k').map f else s.lookup k' := by
  have hplug := plug_zoom (keyCut k) s.tree []
  rw [plug_nil] at hplug
  rcases zoom_snd (keyCut k) s.tree [] with hz | ⟨c, l, x, r, hz, hx⟩
  · have hnone : s.lookup k = none := by rw [lookup, search, hz]
    rw [modify_eq_self fun d hd => absurd (hnone.symm.trans hd) (by simp)]
    split
    · next h => rw [h, hnone]; rfl
    · rfl
  · obtain rfl := keyCut_eq_eq.mp hx
    have hlook : s.lookup x.first = some x.rest := by rw [lookup, search, hz]
    have hnew : (s.modify x.first f).tree =
        plug (zoom (keyCut x.first) s.tree []).1 (.node c l ⟨x.first, f x.rest⟩ r) := by
      show modifyTree x.first f s = _
      unfold modifyTree
      rw [hz]
    rw [hz] at hplug
    by_cases hk : k' = x.first
    · subst hk
      rw [if_pos rfl, hlook, Option.map_some, lookup_eq_some_iff, hnew, toList_plug]
      simp
    · rw [if_neg hk]
      apply Option.ext
      intro d
      have hold := congrArg ColorTree.toList hplug
      rw [toList_plug] at hold
      rw [lookup_eq_some_iff, lookup_eq_some_iff, hnew, toList_plug, ← hold]
      -- another key is in the pair neither before the change nor after it
      have h₁ : (⟨k', d⟩ : RbPair α δ) ≠ x := fun h => hk (congrArg RbPair.first h)
      have h₂ : (⟨k', d⟩ : RbPair α δ) ≠ ⟨x.first, f x.rest⟩ :=
        fun h => hk (congrArg RbPair.first h)
      simp [h₁, h₂]

end RbSet

/-! ## The heap implements the operations -/

/-- The heap holds the tree `s` in the record `T`, in the cells `S`. -/
def Implements (h : Heap α δ) (S : List Ptr) (T : RbTree) (s : RbSet α δ) : Prop :=
  ∃ t : HTree α δ, IsTree h S T t ∧ t.map Prod.snd = s.tree

variable {h : Heap α δ} {S : List Ptr} {T : RbTree} {s : RbSet α δ} {fuel : ℕ}

/-- Searching in the heap and in the set end at the same place. -/
lemma zoom_implements {t : HTree α δ} (ht : t.map Prod.snd = s.tree) (x : RbPair α δ) :
    s.search x.first = (zoom (findCut x) t []).2.map Prod.snd := by
  have hz := zoom_map Prod.snd (keyCut x.first) t []
  rw [List.map_nil, ht] at hz
  rw [RbSet.search, hz, findCut_eq_keyCut]

/-- **`rb_insert_if_absent`** is `insertIfAbsent`, and returns `NULL` exactly when the search
ends in the empty subtree. -/
theorem rbInsertIfAbsent_implements (hi : Implements h S T s) (hfuel : 2 * T.bh < fuel)
    (x : RbPair α δ) {a : Ptr} (ha : Fresh h a) :
    ∃ q T' h' S', rbInsertIfAbsent fuel T h x a = some (q, T', h') ∧
      Implements h' S' T' (s.insertIfAbsent x) ∧ (q = NULL ↔ s.search x.first = .nil) := by
  obtain ⟨t, ht, htree⟩ := hi
  have hzoom := zoom_implements htree x
  obtain ⟨q, T', h', heq, hcase⟩ := rbInsertIfAbsent_spec ht hfuel x ha
  rcases hcase with ⟨v, hv, rfl, hkey, ht', hfr⟩ | ⟨rfl, habs, t', ht', hfr, hperm, hins⟩
  · have hmem : x.first ∈ s.keys := by
      rw [RbSet.keys, ← htree, toList_map, List.map_map]
      exact List.mem_map.mpr ⟨v, hv, hkey⟩
    obtain ⟨n, hn, -⟩ := ht'.loc.tree.cell_of_mem hv
    have hne : v.1 ≠ NULL := ht'.loc.ne_null_of_cell hn
    refine ⟨v.1, T', h', S, heq, ⟨t, ht', ?_⟩, ?_⟩
    · rw [RbSet.insertIfAbsent_of_mem hmem, htree]
    · simp [hne, RbSet.search_eq_nil, hmem]
  · have hnil : s.search x.first = .nil := by
      rw [RbSet.search_eq_nil, RbSet.keys, ← htree, toList_map, List.map_map]
      intro hmem
      obtain ⟨v, hv, hkey⟩ := List.mem_map.mp hmem
      exact habs v hv hkey
    refine ⟨NULL, T', h', a :: S, heq, ⟨t', ht', ?_⟩, by simp [hnil]⟩
    unfold RbSet.insertIfAbsent
    split
    · rw [hins, findCut_eq_keyCut, map_insert, htree]
    · next heq => rw [hnil] at heq; cases heq

/-- **`rb_delete`** is `delete`. -/
theorem rbDelete_implements (hi : Implements h S T s) (hfuel : 2 * T.bh + 3 ≤ fuel)
    (x : RbPair α δ) :
    ∃ T' h' S', rbDelete fuel T h x = some (T', h') ∧
      Implements h' S' T' (s.delete x.first) := by
  obtain ⟨t, ht, htree⟩ := hi
  obtain ⟨T', h', S', t', heq, ht', -, -, hread⟩ := rbDelete_eq ht hfuel x
  refine ⟨T', h', S', heq, t', ht', ?_⟩
  rw [hread, findCut_eq_keyCut, map_delete, htree]
  rfl

/-- **`rb_search`** returns the node in which `search` ends, or `NULL`. -/
theorem rbSearch_implements (hi : Implements h S T s) (hfuel : 2 * T.bh < fuel)
    (x : RbPair α δ) :
    ∃ q h', rbSearch fuel T h x = some (q, h') ∧ Implements h' S T s ∧
      (q = NULL ↔ s.search x.first = .nil) := by
  obtain ⟨t, ht, htree⟩ := hi
  obtain ⟨h', heq, hl'⟩ := rbSearch_eq ht.loc ht.balanced hfuel x
  refine ⟨_, h', heq, ⟨t, ⟨hl'.reframe, ht.balanced, ht.sorted⟩, htree⟩, ?_⟩
  rw [zoom_implements htree x]
  have hfoc := loc_zoom hl' (findCut x)
  rcases zoom_snd (findCut x) t [] with hz | ⟨c, l, v, r, hz, -⟩
  · simp [hz]
  · rw [hz] at hfoc ⊢
    rw [addr_node, if_neg hfoc.addr_ne_nil]
    simpa using hfoc.ne_null_of_cell hfoc.tree.1

end Javalette.Rbtree
