import Javalette.RbTree.Delete

/-!
# The red-black trees implement ordered collections

A `World` is the heap together with the trees that live in it; they share the sentinel, which
every operation may write.  An operation works on one tree, and takes whatever address
`malloc` returns.  `Correct` says of a sequence of operations that each of them succeeds
(no access outside the memory or past `stack_size`, no failing assertion, no endless loop),
has its mathematical effect on the collections, and leaves every tree as it has to be.

The invariant behind it is `Inv`: every tree is a search tree of red-black shape over its own
cells, and no two trees share a cell.
-/

namespace Javalette.Rbtree

open ColorTree

variable {α δ : Type}

/-- The heap and the trees in it. -/
structure World (α δ : Type) where
  heap : Heap α δ
  trees : List RbTree

/-- Before the first operation there is only the sentinel. -/
def World.initial : World α δ :=
  ⟨Heap.store (fun _ => none) theNil ⟨none, NULL, NULL, .black⟩, []⟩

/-- The operations on the trees; `i` numbers the trees in the order of their creation. -/
inductive Op (α δ : Type)
  | new
  | insert (i : ℕ) (x : RbPair α δ)
  | insertIfAbsent (i : ℕ) (x : RbPair α δ)
  | delete (i : ℕ) (x : RbPair α δ)
  | clear (i : ℕ)
  | search (i : ℕ) (x : RbPair α δ)

/-- An operation names a tree that has been created. -/
def Op.Valid (w : World α δ) : Op α δ → Prop
  | .new => True
  | .insert i _ | .insertIfAbsent i _ | .delete i _ | .clear i | .search i _ => i < w.trees.length

section Keys

variable [LinearOrder α]

/-- One operation, with the fuel of its loops, the address that `malloc` returns, and the
pointer that the operation returns (`NULL` for those that return nothing). -/
def World.exec (w : World α δ) (fuel : ℕ) (a : Ptr) : Op α δ → Option (Ptr × World α δ)
  | .new => some (NULL, { w with trees := w.trees ++ [rbNew] })
  | .insert i x => do
      let (t, h) ← rbInsert fuel (← w.trees[i]?) w.heap x a
      return (NULL, ⟨h, w.trees.set i t⟩)
  | .insertIfAbsent i x => do
      let (q, t, h) ← rbInsertIfAbsent fuel (← w.trees[i]?) w.heap x a
      return (q, ⟨h, w.trees.set i t⟩)
  | .delete i x => do
      let (t, h) ← rbDelete fuel (← w.trees[i]?) w.heap x
      return (NULL, ⟨h, w.trees.set i t⟩)
  | .clear i => do
      let (t, h) ← rbClear fuel (← w.trees[i]?) w.heap
      return (NULL, ⟨h, w.trees.set i t⟩)
  | .search i x => do
      let (q, h) ← rbSearch fuel (← w.trees[i]?) w.heap x
      return (q, { w with heap := h })

/-! ## What the operations are for -/

/-- The pointer `q` answers a search for `x` in the collection `m`: it is `NULL` when no key
matches, and else points at a node with a matching key of the collection. -/
def Answers (h : Heap α δ) (m : Multiset (RbPair α δ)) (x : RbPair α δ) (q : Ptr) : Prop :=
  (q = NULL ∧ ∀ k ∈ m, k.first ≠ x.first) ∨
    q ≠ NULL ∧ ∃ n k, h q = some n ∧ n.key = some k ∧ k ∈ m ∧ k.first = x.first

/-- The mathematical effect of an operation that returned `q`, leaving the heap `h`, on the
collections `ms`. -/
def Effect (h : Heap α δ) (q : Ptr) (ms ms' : List (Multiset (RbPair α δ))) : Op α δ → Prop
  | .new => ms' = ms ++ [0]
  | .insert i x => ∃ m, ms[i]? = some m ∧ ms' = ms.set i (x ::ₘ m)
  | .insertIfAbsent i x => ∃ m, ms[i]? = some m ∧ Answers h m x q ∧
      ms' = if q = NULL then ms.set i (x ::ₘ m) else ms
  | .delete i x => ∃ m, ms[i]? = some m ∧
      ((∀ k ∈ m, k.first ≠ x.first) ∧ ms' = ms ∨
        ∃ k m', k.first = x.first ∧ m = k ::ₘ m' ∧ ms' = ms.set i m')
  | .clear i => ms' = ms.set i 0
  | .search i x => ms' = ms ∧ ∃ m, ms[i]? = some m ∧ Answers h m x q

/-- The record `T` is a red-black tree of the keys `m`. -/
def Represents (h : Heap α δ) (T : RbTree) (m : Multiset (RbPair α δ)) : Prop :=
  ∃ t : HTree α δ, T.root = addr t ∧ Holds h t ∧
    (t.toList.map fun v => v.2.first).Pairwise (· ≤ ·) ∧
    t.rootColor = .black ∧ t.NoRedRed ∧ (∀ n ∈ t.blackCounts, n = T.bh) ∧
    (t.toList.map Prod.snd : Multiset (RbPair α δ)) = m ∧
    ∀ x, ∃ N, ∀ fuel ≥ N, ∃ q h', rbSearch fuel T h x = some (q, h') ∧ Answers h' m x q

/-- Every tree represents its collection. -/
def Good (w : World α δ) (ms : List (Multiset (RbPair α δ))) : Prop :=
  w.trees.length = ms.length ∧
    ∀ (i : ℕ) T m, w.trees[i]? = some T → ms[i]? = some m → Represents w.heap T m

/-- The operations of a sequence succeed one after the other, each with its effect: whenever
its loops are given enough fuel, that is, they end. -/
def Correct (w : World α δ) (ms : List (Multiset (RbPair α δ))) : List (Op α δ × Ptr) → Prop
  | [] => True
  | (op, a) :: ops => op.Valid w → Fresh w.heap a →
      ∃ N, ∀ fuel ≥ N, ∃ q w' ms', w.exec fuel a op = some (q, w') ∧
        Effect w'.heap q ms ms' op ∧ Good w' ms' ∧ Correct w' ms' ops

/-! ## The invariant -/

/-- The keys of a tree. -/
def keys (t : HTree α δ) : Multiset (RbPair α δ) := t.toList.map Prod.snd

omit [LinearOrder α] in
lemma keys_congr {t t' : HTree α δ} (h : t'.map Prod.snd = t.map Prod.snd) : keys t' = keys t := by
  have := congrArg toList h
  rw [toList_map, toList_map] at this
  rw [keys, keys, this]

omit [LinearOrder α] in
/-- What holds of the key of every node holds of all keys. -/
lemma forall_keys {t : HTree α δ} {P : RbPair α δ → Prop} (h : ∀ v ∈ t.toList, P v.2) :
    ∀ k ∈ keys t, P k := by
  intro k hk
  obtain ⟨v, hv, rfl⟩ := List.mem_map.mp (Multiset.mem_coe.mp hk)
  exact h v hv

/-- Every tree is a search tree over its own cells, and no two trees share a cell. -/
structure Inv (w : World α δ) (ts : List (List Ptr × HTree α δ)) : Prop where
  length : w.trees.length = ts.length
  tree : ∀ (i : ℕ) T st, w.trees[i]? = some T → ts[i]? = some st → IsTree w.heap st.1 T st.2
  disjoint : ∀ (i j : ℕ) st st', i ≠ j → ts[i]? = some st → ts[j]? = some st' → st.1.Disjoint st'.1
  nilCell : ∃ n, w.heap theNil = some n ∧ n.color = .black ∧ n.left = NULL
  null : w.heap NULL = none

/-- Searching in a search tree answers. -/
lemma answers_of_isTree {h : Heap α δ} {S : List Ptr} {T : RbTree} {t : HTree α δ} {fuel : ℕ}
    (ht : IsTree h S T t) (hfuel : 2 * T.bh < fuel) (x : RbPair α δ) :
    ∃ q h', rbSearch fuel T h x = some (q, h') ∧ Answers h' (keys t) x q ∧ IsTree h' S T t ∧
      EqOff S h h' := by
  obtain ⟨h', heq, hl'⟩ := rbSearch_eq ht.loc ht.balanced hfuel x
  refine ⟨_, h', heq, ?_, ⟨hl'.reframe, ht.balanced, ht.sorted⟩, hl'.frame⟩
  have hfoc := loc_zoom hl' (findCut x)
  rcases zoom_snd (findCut x) t [] with hz | ⟨c, l, v, r, hz, hv⟩
  · refine .inl ⟨by simp [hz], forall_keys fun v hv heq => ?_⟩
    exact ne_eq_of_zoom_eq_nil (isCut_findCut x) ht.sorted hz v hv (findCut_eq_eq.mpr heq.symm)
  · rw [hz] at hfoc
    have hcell := hfoc.tree.1
    have hplug := plug_zoom (findCut x) t []
    rw [hz, plug_nil] at hplug
    refine .inr ?_
    rw [hz, addr_node, if_neg hfoc.addr_ne_nil]
    refine ⟨hfoc.ne_null_of_cell hcell, _, v.2, hcell, rfl, ?_, (findCut_eq_eq.mp hv).symm⟩
    refine Multiset.mem_coe.mpr (List.mem_map.mpr ⟨v, ?_, rfl⟩)
    rw [← hplug, toList_plug]
    simp

/-- A search tree represents its keys. -/
lemma IsTree.represents {h : Heap α δ} {S : List Ptr} {T : RbTree} {t : HTree α δ}
    (ht : IsTree h S T t) : Represents h T (keys t) := by
  refine ⟨t, ht.loc.root, ht.loc.tree, ?_, ht.balanced.rootColor, ht.balanced.noRedRed,
    ht.balanced.blackCounts, rfl, fun x => ⟨2 * T.bh + 1, fun fuel hfuel => ?_⟩⟩
  · rw [List.pairwise_map]
    exact ht.sorted
  · obtain ⟨q, h', heq, hans, -⟩ := answers_of_isTree ht hfuel x
    exact ⟨q, h', heq, hans⟩

lemma Inv.good {w : World α δ} {ts : List (List Ptr × HTree α δ)} (hi : Inv w ts) :
    Good w (ts.map fun st => keys st.2) := by
  refine ⟨by rw [hi.length, List.length_map], fun i T m hT hm => ?_⟩
  rw [List.getElem?_map, Option.map_eq_some_iff] at hm
  obtain ⟨st, hst, rfl⟩ := hm
  exact (hi.tree i T st hT hst).represents

/-- Opening the invariant at one tree. -/
lemma Inv.at {w : World α δ} {ts : List (List Ptr × HTree α δ)} (hi : Inv w ts) {i : ℕ}
    (hlt : i < w.trees.length) :
    ∃ T S t, w.trees[i]? = some T ∧ ts[i]? = some (S, t) ∧ IsTree w.heap S T t := by
  have hT := List.getElem?_eq_getElem hlt
  have hst := List.getElem?_eq_getElem (hi.length ▸ hlt)
  exact ⟨_, _, _, hT, hst, hi.tree i _ _ hT hst⟩

/-- A fresh address belongs to no tree. -/
lemma Inv.notMem_of_fresh {w : World α δ} {ts : List (List Ptr × HTree α δ)} (hi : Inv w ts)
    {a : Ptr} (ha : Fresh w.heap a) {j : ℕ} {st : List Ptr × HTree α δ}
    (hst : ts[j]? = some st) : a ∉ st.1 := by
  intro hmem
  have hlt : j < w.trees.length := by
    rw [hi.length]
    exact (List.getElem?_eq_some_iff.mp hst).1
  obtain ⟨n, hn⟩ := (hi.tree j _ st (List.getElem?_eq_getElem hlt) hst).loc.allocated hmem
  exact ha.ne_of_cell hn rfl

/-- **Framing.**  An operation on one tree that writes only cells of that tree, or of no tree,
keeps the invariant. -/
lemma Inv.set {w : World α δ} {ts : List (List Ptr × HTree α δ)} (hi : Inv w ts) {i : ℕ}
    {S S' F : List Ptr} {t t' : HTree α δ} (hst : ts[i]? = some (S, t)) {h' : Heap α δ}
    {T' : RbTree} (ht : IsTree h' S' T' t') (hfr : EqOff F w.heap h') (hsub : S' ⊆ F)
    (hF : ∀ q ∈ F, q ∈ S ∨ Fresh w.heap q) :
    Inv ⟨h', w.trees.set i T'⟩ (ts.set i (S', t')) := by
  -- the cells of another tree are not touched
  have hother : ∀ (j : ℕ) st, i ≠ j → ts[j]? = some st → ∀ q ∈ st.1, q ∉ F := by
    intro j st hne hst' q hq hqF
    rcases hF q hqF with hqS | hqf
    · exact hi.disjoint i j _ _ hne hst hst' hqS hq
    · exact hi.notMem_of_fresh hqf hst' hq
  refine ⟨by simp [hi.length], ?_, ?_, ht.loc.nilCell, ht.loc.null⟩
  · intro j T st hT hst'
    by_cases hij : i = j
    · subst hij
      rw [List.getElem?_set_self (List.getElem?_eq_some_iff.mp hst).1] at hst'
      have hlt : i < w.trees.length := hi.length ▸ (List.getElem?_eq_some_iff.mp hst).1
      rw [List.getElem?_set_self hlt] at hT
      cases hst'
      cases hT
      exact ht
    · rw [List.getElem?_set_ne hij] at hT hst'
      have hold := hi.tree j T st hT hst'
      refine ⟨hold.loc.transport (fun q hq => hfr q (hother j st hij hst' q hq) ?_) ht.loc.nilCell
        ht.loc.null, hold.balanced, hold.sorted⟩
      exact fun heq => hold.loc.nil_notMem (heq ▸ hq)
  · intro j k st st' hne hst' hst''
    by_cases hij : i = j
    · subst hij
      rw [List.getElem?_set_self (List.getElem?_eq_some_iff.mp hst).1] at hst'
      rw [List.getElem?_set_ne hne] at hst''
      cases hst'
      exact fun q hq hq' => hother k st' hne hst'' q hq' (hsub hq)
    · rw [List.getElem?_set_ne hij] at hst'
      by_cases hik : i = k
      · subst hik
        rw [List.getElem?_set_self (List.getElem?_eq_some_iff.mp hst).1] at hst''
        cases hst''
        exact fun q hq hq' => hother j st hij hst' q hq (hsub hq')
      · rw [List.getElem?_set_ne hik] at hst''
        exact hi.disjoint j k st st' hne hst' hst''

omit [LinearOrder α] in
lemma map_keys_set (ts : List (List Ptr × HTree α δ)) (i : ℕ) (st : List Ptr × HTree α δ) :
    (ts.set i st).map (fun st => keys st.2) = (ts.map fun st => keys st.2).set i (keys st.2) := by
  rw [List.map_set]

lemma set_self {β : Type} {l : List β} {i : ℕ} {x : β} (hx : l[i]? = some x) :
    l.set i x = l := by
  obtain ⟨hlt, rfl⟩ := List.getElem?_eq_some_iff.mp hx
  exact List.set_getElem_self hlt

omit [LinearOrder α] in
lemma keys_of_perm {t t' : HTree α δ} {v : Ptr × RbPair α δ}
    (hperm : t'.toList.Perm (v :: t.toList)) : keys t' = v.2 ::ₘ keys t := by
  have := hperm.map Prod.snd
  simpa [keys] using Multiset.coe_eq_coe.mpr this

/-! ## One operation -/

/-- With enough fuel the operation succeeds, has its effect and keeps the invariant. -/
def Steps (w : World α δ) (ts : List (List Ptr × HTree α δ)) (a : Ptr) (op : Op α δ) : Prop :=
  ∃ N, ∀ fuel ≥ N, ∃ q w' ts', w.exec fuel a op = some (q, w') ∧
    Effect w'.heap q (ts.map fun st => keys st.2) (ts'.map fun st => keys st.2) op ∧ Inv w' ts'

section Steps

variable {w : World α δ} {ts : List (List Ptr × HTree α δ)} {a : Ptr} {i : ℕ} {x : RbPair α δ}

/-- A new tree has no cells. -/
lemma Inv.new (hi : Inv w ts) :
    Inv { w with trees := w.trees ++ [rbNew] } (ts ++ [([], .nil)]) := by
  refine ⟨by simp [hi.length], ?_, ?_, hi.nilCell, hi.null⟩
  · intro j T st hT hst
    -- one of the trees of before, or the empty one that is put behind them
    rcases lt_or_ge j w.trees.length with hlt | hge
    · rw [List.getElem?_append_left hlt] at hT
      rw [List.getElem?_append_left (hi.length ▸ hlt)] at hst
      exact hi.tree j T st hT hst
    · rw [List.getElem?_append_right hge, List.getElem?_singleton] at hT
      rw [List.getElem?_append_right (hi.length ▸ hge), List.getElem?_singleton] at hst
      split at hT
      · split at hst
        · cases hT
          cases hst
          exact ⟨Loc.empty hi.nilCell hi.null rfl rfl, .nil, .nil⟩
        · cases hst
      · cases hT
  · have hold : ∀ (j : ℕ) st, (ts ++ [([], .nil)])[j]? = some st →
        ts[j]? = some st ∨ st.1 = [] := by
      intro j st hst
      rcases lt_or_ge j ts.length with hlt | hge
      · rw [List.getElem?_append_left hlt] at hst
        exact .inl hst
      · rw [List.getElem?_append_right hge, List.getElem?_singleton] at hst
        split at hst
        · cases hst
          exact .inr rfl
        · cases hst
    intro j k st st' hne hst hst'
    rcases hold j st hst with hst | hst
    · rcases hold k st' hst' with hst' | hst'
      · exact hi.disjoint j k st st' hne hst hst'
      · rw [hst']
        exact List.disjoint_nil_right _
    · rw [hst]
      exact List.disjoint_nil_left _

lemma Inv.steps_new (hi : Inv w ts) : Steps w ts a .new :=
  ⟨0, fun fuel _ => ⟨NULL, _, ts ++ [([], .nil)], rfl, by simp [Effect, keys], hi.new⟩⟩

lemma Inv.steps_insert (hi : Inv w ts) (hlt : i < w.trees.length) (ha : Fresh w.heap a) :
    Steps w ts a (.insert i x) := by
  obtain ⟨T, S, t, hT, hst, ht⟩ := hi.at hlt
  refine ⟨2 * T.bh + 3, fun fuel hfuel => ?_⟩
  have hlt : 2 * T.bh < fuel := by omega
  obtain ⟨T', h', heq, t', ht', hfr, hperm, -⟩ := rbInsert_spec ht hlt x ha
  refine ⟨NULL, ⟨h', w.trees.set i T'⟩, ts.set i (a :: S, t'), ?_, ⟨keys t, ?_, ?_⟩,
    hi.set hst ht' hfr (List.Subset.refl _) ?_⟩
  · simp [World.exec, hT, heq]
  · simp [hst]
  · rw [map_keys_set, keys_of_perm hperm]
  · exact fun q hq => (List.mem_cons.mp hq).elim (fun h => .inr (h ▸ ha)) .inl

lemma Inv.steps_insertIfAbsent (hi : Inv w ts) (hlt : i < w.trees.length)
    (ha : Fresh w.heap a) : Steps w ts a (.insertIfAbsent i x) := by
  obtain ⟨T, S, t, hT, hst, ht⟩ := hi.at hlt
  refine ⟨2 * T.bh + 3, fun fuel hfuel => ?_⟩
  have hlt : 2 * T.bh < fuel := by omega
  obtain ⟨q, T', h', heq, hcase⟩ := rbInsertIfAbsent_spec ht hlt x ha
  rcases hcase with ⟨v, hv, rfl, hkey, ht', hfr⟩ | ⟨rfl, habs, t', ht', hfr, hperm, -⟩
  · -- the key is there
    obtain ⟨n, hn, hnkey⟩ := ht'.loc.tree.cell_of_mem hv
    have hne : v.1 ≠ NULL := ht'.loc.ne_null_of_cell hn
    have hmem : v.2 ∈ keys t := Multiset.mem_coe.mpr (List.mem_map.mpr ⟨v, hv, rfl⟩)
    refine ⟨v.1, ⟨h', w.trees.set i T'⟩, ts.set i (S, t), ?_, ⟨keys t, ?_, ?_, ?_⟩,
      hi.set hst ht' hfr (List.Subset.refl _) (fun q hq => .inl hq)⟩
    · simp [World.exec, hT, heq]
    · simp [hst]
    · exact .inr ⟨hne, n, v.2, hn, hnkey, hmem, hkey⟩
    · rw [if_neg hne, set_self hst]
  · -- a new node is made for it
    refine ⟨NULL, ⟨h', w.trees.set i T'⟩, ts.set i (a :: S, t'), ?_, ⟨keys t, ?_, ?_, ?_⟩,
      hi.set hst ht' hfr (List.Subset.refl _) ?_⟩
    · simp [World.exec, hT, heq]
    · simp [hst]
    · exact .inl ⟨rfl, forall_keys habs⟩
    · rw [map_keys_set, keys_of_perm hperm, if_pos rfl]
    · exact fun q hq => (List.mem_cons.mp hq).elim (fun h => .inr (h ▸ ha)) .inl

lemma Inv.steps_delete (hi : Inv w ts) (hlt : i < w.trees.length) :
    Steps w ts a (.delete i x) := by
  obtain ⟨T, S, t, hT, hst, ht⟩ := hi.at hlt
  refine ⟨2 * T.bh + 3, fun fuel hfuel => ?_⟩
  obtain ⟨T', h', S', t', heq, ht', hsub, hfr, hcase⟩ := rbDelete_spec ht hfuel x
  refine ⟨NULL, ⟨h', w.trees.set i T'⟩, ts.set i (S', t'), ?_, ⟨keys t, ?_, ?_⟩,
    hi.set hst ht' hfr hsub (fun q hq => .inl hq)⟩
  · simp [World.exec, hT, heq]
  · simp [hst]
  · rw [map_keys_set]
    rcases hcase with ⟨habs, hsame⟩ | ⟨v, hv, hkey, hperm⟩
    · refine .inl ⟨forall_keys habs, ?_⟩
      rw [keys_congr hsame]
      exact set_self (by simp [hst])
    · exact .inr ⟨v.2, keys t', hkey, Multiset.coe_eq_coe.mpr hperm, rfl⟩

lemma Inv.steps_clear (hi : Inv w ts) (hlt : i < w.trees.length) : Steps w ts a (.clear i) := by
  obtain ⟨T, S, t, hT, hst, ht⟩ := hi.at hlt
  refine ⟨2 * T.bh + 3, fun fuel hfuel => ?_⟩
  have hlt : 2 * T.bh < fuel := by omega
  obtain ⟨T', h', heq, hl', hbh, hfr, -⟩ := rbClear_spec ht.loc ht.balanced hlt
  have ht' : IsTree h' [] T' .nil := ⟨hl', hbh ▸ .nil, .nil⟩
  refine ⟨NULL, ⟨h', w.trees.set i T'⟩, ts.set i ([], .nil), ?_, ?_,
    hi.set hst ht' hfr (List.nil_subset _) (fun q hq => .inl hq)⟩
  · simp [World.exec, hT, heq]
  · rw [Effect, map_keys_set]
    rfl

/-- A search writes the sentinel only. -/
lemma Inv.steps_search (hi : Inv w ts) (hlt : i < w.trees.length) :
    Steps w ts a (.search i x) := by
  obtain ⟨T, S, t, hT, hst, ht⟩ := hi.at hlt
  refine ⟨2 * T.bh + 3, fun fuel hfuel => ?_⟩
  have hlt : 2 * T.bh < fuel := by omega
  obtain ⟨q, h', heq, hans, ht', hfr⟩ := answers_of_isTree ht hlt x
  have hset := hi.set hst ht' hfr (List.Subset.refl _) (fun q hq => .inl hq)
  rw [set_self hT, set_self hst] at hset
  refine ⟨q, ⟨h', w.trees⟩, ts, ?_, ⟨rfl, keys t, ?_, hans⟩, hset⟩
  · simp [World.exec, hT, heq]
  · simp [hst]

/-- **One operation** keeps the invariant and has its effect. -/
theorem Inv.step (hi : Inv w ts) {op : Op α δ} (hv : op.Valid w) (ha : Fresh w.heap a) :
    Steps w ts a op := by
  cases op with
  | new => exact hi.steps_new
  | insert i x => exact hi.steps_insert hv ha
  | insertIfAbsent i x => exact hi.steps_insertIfAbsent hv ha
  | delete i x => exact hi.steps_delete hv
  | clear i => exact hi.steps_clear hv
  | search i x => exact hi.steps_search hv

end Steps

/-- **The red-black trees implement ordered collections**, over every sequence of
operations. -/
theorem correct_of_inv (ops : List (Op α δ × Ptr)) {w : World α δ}
    {ts : List (List Ptr × HTree α δ)} (hi : Inv w ts) :
    Correct w (ts.map fun st => keys st.2) ops := by
  induction ops generalizing w ts with
  | nil => trivial
  | cons op ops ih =>
      obtain ⟨op, a⟩ := op
      intro hv ha
      obtain ⟨N, hN⟩ := hi.step hv ha
      refine ⟨N, fun fuel hfuel => ?_⟩
      obtain ⟨q, w', ts', heq, heff, hi'⟩ := hN fuel hfuel
      exact ⟨q, w', _, heq, heff, hi'.good, ih hi'⟩

lemma inv_initial : Inv (World.initial : World α δ) [] where
  length := rfl
  tree := by simp
  disjoint := by simp
  nilCell := ⟨⟨none, NULL, NULL, .black⟩, by simp [World.initial], rfl, rfl⟩
  null := by simp [World.initial, Heap.store, NULL, theNil]

/-- **The red-black trees implement ordered collections.**  Over every sequence of operations,
whatever the keys and whatever fresh addresses `malloc` returns. -/
theorem rbtree_correct (ops : List (Op α δ × Ptr)) : Correct World.initial [] ops :=
  correct_of_inv ops inv_initial

end Keys

end Javalette.Rbtree
