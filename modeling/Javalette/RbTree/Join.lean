import Javalette.RbTree.Correctness
import Mathlib.Data.Multiset.AddSub

/-!
# Joining two red-black trees

`rb_join` hangs the lower one of two trees, with a new red node, on the spine of the higher one:
it goes down the spine to a black node of the black height of the lower tree, and the new node
takes its place.  The repair is that of an insertion.

When one of the trees is empty the other one is returned as it is, without the new key.

The two halves of `rb_join` for the two ways round are one definition, parameterised by the side
on which the spine is.
-/

namespace Javalette.Rbtree

variable {α δ : Type}

/-- `rb_free`.  The record and its path stack are not in the heap of the nodes. -/
def rbFree (fuel : ℕ) (t : RbTree) (h : Heap α δ) : Option (Heap α δ) :=
  rbFreeSubtree fuel h t.root t.nil

/-- The loop of `rb_join`, down the spine on side `s`. -/
def joinLoop (s : Side) (target : ℕ) :
    ℕ → RbTree → Heap α δ → Ptr → ℕ → ℕ → Option (RbTree × Ptr × ℕ × ℕ)
  | 0, _, _, _, _, _ => none
  | fuel + 1, t, h, node, bh, depth => do
      if node ≠ t.nil ∧ bh ≠ target then
        assert (depth + 1 ≤ 2 * t.bh)
        let t ← t.stackSet (depth + 1) node
        let node := (← h node).child s
        let bh := if (← h node).color = .black then bh - 1 else bh
        joinLoop s target fuel t h node bh (depth + 1)
      else return (t, node, bh, depth)

section Keys

variable [LinearOrder α]

/-- The assertion on the key above the new node: on the right spine the new key is not less, on
the left one it is not greater. -/
def joinOrdered (s : Side) (x : RbPair α δ) (k : Option (RbPair α δ)) : Option Bool :=
  match s with
  | .right => do return !(← rbCmpLess x k)
  | .left => do return !(← rbCmpLess (← k) (some x))

/-- The end of a half of `rb_join`: the new node `n` takes the place of `node` in the tree `t`, with
`node` and the tree `other` below it. -/
def joinHang (s : Side) (fuel : ℕ) (t : RbTree) (h : Heap α δ) (x : RbPair α δ)
    (other node n : Ptr) (depth : ℕ) : Option (RbTree × Heap α δ) := do
  let h := h.store n ⟨some x, s.onLeft other node, s.onRight other node, .red⟩
  let parent ← t.stackGet depth
  if parent ≠ t.nil then
    assert (← joinOrdered s x (← h parent).key)
    let h ← Heap.setChild s h parent n
    rbInsertFixup fuel t h n (← t.stackGet depth) depth
  else
    let t := { t with root := n }
    let h ← h.setColor n .black
    return ({ t with bh := t.bh + 1 }, h)

/-- The half of `rb_join` in which `t` is the higher tree and its spine is on side `s`; `n` is what
`malloc` returned. -/
def joinOnto (s : Side) (fuel : ℕ) (t : RbTree) (h : Heap α δ) (x : RbPair α δ) (other : RbTree)
    (n : Ptr) : Option (RbTree × Heap α δ) := do
  let t ← growStack t
  let (t, node, bh, depth) ← joinLoop s other.bh fuel t h t.root t.bh 0
  assert (bh = other.bh)
  let (t, h) ← joinHang s fuel t h x other.root node n depth
  let h ← rbFree fuel { other with root := other.nil } h
  return (t, h)

/-- `rb_join`. -/
def rbJoin (fuel : ℕ) (tree1 : RbTree) (x : RbPair α δ) (tree2 : RbTree) (h : Heap α δ) (n : Ptr) :
    Option (RbTree × Heap α δ) := do
  assert (tree1.nil = tree2.nil)
  if tree1.root = tree1.nil then
    let h ← rbFree fuel tree1 h
    return (tree2, h)
  else if tree2.root = tree2.nil then
    let h ← rbFree fuel tree2 h
    return (tree1, h)
  else if tree1.bh ≥ tree2.bh then joinOnto .right fuel tree1 h x tree2 n
  else joinOnto .left fuel tree2 h x tree1 n

end Keys

open ColorTree

/-! ## Down the spine -/

/-- All nodes of the path have the hole on side `s`. -/
def Spine (s : Side) (p : HPath α δ) : Prop := ∀ f ∈ p, f.side = s

/-- What the loop counts at a subtree: a red node counts as the black node above it. -/
def spineCount (c : Color) (n : ℕ) : ℕ := if c = .red then n + 1 else n

/-- What the reading of a tree has on the far side of the spine. -/
lemma toList_plug_spine {s : Side} {p : HPath α δ} (hp : Spine s p) (t u : HTree α δ)
    (v : Ptr × RbPair α δ) (c : Color) :
    (plug p (sided s c u v t)).toList =
      s.onLeft u.toList (plug p t).toList ++ v :: s.onRight u.toList (plug p t).toList := by
  have hout : (s = .right → after p = []) ∧ (s = .left → before p = []) := by
    induction p with
    | nil => exact ⟨fun _ => rfl, fun _ => rfl⟩
    | cons f p ih =>
        obtain ⟨s', c', v', sib⟩ := f
        obtain rfl : s' = s := hp _ List.mem_cons_self
        have ih := ih fun g hg => hp g (List.mem_cons_of_mem _ hg)
        constructor
        · rintro rfl
          exact ih.1 rfl
        · rintro rfl
          exact ih.2 rfl
  rw [toList_plug, toList_plug]
  cases s with
  | left => simp [hout.2 rfl, sided]
  | right => simp [hout.1 rfl, sided]

section Loop

variable {h₀ h : Heap α δ} {S : List Ptr} {T : RbTree}

/-- A turn of the loop, at a node whose count is not the one that is looked for. -/
lemma joinLoop_turn {s : Side} {m : ℕ} {c ca : Color} {a b : HTree α δ} {v : Ptr × RbPair α δ}
    {p : HPath α δ} {k bh : ℕ} (fuel : ℕ) (hl : Loc h₀ S h T p (sided s c a v b))
    (hs : StackHolds T p) (hfit : Fits (⟨s, c, v, b⟩ :: p) c k T.bh) (ha : Balanced a ca k)
    (hc : c = .red → ca = .black) (hsize : 2 * T.bh < T.stackSize) (hbh : bh ≠ m) :
    ∃ T', T' = { T with stack := T'.stack } ∧ StackHolds T' (⟨s, c, v, b⟩ :: p) ∧
      joinLoop s m (fuel + 1) T h v.1 bh p.length =
        joinLoop s m fuel T' h (addr a) (if ca = .black then bh - 1 else bh) (p.length + 1) := by
  obtain ⟨T', hassert, hset, hs', hT'⟩ := push_eq (f := ⟨s, c, v, b⟩) hs (hfit.plug ha hc) hsize
  obtain ⟨x, hx, hcolor⟩ := hl.down.color_eq
  have hnil : v.1 ≠ T.nil := by
    rw [hl.nil]
    exact hl.ne_nil_of_mem (mem_addrs_sided.mpr (.inl rfl))
  have hcell := hl.cell_eq
  refine ⟨T', hT', hs', ?_⟩
  rw [joinLoop, if_pos ⟨hnil, hbh⟩]
  simp only [hassert, hset, hcell, Option.bind_eq_bind, Option.bind_some, cell_child, hx, hcolor,
    ha.rootColor]

/-- **The loop** comes to a black node of the black height `m`. -/
lemma joinLoop_eq {s : Side} {m : ℕ} (hm : 0 < m) {t : HTree α δ} {p : HPath α δ} {c ct : Color}
    {n fuel : ℕ} (hl : Loc h₀ S h T p t) (hs : StackHolds T p) (hspine : Spine s p)
    (hfit : Fits p c n T.bh) (hbal : Balanced t ct n) (hc : c = .red → ct = .black)
    (hle : m ≤ spineCount ct n) (hred : ct = .red → m < spineCount ct n)
    (hsize : 2 * T.bh < T.stackSize) (hfuel : 2 * T.bh < p.length + fuel) :
    ∃ T' q u c', joinLoop s m fuel T h (addr t) (spineCount ct n) p.length =
        some (T', addr u, m, q.length) ∧ T' = { T with stack := T'.stack } ∧
      StackHolds T' q ∧ Spine s q ∧ plug q u = plug p t ∧ Fits q c' m T.bh ∧
        Balanced u .black m := by
  induction fuel generalizing T t p c ct n with
  | zero =>
      have hlen := hfit.length_le
      omega
  | succ fuel ih =>
      have hpush : ∀ {f : Frame (Ptr × RbPair α δ)}, f.side = s → Spine s (f :: p) := by
        intro f hf g hg
        rcases List.mem_cons.mp hg with rfl | hg
        · exact hf
        · exact hspine g hg
      by_cases hb : spineCount ct n = m
      · -- the loop ends here
        cases ct with
        | red => exact absurd (hred rfl) (by omega)
        | black =>
            obtain rfl : n = m := hb
            refine ⟨T, p, t, c, ?_, rfl, hs, hspine, rfl, hfit, hbal⟩
            rw [joinLoop, if_neg fun hcond => hcond.2 rfl]
            rfl
      · have hlt : m < spineCount ct n := lt_of_le_of_ne hle (Ne.symm hb)
        cases ct with
        | red =>
            obtain ⟨a, v, b, rfl, ha, hb'⟩ := hbal.of_red (s := s)
            obtain rfl : c = .black := by
              cases c with
              | red => cases hc rfl
              | black => rfl
            have hfit' : Fits (⟨s, .red, v, b⟩ :: p) .red n T.bh := .red hb' hfit
            obtain ⟨T', hT', hs', hturn⟩ := joinLoop_turn fuel hl hs hfit' ha (fun _ => rfl)
              hsize hb
            have hl' : Loc h₀ S h T' (⟨s, .red, v, b⟩ :: p) a :=
              hl.down.congr_record (hT' ▸ rfl) (hT' ▸ rfl)
            have hbh : T'.bh = T.bh := hT' ▸ rfl
            obtain ⟨T'', q, u, c', heq, hT'', h⟩ := ih hl' hs' (hpush rfl) (hbh.symm ▸ hfit') ha
              (fun _ => rfl) (Nat.le_of_lt_succ hlt) (fun h => absurd h (by simp)) (hT' ▸ hsize)
              (by rw [hT']; exact fuel_push hfuel)
            refine ⟨T'', q, u, c', ?_, by rw [hT'', hT'], hbh ▸ h⟩
            rw [addr_sided, hturn]
            exact heq
        | black =>
            obtain ⟨n, rfl⟩ : ∃ k, n = k + 1 := by
              have : m < n := hlt
              exact ⟨n - 1, by omega⟩
            obtain ⟨a, v, b, ca, cb, rfl, ha, hb'⟩ := hbal.of_black (s := s)
            have hfit' : Fits (⟨s, .black, v, b⟩ :: p) .black n T.bh := .black hb' hfit
            obtain ⟨T', hT', hs', hturn⟩ := joinLoop_turn fuel hl hs hfit' ha (fun h => by cases h)
              hsize hb
            have hl' : Loc h₀ S h T' (⟨s, .black, v, b⟩ :: p) a :=
              hl.down.congr_record (hT' ▸ rfl) (hT' ▸ rfl)
            have hlt' : m < n + 1 := hlt
            have hcount : (if ca = .black then spineCount .black (n + 1) - 1
                else spineCount .black (n + 1)) = spineCount ca n := by
              cases ca <;> rfl
            have hle' : m ≤ spineCount ca n := by
              cases ca with
              | red => exact hlt'.le
              | black => exact Nat.le_of_lt_succ hlt'
            have hred' : ca = .red → m < spineCount ca n := by
              rintro rfl
              exact hlt'
            have hbh : T'.bh = T.bh := hT' ▸ rfl
            obtain ⟨T'', q, u, c', heq, hT'', h⟩ := ih hl' hs' (hpush rfl) (hbh.symm ▸ hfit') ha
              (fun h => by cases h) hle' hred' (hT' ▸ hsize) (by rw [hT']; exact fuel_push hfuel)
            refine ⟨T'', q, u, c', ?_, by rw [hT'', hT'], hbh ▸ h⟩
            rw [addr_sided, hturn, hcount]
            exact heq

/-! ## Hanging the lower tree -/

/-- The cells of the two trees, and the new one. -/
lemma perm_hang {s : Side} {c : Color} {u w : HTree α δ} {q : HPath α δ} {a : Ptr} {x : RbPair α δ}
    {Sw : List Ptr} (hu : (addrs (plug q u)).Perm S) (hw : (addrs w).Perm Sw) :
    (addrs (sided s c w (a, x) u) ++ pathAddrs q).Perm (a :: (S ++ Sw)) := by
  have hnode : (addrs (sided s c w (a, x) u)).Perm (a :: (addrs u ++ addrs w)) := by
    cases s with
    | left =>
        rw [sided_left, addrs_node]
        exact List.perm_middle.trans (List.perm_append_comm.cons a)
    | right =>
        rw [sided_right, addrs_node]
        exact List.perm_middle
  refine (hnode.append_right _).trans (List.Perm.cons a ?_)
  show (addrs u ++ addrs w ++ pathAddrs q).Perm (S ++ Sw)
  rw [List.append_assoc]
  refine (List.perm_append_comm.append_left _).trans ?_
  rw [← List.append_assoc]
  exact ((addrs_plug q u).symm.trans hu).append hw

/-- A new node with two trees below it takes the place of one of them. -/
lemma Loc.hang {s : Side} {u w : HTree α δ} {q : HPath α δ} {Sw : List Ptr} {Tw : RbTree} {a : Ptr}
    (hl : Loc h S h T q u) (hw : Loc h Sw h Tw [] w) (hdisj : S.Disjoint Sw) (ha : Fresh h a)
    (x : RbPair α δ) {c : Color} {T' : RbTree} {h' : Heap α δ} (hnil : T'.nil = theNil)
    (hroot : T'.root = if q = [] then a else T.root)
    (hcell : h' a = some (cell s c (addr w) x (addr u)))
    (hsame : ∀ r, r ≠ a → r ≠ parentAddr q → h' r = h r)
    (hpar : ∃ n, h' (parentAddr q) = some n ∧ ParentCell q a n) :
    Loc h (a :: (S ++ Sw)) h' T' q (sided s c w (a, x) u) := by
  have hneS : ∀ r ∈ S, r ≠ a := fun r hr => by
    obtain ⟨m, hm⟩ := hl.allocated hr
    exact ha.ne_of_cell hm
  have hneSw : ∀ r ∈ Sw, r ≠ a := fun r hr => by
    obtain ⟨m, hm⟩ := hw.allocated hr
    exact ha.ne_of_cell hm
  have hnila : theNil ≠ a := by
    obtain ⟨m, hm, -⟩ := hl.nilCell
    exact ha.ne_of_cell hm
  -- the parent of the hung tree is in the first tree, so the second tree keeps its cells
  have hparS : parentAddr q = theNil ∨ parentAddr q ∈ S :=
    (parentAddr_eq_or_mem q).imp And.right fun h => hl.mem_iff.mpr (.inr h)
  have hSw : ∀ r ∈ Sw, r ≠ parentAddr q := by
    rintro r hr rfl
    rcases hparS with hp | hp
    · exact hw.nil_notMem (hp ▸ hr)
    · exact hdisj hp hr
  have hwmem : ∀ r, r ∈ addrs w ↔ r ∈ Sw := fun r => hw.perm.mem_iff
  have humem : ∀ r ∈ addrs u, r ∈ S := fun r hr => hl.mem_iff.mpr (.inl hr)
  refine hl.exchange (perm_hang (plug_nil u ▸ hl.perm) hw.perm) ?_ ?_ ?_ ?_ hpar ?_ ?_ ?_ hnil hroot
  · refine List.nodup_cons.mpr ⟨fun hmem => ?_, hl.nodup.append hw.nodup hdisj⟩
    exact (List.mem_append.mp hmem).elim (fun h => hneS a h rfl) fun h => hneSw a h rfl
  · simp [hnila, hl.nil_notMem, hw.nil_notMem]
  · intro r hr hrn
    rw [List.mem_cons, List.mem_append, not_or, not_or] at hr
    refine hsame r hr.1 ?_
    rintro rfl
    exact hparS.elim hrn hr.2.1
  · refine Holds.sided_iff.mpr ⟨hcell, hw.tree.congr fun r hr => ?_, hl.tree.congr fun r hr => ?_⟩
    · exact hsame r (hneSw r ((hwmem r).mp hr)) (hSw r ((hwmem r).mp hr))
    · refine hsame r (hneS r (humem r hr)) ?_
      rintro rfl
      exact hl.parentAddr_notMem hr
  · intro r hr hrp
    exact hsame r (hneS r (hl.mem_iff.mpr (.inr hr))) hrp
  · intro hq
    refine hsame theNil hnila ?_
    intro heq
    obtain ⟨f, q, rfl⟩ := List.exists_cons_of_ne_nil hq
    exact hl.ne_nil_of_mem_path (mem_pathAddrs_cons.mpr (.inl rfl)) heq.symm
  · refine (hsame NULL ha.1.symm ?_).trans hl.null
    intro heq
    obtain ⟨m, hm, -⟩ := hl.exists_parentCell
    rw [← heq, hl.null] at hm
    cases hm

section Ordered

variable [LinearOrder α]

/-- What the new key is between. -/
def Between (s : Side) (x : RbPair α δ) (t w : HTree α δ) (a : Ptr) : Prop :=
  (s.onLeft w.toList t.toList ++ (a, x) :: s.onRight w.toList t.toList).Pairwise keyLe

/-- The assertion on the key above the new node holds. -/
lemma joinOrdered_eq {s : Side} {x : RbPair α δ} {t w : HTree α δ} {a : Ptr}
    (hb : Between s x t w a) {v : Ptr × RbPair α δ} (hv : v ∈ t.toList) :
    joinOrdered s x (some v.2) = some true := by
  rw [Between, List.pairwise_append, List.pairwise_cons] at hb
  cases s with
  | left =>
      have hle : x.first ≤ v.2.first := hb.2.1.1 v hv
      simp [joinOrdered, rbCmpLess, hle]
  | right =>
      have hle : v.2.first ≤ x.first := hb.2.2 v hv (a, x) List.mem_cons_self
      simp [joinOrdered, rbCmpLess, hle]

omit [LinearOrder α] in
/-- The record of a tree whose nodes have gone is freed, and nothing else. -/
lemma rbFree_nil {Tw : RbTree} {fuel : ℕ} (hfuel : 0 < fuel) (hroot : Tw.root = Tw.nil) :
    rbFree fuel Tw h = some h := by
  obtain ⟨fuel, rfl⟩ : ∃ j, fuel = j + 1 := ⟨fuel - 1, by omega⟩
  rw [rbFree, rbFreeSubtree, if_pos hroot]
  rfl

omit [LinearOrder α] in
lemma joinCell (s : Side) (x : RbPair α δ) (u w : HTree α δ) :
    (⟨some x, s.onLeft (addr w) (addr u), s.onRight (addr w) (addr u), .red⟩ : RbNode α δ) =
      cell s .red (addr w) x (addr u) := rfl

/-- The new node becomes the root: the two trees have the same black height. -/
lemma joinHang_root {s : Side} {u w : HTree α δ} {Sw : List Ptr} {Tw : RbTree} {a : Ptr}
    (hl : Loc h S h T [] u) (hs : StackHolds T ([] : HPath α δ)) (hsize : 0 < T.stackSize)
    (hw : Loc h Sw h Tw [] w) (hdisj : S.Disjoint Sw) (ha : Fresh h a) (x : RbPair α δ)
    (fuel : ℕ) :
    ∃ h', joinHang s fuel T h x (addr w) (addr u) a 0 = some (T.rebase a (T.bh + 1), h') ∧
      Loc h (a :: (S ++ Sw)) h' (T.rebase a (T.bh + 1)) [] (sided s .black w (a, x) u) := by
  have hset : (h.store a (cell s .red (addr w) x (addr u))).setColor a .black =
      some (h.store a (cell s .black (addr w) x (addr u))) := by
    rw [setColor_eq (store_same _ _ _), store_store]
    rfl
  have hget : T.stackGet 0 = some theNil := hs.stackGet hsize
  obtain ⟨y, hy, hyc, hyl⟩ := hl.nilCell
  have hnila : theNil ≠ a := ha.ne_of_cell hy
  refine ⟨h.store a (cell s .black (addr w) x (addr u)), ?_, hl.hang hw hdisj ha x hl.nil rfl
    (store_same _ _ _) (fun r hr _ => store_ne _ _ hr)
    ⟨y, (store_ne _ _ hnila).trans hy, hyc, hyl⟩⟩
  simp only [joinHang, joinCell, hget, hl.nil, Option.bind_eq_bind, Option.bind_some, ne_eq,
    not_true_eq_false, if_false, hset, Option.pure_def]
  simp [RbTree.rebase, hl.nil]

/-- The new node comes below another one, and may be a red node below a red one. -/
lemma joinHang_below {s : Side} {t u w : HTree α δ} {f : Frame (Ptr × RbPair α δ)}
    {q : HPath α δ} {c : Color} {m fuel : ℕ} {Sw : List Ptr} {Tw : RbTree} {a : Ptr}
    {x : RbPair α δ} (hl : Loc h S h T (f :: q) u) (hs : StackHolds T (f :: q))
    (hside : f.side = s) (hplug : plug (f :: q) u = t) (hfit : Fits (f :: q) c m T.bh)
    (hu : Balanced u .black m) (hwb : Balanced w .black m) (hsize : 2 * T.bh < T.stackSize)
    (hfuel : 2 * T.bh < fuel) (hw : Loc h Sw h Tw [] w) (hdisj : S.Disjoint Sw) (ha : Fresh h a)
    (hb : Between s x t w a) :
    ∃ T' h' t', joinHang s fuel T h x (addr w) (addr u) a (q.length + 1) = some (T', h') ∧
      Loc h (a :: (S ++ Sw)) h' T' [] t' ∧ Balanced t' .black T'.bh ∧
      t'.toList = (plug (f :: q) (sided s .red w (a, x) u)).toList := by
  have hlen := hfit.length_le
  have hget : T.stackGet (q.length + 1) = some f.val.1 := hs.stackGet (by omega)
  have hcell := hl.parent_cell
  have hne : f.val.1 ≠ a := ha.ne_of_cell hcell
  have hpnil : f.val.1 ≠ theNil :=
    hl.ne_nil_of_mem_path (mem_pathAddrs_cons.mpr (.inl rfl))
  have hload : (h.store a (cell s .red (addr w) x (addr u))) f.val.1 =
      some (cell s f.color (addr u) f.val.2 (addr f.sibling)) := by
    rw [store_ne _ _ hne, hcell, hside]
  have hset := setChild_cell hload a
  have hmem : f.val ∈ t.toList := by
    rw [← hplug, plug_cons, toList_plug]
    obtain ⟨s', c', v, sib⟩ := f
    cases s' <;> simp [Frame.fill, sided]
  have hassert := joinOrdered_eq hb hmem
  -- both sides of the new red node have the height at which the walk stopped
  have hbs : Balanced (s.onLeft w u) .black m ∧ Balanced (s.onRight w u) .black m := by
    cases s with
    | left => exact ⟨hwb, hu⟩
    | right => exact ⟨hu, hwb⟩
  have hl' : Loc h (a :: (S ++ Sw)) ((h.store a (cell s .red (addr w) x (addr u))).store f.val.1
      (cell s f.color a f.val.2 (addr f.sibling))) T (f :: q) (sided s .red w (a, x) u) :=
    hl.hang hw hdisj ha x hl.nil (if_neg (by simp)).symm
      ((store_ne _ _ hne.symm).trans (store_same _ _ _))
      (fun r hr hr' => (store_ne _ _ hr').trans (store_ne _ _ hr))
      ⟨_, store_same _ _ _, by rw [Loc.ParentCell, hside]⟩
  have hroom : (f :: q).length < T.stackSize ∧ (f :: q).length < fuel := by omega
  obtain ⟨T', h', heq, hdone, hT'⟩ := rbInsertFixup_eq hl' hs hroom.1 hroom.2 hfit hbs.1 hbs.2
  have hbal' := Balanced.insertFixup (v := (a, x)) hfit hbs.1 hbs.2
  refine ⟨T', h', _, ?_, hdone, ?_, toList_insertFixup _ _ _ _⟩
  · rw [List.length_cons, parentAddr_cons] at heq
    simp only [joinHang, joinCell, hget, hl.nil, assert_of, Option.bind_eq_bind, Option.bind_some,
      ne_eq, hpnil, not_false_eq_true, if_true, hload, cell_key, hassert, hset, heq]
  · rw [hT']
    exact hbal'

/-- **Joining** a tree and a lower one that is not empty. -/
lemma joinOnto_spec {s : Side} {t w : HTree α δ} {Sw : List Ptr} {Tw : RbTree} {a : Ptr}
    {x : RbPair α δ} (ht : IsTree h S T t) (hw : IsTree h Sw Tw w) (hdisj : S.Disjoint Sw)
    (ha : Fresh h a) (hb : Between s x t w a) (hle : Tw.bh ≤ T.bh) (hne : w ≠ .nil) {fuel : ℕ}
    (hfuel : 2 * T.bh < fuel) :
    ∃ T' h' t', joinOnto s fuel T h x Tw a = some (T', h') ∧ IsTree h' (a :: (S ++ Sw)) T' t' ∧
      t'.toList = s.onLeft w.toList t.toList ++ (a, x) :: s.onRight w.toList t.toList := by
  obtain ⟨T₁, hgrow, hroot₁, hnil₁, hbh₁, hsize₁, hs₁⟩ :=
    growStack_eq (α := α) (δ := δ) ht.loc.nil
  have hl₁ : Loc h S h T₁ [] t := ht.loc.congr_record hnil₁ hroot₁
  have hm : 0 < Tw.bh := by
    by_contra hzero
    have hbal := hw.balanced
    rw [Nat.eq_zero_of_not_pos hzero] at hbal
    exact hne hbal.eq_nil
  -- the walk stays on the spine of the side where the other tree is hung
  have hspine : Spine s ([] : HPath α δ) := fun f hf => absurd hf List.not_mem_nil
  have hfuel₁ : 2 * T₁.bh < ([] : HPath α δ).length + fuel := by simpa [hbh₁] using hfuel
  obtain ⟨T₂, q, u, c, hloop, hT₂, hs₂, hq, hplug, hfit, hbal⟩ :=
    joinLoop_eq hm hl₁ hs₁ hspine (.root _) (hbh₁.symm ▸ ht.balanced) (fun _ => rfl)
      (by rw [hbh₁]; exact hle) (fun h => by cases h) (hbh₁ ▸ hsize₁) hfuel₁
  have hbh₂ : T₁.bh = T₂.bh := by rw [hT₂]
  have hl₂ : Loc h S h T₂ q u := by
    rw [Loc.root_iff, hplug]
    exact hl₁.congr_record (hT₂ ▸ rfl) (hT₂ ▸ rfl)
  have hsize₂ : 2 * T₂.bh < T₂.stackSize := by
    rw [← hbh₂, hbh₁, hT₂]
    exact hsize₁
  have hstart : T₁.root = addr t := hl₁.root
  have hwroot : Tw.root = addr w := hw.loc.root
  have hread : (plug q (sided s .red w (a, x) u)).toList =
      s.onLeft w.toList t.toList ++ (a, x) :: s.onRight w.toList t.toList := by
    rw [toList_plug_spine hq, hplug, plug_nil]
  have hcount : spineCount .black T₁.bh = T₁.bh := rfl
  have hfree : ∀ h' : Heap α δ, rbFree fuel { Tw with root := Tw.nil } h' = some h' :=
    fun h' => rbFree_nil (Nat.zero_lt_of_lt hfuel) rfl
  rw [List.length_nil, hcount] at hloop
  rw [hbh₂] at hfit
  -- the walk stops at the root, or below a node where a fixup is still to run
  cases q with
  | nil =>
      obtain ⟨h', heq, hl'⟩ := joinHang_root (s := s) hl₂ hs₂ (by omega) hw.loc hdisj ha x fuel
      refine ⟨_, h', sided s .black w (a, x) u, ?_, ⟨hl'.reframe, ?_, ?_⟩, hread⟩
      · rw [List.length_nil] at hloop
        simp only [joinOnto, hgrow, hstart, hloop, hwroot, heq, hfree, assert_of, decide_true,
          Option.bind_eq_bind, Option.bind_some, Option.pure_def]
      · have hbh : (T₂.rebase a (T₂.bh + 1)).bh = Tw.bh + 1 := congrArg Nat.succ hfit.of_nil.2.symm
        rw [hbh]
        exact Balanced.sided_black hw.balanced hbal
      · exact hread ▸ hb
  | cons f q =>
      obtain ⟨T', h', t', heq, hl', hbal', hread'⟩ := joinHang_below hl₂ hs₂
        (hq f List.mem_cons_self) hplug hfit hbal hw.balanced hsize₂ (by omega : 2 * T₂.bh < fuel)
        hw.loc hdisj ha hb
      refine ⟨T', h', t', ?_, ⟨hl'.reframe, hbal', ?_⟩, hread'.trans hread⟩
      · rw [List.length_cons] at hloop
        simp only [joinOnto, hgrow, hstart, hloop, hwroot, heq, hfree, assert_of, decide_true,
          Option.bind_eq_bind, Option.bind_some, Option.pure_def]
      · rw [hread', hread]
        exact hb

/-! ## The whole function -/

omit [LinearOrder α] in
/-- The heap determines the tree at an address. -/
lemma Holds.unique {t t' : HTree α δ} (ht : Holds h t) (ht' : Holds h t') (hn : theNil ∉ addrs t)
    (hn' : theNil ∉ addrs t') (heq : addr t = addr t') : t = t' := by
  induction t generalizing t' with
  | nil =>
      cases t' with
      | nil => rfl
      | node c l v r =>
          have hv : theNil = v.1 := heq
          exact absurd (by simp [hv]) hn'
  | node c l v r ihl ihr =>
      cases t' with
      | nil =>
          have hv : v.1 = theNil := heq
          exact absurd (by simp [hv]) hn
      | node c' l' v' r' =>
          obtain ⟨hv, hl, hr⟩ := ht
          obtain ⟨hv', hl', hr'⟩ := ht'
          simp only [addrs_node, List.mem_append, List.mem_cons, not_or] at hn hn'
          have haddr : v.1 = v'.1 := heq
          rw [haddr] at hv
          have hcell := Option.some.inj (hv.symm.trans hv')
          simp only [cell, RbNode.mk.injEq, Option.some.injEq, Side.onLeft_left,
            Side.onRight_left] at hcell
          obtain ⟨hkey, hleft, hright, rfl⟩ := hcell
          rw [ihl hl hl' hn.1 hn'.1 hleft, ihr hr hr' hn.2.2 hn'.2.2 hright,
            Prod.ext haddr hkey]

/-- A record holds one tree. -/
lemma IsTree.unique {S' : List Ptr} {t t' : HTree α δ} (ht : IsTree h S T t)
    (ht' : IsTree h S' T t') : t = t' := by
  refine ht.loc.tree.unique ht'.loc.tree ?_ ?_ (ht.loc.root.symm.trans ht'.loc.root)
  · exact fun hm => ht.loc.ne_nil_of_mem hm rfl
  · exact fun hm => ht'.loc.ne_nil_of_mem hm rfl

/-- An empty tree has the sentinel as its root, and only it has. -/
lemma IsTree.root_eq_nil_iff {t : HTree α δ} (ht : IsTree h S T t) :
    T.root = theNil ↔ t = .nil := by
  have hroot : T.root = addr t := ht.loc.root
  rw [hroot]
  exact ht.loc.addr_eq_nil_iff

/-- `rb_join` returns a tree of the keys `m`; `a` is the address of the new node. -/
def JoinCorrect (T₁ : RbTree) (x : RbPair α δ) (T₂ : RbTree) (h : Heap α δ) (a : Ptr)
    (m : Multiset (RbPair α δ)) : Prop :=
  ∃ N, ∀ fuel ≥ N, ∃ T' h', rbJoin fuel T₁ x T₂ h a = some (T', h') ∧
    ∃ S' t', IsTree h' S' T' t' ∧ keys t' = m

section Join

variable {S₁ S₂ : List Ptr} {T₁ T₂ : RbTree} {t₁ t₂ : HTree α δ} {a : Ptr} {x : RbPair α δ}

/-- The new key is lost when a tree is empty. -/
lemma not_joinCorrect (h₁ : IsTree h S₁ T₁ t₁) (h₂ : IsTree h S₂ T₂ t₂)
    (hnil : T₁.root = theNil ∨ T₂.root = theNil) :
    ¬JoinCorrect T₁ x T₂ h a (keys t₁ + x ::ₘ keys t₂) := by
  rintro ⟨N, hN⟩
  obtain ⟨T', h', heq, S', t', ht', hkeys⟩ := hN (N + 1) (Nat.le_succ N)
  have hsame : T₁.nil = T₂.nil := h₁.loc.nil.trans h₂.loc.nil.symm
  have hcard := congrArg Multiset.card hkeys
  rw [Multiset.card_add, Multiset.card_cons] at hcard
  by_cases hnil₁ : T₁.root = T₁.nil
  · -- the second tree is returned
    have hrun : rbJoin (N + 1) T₁ x T₂ h a = some (T₂, h) := by
      simp only [rbJoin, hsame, assert_of, decide_true, Option.bind_eq_bind, Option.bind_some,
        hnil₁, if_true, rbFree_nil (Nat.succ_pos N) hnil₁, Option.pure_def]
    obtain ⟨rfl, rfl⟩ := Prod.mk.inj (Option.some.inj (hrun.symm.trans heq))
    obtain rfl := h₂.unique ht'
    omega
  · have hnil₂ : T₂.root = T₂.nil := by
      rw [h₁.loc.nil] at hnil₁
      rw [h₂.loc.nil]
      exact hnil.resolve_left hnil₁
    have hrun : rbJoin (N + 1) T₁ x T₂ h a = some (T₁, h) := by
      simp only [rbJoin, hsame, assert_of, decide_true, Option.bind_eq_bind, Option.bind_some,
        hsame ▸ hnil₁, if_false, hnil₂, if_true, rbFree_nil (Nat.succ_pos N) hnil₂,
        Option.pure_def]
    obtain ⟨rfl, rfl⟩ := Prod.mk.inj (Option.some.inj (hrun.symm.trans heq))
    obtain rfl := h₁.unique ht'
    omega

/-- The reading of the first tree, the new key and the second tree increases. -/
lemma between_of_le (h₁ : IsTree h S₁ T₁ t₁) (h₂ : IsTree h S₂ T₂ t₂)
    (hle : ∀ k ∈ keys t₁, k.first ≤ x.first) (hge : ∀ k ∈ keys t₂, x.first ≤ k.first) (a : Ptr) :
    (t₁.toList ++ (a, x) :: t₂.toList).Pairwise keyLe := by
  have hle' : ∀ v ∈ t₁.toList, v.2.first ≤ x.first := fun v hv =>
    hle v.2 (Multiset.mem_coe.mpr (List.mem_map.mpr ⟨v, hv, rfl⟩))
  have hge' : ∀ v ∈ t₂.toList, x.first ≤ v.2.first := fun v hv =>
    hge v.2 (Multiset.mem_coe.mpr (List.mem_map.mpr ⟨v, hv, rfl⟩))
  rw [List.pairwise_append, List.pairwise_cons]
  refine ⟨h₁.sorted, ⟨fun v hv => hge' v hv, h₂.sorted⟩, fun u hu w hw => ?_⟩
  rcases List.mem_cons.mp hw with rfl | hw
  · exact hle' u hu
  · exact (hle' u hu).trans (hge' w hw)

omit [LinearOrder α] in
lemma keys_of_toList {t t₁ t₂ : HTree α δ} {v : Ptr × RbPair α δ}
    (h : t.toList = t₁.toList ++ v :: t₂.toList) : keys t = keys t₁ + v.2 ::ₘ keys t₂ := by
  rw [keys, h, List.map_append, List.map_cons, ← Multiset.coe_add, ← Multiset.cons_coe]
  rfl

/-- Two trees that are not empty are joined. -/
lemma joinCorrect_of_ne (h₁ : IsTree h S₁ T₁ t₁) (h₂ : IsTree h S₂ T₂ t₂) (hdisj : S₁.Disjoint S₂)
    (ha : Fresh h a) (hle : ∀ k ∈ keys t₁, k.first ≤ x.first)
    (hge : ∀ k ∈ keys t₂, x.first ≤ k.first) (hne₁ : T₁.root ≠ theNil) (hne₂ : T₂.root ≠ theNil) :
    JoinCorrect T₁ x T₂ h a (keys t₁ + x ::ₘ keys t₂) := by
  have hb := between_of_le h₁ h₂ hle hge a
  have hsame : T₁.nil = T₂.nil := h₁.loc.nil.trans h₂.loc.nil.symm
  refine ⟨2 * T₁.bh + 2 * T₂.bh + 1, fun fuel hfuel => ?_⟩
  by_cases hbh : T₁.bh ≥ T₂.bh
  · have hne : t₂ ≠ .nil := fun h => hne₂ (h₂.root_eq_nil_iff.mpr h)
    have hlt : 2 * T₁.bh < fuel := by omega
    obtain ⟨T', h', t', heq, ht', hread⟩ :=
      joinOnto_spec (s := .right) h₁ h₂ hdisj ha hb hbh hne hlt
    refine ⟨T', h', ?_, _, t', ht', keys_of_toList hread⟩
    simp only [rbJoin, hsame, assert_of, decide_true, h₂.loc.nil, hne₁, hne₂, if_false, hbh,
      if_true, heq, Option.bind_eq_bind, Option.bind_some]
  · have hne : t₁ ≠ .nil := fun h => hne₁ (h₁.root_eq_nil_iff.mpr h)
    have hlt : 2 * T₂.bh < fuel := by omega
    have hdisj' : S₂.Disjoint S₁ := fun q hq hq' => hdisj hq' hq
    obtain ⟨T', h', t', heq, ht', hread⟩ :=
      joinOnto_spec (s := .left) h₂ h₁ hdisj' ha hb (Nat.le_of_not_le hbh) hne hlt
    refine ⟨T', h', ?_, _, t', ht', keys_of_toList hread⟩
    simp only [rbJoin, hsame, assert_of, decide_true, h₂.loc.nil, hne₁, hne₂, if_false, hbh, heq,
      Option.bind_eq_bind, Option.bind_some]

/-- **`rb_join`** joins two trees if and only if neither of them is empty. -/
theorem rbJoin_iff (h₁ : IsTree h S₁ T₁ t₁) (h₂ : IsTree h S₂ T₂ t₂) (hdisj : S₁.Disjoint S₂)
    (ha : Fresh h a) (hle : ∀ k ∈ keys t₁, k.first ≤ x.first)
    (hge : ∀ k ∈ keys t₂, x.first ≤ k.first) :
    JoinCorrect T₁ x T₂ h a (keys t₁ + x ::ₘ keys t₂) ↔ T₁.root ≠ theNil ∧ T₂.root ≠ theNil := by
  constructor
  · intro hjoin
    rw [← not_or]
    exact fun hnil => not_joinCorrect h₁ h₂ hnil hjoin
  · exact fun hne => joinCorrect_of_ne h₁ h₂ hdisj ha hle hge hne.1 hne.2

/-! ## Joining on fixed trees -/

/-- The heap with the nodes `2`, which has the key `1`, and `3`, which has the key `5`. -/
def twoHeap : Heap ℕ Unit :=
  ((World.initial.heap).store 2 ⟨some ⟨1, ()⟩, theNil, theNil, .black⟩).store 3
    ⟨some ⟨5, ()⟩, theNil, theNil, .black⟩

/-- The tree with the node at the address `q` alone. -/
def singleTree (q : Ptr) : RbTree := ⟨q, theNil, fun _ => theNil, 1, 1⟩

lemma isTree_singleTree {q : Ptr} {k : RbPair ℕ Unit}
    (hq : twoHeap q = some ⟨some k, theNil, theNil, .black⟩) (hne : theNil ≠ q) :
    IsTree twoHeap [q] (singleTree q) (.node .black .nil (q, k) .nil) :=
  ⟨⟨⟨hq, trivial, trivial⟩, trivial, by simp, List.nodup_singleton q, by simpa using hne,
    fun _ _ _ => rfl, ⟨⟨none, NULL, NULL, .black⟩, rfl, rfl, rfl⟩, rfl, rfl, rfl⟩,
    .black .nil .nil, List.pairwise_singleton _ _⟩

/-- The trees with the keys `1` and `5` are joined with the key `3` between them. -/
theorem rbJoin_iff_single :
    JoinCorrect (singleTree 2) ⟨3, ()⟩ (singleTree 3) twoHeap 4
        ({⟨1, ()⟩} + ⟨3, ()⟩ ::ₘ {⟨5, ()⟩}) ↔
      (singleTree 2).root ≠ theNil ∧ (singleTree 3).root ≠ theNil :=
  rbJoin_iff (isTree_singleTree (k := ⟨1, ()⟩) rfl (by decide))
    (isTree_singleTree (k := ⟨5, ()⟩) rfl (by decide)) (by simp) ⟨by decide, rfl⟩
    (by simp [keys]) (by simp [keys])

/-- The key `3` and the tree with the key `5` are joined with the empty tree, and the key `3` is
lost. -/
theorem rbJoin_empty :
    rbJoin 1 rbNew ⟨3, ()⟩ (singleTree 3) twoHeap 4 = some (singleTree 3, twoHeap) ∧
      ¬JoinCorrect rbNew ⟨3, ()⟩ (singleTree 3) twoHeap 4 (0 + ⟨3, ()⟩ ::ₘ {⟨5, ()⟩}) := by
  refine ⟨rfl, ?_⟩
  have hnew : IsTree twoHeap [] rbNew (.nil : HTree ℕ Unit) :=
    ⟨Loc.empty ⟨⟨none, NULL, NULL, .black⟩, rfl, rfl, rfl⟩ rfl rfl rfl, .nil, .nil⟩
  exact not_joinCorrect hnew (isTree_singleTree (k := ⟨5, ()⟩) rfl (by decide)) (.inl rfl)

end Join

end Ordered

end Loop

end Javalette.Rbtree
