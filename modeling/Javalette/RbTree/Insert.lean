import Javalette.RbTree.Search

/-!
# Insertion in the heap

`rb_insert_fixup` computes `ColorTree.insertFixup`: run at a red node below a path that its
stack holds, it stays inside its memory, passes its assertions, and leaves in the heap the
tree that the functional fix-up gives, with the black height of the record raised exactly
when the flag says so.
-/

namespace Javalette.Rbtree

open ColorTree

variable {α δ : Type} {h₀ h : Heap α δ} {S : List Ptr} {T : RbTree}

/-- The record after an operation that moved the root pointer and set the black height. -/
def RbTree.rebase (T : RbTree) (root : Ptr) (bh : ℕ) : RbTree := { T with root := root, bh := bh }

/-- `insertOuterRotation` at two red nodes on the same side, below a black node. -/
lemma insertOuterRotation_eq {s : Side} {pv ppv : Ptr × RbPair α δ} {x ps uncle : HTree α δ}
    {p : HPath α δ} (hl : Loc h₀ S h T p
      (sided s .black (sided s .red x pv ps) ppv uncle))
    (hs : StackHolds T p) (hlt : p.length < T.stackSize) (hps : ps.rootColor = .black) :
    ∃ a h', insertOuterRotation s T h (addr x) pv.1 ppv.1 (p.length + 2) =
        some ({ T with root := a }, h') ∧
      Loc h₀ S h' { T with root := a } []
        (plug p (sided s .black x pv (sided s .red ps ppv uncle))) := by
  have hp := hl.down.cell_eq
  obtain ⟨n, hn, hc⟩ := hl.down.down_flip.color_eq
  rw [← sided_flip, ← sided_flip s .red ps] at hl
  obtain ⟨a, h₁, hrot, hl₁⟩ := hl.rotate
  rw [sided_flip] at hl₁
  obtain ⟨h₂, hset₂, hl₂⟩ := hl₁.setColor .black
  obtain ⟨h₃, hset₃, hl₃⟩ := hl₂.down_flip.setColor .red
  refine ⟨a, h₃, ?_, ?_⟩
  · have hget : T.stackGet (p.length + 2 - 2) = some (parentAddr p) := hs.stackGet hlt
    simp only [insertOuterRotation, hp, Option.bind_eq_bind, Option.bind_some, cell_child,
      cell_child_flip, hn, hc, hps, hget, hrot, hset₂, hset₃]
    simp [assert]
  · have := hl₃.up_flip
    rw [sided_flip] at this
    exact Loc.root_iff.mp this

/-- `insertRotations` at a red node with a red parent and a black uncle. -/
lemma insertRotations_eq {s sp : Side} {v pv ppv : Ptr × RbPair α δ} {ps uncle l r : HTree α δ}
    {p : HPath α δ} (hl : Loc h₀ S h T (⟨sp, .red, pv, ps⟩ :: ⟨s, .black, ppv, uncle⟩ :: p)
      (.node .red l v r))
    (hs : StackHolds T p) (hlt : p.length < T.stackSize) (hps : ps.rootColor = .black)
    (hbl : l.rootColor = .black) (hbr : r.rootColor = .black) (hu : uncle.rootColor = .black) :
    ∃ a h', insertRotations s T h v.1 pv.1 ppv.1 (p.length + 2) =
        some ({ T with root := a }, h') ∧
      Loc h₀ S h' { T with root := a } []
        (insertFixup (⟨sp, .red, pv, ps⟩ :: ⟨s, .black, ppv, uncle⟩ :: p) l v r).1 := by
  have hcell := hl.parent_cell
  have hne : addr (.node .red l v r : HTree α δ) ≠ addr ps := hl.addr_ne_sibling (.inl (by simp))
  have huncle : ∀ ul uv ur, uncle ≠ .node .red ul uv ur := by
    rintro ul uv ur rfl
    cases hu
  rw [insertFixup.eq_3 _ _ _ _ _ _ _ _ _ _ _ huncle]
  -- an outer grandchild takes one rotation, an inner one is turned outwards first
  rcases Side.eq_or_eq_flip s sp with rfl | rfl
  · obtain ⟨a, h', heq, hl'⟩ := insertOuterRotation_eq hl.up.up hs hlt hps
    refine ⟨a, h', ?_, ?_⟩
    · simp only [addr_node] at hcell hne heq
      simp only [insertRotations, hcell, Option.bind_eq_bind, Option.bind_some, cell_child_flip,
        if_neg hne, heq]
    · rw [if_pos rfl]
      exact hl'
  · have hbn : (s.onLeft l r).rootColor = .black ∧ (s.onRight l r).rootColor = .black := by
      cases s <;> exact ⟨by assumption, by assumption⟩
    rw [node_eq_sided s] at hl
    obtain ⟨a, h₁, hrot, hl₁⟩ := hl.up_flip.rotate
    have hv := hl₁.cell_eq
    obtain ⟨a', h', heq, hl'⟩ := insertOuterRotation_eq hl₁.up
      (hs.congr fun _ _ => rfl) hlt hbn.2
    refine ⟨a', h', ?_, ?_⟩
    · simp only [addr_sided, parentAddr_cons] at hrot hv heq
      simp only [addr_node, cell_flip] at hcell
      simp only [insertRotations, hcell, Option.bind_eq_bind, Option.bind_some, cell_child_flip,
        hrot, hv, cell_child, heq, if_true]
    · rw [if_neg s.flip_ne]
      exact hl'

/-- One turn of the loop of `rb_insert_fixup`, at a red node with a red parent: its
assertions hold, and it finds the side of the parent. -/
lemma rbInsertFixup_turn {s sp : Side} {v pv ppv : Ptr × RbPair α δ}
    {ps uncle l r : HTree α δ} {p : HPath α δ} (fuel : ℕ)
    (hl : Loc h₀ S h T (⟨sp, .red, pv, ps⟩ :: ⟨s, .black, ppv, uncle⟩ :: p) (.node .red l v r))
    (hs : StackHolds T (⟨sp, .red, pv, ps⟩ :: ⟨s, .black, ppv, uncle⟩ :: p))
    (hlt : p.length + 2 < T.stackSize) :
    rbInsertFixup (fuel + 1) T h v.1 pv.1 (p.length + 2) =
      if uncle.rootColor = .red then do
        let h ← h.setColor (addr uncle) .black
        let h ← h.setColor pv.1 .black
        let h ← h.setColor ppv.1 .red
        rbInsertFixup fuel T h ppv.1 (parentAddr p) p.length
      else insertRotations s T h v.1 pv.1 ppv.1 (p.length + 2) := by
  have hv := hl.tree.1
  have hpv := hl.parent_cell
  have hppv := hl.up.parent_cell
  obtain ⟨n, hn, hc⟩ := hl.up.up.down_flip.color_eq
  have hroot : pv.1 ≠ T.root := by
    have := hl.up.addr_eq_root_iff (by cases sp <;> simp [Frame.fill, sided])
    simpa using this
  have hnil : ppv.1 ≠ T.nil := by
    rw [hl.nil]
    exact hl.ne_nil_of_mem_path (by simp [mem_pathAddrs_cons])
  -- the C code tells the side by comparing addresses, which settles `s` here
  have hside : (if pv.1 = (cell s .black pv.1 ppv.2 (addr uncle)).left then Side.left
      else .right) = s := hl.up.side_eq (.inl (by cases sp <;> simp [Frame.fill, sided]))
  have hget : T.stackGet (p.length + 1) = some ppv.1 :=
    hs.tail.stackGet (by simp only [List.length_cons]; omega)
  have hget' : T.stackGet p.length = some (parentAddr p) := hs.tail.tail.stackGet (by omega)
  simp only [addr_fill, addr_node] at hpv hppv
  rw [rbInsertFixup]
  simp only [hpv, Option.bind_eq_bind, Option.bind_some, cell_color, if_true, hget, hv, hppv,
    hside, cell_child, cell_child_flip, hn, hc, hget', Nat.add_sub_cancel,
    Nat.add_one_sub_one, assert_of, decide_true, hroot, hnil, ne_eq, not_false_eq_true,
    Nat.le_add_left]

/-- The turn of the loop in which the uncle is black. -/
lemma rbInsertFixup_rotate {s sp : Side} {cpp : Color} {v pv ppv : Ptr × RbPair α δ}
    {ps uncle l r : HTree α δ} {p : HPath α δ} {c : Color} {n N : ℕ} (fuel : ℕ)
    (hl : Loc h₀ S h T (⟨sp, .red, pv, ps⟩ :: ⟨s, cpp, ppv, uncle⟩ :: p) (.node .red l v r))
    (hs : StackHolds T (⟨sp, .red, pv, ps⟩ :: ⟨s, cpp, ppv, uncle⟩ :: p))
    (hlt : p.length + 2 < T.stackSize)
    (hfit : Fits (⟨sp, .red, pv, ps⟩ :: ⟨s, cpp, ppv, uncle⟩ :: p) c n N)
    (hbl : Balanced l .black n) (hbr : Balanced r .black n)
    (hne : ∀ ul uv ur, uncle ≠ .node .red ul uv ur) :
    ∃ T' h', rbInsertFixup (fuel + 1) T h v.1 pv.1 (p.length + 2) = some (T', h') ∧
      Loc h₀ S h' T' []
        (insertFixup (⟨sp, .red, pv, ps⟩ :: ⟨s, cpp, ppv, uncle⟩ :: p) l v r).1 ∧
      T' = T.rebase T'.root
        (if (insertFixup (⟨sp, .red, pv, ps⟩ :: ⟨s, cpp, ppv, uncle⟩ :: p) l v r).2 then T.bh + 1
          else T.bh) := by
  obtain ⟨-, hps, s', v', sib', cs', p', heq, hu, c', hfit'⟩ := hfit.of_red_cons
  obtain ⟨⟨rfl, rfl, rfl, rfl⟩, rfl⟩ := List.cons.inj heq |>.imp_left Frame.mk.inj
  have huncle : uncle.rootColor = .black := by
    cases hu with
    | red _ _ => exact absurd rfl (hne _ _ _)
    | _ => rfl
  obtain ⟨a, h', hrot, hl'⟩ := insertRotations_eq hl hs.tail.tail (by omega) hps.rootColor
    hbl.rootColor hbr.rootColor huncle
  refine ⟨_, h', ?_, hl', ?_⟩
  · rw [rbInsertFixup_turn fuel hl hs hlt, huncle, if_neg (by simp), hrot]
  · have hflag : (insertFixup (⟨sp, .red, pv, ps⟩ :: ⟨s, .black, ppv, uncle⟩ :: p) l v r).2 =
        false := by
      rw [insertFixup.eq_3 _ _ _ _ _ _ _ _ _ _ _ hne]
      split <;> rfl
    rw [hflag]
    rfl

/-- **`rb_insert_fixup` computes `insertFixup`.** -/
theorem rbInsertFixup_eq {p : HPath α δ} {l r : HTree α δ} {v : Ptr × RbPair α δ} {c : Color}
    {n N fuel : ℕ} (hl : Loc h₀ S h T p (.node .red l v r)) (hs : StackHolds T p)
    (hlt : p.length < T.stackSize) (hfuel : p.length < fuel) (hfit : Fits p c n N)
    (hbl : Balanced l .black n) (hbr : Balanced r .black n) :
    ∃ T' h', rbInsertFixup fuel T h v.1 (parentAddr p) p.length = some (T', h') ∧
      Loc h₀ S h' T' [] (insertFixup p l v r).1 ∧
      T' = T.rebase T'.root (if (insertFixup p l v r).2 then T.bh + 1 else T.bh) := by
  obtain ⟨fuel, rfl⟩ : ∃ k, fuel = k + 1 := ⟨fuel - 1, by omega⟩
  fun_induction insertFixup p l v r generalizing h T c n fuel with
  | case1 l v r =>
      obtain ⟨m, hm, hc, -⟩ := hl.nilCell
      have hroot : v.1 = T.root := (hl.addr_eq_root_iff (by simp)).mpr rfl
      obtain ⟨h', hset, hl'⟩ := Loc.setColor (s := .left) hl .black
      refine ⟨T.rebase T.root (T.bh + 1), h', ?_, hl'.congr_record rfl rfl, rfl⟩
      have hv := hl.tree.1
      rw [rbInsertFixup]
      simp only [parentAddr_nil, hm, hc, Option.bind_eq_bind, Option.bind_some, hv, cell_color,
        ← hroot, List.length_nil, hl.nil, reduceCtorEq, if_false, if_true, assert_of, decide_true,
        hset, RbTree.rebase, Option.pure_def]
  | case2 sp pv ps s cpp ppv ul uv ur p l v r ih =>
      obtain ⟨-, hps, s', v', sib', cs', p', heq, hu, c', hfit'⟩ := hfit.of_red_cons
      obtain ⟨⟨rfl, rfl, rfl, rfl⟩, rfl⟩ := List.cons.inj heq |>.imp_left Frame.mk.inj
      obtain rfl : Color.red = cs' := hu.rootColor
      have hlt' : p.length + 2 < T.stackSize := hlt
      obtain ⟨h₁, hset₁, hl₁⟩ := Loc.setColor (s := .left) hl.up.up.down_flip .black
      obtain ⟨h₂, hset₂, hl₂⟩ := hl₁.up_flip.down.setColor .black
      obtain ⟨h₃, hset₃, hl₃⟩ := hl₂.up.setColor .red
      have hpar : Balanced (sided sp .black (node .red l v r) pv ps) .black (n + 1) :=
        Balanced.sided_black (.red hbl hbr) hps
      obtain ⟨fuel, rfl⟩ : ∃ k, fuel = k + 1 := by
        rw [List.length_cons, List.length_cons] at hfuel
        exact ⟨fuel - 1, by omega⟩
      have hrun := rbInsertFixup_turn (fuel + 1) hl hs hlt'
      simp only [rootColor_node, if_true, addr_node, hset₁, hset₂, hset₃, Option.bind_eq_bind,
        Option.bind_some] at hrun
      rw [parentAddr_cons, List.length_cons, List.length_cons, hrun]
      refine ih hl₃ hs.tail.tail (by omega) hfit' ?_ ?_ fuel ?_
      · cases s
        · exact hpar
        · exact hu.blacken
      · cases s
        · exact hu.blacken
        · exact hpar
      · rw [List.length_cons, List.length_cons] at hfuel
        omega
  | case3 pv ps s cpp ppv uncle p l v r hne =>
      have hrun := rbInsertFixup_rotate fuel hl hs hlt hfit hbl hbr hne
      rwa [insertFixup.eq_3 _ _ _ _ _ _ _ _ _ _ _ hne, if_pos rfl] at hrun
  | case4 sp pv ps s cpp ppv uncle p l v r hne hside =>
      have hrun := rbInsertFixup_rotate fuel hl hs hlt hfit hbl hbr hne
      rwa [insertFixup.eq_3 _ _ _ _ _ _ _ _ _ _ _ hne, if_neg hside] at hrun
  | case5 p l v r h₁ h₂ h₃ =>
      -- the parent is black, and the node is not the root
      have hc : c = .black := by
        cases hfit with
        | root n => exact absurd rfl h₁
        | red hs hp =>
            cases hp with
            | black hs' hp' => exact absurd rfl (h₃ _ _ _ _ _ _ _ _)
        | black _ _ => rfl
      obtain ⟨f, p, rfl⟩ := List.exists_cons_of_ne_nil h₁
      have hroot : v.1 ≠ T.root := by
        have := hl.addr_eq_root_iff (by simp)
        simpa using this
      have hpar := hl.parent_cell
      have hblack : f.color = .black := by
        subst hc
        cases hfit
        rfl
      refine ⟨T, h, ?_, Loc.root_iff.mp hl, rfl⟩
      have hv := hl.tree.1
      rw [rbInsertFixup, parentAddr_cons]
      simp only [hpar, Option.bind_eq_bind, Option.bind_some, cell_color, hblack, reduceCtorEq,
        if_false, hv, assert_of, decide_true, hroot]
      rfl

/-! ## Allocating and linking the node -/

/-- An address that `malloc` may return. -/
def Fresh (h : Heap α δ) (a : Ptr) : Prop := a ≠ NULL ∧ h a = none

lemma Fresh.ne_of_cell {a q : Ptr} {n : RbNode α δ} (ha : Fresh h a) (hq : h q = some n) :
    q ≠ a := by
  rintro rfl
  rw [ha.2] at hq
  cases hq

/-- A new node is linked in below the path. -/
lemma Loc.link {p : HPath α δ} (hl : Loc h₀ S h T p .nil) (hne : p ≠ []) {a : Ptr}
    (ha : Fresh h a) (x : RbPair α δ) {n : RbNode α δ} (hn : ParentCell p a n) :
    Loc h₀ (a :: S) ((h.store a ⟨some x, theNil, theNil, .red⟩).store (parentAddr p) n) T p
      (.node .red .nil (a, x) .nil) := by
  have hpar : parentAddr p ∈ pathAddrs p :=
    (parentAddr_eq_or_mem p).resolve_left (fun h => hne h.1)
  have hmem {q : Ptr} (hq : q ∈ pathAddrs p) : q ∈ S := hl.mem_iff.mpr (.inr hq)
  have hneS {q : Ptr} (hq : q ∈ S) : q ≠ a := by
    obtain ⟨m, hm⟩ := hl.allocated hq
    exact ha.ne_of_cell hm
  have hnil : theNil ≠ a := by
    obtain ⟨m, hm, -⟩ := hl.nilCell
    exact ha.ne_of_cell hm
  -- the new cell and its parent's are the two that are written
  refine hl.exchange ?_ ?_ ?_ ?_ ?_ ⟨n, store_same _ _ _, hn⟩ ?_ ?_ ?_ hl.nil ?_
  · have := (addrs_plug p .nil).symm.trans hl.perm
    simpa using this
  · exact List.nodup_cons.mpr ⟨fun h => hneS h rfl, hl.nodup⟩
  · simp [hnil, hl.nil_notMem]
  · refine (hl.frame.mono (List.subset_cons_self _ _)).trans
      ((EqOff.store _ _ (.inl (by simp))).trans (EqOff.store _ _ (.inl ?_)))
    exact List.mem_cons_of_mem _ (hmem hpar)
  · refine ⟨?_, trivial, trivial⟩
    rw [store_ne _ _ (hneS (hmem hpar)).symm, store_same]
    rfl
  · intro q hq hqp
    rw [store_ne _ _ hqp, store_ne _ _ (hneS (hmem hq))]
  · intro _
    rw [store_ne _ _ (hl.ne_nil_of_mem_path hpar).symm, store_ne _ _ hnil]
  · obtain ⟨m, hm⟩ := hl.allocated (hmem hpar)
    rw [store_ne _ _ (hl.ne_null_of_cell hm).symm, store_ne _ _ ha.1.symm, hl.null]
  · rw [if_neg hne]

/-- The first node of a tree. -/
lemma Loc.linkRoot (hl : Loc h₀ S h T [] .nil) {a : Ptr} (ha : Fresh h a) (x : RbPair α δ)
    (bh : ℕ) : Loc h₀ (a :: S) (h.store a ⟨some x, theNil, theNil, .black⟩) (T.rebase a bh) []
      (.node .black .nil (a, x) .nil) := by
  obtain ⟨m, hm, hc, hleft⟩ := hl.nilCell
  have hnil : theNil ≠ a := ha.ne_of_cell hm
  have hS : S = [] := List.perm_nil.mp hl.perm.symm
  subst hS
  refine hl.exchange (.refl _) (List.nodup_singleton a) (by simp [hnil])
    ((hl.frame.mono (List.nil_subset _)).trans (EqOff.store _ _ (.inl (by simp))))
    ⟨store_same _ _ _, trivial, trivial⟩ ?_ (by simp [pathAddrs, before, after]) (by simp) ?_
    hl.nil rfl
  · exact ⟨m, by rw [parentAddr_nil, store_ne _ _ hnil, hm], hc, hleft⟩
  · rw [store_ne _ _ ha.1.symm, hl.null]

/-- An address stays fresh as long as only the operation's own cells are written. -/
lemma Fresh.frame {h' : Heap α δ} {a : Ptr} {p : HPath α δ} {t : HTree α δ} (ha : Fresh h a)
    (hl : Loc h₀ S h T p t) (hfr : EqOff S h h') : Fresh h' a := by
  refine ⟨ha.1, ?_⟩
  rw [hfr a, ha.2]
  · intro hmem
    obtain ⟨n, hn⟩ := hl.allocated hmem
    exact ha.ne_of_cell hn rfl
  · obtain ⟨n, hn, -⟩ := hl.nilCell
    exact (ha.ne_of_cell hn).symm

/-- The in-order reading of a tree with a new node where the search for it ended. -/
lemma perm_insert (cut : Ptr × RbPair α δ → Ordering) {t : HTree α δ} (v : Ptr × RbPair α δ)
    (hnil : (zoom cut t []).2 = .nil) : (insert cut v t).toList.Perm (v :: t.toList) := by
  have hplug := plug_zoom cut t []
  rw [hnil, plug_nil] at hplug
  have hread : t.toList = before (zoom cut t []).1 ++ after (zoom cut t []).1 := by
    conv_lhs => rw [← hplug, toList_plug]
    simp
  rw [toList_insert, hread]
  exact List.perm_middle

section Keys

variable [LinearOrder α]

/-- Comparing with the innermost node of the path leads to the side of the hole. -/
def Directs (x : RbPair α δ) (p : HPath α δ) : Prop :=
  ∀ f ∈ p.head?, x.first < f.val.2.first ↔ f.side = .left

/-- A search leaves a path that directs to where it stopped. -/
lemma Directs.of_splits {x : RbPair α δ} {cut : Ptr × RbPair α δ → Ordering} {p : HPath α δ}
    (hlt : ∀ v, cut v = .lt → x.first < v.2.first) (hgt : ∀ v, cut v = .gt → v.2.first ≤ x.first)
    (hp : Splits cut p) : Directs x p := by
  rintro ⟨s, c, v, sib⟩ hf
  cases p with
  | nil => cases hf
  | cons g p =>
      obtain rfl : g = _ := by simpa using hf
      cases s
      · simpa using hlt v (hp.2 v (by simp [after]))
      · simpa using hgt v (hp.1 v (by simp [before]))

/-- **`rb_do_insert` inserts.** -/
theorem rbDoInsert_eq {p : HPath α δ} (hl : Loc h₀ S h T p .nil) (hs : StackHolds T p)
    (hbal : Balanced (plug p .nil) .black T.bh) (hsize : 2 * T.bh < T.stackSize) {fuel : ℕ}
    (hfuel : 2 * T.bh < fuel) {x : RbPair α δ} (hdir : Directs x p) {a : Ptr} (ha : Fresh h a) :
    ∃ T' h', rbDoInsert fuel T h x p.length a = some (T', h') ∧
      Loc h₀ (a :: S) h' T' [] (insertFixup p .nil (a, x) .nil).1 ∧
      T' = T.rebase T'.root
        (if (insertFixup p .nil (a, x) .nil).2 then T.bh + 1 else T.bh) := by
  obtain ⟨c, n, hfit, ct, hbn, -⟩ := Fits.of_plug hbal
  obtain ⟨rfl, rfl⟩ := hbn.of_nil
  have hlen := hfit.length_le
  have hlt : p.length < T.stackSize := by omega
  have hget : T.stackGet p.length = some (parentAddr p) := hs.stackGet hlt
  -- an empty tree gets a black root, anywhere else the node hangs red below its parent
  by_cases hp : p = []
  · subst hp
    have hbh : T.bh = 0 := (Balanced.of_nil hbal).2
    have hget' : T.stackGet 0 = some theNil := hget
    have hset : (h.store a ⟨some x, theNil, theNil, .red⟩).setColor a .black =
        some (h.store a ⟨some x, theNil, theNil, .black⟩) := by
      rw [setColor_eq (store_same _ _ _), store_store]
    refine ⟨_, _, ?_, hl.linkRoot ha x (T.bh + 1), rfl⟩
    simp only [rbDoInsert, List.length_nil, hget', hl.nil, Option.bind_eq_bind, Option.bind_some,
      ne_eq, not_true_eq_false, if_false, hset, hbh, assert_of, decide_true, Nat.zero_add]
    simp [RbTree.rebase, hl.nil]
  · obtain ⟨f, p, rfl⟩ := List.exists_cons_of_ne_nil hp
    have hcell := hl.parent_cell
    have hne : f.val.1 ≠ a := ha.ne_of_cell hcell
    have hpnil : f.val.1 ≠ theNil :=
      hl.ne_nil_of_mem_path (mem_pathAddrs_cons.mpr (.inl rfl))
    have hload : (h.store a ⟨some x, theNil, theNil, .red⟩) f.val.1 =
        some (cell f.side f.color theNil f.val.2 (addr f.sibling)) := by
      rw [store_ne _ _ hne, hcell, addr_nil]
    have hl' := hl.link hp ha x (n := cell f.side f.color a f.val.2 (addr f.sibling)) rfl
    obtain ⟨T', h', heq, hdone⟩ := rbInsertFixup_eq hl' hs hlt
      (hfuel.trans_le' (by omega)) hfit .nil .nil
    refine ⟨T', h', ?_, hdone⟩
    have hside := hdir f (by simp)
    have hset := setChild_cell hload a
    rw [parentAddr_cons] at hget heq
    simp only [rbDoInsert, hget, hl.nil, Option.bind_eq_bind, Option.bind_some, ne_eq, hpnil,
      not_false_eq_true, if_true, hload, rbCmpLess, cell_key, Option.map_some, hside,
      decide_eq_true_eq]
    obtain ⟨s, c, v, sib⟩ := f
    cases s
    · simp only [Heap.setChild] at hset
      simp only [if_true, hset, Option.bind_some, heq]
    · simp only [Heap.setChild] at hset
      simp only [reduceCtorEq, if_false, hset, Option.bind_some, heq]

/-- The tree stays ordered when the search that ended at the hole was made for the new key. -/
lemma sorted_insert {cut : Ptr × RbPair α δ → Ordering} {v : Ptr × RbPair α δ} {t : HTree α δ}
    (hcut : IsCut keyLe cut) (hlt : ∀ u, cut u = .lt → v.2.first < u.2.first)
    (hgt : ∀ u, cut u = .gt → u.2.first ≤ v.2.first) (hsort : t.toList.Pairwise keyLe)
    (hnil : (zoom cut t []).2 = .nil) : (insert cut v t).toList.Pairwise keyLe := by
  obtain ⟨hb, ha⟩ := splits_zoom hcut (p := []) hsort (splits_nil cut)
  have hplug := plug_zoom cut t []
  rw [hnil, plug_nil] at hplug
  rw [← hplug, toList_plug, toList_nil, List.append_nil, List.pairwise_append] at hsort
  rw [toList_insert, List.pairwise_append, List.pairwise_cons]
  refine ⟨hsort.1, ⟨fun u hu => (hlt u (ha u hu)).le, hsort.2.1⟩, fun u hu w hw => ?_⟩
  rcases List.mem_cons.mp hw with rfl | hw
  · exact hgt u (hb u hu)
  · exact hsort.2.2 u hu w hw

/-- What an operation that inserted the node `a` with the key `x`, searching with `cut`,
leaves. -/
def Inserted (h : Heap α δ) (S : List Ptr) (t : HTree α δ) (a : Ptr) (x : RbPair α δ)
    (cut : Ptr × RbPair α δ → Ordering) (T' : RbTree) (h' : Heap α δ) : Prop :=
  ∃ t', IsTree h' (a :: S) T' t' ∧ EqOff (a :: S) h h' ∧
    t'.toList.Perm ((a, x) :: t.toList) ∧ t' = insert cut (a, x) t

/-- `rb_do_insert` where the search for `x` ended. -/
lemma rbDoInsert_zoom {cut : Ptr × RbPair α δ → Ordering} {t : HTree α δ}
    (hl : Loc h₀ S h T [] t) (hbal : Balanced t .black T.bh) (hsort : t.toList.Pairwise keyLe)
    {x : RbPair α δ} (hcut : IsCut keyLe cut) (hlt : ∀ u, cut u = .lt → x.first < u.2.first)
    (hgt : ∀ u, cut u = .gt → u.2.first ≤ x.first) (hnil : (zoom cut t []).2 = .nil)
    (hs : StackHolds T (zoom cut t []).1) (hsize : 2 * T.bh < T.stackSize) {fuel : ℕ}
    (hfuel : 2 * T.bh < fuel) {a : Ptr}
    (ha : Fresh h a) :
    ∃ T' h', rbDoInsert fuel T h x (zoom cut t []).1.length a = some (T', h') ∧
      Inserted h₀ S t a x cut T' h' := by
  have hfoc := loc_zoom hl cut
  have hplug := plug_zoom cut t []
  rw [hnil, plug_nil] at hplug
  rw [hnil] at hfoc
  have hsplit := splits_zoom hcut (p := []) hsort (splits_nil cut)
  have hbal' : Balanced (plug (zoom cut t []).1 .nil) .black T.bh := hplug.symm ▸ hbal
  obtain ⟨T', h', heq, hl', hT'⟩ := rbDoInsert_eq hfoc hs hbal' hsize hfuel
    (Directs.of_splits hlt hgt hsplit) ha
  obtain ⟨c, n, hfit, ct, hbn, -⟩ := Fits.of_plug hbal'
  obtain ⟨rfl, rfl⟩ := hbn.of_nil
  refine ⟨T', h', heq, _, ⟨hl'.reframe, ?_, sorted_insert hcut hlt hgt hsort hnil⟩, hl'.frame,
    perm_insert cut (a, x) hnil, rfl⟩
  rw [hT']
  exact Balanced.insertFixup hfit .nil .nil

/-- **`rb_insert`** adds the key, whatever keys are there. -/
theorem rbInsert_spec {t : HTree α δ} {fuel : ℕ} (ht : IsTree h S T t)
    (hfuel : 2 * T.bh < fuel) (x : RbPair α δ) {a : Ptr} (ha : Fresh h a) :
    ∃ T' h', rbInsert fuel T h x a = some (T', h') ∧ Inserted h S t a x (insertCut x) T' h' := by
  obtain ⟨T₁, hgrow, hroot, hnil, hbh, hsize, hs⟩ := growStack_eq (α := α) (δ := δ) ht.loc.nil
  have hl₁ : Loc h S h T₁ [] t := ht.loc.congr_record hnil hroot
  have hbal₁ : Balanced t .black T₁.bh := hbh ▸ ht.balanced
  obtain ⟨T₂, hloop, hs₂, hT₂⟩ := insertLoop_eq (x := x) hl₁ hs hbal₁ (hbh ▸ hsize)
    (by simpa [hbh] using hfuel)
  have hl₂ : Loc h S h T₂ [] t := hl₁.congr_record (hT₂ ▸ rfl) (hT₂ ▸ rfl)
  obtain ⟨T', h', heq, hins⟩ := rbDoInsert_zoom hl₂ (hT₂ ▸ hbal₁) ht.sorted (isCut_insertCut x)
    (fun _ => insertCut_eq_lt.mp) (fun _ => insertCut_eq_gt.mp) (zoom_insertCut x t []) hs₂
    (hT₂ ▸ hbh ▸ hsize) (by rw [hT₂]; exact hbh ▸ hfuel) ha
  refine ⟨T', h', ?_, hins⟩
  have hroot' : T₁.root = addr t := hl₁.root
  rw [List.length_nil] at hloop
  simp only [rbInsert, hgrow, hroot', hloop, heq, Option.bind_eq_bind, Option.bind_some]

/-- `rb_insert_if_absent` returns the node at which the search ends, or adds one there when it
ends at the sentinel. -/
theorem rbInsertIfAbsent_eq {t : HTree α δ} {fuel : ℕ} (ht : IsTree h S T t)
    (hfuel : 2 * T.bh < fuel) (x : RbPair α δ) {a : Ptr} (ha : Fresh h a) :
    ∃ q T' h', rbInsertIfAbsent fuel T h x a = some (q, T', h') ∧
      ((∃ c l v r, (zoom (findCut x) t []).2 = .node c l v r ∧ v.1 = q ∧ v.2.first = x.first ∧
          IsTree h' S T' t ∧ EqOff S h h') ∨
        q = NULL ∧ (zoom (findCut x) t []).2 = .nil ∧ Inserted h S t a x (findCut x) T' h') := by
  obtain ⟨T₁, hgrow, hroot, hnil, hbh, hsize, hs⟩ := growStack_eq (α := α) (δ := δ) ht.loc.nil
  have hl₁ : Loc h S h T₁ [] t := ht.loc.congr_record hnil hroot
  obtain ⟨h₁, hset, hl₁, hkey⟩ := setKey_nil_eq hl₁ x
  have hbal₁ : Balanced t .black T₁.bh := hbh ▸ ht.balanced
  obtain ⟨T₂, hloop, hs₂, hT₂⟩ := findLoop_eq hl₁ hkey hs hbal₁ (hbh ▸ hsize)
    (by simpa [hbh] using hfuel)
  have hl₂ : Loc h S h₁ T₂ [] t := hl₁.congr_record (hT₂ ▸ rfl) (hT₂ ▸ rfl)
  have hbal₂ : Balanced t .black T₂.bh := hT₂ ▸ hbal₁
  have hroot' : T₁.root = addr t := hl₁.root
  rw [List.length_nil] at hloop
  rcases zoom_snd (findCut x) t [] with hz | ⟨c, l, v, r, hz, hv⟩
  · -- the search came to the sentinel
    obtain ⟨T', h', heq, hins⟩ := rbDoInsert_zoom hl₂ hbal₂ ht.sorted (isCut_findCut x)
      (fun _ => findCut_eq_lt.mp) (fun _ h => (findCut_eq_gt.mp h).le) hz hs₂
      (hT₂ ▸ hbh ▸ hsize) (by rw [hT₂]; exact hbh ▸ hfuel) (ha.frame ht.loc hl₁.frame)
    refine ⟨NULL, T', h', ?_, .inr ⟨rfl, hz, hins⟩⟩
    rw [hz, addr_nil] at hloop
    simp only [rbInsertIfAbsent, hgrow, hl₁.nil, hset, hroot', hloop, hl₂.nil, ne_eq,
      not_true_eq_false, if_false, heq, Option.bind_eq_bind, Option.bind_some, Option.pure_def]
  · have hfoc := loc_zoom hl₂ (findCut x)
    rw [hz] at hfoc
    refine ⟨v.1, T₂, h₁, ?_, .inl ⟨c, l, v, r, hz, rfl, (findCut_eq_eq.mp hv).symm, ?_,
      hl₁.frame⟩⟩
    · rw [hz, addr_node] at hloop
      simp only [rbInsertIfAbsent, hgrow, hl₁.nil, hset, hroot', hloop, hl₂.nil, ne_eq,
        hfoc.addr_ne_nil, not_false_eq_true, if_true, Option.bind_eq_bind, Option.bind_some,
        Option.pure_def]
    · exact ⟨hl₂.reframe, hbal₂, ht.sorted⟩

omit [LinearOrder α] in
/-- A search that ends at a node ends at a node of the tree. -/
lemma mem_of_zoom_eq {cut : Ptr × RbPair α δ → Ordering} {t l r : HTree α δ} {c : Color}
    {v : Ptr × RbPair α δ} (hz : (zoom cut t []).2 = .node c l v r) : v ∈ t.toList := by
  have hplug := plug_zoom cut t []
  rw [hz, plug_nil] at hplug
  rw [← hplug, toList_plug]
  simp

/-- **`rb_insert_if_absent`** returns a node with the key, or adds one when there is none. -/
theorem rbInsertIfAbsent_spec {t : HTree α δ} {fuel : ℕ} (ht : IsTree h S T t)
    (hfuel : 2 * T.bh < fuel) (x : RbPair α δ) {a : Ptr} (ha : Fresh h a) :
    ∃ q T' h', rbInsertIfAbsent fuel T h x a = some (q, T', h') ∧
      ((∃ v ∈ t.toList, v.1 = q ∧ v.2.first = x.first ∧ IsTree h' S T' t ∧ EqOff S h h') ∨
        q = NULL ∧ (∀ v ∈ t.toList, v.2.first ≠ x.first) ∧
          Inserted h S t a x (findCut x) T' h') := by
  obtain ⟨q, T', h', heq, hcase⟩ := rbInsertIfAbsent_eq ht hfuel x ha
  refine ⟨q, T', h', heq, hcase.imp ?_ ?_⟩
  · rintro ⟨c, l, v, r, hz, hq, hkey, ht', hfr⟩
    exact ⟨v, mem_of_zoom_eq hz, hq, hkey, ht', hfr⟩
  · rintro ⟨hq, hz, hins⟩
    refine ⟨hq, fun v hv heq => ?_, hins⟩
    exact ne_eq_of_zoom_eq_nil (isCut_findCut x) ht.sorted hz v hv (findCut_eq_eq.mpr heq.symm)

end Keys

end Javalette.Rbtree
