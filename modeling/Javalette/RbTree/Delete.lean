import Javalette.RbTree.Insert

/-!
# Deletion in the heap

`rb_delete_fixup` repairs a tree in which every path through one subtree is a black node
short.  A turn of its loop moves the defect one level up, or ends; in the case of a red
sibling it first rotates, which makes the path one node longer but gives the subtree a red
parent, so that the next turn is the last one.  That longer path still fits below the bound
on path lengths, because it ends above a subtree that is one black node short.

`rb_delete_node` moves the successor's key into the node to be deleted and unlinks the
successor, so the nodes that leave the tree have at most one child.
-/

namespace Javalette.Rbtree

open ColorTree

variable {α δ : Type} {h₀ h : Heap α δ} {S : List Ptr} {T : RbTree}

/-- What `rb_delete_fixup` leaves: the red-black tree `t`. -/
def Fixed (h₀ : Heap α δ) (S : List Ptr) (t : HTree α δ) (r : Option (RbTree × Heap α δ)) : Prop :=
  ∃ T' h', r = some (T', h') ∧ Loc h₀ S h' T' [] t ∧ Balanced t .black T'.bh

/-- The loop ends at a red node, which takes the missing black. -/
lemma rbDeleteFixup_red {s : Side} {p : HPath α δ} {a b : HTree α δ} {v : Ptr × RbPair α δ}
    (fuel : ℕ) (hl : Loc h₀ S h T p (sided s .red a v b))
    (hbal : Balanced (plug p (sided s .black a v b)) .black T.bh) :
    Fixed h₀ S (plug p (sided s .black a v b)) (rbDeleteFixup (fuel + 1) T h v.1 p.length) := by
  obtain ⟨h', hset, hl'⟩ := hl.setColor .black
  refine ⟨T, h', ?_, Loc.root_iff.mp hl', hbal⟩
  have hcell := hl.cell_eq
  rw [rbDeleteFixup]
  simp [hcell, hset]

/-- The loop ends at the root, which drops a black from every path. -/
lemma rbDeleteFixup_root {t : HTree α δ} {n : ℕ} (fuel : ℕ) (hl : Loc h₀ S h T [] t)
    (hbh : T.bh = n + 1) (hbal : Balanced t .black n) :
    Fixed h₀ S t (rbDeleteFixup (fuel + 1) T h (addr t) 0) := by
  obtain ⟨m, hm, hc⟩ := hl.color_eq
  refine ⟨{ T with bh := T.bh - 1 }, h, ?_, hl.congr_record rfl rfl, ?_⟩
  · have hroot : T.root = addr t := hl.root
    rw [rbDeleteFixup]
    simp only [hm, hc, hbal.rootColor, hroot, Option.bind_eq_bind, Option.bind_some, if_true,
      Option.pure_def]
  · simpa [hbh] using hbal

/-- One turn of the loop of `rb_delete_fixup` at a black node that is not the root: its
assertions hold, and it finds the side of the node. -/
lemma rbDeleteFixup_turn {s : Side} {cp cw : Color} {pv w : Ptr × RbPair α δ}
    {t a b : HTree α δ} {p : HPath α δ} (fuel : ℕ)
    (hl : Loc h₀ S h T (⟨s, cp, pv, sided s cw a w b⟩ :: p) t)
    (hs : StackHolds T (⟨s, cp, pv, sided s cw a w b⟩ :: p))
    (hlt : p.length + 1 < T.stackSize) (ht : t.rootColor = .black) :
    rbDeleteFixup (fuel + 1) T h (addr t) (p.length + 1) =
      if a.rootColor = .black ∧ b.rootColor = .black then
        if cw = .black then do
          let h ← h.setColor w.1 .red
          rbDeleteFixup fuel T h pv.1 p.length
        else do
          assert (cp = .black)
          let (T, h) ← rbRotate s T h pv.1 (parentAddr p)
          let h ← h.setColor w.1 .black
          let h ← h.setColor pv.1 .red
          let T ← T.stackSet (p.length + 2) pv.1
          let T ← T.stackSet (p.length + 1) w.1
          rbDeleteFixup fuel T h (addr t) (p.length + 2)
      else deleteRotations s T h pv.1 w.1 (p.length + 1) := by
  obtain ⟨m, hm, hc⟩ := hl.color_eq
  have hpv := hl.parent_cell
  have hsib : Loc h₀ S h T (⟨s.flip, cp, pv, t⟩ :: p) (sided s cw a w b) := hl.up.down_flip
  have hw := hsib.cell_eq
  obtain ⟨ma, hma, hca⟩ := hsib.down.color_eq
  obtain ⟨mb, hmb, hcb⟩ := hsib.down_flip.color_eq
  have hroot : addr t ≠ T.root := by
    rcases eq_or_ne t .nil with rfl | hne
    · have := hl.nil_eq_root_iff
      simpa using this
    · have := hl.addr_eq_root_iff hne
      simpa using this
  -- the C code tells the side by comparing addresses, which settles `s` here
  have hside : (if (cell s cp (addr t) pv.2 w.1).left = addr t then Side.left
      else .right) = s :=
    (if_congr eq_comm rfl rfl).trans (hl.side_eq (.inr (by cases s <;> simp [sided])))
  have hget : T.stackGet (p.length + 1) = some pv.1 := hs.stackGet hlt
  have hget' : T.stackGet p.length = some (parentAddr p) := hs.tail.stackGet (by omega)
  rw [rbDeleteFixup]
  simp only [hm, hc, ht, hroot, hget, hpv, addr_sided, hside, Option.bind_eq_bind,
    Option.bind_some, if_true, if_false, cell_child_flip, hw, Nat.le_add_left, assert_of,
    decide_true]
  have hwnil : w.1 ≠ T.nil := by
    rw [hl.nil]
    exact hsib.ne_nil_of_mem (mem_addrs_sided.mpr (.inl rfl))
  -- the right-hand case tests the two nephews in the other order
  cases s
  · simp only [cell, Side.onLeft_left, Side.onRight_left, if_true, hwnil, ne_eq,
      not_false_eq_true, assert_of, decide_true, Option.bind_some, hma, hmb, hca, hcb,
      Nat.add_sub_cancel, hget']
    rfl
  · simp only [cell, Side.onLeft_right, Side.onRight_right, reduceCtorEq, if_false, assert_of,
      decide_true, Option.bind_some, hma, hmb, hca, hcb, Nat.add_sub_cancel, hget',
      and_comm (a := b.rootColor = .black)]
    rfl

/-- `deleteOuterRotation` where the outer nephew is red. -/
lemma deleteOuterRotation_eq {s : Side} {cp : Color} {pv w : Ptr × RbPair α δ}
    {t a b₁ b₂ : HTree α δ} {b : Ptr × RbPair α δ} {p : HPath α δ}
    (hl : Loc h₀ S h T p (sided s cp t pv (sided s .black a w (sided s .red b₁ b b₂))))
    (hs : StackHolds T p) (hlt : p.length < T.stackSize) :
    ∃ r h', deleteOuterRotation s T h pv.1 w.1 (p.length + 1) = some ({ T with root := r }, h') ∧
      Loc h₀ S h' { T with root := r } p
        (sided s cp (sided s .black t pv a) w (sided s .black b₁ b b₂)) := by
  have hw := hl.down_flip.cell_eq
  have hb := hl.down_flip.down_flip.cell_eq
  obtain ⟨m, hm, hpar⟩ := hl.exists_parentCell
  have hroot := hl.addr_eq_root_iff (by cases s <;> simp [sided])
  obtain ⟨r, h₁, hrot, hl₁⟩ := hl.rotate
  have hpv₁ := hl₁.down.cell_eq
  have hw₁ := hl₁.cell_eq
  have hb₁ := hl₁.down_flip.cell_eq
  -- the sibling takes the parent's color, both nodes below it become black
  obtain ⟨h₂, hset₂, hl₂⟩ := hl₁.setColor cp
  obtain ⟨h₃, hset₃, hl₃⟩ := hl₂.down.setColor .black
  have hw₃ := hl₃.up.cell_eq
  obtain ⟨h₄, hset₄, hl₄⟩ := hl₃.up.down_flip.setColor .black
  refine ⟨r, h₄, ?_, hl₄.up_flip⟩
  have hget : T.stackGet (p.length + 1 - 1) = some (parentAddr p) := hs.stackGet hlt
  have hlink : m.left = pv.1 ∨ m.right = pv.1 ∨ pv.1 = T.root := by
    cases p with
    | nil => exact .inr (.inr (hroot.mpr rfl))
    | cons f p =>
        obtain ⟨sf, cf, vf, sib⟩ := f
        subst hpar
        cases sf
        · exact .inl rfl
        · exact .inr (.inl rfl)
  simp only [deleteOuterRotation, hw, cell_child_flip, addr_sided, hb, cell_color, assert_of,
    decide_true, Option.bind_eq_bind, Option.bind_some, hget, hm, hlink, hrot, hw₁, hb₁, hpv₁,
    hset₂, hset₃, hw₃, hset₄, Option.pure_def]

/-- `deleteRotations`, at a black sibling with a red child: the loop ends here. -/
lemma deleteRotations_fixed {s : Side} {cp : Color} {pv w : Ptr × RbPair α δ}
    {t a b : HTree α δ} {p : HPath α δ} {c : Color} {n : ℕ}
    (hl : Loc h₀ S h T p (sided s cp t pv (sided s .black a w b)))
    (hs : StackHolds T p) (hlt : p.length < T.stackSize)
    (hfit : Fits (⟨s, cp, pv, sided s .black a w b⟩ :: p) c (n + 1) T.bh)
    (ht : Balanced t .black n) {ca cb : Color} (ha : Balanced a ca n) (hb : Balanced b cb n)
    (hred : ¬(ca = .black ∧ cb = .black)) :
    Fixed h₀ S (plug p (ColorTree.deleteRotations s cp t pv a w b))
      (Rbtree.deleteRotations s T h pv.1 w.1 (p.length + 1)) := by
  have hw := hl.down_flip.cell_eq
  obtain ⟨m, hm, hc⟩ := hl.down_flip.down_flip.color_eq
  rw [hb.rootColor] at hc
  cases cb with
  | red =>
      obtain ⟨b₁, vb, b₂, rfl, hb₁, hb₂⟩ := hb.of_red (s := s)
      obtain ⟨r, h', heq, hl'⟩ := deleteOuterRotation_eq hl hs hlt
      rw [deleteRotations_outer]
      refine ⟨_, h', ?_, Loc.root_iff.mp hl', ?_⟩
      · simp only [Rbtree.deleteRotations, hw, Option.bind_eq_bind, Option.bind_some, cell_color,
          assert_of, decide_true, cell_child_flip, hm, hc, reduceCtorEq, if_false, heq]
      · exact hfit.fill (Balanced.sided_black ht ha) (Balanced.sided_black hb₁ hb₂) w
  | black =>
      obtain rfl : ca = .red := by
        cases ca
        · rfl
        · exact absurd ⟨rfl, rfl⟩ hred
      obtain ⟨a₁, va, a₂, rfl, ha₁, ha₂⟩ := ha.of_red (s := s)
      -- rotate the red nephew up, so that it becomes the sibling with a red outer child
      have hsib := hl.down_flip
      rw [← sided_flip s .black, ← sided_flip s .red] at hsib
      obtain ⟨r, h₁, hrot, hl₁⟩ := hsib.rotate
      rw [sided_flip, sided_flip] at hl₁
      have hw₁ := hl₁.down_flip.cell_eq
      have hva₁ := hl₁.cell_eq
      have hpv₁ := hl₁.up_flip.cell_eq
      obtain ⟨h₂, hset₂, hl₂⟩ := hl₁.down_flip.setColor .red
      have hpv₂ := hl₂.up_flip.up_flip.cell_eq
      obtain ⟨h₃, hset₃, hl₃⟩ := hl₂.up_flip.setColor .black
      have hpv₃ := hl₃.up_flip.cell_eq
      obtain ⟨r', h', heq, hl'⟩ := deleteOuterRotation_eq hl₃.up_flip (hs.congr fun _ _ => rfl) hlt
      rw [deleteRotations_inner _ _ _ _ _ _ _ _ _ hb.rootColor]
      refine ⟨_, h', ?_, Loc.root_iff.mp hl', ?_⟩
      · simp only [addr_sided, parentAddr_cons] at hrot hpv₁ hpv₂ hpv₃
        simp only [Rbtree.deleteRotations, hw, Option.bind_eq_bind, Option.bind_some, cell_color,
          assert_of, decide_true, cell_child_flip, hm, hc, if_true, hrot, hw₁, hva₁, hpv₁, hset₂,
          hpv₂, hset₃, hpv₃, heq]
      · exact hfit.fill (Balanced.sided_black ht ha₁) (Balanced.sided_black ha₂ hb) va

/-- A turn of the loop below a red node is the last but one. -/
lemma rbDeleteFixup_redParent {s : Side} {pv : Ptr × RbPair α δ} {t sib : HTree α δ}
    {p : HPath α δ} {c : Color} {n : ℕ} (fuel : ℕ)
    (hl : Loc h₀ S h T (⟨s, .red, pv, sib⟩ :: p) t)
    (hs : StackHolds T (⟨s, .red, pv, sib⟩ :: p)) (hlt : p.length + 1 < T.stackSize)
    (hfit : Fits (⟨s, .red, pv, sib⟩ :: p) c (n + 1) T.bh) (ht : Balanced t .black n) :
    Fixed h₀ S (plug p (deleteBelowRed s t pv sib))
      (rbDeleteFixup (fuel + 2) T h (addr t) (p.length + 1)) := by
  obtain ⟨-, hsib, -⟩ := hfit.of_red_cons
  obtain ⟨a, w, b, ca, cb, rfl, ha, hb⟩ := hsib.of_black (s := s)
  rw [deleteBelowRed_sided, rbDeleteFixup_turn (fuel + 1) hl hs hlt ht.rootColor, ha.rootColor,
    hb.rootColor]
  by_cases hblack : ca = .black ∧ cb = .black
  · obtain ⟨rfl, rfl⟩ := hblack
    obtain ⟨h', hset, hl'⟩ := hl.up.down_flip.setColor .red
    have hbal : Balanced (plug p (sided s .black t pv (sided s .red a w b))) .black T.bh := by
      cases hfit with
      | red _ hp =>
          exact hp.plug (Balanced.sided_black ht (Balanced.sided_red ha hb)) (fun _ => rfl)
    rw [if_pos ⟨rfl, rfl⟩, if_pos ⟨rfl, rfl⟩, if_pos rfl, hset]
    exact rbDeleteFixup_red fuel hl'.up_flip hbal
  · rw [if_neg hblack, if_neg hblack]
    exact deleteRotations_fixed hl.up hs.tail (by omega) hfit ht ha hb hblack

/-- The case of a red sibling: after the rotation the path is one node longer, and the node
has a red parent. -/
lemma rbDeleteFixup_redSibling {s : Side} {pv w : Ptr × RbPair α δ} {t a b : HTree α δ}
    {p : HPath α δ} {c : Color} {n : ℕ} (fuel : ℕ)
    (hl : Loc h₀ S h T (⟨s, .black, pv, sided s .red a w b⟩ :: p) t)
    (hs : StackHolds T (⟨s, .black, pv, sided s .red a w b⟩ :: p))
    (hsize : 2 * T.bh < T.stackSize) (hfit : Fits p c (n + 2) T.bh) (ht : Balanced t .black n)
    (ha : Balanced a .black (n + 1)) (hb : Balanced b .black (n + 1)) :
    Fixed h₀ S (plug p (sided s .black (deleteBelowRed s t pv a) w b))
      (rbDeleteFixup (fuel + 3) T h (addr t) (p.length + 1)) := by
  have hfit' : Fits (⟨s, .red, pv, a⟩ :: ⟨s, .black, w, b⟩ :: p) .red (n + 1) T.bh :=
    .red ha (.black hb hfit)
  have hlen := hfit'.length_le
  simp only [List.length_cons, reduceCtorEq, if_false] at hlen
  obtain ⟨r, h₁, hrot, hl₁⟩ := hl.up.rotate
  obtain ⟨h₂, hset₂, hl₂⟩ := hl₁.setColor .black
  obtain ⟨h₃, hset₃, hl₃⟩ := hl₂.down.setColor .red
  -- the stack grows by one: the old sibling, and below it the old parent
  set T' : RbTree := { T with
    root := r
    stack := Function.update (Function.update T.stack (p.length + 2) pv.1) (p.length + 1) w.1 }
    with hT'
  have hl' : Loc h₀ S h₃ T' (⟨s, .red, pv, a⟩ :: ⟨s, .black, w, b⟩ :: p) t :=
    hl₃.down.congr_record rfl rfl
  have hs' : StackHolds T' (⟨s, .red, pv, a⟩ :: ⟨s, .black, w, b⟩ :: p) := by
    refine ⟨?_, ?_, hs.tail.congr fun i hi => ?_⟩
    · simp [hT', Function.update_of_ne]
    · simp [hT']
    · rw [hT']
      dsimp only
      rw [Function.update_of_ne (by omega), Function.update_of_ne (by omega)]
  rw [rbDeleteFixup_turn (fuel + 2) hl hs (by omega) ht.rootColor, ha.rootColor, hb.rootColor]
  simp only [and_self, if_true, reduceCtorEq, if_false, assert_of, decide_true, hrot, hset₂,
    hset₃, RbTree.stackSet, Option.bind_eq_bind, Option.bind_some]
  rw [if_pos (by omega), Option.bind_some, if_pos (by dsimp only; omega), Option.bind_some]
  exact rbDeleteFixup_redParent fuel hl' hs' (by simp only [hT', List.length_cons]; omega) hfit' ht

/-- **`rb_delete_fixup`** makes a red-black tree again. -/
theorem rbDeleteFixup_fixed {p : HPath α δ} {t : HTree α δ} {c ct : Color} {n fuel : ℕ}
    (hl : Loc h₀ S h T p t) (hs : StackHolds T p) (hsize : 2 * T.bh < T.stackSize)
    (hfit : Fits p c (n + 1) T.bh) (ht : Balanced t ct n) (hfuel : p.length + 3 ≤ fuel) :
    Fixed h₀ S (deleteFixup p t) (rbDeleteFixup fuel T h (addr t) p.length) := by
  obtain ⟨fuel, rfl⟩ : ∃ k, fuel = k + 3 := ⟨fuel - 3, by omega⟩
  induction p generalizing h T t c ct n fuel with
  | nil =>
      cases ct with
      | red =>
          obtain ⟨a, v, b, rfl, ha, hb⟩ := ht.of_red (s := .left)
          exact rbDeleteFixup_red (fuel + 2) hl
            (hfit.plug (Balanced.sided_black ha hb) fun _ => rfl)
      | black =>
          rw [deleteFixup, recolor_self ht.rootColor]
          exact rbDeleteFixup_root (fuel + 2) hl hfit.of_nil.2.symm ht
  | cons f p ih =>
      cases ct with
      | red =>
          rw [deleteFixup_red _ ht.rootColor]
          obtain ⟨a, v, b, rfl, ha, hb⟩ := ht.of_red (s := .left)
          exact rbDeleteFixup_red (fuel + 2) hl
            (hfit.plug (Balanced.sided_black ha hb) fun _ => rfl)
      | black =>
          have hlen := hfit.length_le
          rw [List.length_cons] at hlen
          have hne : t.rootColor ≠ .red := by simp [ht.rootColor]
          obtain ⟨s, cf, pv, sib⟩ := f
          cases cf with
          | red =>
              rw [deleteFixup_red_parent _ _ hfit.of_red_cons.2.1.rootColor _ hne]
              exact rbDeleteFixup_redParent (fuel + 1) hl hs (by omega) hfit ht
          | black =>
              obtain ⟨-, cs, c', hsib, hfit'⟩ := hfit.of_black_cons
              cases cs with
              | red =>
                  obtain ⟨a, w, b, rfl, ha, hb⟩ := hsib.of_red (s := s)
                  rw [deleteFixup_sided _ _ _ _ _ _ _ _ hne, if_pos ⟨ha.rootColor, hb.rootColor⟩,
                    if_neg (by simp)]
                  exact rbDeleteFixup_redSibling fuel hl hs hsize hfit' ht ha hb
              | black =>
                  obtain ⟨a, w, b, ca, cb, rfl, ha, hb⟩ := hsib.of_black (s := s)
                  rw [deleteFixup_sided _ _ _ _ _ _ _ _ hne, List.length_cons,
                    rbDeleteFixup_turn (fuel + 2) hl hs (by omega) ht.rootColor,
                    ha.rootColor, hb.rootColor]
                  by_cases hblack : ca = .black ∧ cb = .black
                  · -- the defect moves to the parent
                    obtain ⟨rfl, rfl⟩ := hblack
                    obtain ⟨h', hset, hl'⟩ := hl.up.down_flip.setColor .red
                    obtain ⟨fuel, rfl⟩ : ∃ k, fuel = k + 1 := by
                      rw [List.length_cons] at hfuel
                      exact ⟨fuel - 1, by omega⟩
                    rw [if_pos ⟨rfl, rfl⟩, if_pos rfl, if_pos ⟨rfl, rfl⟩, if_pos rfl, hset]
                    exact ih hl'.up_flip hs.tail hsize hfit'
                      (Balanced.sided_black ht (Balanced.sided_red ha hb)) fuel
                      (by simpa using hfuel)
                  · rw [if_neg hblack, if_neg hblack]
                    exact deleteRotations_fixed hl.up hs.tail (by omega) hfit ht ha hb hblack

/-! ## Unlinking a node with at most one child -/

/-- `w` is the only child of a node with children `l` and `r`, or all three are empty. -/
def OnlyChild (l r w : HTree α δ) : Prop := l = .nil ∧ w = r ∨ r = .nil ∧ w = l

lemma OnlyChild.perm_addrs {l r w : HTree α δ} (hw : OnlyChild l r w) (c : Color)
    (v : Ptr × RbPair α δ) : (addrs (.node c l v r)).Perm (v.1 :: addrs w) := by
  rcases hw with ⟨rfl, rfl⟩ | ⟨rfl, rfl⟩
  · simp
  · simp

/-- The node in focus is replaced by its only child; its own cell is not owned any more. -/
lemma Loc.unlink {p : HPath α δ} {c : Color} {l r w : HTree α δ} {v : Ptr × RbPair α δ}
    (hl : Loc h₀ S h T p (.node c l v r)) (hw : OnlyChild l r w) {h' : Heap α δ} {T' : RbTree}
    (hpar : ∃ n, h' (parentAddr p) = some n ∧ ParentCell p (addr w) n)
    (hoff : ∀ q, q ≠ parentAddr p → h' q = h q) (hTn : T'.nil = theNil)
    (hTr : T'.root = if p = [] then addr w else T.root) :
    Loc h' (S.erase v.1) h' T' p w := by
  have hmem : ∀ q ∈ addrs w, q ∈ addrs (.node c l v r) := fun q hq =>
    (hw.perm_addrs c v).mem_iff.mpr (List.mem_cons_of_mem _ hq)
  have hperm : (v.1 :: (addrs w ++ pathAddrs p)).Perm S :=
    ((hw.perm_addrs c v).symm.append_right _).trans ((addrs_plug p _).symm.trans hl.perm)
  refine hl.exchange ?_ (hl.nodup.erase _) (fun h => hl.nil_notMem (List.mem_of_mem_erase h))
    (EqOff.refl _ _) ?_ hpar (fun q _ hq => hoff q hq) ?_ ?_ hTn hTr
  · simpa using hperm.erase v.1
  · have hheld : Holds h w := by
      obtain ⟨-, hhl, hhr⟩ := hl.tree
      rcases hw with ⟨-, rfl⟩ | ⟨-, rfl⟩ <;> assumption
    refine hheld.congr fun q hq => hoff q ?_
    rintro rfl
    exact hl.parentAddr_notMem (hmem _ hq)
  · intro hp
    have hpar : parentAddr p ∈ pathAddrs p :=
      (parentAddr_eq_or_mem p).resolve_left (fun h => hp h.1)
    exact hoff _ (hl.ne_nil_of_mem_path hpar).symm
  · obtain ⟨m, hm, -⟩ := hl.exists_parentCell
    rw [hoff _ (hl.ne_null_of_cell hm).symm, hl.null]

/-- What is left of the tree when a node with at most one child has been replaced by that
child is made red-black again, by `rb_delete_fixup` if the node was black. -/
lemma fixup_of_unlinked {p : HPath α δ} {c : Color} {l r w : HTree α δ} {v : Ptr × RbPair α δ}
    (hl : Loc h₀ S h T p w) (hw : OnlyChild l r w) (hs : StackHolds T p)
    (hbal : Balanced (plug p (.node c l v r)) .black T.bh) (hsize : 2 * T.bh < T.stackSize)
    {fuel : ℕ} (hfuel : 2 * T.bh + 3 ≤ fuel) :
    Fixed h₀ S (unlink p c w)
      (if c = .black then rbDeleteFixup fuel T h (addr w) p.length else some (T, h)) := by
  obtain ⟨cp, n, hfit, ct, hnode, hct⟩ := Fits.of_plug hbal
  cases hnode with
  | red hbl hbr =>
      have hbw : Balanced w .black n := by
        rcases hw with ⟨-, rfl⟩ | ⟨-, rfl⟩ <;> assumption
      exact ⟨T, h, if_neg (by simp), Loc.root_iff.mp hl, hfit.plug hbw fun _ => rfl⟩
  | @black _ _ _ cl cr n hbl hbr =>
      obtain ⟨cw, hbw⟩ : ∃ cw, Balanced w cw n := by
        rcases hw with ⟨-, rfl⟩ | ⟨-, rfl⟩
        · exact ⟨cr, hbr⟩
        · exact ⟨cl, hbl⟩
      have hlen := hfit.length_le
      rw [if_pos rfl, unlink, if_pos rfl]
      exact rbDeleteFixup_fixed hl hs hsize hfit hbw (by omega)

/-- **Unlinking a node** with at most one child. -/
lemma unlinkNode_spec {p : HPath α δ} {c : Color} {l r w : HTree α δ} {v : Ptr × RbPair α δ}
    (hl : Loc h₀ S h T p (.node c l v r)) (hw : OnlyChild l r w) (hs : StackHolds T p)
    (hbal : Balanced (plug p (.node c l v r)) .black T.bh) (hsize : 2 * T.bh < T.stackSize)
    {fuel : ℕ} (hfuel : 2 * T.bh + 3 ≤ fuel) :
    ∃ T' h', unlinkNode fuel T h v.1 (addr w) p.length = some (T', h') ∧
      Loc h' (S.erase v.1) h' T' [] (unlink p c w) ∧ EqOff S h h' ∧
      Balanced (unlink p c w) .black T'.bh := by
  have hv := hl.tree.1
  have hnotMem : v.1 ∉ S.erase v.1 := hl.nodup.not_mem_erase
  have hvS : v.1 ∈ S := hl.mem_iff.mpr (.inl (by simp))
  -- the fix-up runs in the heap `h₁`, in which the node is already unlinked
  have hfinish : ∀ {T₁ : RbTree} {h₁ : Heap α δ}, Loc h₁ (S.erase v.1) h₁ T₁ p w →
      StackHolds T₁ p → T₁.bh = T.bh → T₁.stackSize = T.stackSize → EqOff S h h₁ →
      ∃ T' h', (if c = .black then rbDeleteFixup fuel T₁ h₁ (addr w) p.length
          else some (T₁, h₁)) = some (T', h') ∧
        Loc (h'.free v.1) (S.erase v.1) (h'.free v.1) T' [] (unlink p c w) ∧
        EqOff S h (h'.free v.1) ∧ Balanced (unlink p c w) .black T'.bh := by
    intro T₁ h₁ hl₁ hs₁ hbh hsz heq₁
    obtain ⟨T', h', heq, hl', hbal'⟩ :=
      fixup_of_unlinked hl₁ hw hs₁ (hbh ▸ hbal) (hbh ▸ hsz ▸ hsize)
        (hbh ▸ hfuel)
    refine ⟨T', h', heq, hl'.transport ?_ ?_ ?_, ?_, hbal'⟩
    · intro q hq
      exact free_ne _ (ne_of_mem_of_not_mem hq hnotMem)
    · obtain ⟨m, hm, hc⟩ := hl'.nilCell
      exact ⟨m, by rw [free_ne _ hl.addr_ne_nil.symm, hm], hc⟩
    · rw [free_ne _ (hl.ne_null_of_cell hv).symm, hl'.null]
    · intro q hq hqn
      rw [free_ne _ (ne_of_mem_of_not_mem hvS hq).symm,
        hl'.frame q (fun hm => hq (List.mem_of_mem_erase hm)) hqn, heq₁ q hq hqn]
  have hend : ∀ {T₁ T' : RbTree} {h₁ h' : Heap α δ} {d : ℕ},
      (if c = .black then rbDeleteFixup fuel T₁ h₁ (addr w) d else some (T₁, h₁)) = some (T', h') →
      (if (cell .left c (addr l) v.2 (addr r)).color = .black then
        (rbDeleteFixup fuel T₁ h₁ (addr w) d).bind fun x => some (x.1, x.2.free v.1)
       else some (T₁, h₁.free v.1)) = some (T', h'.free v.1) := by
    intro T₁ T' h₁ h' d heq
    by_cases hc : c = .black
    · simp only [hc, if_true] at heq
      simp [hc, heq]
    · simp only [hc, if_false] at heq
      cases heq
      simp [hc]
  by_cases hp : p = []
  · subst hp
    have hroot : T.root = v.1 := hl.root
    obtain ⟨m, hm, hpar⟩ := hl.exists_parentCell
    have hl₁ : Loc h (S.erase v.1) h { T with root := addr w } [] w :=
      hl.unlink hw ⟨m, hm, hpar⟩ (fun _ _ => rfl) hl.nil rfl
    obtain ⟨T', h', heq, hdone⟩ := hfinish hl₁ (hs.congr fun _ _ => rfl) rfl rfl
      (EqOff.refl _ _)
    refine ⟨T', h'.free v.1, ?_, hdone⟩
    rw [List.length_nil] at heq
    simp only [unlinkNode, List.length_nil, if_true, hroot, assert_of, decide_true, hv, cell_color,
      Option.bind_eq_bind, Option.bind_some, Option.pure_def]
    exact hend heq
  · obtain ⟨f, p, rfl⟩ := List.exists_cons_of_ne_nil hp
    have hcell := hl.parent_cell
    have hset := setChild_cell hcell (addr w)
    have hsib := hl.addr_ne_sibling (.inl (by simp))
    have hfmem : f.val.1 ∈ pathAddrs (f :: p) := mem_pathAddrs_cons.mpr (.inl rfl)
    have hne : v.1 ≠ f.val.1 := fun heq => hl.parentAddr_notMem (by simp [parentAddr, ← heq])
    obtain ⟨T', h', heq, hdone⟩ := hfinish
      (hl.unlink hw ⟨_, store_same _ _ _, rfl⟩ (fun q hq => store_ne _ _ hq) hl.nil rfl) hs rfl
      rfl (EqOff.store _ _ (.inl (hl.mem_iff.mpr (.inr hfmem))))
    refine ⟨T', h'.free v.1, ?_, hdone⟩
    have hget : T.stackGet (p.length + 1) = some f.val.1 := hs.stackGet (by
      obtain ⟨c', n, hfit, -⟩ := Fits.of_plug hbal
      have := hfit.length_le
      omega)
    have hv₁ : (h.store f.val.1 (cell f.side f.color (addr w) f.val.2 (addr f.sibling))) v.1 =
        some (cell .left c (addr l) v.2 (addr r)) := by
      rw [store_ne _ _ hne, hv]
    rw [List.length_cons, parentAddr_cons] at heq
    obtain ⟨s, cf, vf, sib⟩ := f
    cases s
    · simp only [Heap.setChild] at hset
      simp only [addr_node, cell, Side.onLeft_left] at hcell
      simp only [unlinkNode, List.length_cons, Nat.add_one_ne_zero, if_false, hget, hcell, hset,
        if_true, hv₁, cell_color, Option.bind_eq_bind, Option.bind_some, Option.pure_def]
      exact hend heq
    · simp only [Heap.setChild] at hset
      simp only [addr_node, cell, Side.onLeft_right, Side.onRight_right] at hcell
      simp only [addr_node] at hsib
      simp only [unlinkNode, List.length_cons, Nat.add_one_ne_zero, if_false, hget, hcell, hset,
        hsib.symm, assert_of, decide_true, hv₁, cell_color, Option.bind_eq_bind,
        Option.bind_some, Option.pure_def]
      exact hend heq

/-! ## Deleting a node -/

/-- `successorLoop` goes to the first node of a tree. -/
lemma successorLoop_eq {p : HPath α δ} {c : Color} {l r : HTree α δ} {v : Ptr × RbPair α δ}
    (hl : Loc h₀ S h T p (.node c l v r)) (hs : StackHolds T p)
    (hbal : Balanced (plug p (.node c l v r)) .black T.bh) (hsize : 2 * T.bh < T.stackSize)
    {fuel : ℕ} (hfuel : 2 * T.bh < p.length + fuel) :
    ∃ T', successorLoop fuel T h v.1 p.length =
        some (T', addr (leftmost (.node c l v r)).2,
          ((leftmost (.node c l v r)).1 ++ p).length) ∧
      StackHolds T' ((leftmost (.node c l v r)).1 ++ p) ∧ T' = { T with stack := T'.stack } := by
  obtain ⟨fuel, rfl⟩ := exists_fuel hbal hfuel
  induction l generalizing T p c v r fuel with
  | nil =>
      refine ⟨T, ?_, hs, rfl⟩
      have hcell := hl.tree.1
      rw [successorLoop]
      simp [hcell, cell, hl.nil, leftmost]
  | node cl ll lv lr ihl ihr =>
      obtain ⟨T', hassert, hset, hs', hT'⟩ := push_eq (f := ⟨.left, c, v, r⟩) hs hbal hsize
      have hl' : Loc h₀ S h T' (⟨.left, c, v, r⟩ :: p) (.node cl ll lv lr) :=
        (Loc.down (s := .left) hl).congr_record (hT' ▸ rfl) (hT' ▸ rfl)
      obtain ⟨fuel, rfl⟩ := exists_fuel (p := ⟨.left, c, v, r⟩ :: p) (t := .node cl ll lv lr) hbal
        (fuel_push hfuel)
      obtain ⟨T'', heq, hs'', hT''⟩ := ihl hl' hs' (hT' ▸ hbal) (hT' ▸ hsize) fuel
        (by rw [hT']; exact fuel_push hfuel)
      -- the frames of the walk to the left go on top of the path that led here
      have hassoc : (leftmost (.node c (.node cl ll lv lr) v r)).1 ++ p =
          (leftmost (.node cl ll lv lr)).1 ++ (⟨.left, c, v, r⟩ :: p) := by
        simp [leftmost]
      refine ⟨T'', ?_, hassoc ▸ hs'', by rw [hT'', hT']⟩
      have hcell := hl.tree.1
      rw [successorLoop, hassoc]
      simp only [hcell, cell, Side.onLeft_left, addr_node, hl.nil, hl'.addr_ne_nil, ne_eq,
        not_false_eq_true, if_true, hassert, hset, Option.bind_eq_bind, Option.bind_some]
      exact heq

/-- `rb_delete_node` succeeds, removes the payload of the node, and gives back the cell `a`. -/
def NodeDeleted (fuel : ℕ) (h : Heap α δ) (S : List Ptr) (T : RbTree) (p : HPath α δ)
    (t : HTree α δ) : Prop :=
  ∃ T' h' t' a, rbDeleteNode fuel T h (addr t) p.length = some (T', h') ∧ a ∈ S ∧
    Loc h' (S.erase a) h' T' [] t' ∧ EqOff S h h' ∧ Balanced t' .black T'.bh ∧
    t'.map Prod.snd = (deleteNode p t).map Prod.snd

/-- A node that has at most one child is unlinked itself. -/
lemma nodeDeleted_of_oneChild {p : HPath α δ} {c : Color} {l r : HTree α δ} {v : Ptr × RbPair α δ}
    (hl : Loc h₀ S h T p (.node c l v r)) (hs : StackHolds T p)
    (hbal : Balanced (plug p (.node c l v r)) .black T.bh) (hsize : 2 * T.bh < T.stackSize)
    {fuel : ℕ} (hfuel : 2 * T.bh + 3 ≤ fuel) (hchild : r = .nil ∨ l = .nil) :
    NodeDeleted fuel h S T p (.node c l v r) := by
  have hv := hl.tree.1
  have hl_nil : addr l = theNil ↔ l = .nil := (Loc.down (s := .left) hl).addr_eq_nil_iff
  have hr_nil : addr r = theNil ↔ r = .nil := (Loc.down (s := .right) hl).addr_eq_nil_iff
  obtain ⟨w, hw, haddr⟩ : ∃ w, OnlyChild l r w ∧
      addr w = if addr r ≠ theNil then addr r else addr l := by
    by_cases hr : r = .nil
    · exact ⟨l, .inr ⟨hr, rfl⟩, by simp [hr_nil.mpr hr]⟩
    · exact ⟨r, .inl ⟨hchild.resolve_left hr, rfl⟩, by simp [hr_nil, hr]⟩
  obtain ⟨T', h', heq, hl', hfr, hbal'⟩ := unlinkNode_spec hl hw hs hbal hsize hfuel
  refine ⟨T', h', _, v.1, ?_, hl.mem_iff.mpr (.inl (by simp)), hl', hfr, hbal', ?_⟩
  · rw [addr_node, rbDeleteNode]
    simp only [hl.nil, hl.addr_ne_nil, ne_eq, not_false_eq_true, assert_of, decide_true, hv,
      Option.bind_eq_bind, Option.bind_some]
    have hleaf : (cell .left c (addr l) v.2 (addr r)).right = theNil ∨
        (cell .left c (addr l) v.2 (addr r)).left = theNil :=
      hchild.imp hr_nil.mpr hl_nil.mpr
    have hw' : (if ¬(cell .left c (addr l) v.2 (addr r)).right = theNil
        then (cell .left c (addr l) v.2 (addr r)).right
        else (cell .left c (addr l) v.2 (addr r)).left) = addr w := haddr.symm
    rw [if_pos hleaf]
    simp only [Option.pure_def, Option.bind_some, hv, not_true_eq_false, if_false, hl.nil, hw']
    exact heq
  · rcases hw with ⟨rfl, rfl⟩ | ⟨rfl, rfl⟩
    · rw [deleteNode_left]
    · rw [deleteNode_right]

/-- A node that has two children gets the payload of its successor, which is unlinked. -/
lemma nodeDeleted_of_twoChildren {p : HPath α δ} {c cr : Color} {l lr rr : HTree α δ}
    {v vr : Ptr × RbPair α δ} (hl : Loc h₀ S h T p (.node c l v (.node cr lr vr rr)))
    (hs : StackHolds T p) (hbal : Balanced (plug p (.node c l v (.node cr lr vr rr))) .black T.bh)
    (hsize : 2 * T.bh < T.stackSize) {fuel : ℕ} (hfuel : 2 * T.bh + 3 ≤ fuel)
    (hlne : l ≠ .nil) : NodeDeleted fuel h S T p (.node c l v (.node cr lr vr rr)) := by
  have hv := hl.tree.1
  have hvS : v.1 ∈ S := hl.mem_iff.mpr (.inl (by simp))
  obtain ⟨T₁, -, hset, hs₁, hT₁⟩ := push_eq (f := ⟨.right, c, v, l⟩) hs hbal hsize
  have hl₁ : Loc h₀ S h T₁ (⟨.right, c, v, l⟩ :: p) (.node cr lr vr rr) :=
    (Loc.down (s := .right) hl).congr_record (hT₁ ▸ rfl) (hT₁ ▸ rfl)
  have hfuel₁ : 2 * T₁.bh < p.length + 1 + fuel := by
    rw [hT₁]
    dsimp only
    omega
  obtain ⟨T₂, hloop, hs₂, hT₂⟩ :=
    successorLoop_eq hl₁ hs₁ (hT₁ ▸ hbal) (hT₁ ▸ hsize) hfuel₁
  obtain ⟨q, cy, y, ry, hleft, hplug, hbefore⟩ := leftmost_spec cr lr vr rr
  rw [hleft] at hloop hs₂
  have hTbh : T₂.bh = T.bh := by rw [hT₂, hT₁]
  have hTsize : T₂.stackSize = T.stackSize := by rw [hT₂, hT₁]
  have hl₂ : Loc h₀ S h T₂ p (.node c l v (.node cr lr vr rr)) :=
    hl.congr_record (by rw [hT₂, hT₁]) (by rw [hT₂, hT₁])
  have hfocus : ∀ {h' : Heap α δ} {v' : Ptr × RbPair α δ},
      Loc h₀ S h' T₂ p (.node c l v' (.node cr lr vr rr)) →
      Loc h₀ S h' T₂ (q ++ ⟨.right, c, v', l⟩ :: p) (.node cy .nil y ry) := by
    intro h' v' hl'
    rw [Loc.root_iff, plug_append, hplug, ← Loc.root_iff]
    exact Loc.down (s := .right) hl'
  have hl₃ := hfocus hl₂
  have hy := hl₃.tree.1
  have hne : v.1 ≠ y.1 := by
    have hmem : y.1 ∈ addrs (.node cy .nil y ry) := by simp
    have hvpath : v.1 ∈ pathAddrs (q ++ ⟨.right, c, v, l⟩ :: p) := by
      simp [pathAddrs, before_append, before]
    exact ne_of_mem_of_not_mem hvpath (hl₃.notMem_path hmem)
  have hl₄ := hfocus (Loc.store_focus (s := .left) hl₂ y.2)
  have hs₄ : StackHolds T₂ (q ++ ⟨.right, c, (v.1, y.2), l⟩ :: p) :=
    hs₂.congr_path (by simp)
  have hbal₄ : Balanced (plug (q ++ ⟨.right, c, (v.1, y.2), l⟩ :: p) (.node cy .nil y ry))
      .black T₂.bh := by
    obtain ⟨c', n, hfit, ct, hnode, hct⟩ := Fits.of_plug hbal
    rw [plug_append, hplug, hTbh]
    exact hfit.plug (hnode.setVal (v.1, y.2)) hct
  obtain ⟨T', h', heq, hl', hfr, hbal'⟩ :=
    unlinkNode_spec hl₄ (.inl ⟨rfl, rfl⟩) hs₄ hbal₄ (hTbh ▸ hTsize ▸ hsize) (hTbh ▸ hfuel)
  refine ⟨T', h', _, y.1, ?_, hl₃.mem_iff.mpr (.inl (by simp)), hl',
    (EqOff.store _ _ (.inl hvS)).trans hfr, hbal', ?_⟩
  · have hfull : ¬((cell .left c (addr l) v.2 (addr (.node cr lr vr rr))).right = theNil ∨
        (cell .left c (addr l) v.2 (addr (.node cr lr vr rr))).left = theNil) := by
      rintro (h | h)
      · exact absurd ((Loc.down (s := .right) hl).addr_eq_nil_iff.mp h) (by simp)
      · exact hlne ((Loc.down (s := .left) hl).addr_eq_nil_iff.mp h)
    have hw : (if ¬(cell .left cy theNil y.2 (addr ry)).right = theNil
        then (cell .left cy theNil y.2 (addr ry)).right
        else (cell .left cy theNil y.2 (addr ry)).left) = addr ry := by
      by_cases hry : addr ry = theNil
      · simp [cell, hry]
      · simp [cell, hry]
    rw [addr_node, rbDeleteNode]
    simp only [hl.nil, hl.addr_ne_nil, ne_eq, not_false_eq_true, assert_of, decide_true, hv,
      Option.bind_eq_bind, Option.bind_some]
    rw [if_neg hfull, hset, Option.bind_some]
    have hright : (cell .left c (addr l) v.2 (addr (.node cr lr vr rr))).right = vr.1 := rfl
    rw [List.length_cons, addr_node] at hloop
    simp only [hright, hloop, hy, hne, cell_key, setKey_eq hv, hl₂.nil, addr_nil, hw,
      not_false_eq_true, if_true, Option.bind_some]
    rw [List.length_append, List.length_cons] at heq
    rw [List.length_append, List.length_cons]
    exact heq
  · -- the address of the node stays, its payload is that of the successor
    rw [deleteNode_two hlne hleft, map_unlink, map_unlink, List.map_append, List.map_append]
    rfl

/-- **`rb_delete_node`** removes the payload of the node, and one node. -/
theorem rbDeleteNode_spec {p : HPath α δ} {c : Color} {l r : HTree α δ} {v : Ptr × RbPair α δ}
    (hl : Loc h₀ S h T p (.node c l v r)) (hs : StackHolds T p)
    (hbal : Balanced (plug p (.node c l v r)) .black T.bh) (hsize : 2 * T.bh < T.stackSize)
    {fuel : ℕ} (hfuel : 2 * T.bh + 3 ≤ fuel) : NodeDeleted fuel h S T p (.node c l v r) := by
  cases r with
  | nil => exact nodeDeleted_of_oneChild hl hs hbal hsize hfuel (.inl rfl)
  | node cr lr vr rr =>
      by_cases hlne : l = .nil
      · exact nodeDeleted_of_oneChild hl hs hbal hsize hfuel (.inr hlne)
      · exact nodeDeleted_of_twoChildren hl hs hbal hsize hfuel hlne

/-! ## Freeing a whole tree -/

/-- The heap without the cells of a list. -/
def freeAll (h : Heap α δ) (qs : List Ptr) : Heap α δ := fun q => if q ∈ qs then none else h q

lemma freeAll_of_notMem (h : Heap α δ) {qs : List Ptr} {q : Ptr} (hq : q ∉ qs) :
    freeAll h qs q = h q := if_neg hq

@[simp] lemma freeAll_nil (h : Heap α δ) : freeAll h [] = h := by
  funext q
  simp [freeAll]

/-- Freeing a list, a cell, and another list. -/
lemma freeAll_append (h : Heap α δ) (qs qs' : List Ptr) (a : Ptr) :
    freeAll ((freeAll h qs).free a) qs' = freeAll h (qs ++ a :: qs') := by
  funext q
  by_cases hq : q = a
  · simp [freeAll, Heap.free, hq]
  · simp only [freeAll, free_ne _ hq, List.mem_append, List.mem_cons, hq, false_or]
    by_cases hqs : q ∈ qs <;> simp [hqs]

/-- `rb_free_subtree` frees the nodes of the tree and nothing else. -/
lemma rbFreeSubtree_eq {t : HTree α δ} {fuel : ℕ} (ht : Holds h t) (hnd : (addrs t).Nodup)
    (hnil : theNil ∉ addrs t) (hfuel : t.height < fuel) :
    rbFreeSubtree fuel h (addr t) theNil = some (freeAll h (addrs t)) := by
  obtain ⟨fuel, rfl⟩ : ∃ k, fuel = k + 1 := ⟨fuel - 1, by omega⟩
  induction t generalizing h fuel with
  | nil =>
      rw [rbFreeSubtree]
      simp
  | node c l v r ihl ihr =>
      obtain ⟨hv, hl, hr⟩ := ht
      rw [addrs_node, List.nodup_append, List.nodup_cons] at hnd
      obtain ⟨hndl, ⟨hvr, hndr⟩, hdisj⟩ := hnd
      rw [addrs_node, List.mem_append, List.mem_cons] at hnil
      push Not at hnil
      obtain ⟨hnill, hnilv, hnilr⟩ := hnil
      have hvl : v.1 ∉ addrs l := fun hmem => hdisj _ hmem v.1 (by simp) rfl
      have hload : freeAll h (addrs l) v.1 = some (cell .left c (addr l) v.2 (addr r)) := by
        rw [freeAll_of_notMem h hvl, hv]
      have hright : Holds ((freeAll h (addrs l)).free v.1) r := by
        refine hr.congr fun q hq => ?_
        rw [free_ne _ (ne_of_mem_of_not_mem hq hvr), freeAll_of_notMem]
        exact fun hql => hdisj q hql q (List.mem_cons_of_mem _ hq) rfl
      rw [height] at hfuel
      obtain ⟨fuel, rfl⟩ : ∃ k, fuel = k + 1 := ⟨fuel - 1, by omega⟩
      have hrun := ihr hright hndr hnilr fuel (by omega)
      rw [freeAll_append] at hrun
      rw [rbFreeSubtree]
      simp only [addr_node, Ne.symm hnilv, if_false, hv, Option.bind_eq_bind, Option.bind_some,
        Option.pure_def]
      -- freeing the left subtree leaves the cell that is then read and freed
      by_cases hnl : addr l = theNil
      · have hlnil : l = .nil := by
          by_contra hne
          exact hnill (hnl ▸ addr_mem_addrs hne)
        subst hlnil
        rw [addrs_nil, freeAll_nil] at hload hrun
        rw [if_neg (by simp [cell]), addrs_node]
        exact hrun
      · have hleft : rbFreeSubtree (fuel + 1) h (cell .left c (addr l) v.2 (addr r)).left theNil =
            some (freeAll h (addrs l)) := ihl hl hndl hnill fuel (by omega)
        rw [if_pos (by simpa [cell] using hnl), hleft, Option.bind_some, hload, Option.bind_some,
          addrs_node]
        exact hrun

/-- The empty tree, over a heap with the sentinel and nothing at `NULL`. -/
lemma Loc.empty {T : RbTree} (hnil : ∃ n, h theNil = some n ∧ n.color = .black ∧ n.left = NULL)
    (hnull : h NULL = none) (hTn : T.nil = theNil) (hTr : T.root = theNil) :
    Loc h [] h T [] (.nil : HTree α δ) :=
  ⟨trivial, trivial, .nil, List.nodup_nil, by simp, EqOff.refl _ _, hnil, hnull, hTn, hTr⟩

/-- **`rb_clear`** frees every node and leaves the empty tree. -/
theorem rbClear_spec {t : HTree α δ} {fuel : ℕ} (hl : Loc h S h T [] t)
    (hbal : Balanced t .black T.bh) (hfuel : 2 * T.bh < fuel) :
    ∃ T' h', rbClear fuel T h = some (T', h') ∧ Loc h' [] h' T' [] (.nil : HTree α δ) ∧
      T'.bh = 0 ∧ EqOff S h h' ∧ ∀ q ∈ S, h' q = none := by
  have hmem : ∀ q, q ∈ addrs t ↔ q ∈ S := fun q => hl.perm.mem_iff
  have hnil : theNil ∉ addrs t := fun hm => hl.nil_notMem ((hmem _).mp hm)
  have hroot : T.root = addr t := hl.root
  have hheight : t.height < fuel := hbal.height_le.trans_lt hfuel
  refine ⟨{ T with root := theNil, bh := 0 }, freeAll h (addrs t), ?_,
    Loc.empty ?_ ?_ hl.nil rfl, rfl,
    fun q hq _ => freeAll_of_notMem h (fun hm => hq ((hmem _).mp hm)),
    fun q hq => if_pos ((hmem q).mpr hq)⟩
  · simp only [rbClear, hroot, hl.nil, rbFreeSubtree_eq hl.tree hl.nodup_parts.1 hnil hheight,
      Option.bind_eq_bind, Option.bind_some, Option.pure_def]
  · obtain ⟨n, hn, hc⟩ := hl.nilCell
    exact ⟨n, by rw [freeAll_of_notMem h hnil, hn], hc⟩
  · simp [freeAll, hl.null]

section Keys

variable [LinearOrder α]

lemma pairwise_keyLe_iff {vs : List (Ptr × RbPair α δ)} :
    vs.Pairwise keyLe ↔ (vs.map Prod.snd).Pairwise (fun a b => a.first ≤ b.first) := by
  rw [List.pairwise_map]
  rfl

/-- **`rb_delete`** is `ColorTree.delete`, up to the addresses of the nodes. -/
theorem rbDelete_eq {t : HTree α δ} {fuel : ℕ} (ht : IsTree h S T t)
    (hfuel : 2 * T.bh + 3 ≤ fuel) (x : RbPair α δ) :
    ∃ T' h' S' t', rbDelete fuel T h x = some (T', h') ∧ IsTree h' S' T' t' ∧ S' ⊆ S ∧
      EqOff S h h' ∧ t'.map Prod.snd = (delete (findCut x) t).map Prod.snd := by
  obtain ⟨T₁, hgrow, hroot, hnil, hbh, hsize, hs⟩ := growStack_eq (α := α) (δ := δ) ht.loc.nil
  have hl₁ : Loc h S h T₁ [] t := ht.loc.congr_record hnil hroot
  obtain ⟨h₁, hset, hl₁, hkey⟩ := setKey_nil_eq hl₁ x
  have hbal₁ : Balanced t .black T₁.bh := hbh ▸ ht.balanced
  have hfuel₁ : 2 * T₁.bh < 0 + fuel := by
    rw [hbh]
    omega
  obtain ⟨T₂, hloop, hs₂, hT₂⟩ := findLoop_eq hl₁ hkey hs hbal₁ (hbh ▸ hsize) hfuel₁
  have hl₂ : Loc h S h₁ T₂ [] t := hl₁.congr_record (hT₂ ▸ rfl) (hT₂ ▸ rfl)
  have hbal₂ : Balanced t .black T₂.bh := hT₂ ▸ hbal₁
  have hsize₂ : 2 * T₂.bh < T₂.stackSize := hT₂ ▸ hbh ▸ hsize
  have hroot' : T₁.root = addr t := hl₁.root
  rw [List.length_nil] at hloop
  have hfoc := loc_zoom hl₂ (findCut x)
  have hplug := plug_zoom (findCut x) t []
  have hdel : delete (findCut x) t =
      deleteNode (zoom (findCut x) t []).1 (zoom (findCut x) t []).2 := rfl
  -- the key is not in the tree, or the search stands on the node to delete
  rcases zoom_snd (findCut x) t [] with hz | ⟨c, l, v, r, hz, hv⟩
  · refine ⟨T₂, h₁, S, t, ?_, ⟨hl₂.reframe, hbal₂, ht.sorted⟩, List.Subset.refl _, hl₁.frame, ?_⟩
    · rw [hz, addr_nil] at hloop
      simp only [rbDelete, hgrow, hl₁.nil, hset, hroot', hloop, hl₂.nil, ne_eq,
        not_true_eq_false, if_false, Option.bind_eq_bind, Option.bind_some, Option.pure_def]
    · rw [hz] at hplug hdel
      rw [hdel, deleteNode, hplug, plug_nil]
  · rw [hz] at hfoc hplug hloop hdel
    rw [plug_nil] at hplug
    have hfuel₂ : 2 * T₂.bh + 3 ≤ fuel := by
      rw [hT₂]
      exact hbh ▸ hfuel
    obtain ⟨T', h', t', a, heq, haS, hl', hfr, hbal', hread⟩ :=
      rbDeleteNode_spec hfoc hs₂ (hplug.symm ▸ hbal₂) hsize₂ hfuel₂
    refine ⟨T', h', S.erase a, t', ?_, ⟨hl', hbal', ?_⟩, List.erase_subset, hl₂.frame.trans hfr,
      hread.trans (by rw [hdel])⟩
    · rw [addr_node] at heq
      simp only [rbDelete, hgrow, hl₁.nil, hset, hroot', hloop, hl₂.nil, ne_eq, addr_node,
        hfoc.addr_ne_nil, not_false_eq_true, if_true, heq, Option.bind_eq_bind, Option.bind_some]
    · have hsort := ht.sorted
      rw [← hplug, toList_plug, toList_node] at hsort
      rw [pairwise_keyLe_iff, ← toList_map, hread, toList_map, ← pairwise_keyLe_iff,
        toList_deleteNode]
      refine hsort.sublist ?_
      simp

/-- **`rb_delete`** removes one matching key, or nothing when there is none. -/
theorem rbDelete_spec {t : HTree α δ} {fuel : ℕ} (ht : IsTree h S T t)
    (hfuel : 2 * T.bh + 3 ≤ fuel) (x : RbPair α δ) :
    ∃ T' h' S' t', rbDelete fuel T h x = some (T', h') ∧ IsTree h' S' T' t' ∧ S' ⊆ S ∧
      EqOff S h h' ∧
      ((∀ v ∈ t.toList, v.2.first ≠ x.first) ∧ t'.map Prod.snd = t.map Prod.snd ∨
        ∃ v ∈ t.toList, v.2.first = x.first ∧
          (t.toList.map Prod.snd).Perm (v.2 :: t'.toList.map Prod.snd)) := by
  obtain ⟨T', h', S', t', heq, ht', hsub, hfr, hread⟩ := rbDelete_eq ht hfuel x
  refine ⟨T', h', S', t', heq, ht', hsub, hfr, ?_⟩
  have hplug := plug_zoom (findCut x) t []
  rw [plug_nil] at hplug
  rcases zoom_snd (findCut x) t [] with hz | ⟨c, l, v, r, hz, hv⟩
  · rw [delete, hz, deleteNode, ← hz, hplug] at hread
    refine .inl ⟨fun v hv heq => ?_, hread⟩
    exact ne_eq_of_zoom_eq_nil (isCut_findCut x) ht.sorted hz v hv (findCut_eq_eq.mpr heq.symm)
  · rw [hz] at hplug
    rw [delete, hz] at hread
    have hread' := congrArg toList hread
    rw [toList_map, toList_map, toList_deleteNode] at hread'
    generalize (zoom (findCut x) t []).1 = p at hplug hread'
    refine .inr ⟨v, ?_, (findCut_eq_eq.mp hv).symm, ?_⟩
    · rw [← hplug, toList_plug]
      simp
    · rw [hread', ← hplug, toList_plug, toList_node]
      simp only [List.map_append, List.map_cons, List.append_assoc, List.cons_append]
      rw [← List.append_assoc, ← List.append_assoc]
      exact List.perm_middle

end Keys

end Javalette.Rbtree
