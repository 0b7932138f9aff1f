import Javalette.RbTree.Representation

/-!
# Searching in the heap

The three loops of `rbtree.c` that go down a tree are `ColorTree.zoom` with one of two cuts:
`rb_insert` turns right at an equal key and always ends at the sentinel; `rb_search`,
`rb_insert_if_absent` and `rb_delete` stop at an equal key.  These last three first write the
key into the sentinel, so that the sentinel, too, stops them.

A path in a red-black tree of black height `bh` is at most `2 * bh` long
(`ColorTree.Fits.length_le`), which is why every push stays below `stack_size`.
-/

namespace Javalette.Rbtree

open ColorTree

variable {α δ : Type}

lemma assert_of {b : Bool} (hb : b = true) : assert b = some () := by
  simp [assert, hb]

section Cuts

variable [LinearOrder α]

/-- The order of the nodes of a search tree. -/
def keyLe (u v : Ptr × RbPair α δ) : Prop := u.2.first ≤ v.2.first

/-- The directions `rb_insert` takes. -/
def insertCut (x : RbPair α δ) (v : Ptr × RbPair α δ) : Ordering :=
  if x.first < v.2.first then .lt else .gt

/-- The directions of the functions that stop at an equal key. -/
def findCut (x : RbPair α δ) (v : Ptr × RbPair α δ) : Ordering :=
  if x.first = v.2.first then .eq else if x.first < v.2.first then .lt else .gt

lemma insertCut_eq_lt {x : RbPair α δ} {v : Ptr × RbPair α δ} :
    insertCut x v = .lt ↔ x.first < v.2.first := by
  unfold insertCut
  split <;> simp [*]

lemma insertCut_eq_gt {x : RbPair α δ} {v : Ptr × RbPair α δ} :
    insertCut x v = .gt ↔ v.2.first ≤ x.first := by
  rw [← not_lt]
  unfold insertCut
  split <;> simp [*]

lemma insertCut_ne_eq (x : RbPair α δ) (v : Ptr × RbPair α δ) : insertCut x v ≠ .eq := by
  unfold insertCut
  split <;> simp

lemma findCut_eq_eq {x : RbPair α δ} {v : Ptr × RbPair α δ} :
    findCut x v = .eq ↔ x.first = v.2.first := by
  unfold findCut
  split
  · simp [*]
  · split <;> simp [*]

lemma findCut_eq_lt {x : RbPair α δ} {v : Ptr × RbPair α δ} :
    findCut x v = .lt ↔ x.first < v.2.first := by
  unfold findCut
  by_cases heq : x.first = v.2.first
  · simp [heq]
  · rw [if_neg heq]
    split <;> simp [*]

lemma findCut_eq_gt {x : RbPair α δ} {v : Ptr × RbPair α δ} :
    findCut x v = .gt ↔ v.2.first < x.first := by
  unfold findCut
  rcases lt_trichotomy x.first v.2.first with hlt | heq | hgt
  · simp [hlt, hlt.ne, hlt.le]
  · simp [heq]
  · simp [hgt, hgt.ne', hgt.le]

lemma isCut_insertCut (x : RbPair α δ) : IsCut keyLe (insertCut x) where
  lt_of_lt hle hlt := insertCut_eq_lt.mpr ((insertCut_eq_lt.mp hlt).trans_le hle)
  gt_of_gt hle hgt := insertCut_eq_gt.mpr (hle.trans (insertCut_eq_gt.mp hgt))

lemma isCut_findCut (x : RbPair α δ) : IsCut keyLe (findCut x) where
  lt_of_lt hle hlt := findCut_eq_lt.mpr ((findCut_eq_lt.mp hlt).trans_le hle)
  gt_of_gt hle hgt := findCut_eq_gt.mpr (hle.trans_lt (findCut_eq_gt.mp hgt))

/-- The search of `rb_insert` never stops above an empty subtree. -/
lemma zoom_insertCut (x : RbPair α δ) (t : HTree α δ) (p : HPath α δ) :
    (zoom (insertCut x) t p).2 = .nil := by
  rcases zoom_snd (insertCut x) t p with h | ⟨c, l, v, r, -, hv⟩
  · exact h
  · exact absurd hv (insertCut_ne_eq x v)

end Cuts

/-! ## The path stack -/

/-- `growStack` makes room for every path, and puts the sentinel at the bottom. -/
lemma growStack_eq {T : RbTree} (hn : T.nil = theNil) :
    ∃ T', growStack T = some T' ∧ T'.root = T.root ∧ T'.nil = T.nil ∧ T'.bh = T.bh ∧
      2 * T.bh < T'.stackSize ∧ StackHolds T' ([] : HPath α δ) := by
  unfold growStack
  by_cases hsize : 2 * T.bh ≥ T.stackSize
  · have hrealloc : rbReallocateStack T (2 * T.bh + 1) =
        some { T with stackSize := if 2 * T.stackSize > 2 * T.bh + 1 then 2 * T.stackSize
                                   else 2 * T.bh + 1 } := by
      simp [rbReallocateStack, assert, show T.stackSize ≤ 2 * T.bh + 1 by omega]
    have hroom : 2 * T.bh < if 2 * T.stackSize > 2 * T.bh + 1 then 2 * T.stackSize
        else 2 * T.bh + 1 := by
      split <;> omega
    rw [if_pos hsize, hrealloc]
    refine ⟨_, if_pos (Nat.zero_lt_of_lt hroom), rfl, rfl, rfl, hroom, ?_⟩
    simp [StackHolds, hn]
  · rw [if_neg hsize]
    refine ⟨_, if_pos (by omega), rfl, rfl, rfl, by dsimp only; omega, ?_⟩
    simp [StackHolds, hn]

/-- The fuel of a loop that has come down a path of a red-black tree does not run out: the
path and the fuel left are together longer than any path. -/
lemma exists_fuel {p : HPath α δ} {t : HTree α δ} {N fuel : ℕ}
    (hbal : Balanced (plug p t) .black N) (hfuel : 2 * N < p.length + fuel) :
    ∃ k, fuel = k + 1 := by
  obtain ⟨c, n, hfit, -⟩ := Fits.of_plug hbal
  have hlen := hfit.length_le
  exact ⟨fuel - 1, by omega⟩

lemma fuel_push {N k fuel : ℕ} (hfuel : 2 * N < k + (fuel + 1)) : 2 * N < k + 1 + fuel := by
  omega

/-- Pushing a node on the way down a red-black tree: the assertion on the depth holds, and
the index is below the capacity. -/
lemma push_eq {T : RbTree} {p : HPath α δ} {f : Frame (Ptr × RbPair α δ)} {t : HTree α δ}
    (hs : StackHolds T p) (hbal : Balanced (plug p (f.fill t)) .black T.bh)
    (hsize : 2 * T.bh < T.stackSize) :
    ∃ T', (assert (p.length + 1 ≤ 2 * T.bh) = some ()) ∧
      T.stackSet (p.length + 1) f.val.1 = some T' ∧ StackHolds T' (f :: p) ∧
      T' = { T with stack := T'.stack } := by
  obtain ⟨c, n, hfit, -⟩ := Fits.of_plug (p := f :: p) hbal
  have hlen := hfit.length_le
  rw [List.length_cons] at hlen
  obtain ⟨hset, hs'⟩ := hs.push f (by omega)
  exact ⟨_, assert_of (by simp; omega), hset, hs', rfl⟩

/-! ## The loops -/

section Loops

variable [LinearOrder α] {h₀ h : Heap α δ} {S : List Ptr} {T : RbTree}

/-- `insertLoop` is `zoom` with `insertCut`. -/
lemma insertLoop_eq {x : RbPair α δ} {p : HPath α δ} {t : HTree α δ} {fuel : ℕ}
    (hl : Loc h₀ S h T p t) (hs : StackHolds T p) (hbal : Balanced (plug p t) .black T.bh)
    (hsize : 2 * T.bh < T.stackSize) (hfuel : 2 * T.bh < p.length + fuel) :
    ∃ T', insertLoop fuel T h x (addr t) p.length =
        some (T', (zoom (insertCut x) t p).1.length) ∧
      StackHolds T' (zoom (insertCut x) t p).1 ∧ T' = { T with stack := T'.stack } := by
  fun_induction zoom (insertCut x) t p generalizing T fuel with
  | case1 p =>
      obtain ⟨fuel, rfl⟩ := exists_fuel hbal hfuel
      refine ⟨T, ?_, hs, rfl⟩
      rw [insertLoop]
      simp [hl.nil]
  | case2 c l v r p hcut ih =>
      obtain ⟨fuel, rfl⟩ := exists_fuel hbal hfuel
      obtain ⟨T', hassert, hset, hs', hT'⟩ := push_eq (f := ⟨.left, c, v, r⟩) hs hbal hsize
      have hl' : Loc h₀ S h T' (⟨.left, c, v, r⟩ :: p) l :=
        (Loc.down (s := .left) hl).congr_record (hT' ▸ rfl) (hT' ▸ rfl)
      obtain ⟨T'', heq, hs'', hT''⟩ := ih hl' hs' (hT' ▸ hbal) (hT' ▸ hsize)
        (by rw [hT']; exact fuel_push hfuel)
      refine ⟨T'', ?_, hs'', by rw [hT'', hT']⟩
      have hcell := hl.tree.1
      have hless := insertCut_eq_lt.mp hcut
      rw [insertLoop]
      simp only [addr_node, hl.nil, hl.addr_ne_nil, ne_eq, not_false_eq_true, if_true, hassert,
        hset, hcell, Option.bind_eq_bind, Option.bind_some]
      simpa [rbCmpLess, cell, hless] using heq
  | case3 c l v r p hcut ih =>
      obtain ⟨fuel, rfl⟩ := exists_fuel hbal hfuel
      obtain ⟨T', hassert, hset, hs', hT'⟩ := push_eq (f := ⟨.right, c, v, l⟩) hs hbal hsize
      have hl' : Loc h₀ S h T' (⟨.right, c, v, l⟩ :: p) r :=
        (Loc.down (s := .right) hl).congr_record (hT' ▸ rfl) (hT' ▸ rfl)
      obtain ⟨T'', heq, hs'', hT''⟩ := ih hl' hs' (hT' ▸ hbal) (hT' ▸ hsize)
        (by rw [hT']; exact fuel_push hfuel)
      refine ⟨T'', ?_, hs'', by rw [hT'', hT']⟩
      have hcell := hl.tree.1
      -- an equal key goes to the right as well
      have hless := not_lt.mpr (insertCut_eq_gt.mp hcut)
      rw [insertLoop]
      simp only [addr_node, hl.nil, hl.addr_ne_nil, ne_eq, not_false_eq_true, if_true, hassert,
        hset, hcell, Option.bind_eq_bind, Option.bind_some]
      simpa [rbCmpLess, cell, hless] using heq
  | case4 c l v r p hcut => exact absurd hcut (insertCut_ne_eq x v)

/-- The sentinel holds the key that is searched for. -/
def NilKey (h : Heap α δ) (x : RbPair α δ) : Prop := ∃ n, h theNil = some n ∧ n.key = some x

omit [LinearOrder α] in
lemma setKey_nil_eq {p : HPath α δ} {t : HTree α δ} (hl : Loc h₀ S h T p t) (x : RbPair α δ) :
    ∃ h', h.setKey theNil (some x) = some h' ∧ Loc h₀ S h' T p t ∧ NilKey h' x := by
  obtain ⟨n, hn, hc, hleft⟩ := hl.nilCell
  exact ⟨_, setKey_eq hn _, hl.store_nil hc hleft, _, store_same _ _ _, rfl⟩

/-- The loop of `rb_search` is `zoom` with `findCut`. -/
lemma searchLoop_eq {x : RbPair α δ} {p : HPath α δ} {t : HTree α δ} {N fuel : ℕ}
    (hl : Loc h₀ S h T p t) (hkey : NilKey h x) (hbal : Balanced (plug p t) .black N)
    (hfuel : 2 * N < p.length + fuel) :
    searchLoop fuel h x (addr t) = some (addr (zoom (findCut x) t p).2) := by
  fun_induction zoom (findCut x) t p generalizing fuel with
  | case1 p =>
      obtain ⟨fuel, rfl⟩ := exists_fuel hbal hfuel
      obtain ⟨n, hn, hk⟩ := hkey
      rw [searchLoop]
      simp [hn, hk, rbCmpEq]
  | case2 c l v r p hcut ih =>
      obtain ⟨fuel, rfl⟩ := exists_fuel hbal hfuel
      have heq := ih (Loc.down (s := .left) hl) hbal (fuel_push hfuel)
      have hcell := hl.tree.1
      have hless := findCut_eq_lt.mp hcut
      rw [searchLoop]
      simpa [hcell, rbCmpLess, rbCmpEq, cell, hless, hless.ne] using heq
  | case3 c l v r p hcut ih =>
      obtain ⟨fuel, rfl⟩ := exists_fuel hbal hfuel
      have heq := ih (Loc.down (s := .right) hl) hbal (fuel_push hfuel)
      have hcell := hl.tree.1
      have hless := findCut_eq_gt.mp hcut
      rw [searchLoop]
      simpa [hcell, rbCmpLess, rbCmpEq, cell, hless.not_gt, hless.ne'] using heq
  | case4 c l v r p hcut =>
      obtain ⟨fuel, rfl⟩ := exists_fuel hbal hfuel
      have hcell := hl.tree.1
      rw [searchLoop]
      simp [hcell, rbCmpEq, cell, findCut_eq_eq.mp hcut]

/-- `findLoop` is `zoom` with `findCut`. -/
lemma findLoop_eq {x : RbPair α δ} {p : HPath α δ} {t : HTree α δ} {fuel : ℕ}
    (hl : Loc h₀ S h T p t) (hkey : NilKey h x) (hs : StackHolds T p)
    (hbal : Balanced (plug p t) .black T.bh) (hsize : 2 * T.bh < T.stackSize)
    (hfuel : 2 * T.bh < p.length + fuel) :
    ∃ T', findLoop fuel T h x (addr t) p.length =
        some (T', addr (zoom (findCut x) t p).2, (zoom (findCut x) t p).1.length) ∧
      StackHolds T' (zoom (findCut x) t p).1 ∧ T' = { T with stack := T'.stack } := by
  -- the loop follows the zipper of the library step by step
  fun_induction zoom (findCut x) t p generalizing T fuel with
  | case1 p =>
      obtain ⟨fuel, rfl⟩ := exists_fuel hbal hfuel
      obtain ⟨n, hn, hk⟩ := hkey
      refine ⟨T, ?_, hs, rfl⟩
      rw [findLoop]
      simp [hn, hk, rbCmpEq]
  | case2 c l v r p hcut ih =>
      obtain ⟨fuel, rfl⟩ := exists_fuel hbal hfuel
      obtain ⟨T', hassert, hset, hs', hT'⟩ := push_eq (f := ⟨.left, c, v, r⟩) hs hbal hsize
      have hl' : Loc h₀ S h T' (⟨.left, c, v, r⟩ :: p) l :=
        (Loc.down (s := .left) hl).congr_record (hT' ▸ rfl) (hT' ▸ rfl)
      obtain ⟨T'', heq, hs'', hT''⟩ := ih hl' hs' (hT' ▸ hbal) (hT' ▸ hsize)
        (by rw [hT']; exact fuel_push hfuel)
      refine ⟨T'', ?_, hs'', by rw [hT'', hT']⟩
      have hcell := hl.tree.1
      have hless := findCut_eq_lt.mp hcut
      rw [findLoop]
      simp only [addr_node, hcell, Option.bind_eq_bind, Option.bind_some, hassert, hset]
      simpa [rbCmpLess, rbCmpEq, cell, hless, hless.ne] using heq
  | case3 c l v r p hcut ih =>
      obtain ⟨fuel, rfl⟩ := exists_fuel hbal hfuel
      obtain ⟨T', hassert, hset, hs', hT'⟩ := push_eq (f := ⟨.right, c, v, l⟩) hs hbal hsize
      have hl' : Loc h₀ S h T' (⟨.right, c, v, l⟩ :: p) r :=
        (Loc.down (s := .right) hl).congr_record (hT' ▸ rfl) (hT' ▸ rfl)
      obtain ⟨T'', heq, hs'', hT''⟩ := ih hl' hs' (hT' ▸ hbal) (hT' ▸ hsize)
        (by rw [hT']; exact fuel_push hfuel)
      refine ⟨T'', ?_, hs'', by rw [hT'', hT']⟩
      have hcell := hl.tree.1
      have hless := findCut_eq_gt.mp hcut
      rw [findLoop]
      simp only [addr_node, hcell, Option.bind_eq_bind, Option.bind_some, hassert, hset]
      simpa [rbCmpLess, rbCmpEq, cell, hless.not_gt, hless.ne'] using heq
  | case4 c l v r p hcut =>
      obtain ⟨fuel, rfl⟩ := exists_fuel hbal hfuel
      refine ⟨T, ?_, hs, rfl⟩
      have hcell := hl.tree.1
      rw [findLoop]
      simp [hcell, rbCmpEq, cell, findCut_eq_eq.mp hcut]

omit [LinearOrder α] in
lemma loc_zoom {t : HTree α δ} (hl : Loc h₀ S h T [] t) (cut : Ptr × RbPair α δ → Ordering) :
    Loc h₀ S h T (zoom cut t []).1 (zoom cut t []).2 := by
  rw [Loc.root_iff, plug_zoom]
  exact hl

/-- `rb_search` is `zoom`, and writes nothing but the sentinel. -/
lemma rbSearch_eq {t : HTree α δ} {fuel : ℕ} (hl : Loc h₀ S h T [] t)
    (hbal : Balanced t .black T.bh) (hfuel : 2 * T.bh < fuel) (x : RbPair α δ) :
    ∃ h', rbSearch fuel T h x =
        some (if addr (zoom (findCut x) t []).2 = theNil then NULL
          else addr (zoom (findCut x) t []).2, h') ∧
      Loc h₀ S h' T [] t := by
  obtain ⟨h', hset, hl', hkey⟩ := setKey_nil_eq hl x
  have hroot : T.root = addr t := hl.root
  have hloop := searchLoop_eq hl' hkey hbal (by simpa using hfuel)
  refine ⟨h', ?_, hl'⟩
  simp only [rbSearch, hset, hroot, hloop, Option.bind_eq_bind, Option.bind_some, hl'.nil, ne_eq,
    ite_not, Option.pure_def]

/-- The record `T` is a search tree of red-black shape, with the nodes `S`. -/
structure IsTree (h : Heap α δ) (S : List Ptr) (T : RbTree) (t : HTree α δ) : Prop where
  loc : Loc h S h T [] t
  balanced : Balanced t .black T.bh
  sorted : t.toList.Pairwise keyLe

end Loops

end Javalette.Rbtree
