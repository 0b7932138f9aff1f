import Javalette.Library.ColorTree
import Mathlib.Logic.Function.Basic

/-!
# `rbtree.c`: red-black trees in the heap

The module embeds `src/rbtree.c` statement by statement.  Nodes are heap cells named by
addresses, a tree is the record `rbtree_t` with its root pointer, its path stack and its
black height, and every tree shares the one sentinel `the_nil`.

A heap maps an address to the node stored there, or to nothing when the address is not
allocated: reading or writing through `NULL`, through a freed node or past the end of the
path stack yields `none`, and so does a failing assertion.  A loop takes `fuel`, one unit for
each turn, and yields `none` when it runs out.  A function of this module that returns `some`
has therefore stayed inside its memory, passed its assertions and ended its loops.

`malloc` is outside the source.  Each operation that allocates takes the address `malloc`
returned as an argument; `Javalette.RbTree.Correctness` allows any address that is neither
`NULL` nor allocated.

The two mirror halves of `rb_insert_fixup` and `rb_delete_fixup`, which the source writes
out "with 'right' and 'left' exchanged", and the two rotations are one definition each,
parameterised by the side; the assertions that only one half makes stay with that half.
-/

namespace Javalette.Rbtree

/-- An address. -/
abbrev Ptr := ℕ

/-- The null pointer. -/
def NULL : Ptr := 0

/-- The address of the static sentinel `the_nil`. -/
def theNil : Ptr := 1

/-- `struct RbPair`: what a key points to.  Keys are compared by their first component. -/
structure RbPair (α δ : Type) where
  first : α
  rest : δ
  deriving DecidableEq, Repr

/-- `rbnode_t`.  The key pointer may be null, as it initially is in the sentinel. -/
structure RbNode (α δ : Type) where
  key : Option (RbPair α δ)
  left : Ptr
  right : Ptr
  color : Color
  deriving DecidableEq, Repr

/-- `rbtree_t`: the root, the sentinel, the path stack with its capacity, and the black
height. -/
structure RbTree where
  root : Ptr
  nil : Ptr
  stack : ℕ → Ptr
  stackSize : ℕ
  bh : ℕ

variable {α δ : Type}

/-- The node heap. -/
abbrev Heap (α δ : Type) := Ptr → Option (RbNode α δ)

namespace Heap

/-- Store a node at an address that is already allocated. -/
def store (h : Heap α δ) (p : Ptr) (n : RbNode α δ) : Heap α δ := Function.update h p (some n)

/-- `free`. -/
def free (h : Heap α δ) (p : Ptr) : Heap α δ := Function.update h p none

/-- `p->key = k`. -/
def setKey (h : Heap α δ) (p : Ptr) (k : Option (RbPair α δ)) : Option (Heap α δ) := do
  let n ← h p
  return h.store p { n with key := k }

/-- `p->left = q`. -/
def setLeft (h : Heap α δ) (p q : Ptr) : Option (Heap α δ) := do
  let n ← h p
  return h.store p { n with left := q }

/-- `p->right = q`. -/
def setRight (h : Heap α δ) (p q : Ptr) : Option (Heap α δ) := do
  let n ← h p
  return h.store p { n with right := q }

/-- `p->color = c`. -/
def setColor (h : Heap α δ) (p : Ptr) (c : Color) : Option (Heap α δ) := do
  let n ← h p
  return h.store p { n with color := c }

/-- The assignment to the child on a side. -/
def setChild : Side → Heap α δ → Ptr → Ptr → Option (Heap α δ)
  | .left, h, p, q => h.setLeft p q
  | .right, h, p, q => h.setRight p q

end Heap

/-- The child on a side. -/
def RbNode.child (n : RbNode α δ) : Side → Ptr
  | .left => n.left
  | .right => n.right

/-- `assert`. -/
def assert (b : Bool) : Option Unit := if b then some () else none

namespace RbTree

/-- `tree->stack[i]`, for an index below the capacity. -/
def stackGet (t : RbTree) (i : ℕ) : Option Ptr := if i < t.stackSize then some (t.stack i) else none

/-- `tree->stack[i] = p`, for an index below the capacity. -/
def stackSet (t : RbTree) (i : ℕ) (p : Ptr) : Option RbTree :=
  if i < t.stackSize then some { t with stack := Function.update t.stack i p } else none

end RbTree

section Keys

variable [LinearOrder α]

/-- `rb_cmp_less`; comparing through a null key faults. -/
def rbCmpLess (x : RbPair α δ) (k : Option (RbPair α δ)) : Option Bool :=
  k.map fun k => decide (x.first < k.first)

/-- `rb_cmp_eq`. -/
def rbCmpEq (x : RbPair α δ) (k : Option (RbPair α δ)) : Option Bool :=
  k.map fun k => decide (x.first = k.first)

end Keys

/-! ## Private functions -/

/-- `rb_reallocate_stack`: the capacity at least doubles; the old entries are kept. -/
def rbReallocateStack (t : RbTree) (size : ℕ) : Option RbTree := do
  assert (t.stackSize ≤ size)
  let s := 2 * t.stackSize
  return { t with stackSize := if s > size then s else size }

/-- `rb_free_subtree`. -/
def rbFreeSubtree : ℕ → Heap α δ → Ptr → Ptr → Option (Heap α δ)
  | 0, _, _, _ => none
  | fuel + 1, h, node, nil => do
      if node = nil then return h
      let n ← h node
      let h ← if n.left ≠ nil then rbFreeSubtree fuel h n.left nil else pure h
      let n ← h node
      rbFreeSubtree fuel (h.free node) n.right nil

/-- `rb_left_rotate` (`s = left`) and `rb_right_rotate` (`s = right`): the child of `node`
on the other side takes its place.  The parent's pointer is the left one when that is what
points at `node`, else the right one; for the root the parent is the sentinel, which is
written to as well. -/
def rbRotate (s : Side) (t : RbTree) (h : Heap α δ) (node parent : Ptr) :
    Option (RbTree × Heap α δ) := do
  let r := (← h node).child s.flip
  let b := (← h r).child s
  let h ← Heap.setChild s h r node
  let h ← Heap.setChild s.flip h node b
  let h ← if (← h parent).left = node then h.setLeft parent r else h.setRight parent r
  return (if node = t.root then { t with root := r } else t, h)

/-- `rb_left_rotate`. -/
def rbLeftRotate (t : RbTree) (h : Heap α δ) (node parent : Ptr) : Option (RbTree × Heap α δ) :=
  rbRotate .left t h node parent

/-- `rb_right_rotate`. -/
def rbRightRotate (t : RbTree) (h : Heap α δ) (node parent : Ptr) :
    Option (RbTree × Heap α δ) :=
  rbRotate .right t h node parent

/-- The end of the last case of `rb_insert_fixup`: `node` and `p` are both children on side
`s`, and one rotation at `pp` finishes the work. -/
def insertOuterRotation (s : Side) (t : RbTree) (h : Heap α δ) (node p pp : Ptr) (depth : ℕ) :
    Option (RbTree × Heap α δ) := do
  assert (node = (← h p).child s)
  assert ((← h ((← h p).child s.flip)).color = .black)
  let (t, h) ← rbRotate s.flip t h pp (← t.stackGet (depth - 2))
  let h ← h.setColor p .black
  let h ← h.setColor pp .red
  return (t, h)

/-- The last case of `rb_insert_fixup`, where the uncle of `node` is black and `p` is the
child of `pp` on side `s`: one or two rotations, after which the loop returns. -/
def insertRotations (s : Side) (t : RbTree) (h : Heap α δ) (node p pp : Ptr) (depth : ℕ) :
    Option (RbTree × Heap α δ) := do
  if node = (← h p).child s.flip then
    let (t, h) ← rbRotate s t h p pp
    insertOuterRotation s t h ((← h node).child s) node pp depth
  else insertOuterRotation s t h node p pp depth

/-- `rb_insert_fixup`. -/
def rbInsertFixup : ℕ → RbTree → Heap α δ → Ptr → Ptr → ℕ → Option (RbTree × Heap α δ)
  | 0, _, _, _, _, _ => none
  | fuel + 1, t, h, node, p, depth => do
      if (← h p).color = .red then
        assert (2 ≤ depth)
        let pp ← t.stackGet (depth - 1)
        assert ((← h node).color = .red)
        assert (p ≠ t.root)
        assert (pp ≠ t.nil)
        assert ((← h pp).color = .black)
        let s : Side := if p = (← h pp).left then .left else .right
        assert (p = (← h pp).child s)
        let uncle := (← h pp).child s.flip
        if (← h uncle).color = .red then
          let h ← h.setColor uncle .black
          let h ← h.setColor p .black
          let h ← h.setColor pp .red
          rbInsertFixup fuel t h pp (← t.stackGet (depth - 2)) (depth - 2)
        else insertRotations s t h node p pp depth
      else
        assert ((← h node).color = .red)
        if node = t.root then
          assert (depth = 0)
          assert (p = t.nil)
          let h ← h.setColor node .black
          return ({ t with bh := t.bh + 1 }, h)
        else return (t, h)

/-- The end of the last case of `rb_delete_fixup`: the child of `w` away from `node` is red,
and one rotation at `p` finishes the work. -/
def deleteOuterRotation (s : Side) (t : RbTree) (h : Heap α δ) (p w : Ptr) (depth : ℕ) :
    Option (RbTree × Heap α δ) := do
  assert ((← h ((← h w).child s.flip)).color = .red)
  assert ((← h w).color = .black)
  let parent ← t.stackGet (depth - 1)
  assert ((← h parent).left = p ∨ (← h parent).right = p ∨ p = t.root)
  let (t, h) ← rbRotate s t h p parent
  assert ((← h ((← h w).child s.flip)).color = .red)
  let h ← h.setColor w (← h p).color
  let h ← h.setColor p .black
  let h ← h.setColor ((← h w).child s.flip) .black
  return (t, h)

/-- The last case of `rb_delete_fixup`, where the sibling `w` of `node` is black and has a
red child: one or two rotations at `p`, after which the loop returns. -/
def deleteRotations (s : Side) (t : RbTree) (h : Heap α δ) (p w : Ptr) (depth : ℕ) :
    Option (RbTree × Heap α δ) := do
  assert ((← h w).color = .black)
  if (← h ((← h w).child s.flip)).color = .black then
    let (t, h) ← rbRotate s.flip t h w p
    assert ((← h w).color = .black)
    assert ((← h ((← h p).child s.flip)).color = .red)
    let h ← h.setColor w .red
    let h ← h.setColor ((← h p).child s.flip) .black
    deleteOuterRotation s t h p ((← h p).child s.flip) depth
  else deleteOuterRotation s t h p w depth

/-- `rb_delete_fixup`: `node` has an "extra" black.  When the sibling is red, the rotation
makes it the parent of `p`, and the path stack is patched by one more push. -/
def rbDeleteFixup : ℕ → RbTree → Heap α δ → Ptr → ℕ → Option (RbTree × Heap α δ)
  | 0, _, _, _, _ => none
  | fuel + 1, t, h, node, depth => do
      if (← h node).color = .black then
        if node = t.root then return ({ t with bh := t.bh - 1 }, h)
        assert (1 ≤ depth)
        let p ← t.stackGet depth
        let s : Side := if (← h p).left = node then .left else .right
        let pn ← h p
        assert (if s = .left then pn.right ≠ t.nil else node = pn.right)
        let w := (← h p).child s.flip
        if (← h (← h w).left).color = .black ∧ (← h (← h w).right).color = .black then
          if (← h w).color = .black then
            let h ← h.setColor w .red
            rbDeleteFixup fuel t h p (depth - 1)
          else
            assert ((← h p).color = .black)
            assert (1 ≤ depth)
            let (t, h) ← rbRotate s t h p (← t.stackGet (depth - 1))
            let h ← h.setColor w .black
            let h ← h.setColor p .red
            let t ← t.stackSet (depth + 1) p
            let t ← t.stackSet depth w
            rbDeleteFixup fuel t h node (depth + 1)
        else deleteRotations s t h p w depth
      else
        let h ← h.setColor node .black
        return (t, h)

/-- The loop of `rb_delete_node` that goes down to the successor, pushing the nodes it
leaves. -/
def successorLoop : ℕ → RbTree → Heap α δ → Ptr → ℕ → Option (RbTree × Ptr × ℕ)
  | 0, _, _, _, _ => none
  | fuel + 1, t, h, y, depth => do
      let n ← h y
      if n.left ≠ t.nil then
        assert (depth + 1 ≤ 2 * t.bh)
        let t ← t.stackSet (depth + 1) y
        successorLoop fuel t h n.left (depth + 1)
      else return (t, y, depth)

/-- The end of `rb_delete_node`: the node `y` at the given depth is replaced by its only
child `w`, the tree is fixed up when `y` was black, and `y` is freed. -/
def unlinkNode (fuel : ℕ) (t : RbTree) (h : Heap α δ) (y w : Ptr) (depth : ℕ) :
    Option (RbTree × Heap α δ) := do
  let (t, h) ←
    if depth = 0 then do
      assert (t.root = y)
      pure ({ t with root := w }, h)
    else do
      let p ← t.stackGet depth
      let h ←
        if (← h p).left = y then h.setLeft p w
        else do
          assert ((← h p).right = y)
          h.setRight p w
      pure (t, h)
  let (t, h) ← if (← h y).color = .black then rbDeleteFixup fuel t h w depth else pure (t, h)
  return (t, h.free y)

/-- `rb_delete_node`. -/
def rbDeleteNode (fuel : ℕ) (t : RbTree) (h : Heap α δ) (node : Ptr) (depth : ℕ) :
    Option (RbTree × Heap α δ) := do
  assert (node ≠ t.nil)
  let n ← h node
  let (t, y, depth) ←
    if n.right = t.nil ∨ n.left = t.nil then pure (t, node, depth)
    else do
      let t ← t.stackSet (depth + 1) node
      successorLoop fuel t h n.right (depth + 1)
  let yn ← h y
  let w := if yn.right ≠ t.nil then yn.right else yn.left
  let h ← if node ≠ y then h.setKey node yn.key else pure h
  unlinkNode fuel t h y w depth

section Keys

variable [LinearOrder α]

/-- `rb_do_insert`; `node` is what `malloc` returned. -/
def rbDoInsert (fuel : ℕ) (t : RbTree) (h : Heap α δ) (x : RbPair α δ) (depth : ℕ) (node : Ptr) :
    Option (RbTree × Heap α δ) := do
  let h := h.store node ⟨some x, t.nil, t.nil, .red⟩
  let parent ← t.stackGet depth
  if parent ≠ t.nil then
    let h ← if ← rbCmpLess x (← h parent).key then h.setLeft parent node
      else h.setRight parent node
    rbInsertFixup fuel t h node (← t.stackGet depth) depth
  else
    let t := { t with root := node }
    let h ← h.setColor node .black
    let t := { t with bh := t.bh + 1 }
    assert (t.bh = 1)
    return (t, h)

/-! ## Public functions -/

/-- `rb_new`. -/
def rbNew : RbTree := ⟨theNil, theNil, fun _ => NULL, 0, 0⟩

/-- The loop of `rb_search`. -/
def searchLoop : ℕ → Heap α δ → RbPair α δ → Ptr → Option Ptr
  | 0, _, _, _ => none
  | fuel + 1, h, x, node => do
      let n ← h node
      if ← rbCmpEq x n.key then return node
      else if ← rbCmpLess x n.key then searchLoop fuel h x n.left
      else searchLoop fuel h x n.right

/-- `rb_search`.  The sentinel's key is overwritten, which is what stops the loop. -/
def rbSearch (fuel : ℕ) (t : RbTree) (h : Heap α δ) (x : RbPair α δ) : Option (Ptr × Heap α δ) := do
  let h ← h.setKey t.nil (some x)
  let node ← searchLoop fuel h x t.root
  return (if node ≠ t.nil then node else NULL, h)

/-- The prologue of the functions that fill the path stack: make room for a path of length
`2 * bh` and put the sentinel at its bottom. -/
def growStack (t : RbTree) : Option RbTree := do
  let t ← if 2 * t.bh ≥ t.stackSize then rbReallocateStack t (2 * t.bh + 1) else pure t
  t.stackSet 0 t.nil

/-- The loop of `rb_insert`, down to the sentinel. -/
def insertLoop : ℕ → RbTree → Heap α δ → RbPair α δ → Ptr → ℕ → Option (RbTree × ℕ)
  | 0, _, _, _, _, _ => none
  | fuel + 1, t, h, x, node, depth => do
      if node ≠ t.nil then
        assert (depth + 1 ≤ 2 * t.bh)
        let t ← t.stackSet (depth + 1) node
        let n ← h node
        if ← rbCmpLess x n.key then insertLoop fuel t h x n.left (depth + 1)
        else insertLoop fuel t h x n.right (depth + 1)
      else return (t, depth)

/-- `rb_insert`. -/
def rbInsert (fuel : ℕ) (t : RbTree) (h : Heap α δ) (x : RbPair α δ) (fresh : Ptr) :
    Option (RbTree × Heap α δ) := do
  let t ← growStack t
  let (t, depth) ← insertLoop fuel t h x t.root 0
  rbDoInsert fuel t h x depth fresh

/-- The loop of `rb_insert_if_absent` and `rb_delete`, down to a node with the key of
`x`. -/
def findLoop : ℕ → RbTree → Heap α δ → RbPair α δ → Ptr → ℕ → Option (RbTree × Ptr × ℕ)
  | 0, _, _, _, _, _ => none
  | fuel + 1, t, h, x, node, depth => do
      let n ← h node
      if ← rbCmpEq x n.key then return (t, node, depth)
      else
        assert (depth + 1 ≤ 2 * t.bh)
        let t ← t.stackSet (depth + 1) node
        if ← rbCmpLess x n.key then findLoop fuel t h x n.left (depth + 1)
        else findLoop fuel t h x n.right (depth + 1)

/-- `rb_insert_if_absent`. -/
def rbInsertIfAbsent (fuel : ℕ) (t : RbTree) (h : Heap α δ) (x : RbPair α δ) (fresh : Ptr) :
    Option (Ptr × RbTree × Heap α δ) := do
  let t ← growStack t
  let h ← h.setKey t.nil (some x)
  let (t, node, depth) ← findLoop fuel t h x t.root 0
  if node ≠ t.nil then return (node, t, h)
  else
    let (t, h) ← rbDoInsert fuel t h x depth fresh
    return (NULL, t, h)

/-- `rb_delete`. -/
def rbDelete (fuel : ℕ) (t : RbTree) (h : Heap α δ) (x : RbPair α δ) :
    Option (RbTree × Heap α δ) := do
  let t ← growStack t
  let h ← h.setKey t.nil (some x)
  let (t, node, depth) ← findLoop fuel t h x t.root 0
  if node ≠ t.nil then rbDeleteNode fuel t h node depth else return (t, h)

/-- `rb_clear`. -/
def rbClear (fuel : ℕ) (t : RbTree) (h : Heap α δ) : Option (RbTree × Heap α δ) := do
  let h ← rbFreeSubtree fuel h t.root t.nil
  return ({ t with root := t.nil, bh := 0 }, h)

end Keys

end Javalette.Rbtree
