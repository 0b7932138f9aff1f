import Javalette.Library.Doubles
import Javalette.Quadr.Syntax
import Javalette.RbTree.KeySet
import Mathlib.Data.Nat.Bits

/-!
# `opt.cpp`: the graph of a basic block

`optimize_local` reads the quadruples of a block and builds a graph of their values.  An
operation is looked up in a red-black tree under a key that packs its operator and the `id`s of
its operands into one word; when the key is there, the new node is given back and the old one
stands for both.

A node is its address, `NULL` is `0`, and the address of a new node is any that is not in use:
each turn of the loop is given the three it may need.  An `unsigned long` has `w` bits, and an
`unsigned short` 16.  The tree is an `RbSet` whose pairs hold the address of the node.  A
`std::map` is the list of its entries in the order of `<`, where a key is looked up with `<` alone:
in `double_leaves` the two zeros are one key, and a double that is not a number is taken for the
least key there is.  A failing `xabort` and a read through a null pointer yield `none`.

What `gencode_from_graph` emits is not part of the model: it ends by `reset_graph`, and only that
is left of it.
-/

namespace Javalette.Opt

open Rbtree

/-- `graph_node_tag_t`. -/
inductive GraphNodeTag
  | leaf | root | internal
  deriving DecidableEq

/-- `graph_node_t`, less `result`, which is null as long as the graph is built. -/
structure GraphNode (ν β : Type) where
  key : ℕ
  left : ℕ
  right : ℕ
  varList : List ν
  size : ℕ
  u : QuadrArg ν β ⊕ QuadrOp
  id : ℕ
  tag : GraphNodeTag

/-- The static variables of `opt.cpp`, and the `loc` of every variable in `varNode`. -/
structure Dag (ν β : Type) where
  pool : ℕ → Option (GraphNode ν β)
  intLeaves : List (BitVec 32 × ℕ)
  doubleLeaves : List (BitVec 64 × ℕ)
  varLeaves : List ℕ
  varNode : ν → ℕ
  graph : RbSet ℕ ℕ
  nextId : ℕ

variable {ν β : Type}

/-- `reset_graph`. -/
def resetGraph : Dag ν β :=
  ⟨fun _ => none, [], [], [], fun _ => NULL, RbSet.empty, 0⟩

/-- The number of an operator in `quadr_op_t`. -/
def opCode : QuadrOp → ℕ
  | .add => 0
  | .sub => 1
  | .div => 2
  | .mul => 3
  | .mod => 4
  | .copy => 5
  | .readPtr => 6
  | .writePtr => 7
  | .getAddr => 8
  | .ret => 9
  | .param => 10
  | .call => 11
  | .ifEq => 12
  | .ifNe => 13
  | .ifLt => 14
  | .ifGt => 15
  | .ifLe => 16
  | .ifGe => 17
  | .goto => 18
  | .none => 19

/-- `get_id`. -/
def getId (pool : ℕ → Option (GraphNode ν β)) (x : ℕ) : Option ℕ :=
  if x = NULL then some 0 else (pool x).map GraphNode.id

/-- The word that `make_key` packs. -/
def packKey (w : ℕ) (op : QuadrOp) (left right : ℕ) : ℕ :=
  (left <<< (13 + 6)) % 2 ^ w ||| (right <<< 6) % 2 ^ w ||| opCode op

/-- `make_key`. -/
def makeKey (w : ℕ) (pool : ℕ → Option (GraphNode ν β)) (op : QuadrOp) (left right : ℕ) :
    Option ℕ := do
  return packKey w op (← getId pool left) (← getId pool right)

/-! ## The nodes -/

/-- A write to the node at `a`. -/
def Dag.modify (g : Dag ν β) (a : ℕ) (f : GraphNode ν β → GraphNode ν β) : Dag ν β :=
  { g with pool := Function.update g.pool a ((g.pool a).map f) }

/-- `palloc` of a node that takes `next_id++`, at the address `a`. -/
def Dag.alloc (g : Dag ν β) (a : ℕ) (n : GraphNode ν β) : Option (Dag ν β) :=
  if a = NULL ∨ (g.pool a).isSome then none
  else some { g with
    pool := Function.update g.pool a (some { n with id := g.nextId })
    nextId := (g.nextId + 1) % 2 ^ 16 }

/-- `new_graph_leaf`. -/
def newGraphLeaf (g : Dag ν β) (arg : QuadrArg ν β) (a : ℕ) : Option (Dag ν β) :=
  let size := match arg with
    | .var _ => 1
    | _ => 0
  g.alloc a ⟨NULL, NULL, NULL, [], size, .inl arg, 0, .leaf⟩

/-- `is_commutative`. -/
def isCommutative : QuadrOp → Bool
  | .add | .mul => true
  | _ => false

/-- The end of `new_graph_root` for one operand `x` of the node at `a`. -/
def useOperand (g : Dag ν β) (a x : ℕ) : Option (Dag ν β) := do
  if x = NULL then return g
  let n ← g.pool x
  let g := g.modify a fun m => { m with size := m.size + n.size }
  return g.modify x fun m => { m with tag := if m.tag = .root then .internal else m.tag }

/-- `new_graph_root` for operands in their order. -/
def newOrderedRoot (w : ℕ) (g : Dag ν β) (op : QuadrOp) (left right a : ℕ) :
    Option (Dag ν β) := do
  let key ← makeKey w g.pool op left right
  let g ← g.alloc a ⟨key, left, right, [], 1, .inr op, 0, .root⟩
  let g ← useOperand g a left
  useOperand g a right

/-- `new_graph_root`. -/
def newGraphRoot (w : ℕ) (g : Dag ν β) (op : QuadrOp) (left right a : ℕ) : Option (Dag ν β) :=
  if isCommutative op ∧ right < left then newOrderedRoot w g op right left a
  else newOrderedRoot w g op left right a

/-- `free_graph_node`. -/
def freeGraphNode (g : Dag ν β) (a : ℕ) : Option (Dag ν β) := do
  let n ← g.pool a
  return { g with
    pool := Function.update g.pool a none
    nextId := if n.id + 1 = g.nextId then g.nextId - 1 else g.nextId }

/-- The call of `rb_insert_if_absent` for the new node at `a`, and what is done when a node with
its key is there: the node that stands for the value. -/
def insertRoot (g : Dag ν β) (a : ℕ) : Option (ℕ × Dag ν β) := do
  let n ← g.pool a
  match g.graph.lookup n.key with
  | some b => return (b, ← freeGraphNode g a)
  | none => return (a, { g with graph := g.graph.insertIfAbsent ⟨n.key, a⟩ })

/-- `int_leaves[val]`. -/
def Dag.intLeaf (g : Dag ν β) (val : BitVec 32) : ℕ :=
  (OrderedMap.find BitVec.slt val g.intLeaves).getD NULL

/-- `double_leaves[val]`. -/
def Dag.doubleLeaf (g : Dag ν β) (val : BitVec 64) : ℕ :=
  (OrderedMap.find doubleLess val g.doubleLeaves).getD NULL

section Variables

variable [DecidableEq ν]

/-- `add_var`. -/
def addVar (g : Dag ν β) (a : ℕ) (v : ν) : Option (Dag ν β) := do
  let _ ← g.pool a
  let g := g.modify a fun n => { n with varList := v :: n.varList }
  return { g with varNode := Function.update g.varNode v a }

/-- `remove_var`. -/
def removeVar (g : Dag ν β) (a : ℕ) (v : ν) : Option (Dag ν β) := do
  let n ← g.pool a
  if n.tag = .leaf then return g
  return g.modify a fun n => { n with varList := n.varList.erase v }

/-- `get_node`, where a new leaf is at the address `a`. -/
def getNode (g : Dag ν β) (arg : QuadrArg ν β) (a : ℕ) : Option (ℕ × Dag ν β) :=
  match arg with
  | .int i =>
      if g.intLeaf i = NULL then do
        let g ← newGraphLeaf g arg a
        return (a, { g with intLeaves := OrderedMap.set BitVec.slt i a g.intLeaves })
      else return (g.intLeaf i, g)
  | .double d =>
      if g.doubleLeaf d = NULL then do
        let g ← newGraphLeaf g arg a
        return (a, { g with doubleLeaves := OrderedMap.set doubleLess d a g.doubleLeaves })
      else return (g.doubleLeaf d, g)
  | .var v =>
      if g.varNode v = NULL then do
        let g ← newGraphLeaf g arg a
        let g ← addVar { g with varLeaves := g.varLeaves ++ [a] } a v
        return (a, g)
      else return (g.varNode v, g)
  | .none => return (NULL, g)
  | _ => none

/-! ## The block -/

/-- The variable `v` leaves the node `res` for the node `a`. -/
def moveVar (g : Dag ν β) (res a : ℕ) (v : ν) : Option (Dag ν β) := do
  let g ← (if res = NULL then some g else removeVar g res v)
  addVar g a v

/-- The turn of the loop of `optimize_local` for an operation: the moments it goes through. -/
def optimizeArith (w : ℕ) (g : Dag ν β) (op : QuadrOp) (v : ν) (arg1 arg2 : QuadrArg ν β)
    (a₁ a₂ a₃ : ℕ) : Option (List (Dag ν β)) := do
  let res := g.varNode v
  let (left, g₁) ← getNode g arg1 a₁
  let (right, g₂) ← getNode g₁ arg2 a₂
  let g₃ ← newGraphRoot w g₂ op left right a₃
  let (node, g₄) ← insertRoot g₃ a₃
  let g₅ ← moveVar g₄ res node v
  return [g₁, g₂, g₃, g₄, g₅]

/-- The turn for a copy. -/
def optimizeCopy (g : Dag ν β) (v : ν) (arg1 : QuadrArg ν β) (a : ℕ) :
    Option (List (Dag ν β)) := do
  let (node, g₁) ← getNode g arg1 a
  let g₂ ← moveVar g₁ (g₁.varNode v) node v
  return [g₁, g₂]

/-- The turn of the loop of `optimize_local`, with the addresses of its new nodes. -/
def optimizeQuadr (w : ℕ) (g : Dag ν β) (q : Quadr ν β) (a : ℕ × ℕ × ℕ) :
    Option (List (Dag ν β)) :=
  match q.op, q.result with
  | .add, .var v | .sub, .var v | .div, .var v | .mul, .var v | .mod, .var v =>
      optimizeArith w g q.op v q.arg1 q.arg2 a.1 a.2.1 a.2.2
  | .copy, .var v => optimizeCopy g v q.arg1 a.1
  | .add, _ | .sub, _ | .div, _ | .mul, _ | .mod, _ | .copy, _ => none
  | _, _ => some [resetGraph]

/-- The loop of `optimize_local`: all the moments of the rest of the block. -/
def optimizeLocal (w : ℕ) :
    Dag ν β → List (Quadr ν β × ℕ × ℕ × ℕ) → Option (List (Dag ν β))
  | _, [] => some []
  | g, qa :: block => do
      let ms ← optimizeQuadr w g qa.1 qa.2
      return ms ++ (← optimizeLocal w (ms.getLastD g) block)

end Variables

end Javalette.Opt
