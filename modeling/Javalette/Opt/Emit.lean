import Javalette.Opt.Dag

/-!
# `opt.cpp`: the code of a graph

`gencode_from_graph` turns the graph of a basic block into quadruples.  Each node gets a variable
of its own, which nothing else is ever assigned to: first the leaves of variables, then the
roots with what is below them, then the constants; the variables on the list of a node are set as
soon as the node has been computed, those on the lists of the leaves of variables at the very end.
Operations on constants are carried out, and their nodes turned into leaves.

`declare_var` hands out the variables of a sequence; their types are left out, and with them the
assertion of `result_type` that the operands have the same type.  `u` is a union whose `arg.tag`
does not overlap with `op`, so the operator can still be read while the node is turned into a leaf.
A failing assertion and a read through a null pointer yield `none`, and so does the signal that
kills the compiler when it divides the least integer by -1.
-/

namespace Javalette.Opt

open Rbtree

variable {ν β : Type}

/-- What the generation of code depends on besides the graph: the name of the function, the
variables that `declare_var` makes, and the arithmetic of doubles of the machine that compiles. -/
structure Context (ν : Type) where
  name : String
  newVar : ℕ → ν
  double : QuadrOp → BitVec 64 → BitVec 64 → BitVec 64

/-- What the generation of code changes: the nodes, their field `result`, how many variables have
been declared, and the errors. -/
structure Emission (ν β : Type) where
  pool : ℕ → Option (GraphNode ν β)
  result : ℕ → Option ν
  nextVar : ℕ
  errors : List String

/-- A list of quadruples and what is left. -/
abbrev Emitted (ν β : Type) := List (Quadr ν β) × Emission ν β

namespace Emission

/-- A write to the node at `a`. -/
def modify (e : Emission ν β) (a : ℕ) (f : GraphNode ν β → GraphNode ν β) : Emission ν β :=
  { e with pool := Function.update e.pool a ((e.pool a).map f) }

/-- `node->result = declare_var(…)`. -/
def declareResult (C : Context ν) (e : Emission ν β) (a : ℕ) : Emission ν β :=
  { e with
    result := Function.update e.result a (some (C.newVar e.nextVar))
    nextVar := e.nextVar + 1 }

/-- An error if `bad` holds. -/
def errorIf (e : Emission ν β) (bad : Bool) (msg : String) : Emission ν β :=
  if bad then { e with errors := e.errors ++ [msg] } else e

end Emission

/-- The roots of the part of the tree, put before `roots` (`find_roots`). -/
def findRoots (pool : ℕ → Option (GraphNode ν β)) :
    ColorTree (RbPair ℕ ℕ) → List ℕ → Option (List ℕ)
  | .nil, roots => some roots
  | .node _ left x right, roots => do
      let node ← pool x.rest
      let roots := if node.tag = .root then x.rest :: roots else roots
      let roots ← findRoots pool right roots
      findRoots pool left roots

/-- The quotient is too large for an `int`: the instruction that divides raises a signal. -/
def divTraps (val1 val2 : BitVec 32) : Bool := val1 = 0x80000000 ∧ val2 = 0xFFFFFFFF

/-- `DO_CONSTANT_OP` for integers: the value, and whether an error is reported.  Sums, differences
and products that are too large wrap around. -/
def foldInt (op : QuadrOp) (val1 val2 : BitVec 32) : Option (BitVec 32 × Bool) :=
  match op with
  | .add => some (val1 + val2, false)
  | .sub => some (val1 - val2, false)
  | .mul => some (val1 * val2, false)
  | .div =>
      if val2 = 0 then some (1, true)
      else if divTraps val1 val2 then none else some (val1.sdiv val2, false)
  | .mod =>
      if val2 = 0 then some (1, true)
      else if divTraps val1 val2 then none else some (val1.srem val2, false)
  | _ => none

/-- `DO_CONSTANT_OP` for doubles.  The remainder of doubles, which the source calls unreachable, is
left out. -/
def foldDouble (C : Context ν) (op : QuadrOp) (val1 val2 : BitVec 64) :
    Option (BitVec 64 × Bool) :=
  match op with
  | .add | .sub | .mul => some (C.double op val1 val2, false)
  | .div =>
      if doubleOrder val2 = 0 then some (0x3FF0000000000000, true)
      else some (C.double op val1 val2, false)
  | _ => none

/-- The operands of an operation, if they are constants of one type. -/
inductive Constants (ν β : Type)
  | int (val1 val2 : BitVec 32)
  | double (val1 val2 : BitVec 64)
  | no

/-- The test of `gencode_for_node` whether an operation can be carried out. -/
def constantsOf (left : GraphNode ν β) (right : Option (GraphNode ν β)) : Constants ν β :=
  match right with
  | none => .no
  | some right =>
      if left.tag = .leaf ∧ right.tag = .leaf then
        match left.u, right.u with
        | .inl (.int val1), .inl (.int val2) => .int val1 val2
        | .inl (.double val1), .inl (.double val2) => .double val1 val2
        | _, _ => .no
      else .no

/-- `gencode_for_leaf`. -/
def gencodeForLeaf (C : Context ν) (e : Emission ν β) (a : ℕ) : Option (Emitted ν β) := do
  let node ← e.pool a
  match node.u, e.result a with
  | .inl arg, none => return ([⟨.copy, .var (C.newVar e.nextVar), arg, .none⟩], e.declareResult C a)
  | _, _ => none

section Variables

variable [DecidableEq ν]

/-- `bad_var`: the variable whose leaf it is. -/
def isBadVar (node : GraphNode ν β) (v : ν) : Bool :=
  match node.u with
  | .inl (.var u) => u = v
  | _ => false

/-- `update_node_vars`. -/
def updateNodeVars (e : Emission ν β) (a : ℕ) : Option (Emitted ν β) := do
  let node ← e.pool a
  let result ← e.result a
  return ((node.varList.filter fun v => !isBadVar node v).map
      fun v => ⟨.copy, .var v, .var result, .none⟩,
    e.modify a fun n => { n with varList := [] })

/-- `right->result`, where there may be no right operand. -/
def rightResult (e : Emission ν β) (right : ℕ) : Option (Option ν) :=
  if right = NULL then some none else (e.result right).map some

/-- The right operand, if there is one. -/
def rightNode (e : Emission ν β) (right : ℕ) : Option (Option (GraphNode ν β)) :=
  if right = NULL then some none else (e.pool right).map some

/-- The operands as arguments of `new_quadr`. -/
def argOfVar : Option ν → QuadrArg ν β
  | some v => .var v
  | none => .none

/-- The node at `a` turns into a leaf for the constant. -/
def foldNode (e : Emission ν β) (a : ℕ) (arg : QuadrArg ν β) : Emission ν β :=
  e.modify a fun n => { n with tag := .leaf, u := .inl arg }

/-- The part of `gencode_for_node` for an operation after its operands. -/
def gencodeForOp (C : Context ν) (e : Emission ν β) (a : ℕ) (op : QuadrOp) (left right : ℕ) :
    Option (Emitted ν β) := do
  let var1 ← e.result left
  let var2 ← rightResult e right
  let leftNode ← e.pool left
  let rightNode ← rightNode e right
  let var0 := C.newVar e.nextVar
  let e := e.declareResult C a
  let msg := "division by zero in function " ++ C.name
  match constantsOf leftNode rightNode with
  | .int val1 val2 => do
      let (val, bad) ← foldInt op val1 val2
      return ([⟨.copy, .var var0, .int val, .none⟩], (foldNode e a (.int val)).errorIf bad msg)
  | .double val1 val2 => do
      let (val, bad) ← foldDouble C op val1 val2
      return ([⟨.copy, .var var0, .double val, .none⟩],
        (foldNode e a (.double val)).errorIf bad msg)
  | .no => return ([⟨op, .var var0, .var var1, argOfVar var2⟩], e)

/-- Two calls, one after the other. -/
def thenEmit (first : Option (Emitted ν β)) (second : Emission ν β → Option (Emitted ν β)) :
    Option (Emitted ν β) := do
  let (lst, e) ← first
  let (lst2, e) ← second e
  return (lst ++ lst2, e)

/-- `gencode_for_node`, to a depth of at most `fuel` nodes. -/
def gencodeForNode (C : Context ν) : ℕ → Emission ν β → ℕ → Option (Emitted ν β)
  | 0, _, _ => none
  | fuel + 1, e, a =>
      if (e.result a).isSome then some ([], e)
      else do
        let node ← e.pool a
        let code ← match node.tag, node.u with
          | .leaf, _ => gencodeForLeaf C e a
          | _, .inl _ => none
          | _, .inr op =>
              if node.left = NULL then none
              else
                thenEmit (gencodeForNode C fuel e node.left) fun e =>
                  thenEmit (if node.right = NULL then some ([], e)
                    else gencodeForNode C fuel e node.right) fun e =>
                      gencodeForOp C e a op node.left node.right
        thenEmit (some code) fun e => updateNodeVars e a

/-- A loop that generates code for nodes. -/
def emitAll (emit : Emission ν β → ℕ → Option (Emitted ν β)) (e : Emission ν β) :
    List ℕ → Option (Emitted ν β)
  | [] => some ([], e)
  | a :: nodes => thenEmit (emit e a) fun e => emitAll emit e nodes

/-- What changes while `optimize_local` runs: the graph, how many variables have been declared, and
the errors. -/
structure Optimizer (ν β : Type) where
  dag : Dag ν β
  nextVar : ℕ
  errors : List String

/-- After `reset_graph`. -/
def Optimizer.start (nextVar : ℕ) (errors : List String) : Optimizer ν β :=
  ⟨resetGraph, nextVar, errors⟩

/-- `gencode_from_graph`. -/
def gencodeFromGraph (C : Context ν) (s : Optimizer ν β) :
    Option (List (Quadr ν β) × Optimizer ν β) := do
  let g := s.dag
  let roots ← findRoots g.pool g.graph.tree []
  let node := gencodeForNode C g.nextId
  let (lst, e) ←
    thenEmit (emitAll (gencodeForLeaf C) ⟨g.pool, fun _ => none, s.nextVar, s.errors⟩ g.varLeaves)
      fun e => thenEmit (emitAll node e roots) fun e =>
        thenEmit (emitAll node e (g.intLeaves.map Prod.snd)) fun e =>
          thenEmit (emitAll node e (g.doubleLeaves.map Prod.snd)) fun e =>
            emitAll updateNodeVars e g.varLeaves
  return (lst, .start e.nextVar e.errors)

/-! ## The block -/

/-- The operators of the quadruples that are put into the graph. -/
def isNodeOp : QuadrOp → Bool
  | .add | .sub | .div | .mul | .mod | .copy => true
  | _ => false

/-- The turn of the loop of `optimize_local` for a quadruple that is put into the graph. -/
def readQuadr (w : ℕ) (s : Optimizer ν β) (q : Quadr ν β) (a : ℕ × ℕ × ℕ) :
    Option (Optimizer ν β) := do
  let ms ← optimizeQuadr w s.dag q a
  return { s with dag := ms.getLastD s.dag }

/-- The loop of `optimize_local`: the quadruples it leaves for the rest of the block. -/
def rebuildBlock (C : Context ν) (w : ℕ) :
    Optimizer ν β → List (Quadr ν β × ℕ × ℕ × ℕ) → Option (List (Quadr ν β) × Optimizer ν β)
  | s, [] => gencodeFromGraph C s
  | s, (q, a) :: block =>
      if isNodeOp q.op then do
        let s ← readQuadr w s q a
        rebuildBlock C w s block
      else do
        let (lst, s) ← gencodeFromGraph C s
        let (rest, s) ← rebuildBlock C w s block
        return (lst ++ q :: rest, s)

end Variables

end Javalette.Opt
