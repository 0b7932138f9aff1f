import Javalette.Quadr.Syntax
import Javalette.RbTree.KeySet

/-!
# `flow.c`: liveness analysis

The module embeds `src/flow.c` and the traversal marks of `quadr.h`.  A function is a
`QuadrFunc`; its blocks are the numbers below `n` in the order of the block list.

The live sets are red-black trees, here `RbSet`s.  `compute_in_out` goes through a tree that may
be the one it inserts into, when a block is its own successor.  Its `node` is therefore not a
subtree but the key of a node, and each read through it (`node->left`, `node->right`,
`node->key`) looks at the tree as it is at that moment.

The mark of the current traversal is a `short`, that of a block an `unsigned short`, and
`visited` compares them as `int`s.

Recursions and loops take `fuel` and yield `none` when it runs out; a failing assertion and a
read through a null pointer yield `none` as well.
-/

namespace Javalette.Flow

open Rbtree

variable {ν : Type} [LinearOrder ν] {n : ℕ}

/-- `live_def` and `live_out`, whose elements are of type `var_key_t`. -/
abbrev KeySet (ν : Type) [LinearOrder ν] := RbSet ν Unit

/-- `live_in`, whose elements are of type `var_descr_t`: a variable with its
`nearest_use_dist`, an `unsigned`.  The locations stay null here. -/
abbrev DescrSet (ν : Type) [LinearOrder ν] := RbSet ν (BitVec 32)

/-- `flow_data_t`. -/
structure FlowData (ν : Type) [LinearOrder ν] where
  liveDef : KeySet ν
  liveIn : DescrSet ν
  liveOut : KeySet ν
  instrNum : ℕ

/-- Whether `rb_search` finds the key. -/
def found {δ : Type} (s : RbSet ν δ) (v : ν) : Bool :=
  match s.search v with
  | .nil => false
  | .node _ _ _ _ => true

/-- `rb_delete_vk` and `rb_delete_vd`. -/
def rbDeleteFound {δ : Type} (s : RbSet ν δ) (v : ν) : RbSet ν δ :=
  if found s v then s.delete v else s

/-! ## The sets of a block -/

/-- `update_live`: the variable is used at the distance `nud`. -/
def updateLive (use : DescrSet ν) (kill : KeySet ν) (v : ν) (nud : BitVec 32) :
    DescrSet ν × KeySet ν :=
  let kill := rbDeleteFound kill v
  if found use v then (use.modify v fun _ => nud, kill)
  else (use.insertIfAbsent ⟨v, nud⟩, kill)

/-- `update_live` for an argument, if it is a variable. -/
def updateLiveArg {β : Type} (a : QuadrArg ν β) (nud : BitVec 32) (s : DescrSet ν × KeySet ν) :
    DescrSet ν × KeySet ν :=
  match a with
  | .var v => updateLive s.1 s.2 v nud
  | _ => s

/-- The turn of the loop of `compute_live_def_use`, as far as it looks at the result. -/
def liveResult {β : Type} (q : Quadr ν β) (nud : BitVec 32) (s : DescrSet ν × KeySet ν) :
    DescrSet ν × KeySet ν :=
  match q.result with
  | .var v =>
      if assignedInQuadr q v then (rbDeleteFound s.1 v, s.2.insertIfAbsent ⟨v, ()⟩)
      else if usedInQuadr q v then updateLive s.1 s.2 v nud
      else s
  | _ => s

/-- The turn of the loop of `compute_live_def_use` for the quadruple number `i`. -/
def liveQuadr {β : Type} (q : Quadr ν β) (i : ℕ) (s : DescrSet ν × KeySet ν) :
    DescrSet ν × KeySet ν :=
  let nud := BitVec.ofNat 32 i
  updateLiveArg q.arg2 nud (updateLiveArg q.arg1 nud (liveResult q nud s))

/-- `compute_live_def_use`: the quadruples of a block, the last one first. -/
def computeLiveDefUse {β : Type} (qs : List (Quadr ν β)) : FlowData ν :=
  let s := qs.zipIdx.foldr (fun qi s => liveQuadr qi.1 qi.2 s) (RbSet.empty, RbSet.empty)
  ⟨s.2, s.1, RbSet.empty, qs.length⟩

/-! ## The block graph -/

/-- `block->next`. -/
def next (b : Fin n) : Option (Fin n) := if h : b.val + 1 < n then some ⟨b.val + 1, h⟩ else none

/-- `result.u.label`. -/
def labelOf {β : Type} : QuadrArg ν β → Option β
  | .label b => some b
  | _ => none

/-- `create_block_graph`: `child1` and `child2`. -/
def children (f : QuadrFunc ν n) (b : Fin n) : Option (Fin n) × Option (Fin n) :=
  match (f.blocks b).getLast? with
  | none => (next b, none)
  | some last =>
      match last.op with
      | .ret => (none, none)
      | .goto => (labelOf last.result, none)
      | .ifEq | .ifNe | .ifLt | .ifGt | .ifLe | .ifGe => (labelOf last.result, next b)
      | _ => (next b, none)

/-! ## The iteration -/

/-- What the analysis changes: the sets of the blocks, the traversal marks and the global
variables `cur_visited_mark` and `changed`. -/
structure FlowState (ν : Type) [LinearOrder ν] (n : ℕ) where
  flowData : Fin n → FlowData ν
  visitedMark : Fin n → BitVec 16
  curVisitedMark : BitVec 16
  changed : Bool

namespace FlowState

/-- `begin_traversal`, with `block_graph_zero_mark`. -/
def beginTraversal (s : FlowState ν n) : FlowState ν n :=
  if s.curVisitedMark + 1 = 0 then { s with visitedMark := fun _ => 0, curVisitedMark := 1 }
  else { s with curVisitedMark := s.curVisitedMark + 1 }

/-- `visited`: an `unsigned short` is compared with a `short`. -/
def visited (s : FlowState ν n) (b : Fin n) : Bool :=
  ((s.visitedMark b).toNat : ℤ) = s.curVisitedMark.toInt

/-- `visit`. -/
def visit (s : FlowState ν n) (b : Fin n) : FlowState ν n :=
  { s with visitedMark := Function.update s.visitedMark b s.curVisitedMark }

/-- A new value of the set `live_in` of a block. -/
def setIn (s : FlowState ν n) (b : Fin n) (t : DescrSet ν) : FlowState ν n :=
  { s with flowData := Function.update s.flowData b { s.flowData b with liveIn := t } }

/-- A new value of the set `live_out` of a block. -/
def setOut (s : FlowState ν n) (b : Fin n) (t : KeySet ν) : FlowState ν n :=
  { s with flowData := Function.update s.flowData b { s.flowData b with liveOut := t } }

end FlowState

/-- What `compute_in_out` reads through a pointer to a node. -/
structure NodeView (ν δ : Type) where
  key : RbPair ν δ
  left : Option ν
  right : Option ν

/-- The key at the root of a tree, if it is not empty. -/
def rootKey {δ : Type} : ColorTree (RbPair ν δ) → Option ν
  | .nil => none
  | .node _ _ x _ => some x.first

/-- The node with the given key, as it is in the tree at this moment. -/
def node? {δ : Type} (s : RbSet ν δ) (v : ν) : Option (NodeView ν δ) :=
  match s.search v with
  | .nil => none
  | .node _ l x r => some ⟨x, rootKey l, rootKey r⟩

/-- The first half of the body of the loop of `compute_in_out`: `nud` is the distance in the
element of the node `v` of `live_in` of the block `child`.  When `live_in` of `block` has the
variable already, it is the element of the *traversed* node that is updated. -/
def updateIn (s : FlowState ν n) (block child : Fin n) (v : ν) (nud : BitVec 32) :
    FlowState ν n :=
  let nud' := nud + BitVec.ofNat 32 (s.flowData block).instrNum
  if found (s.flowData block).liveDef v then s
  else if found (s.flowData block).liveIn v then
    s.setIn child ((s.flowData child).liveIn.modify v fun d => if d > nud' then nud' else d)
  else
    { s.setIn block ((s.flowData block).liveIn.insertIfAbsent ⟨v, nud'⟩) with changed := true }

/-- The body of the loop of `compute_in_out`, less the way on to the children. -/
def inOutNode (s : FlowState ν n) (block child : Fin n) (v : ν) (nud : BitVec 32) :
    FlowState ν n :=
  let s := updateIn s block child v nud
  s.setOut block ((s.flowData block).liveOut.insertIfAbsent ⟨v, ()⟩)

/-- `if (node->right != nil) compute_in_out(block, node->right, nil)`, where `go` is the
recursive call. -/
def descend (go : FlowState ν n → Option ν → Option (FlowState ν n)) (s : FlowState ν n) :
    Option ν → Option (FlowState ν n)
  | none => some s
  | some w => go s (some w)

/-- `compute_in_out`, with the node given by its key. -/
def computeInOut : ℕ → FlowState ν n → Fin n → Fin n → Option ν → Option (FlowState ν n)
  | 0, _, _, _, _ => none
  | _ + 1, s, _, _, none => some s
  | fuel + 1, s, block, child, some v => do
      let nd ← node? (s.flowData child).liveIn v
      let s := inOutNode s block child v nd.key.rest
      let nd ← node? (s.flowData child).liveIn v
      let s ← descend (fun s v => computeInOut fuel s block child v) s nd.right
      let nd ← node? (s.flowData child).liveIn v
      computeInOut fuel s block child nd.left

/-- `compute_in_out` for the whole `in` set of a successor, if there is one. -/
def childInOut (fuel : ℕ) (s : FlowState ν n) (block : Fin n) :
    Option (Fin n) → Option (FlowState ν n)
  | none => some s
  | some child =>
      computeInOut fuel s block child (rootKey (s.flowData child).liveIn.tree)

/-- `if (child != NULL && !visited(child)) do_liveness(child)`, where `go` is the recursive
call. -/
def enterChild (go : FlowState ν n → Fin n → Option (FlowState ν n)) (s : FlowState ν n) :
    Option (Fin n) → Option (FlowState ν n)
  | none => some s
  | some c => if s.visited c then some s else go s c

/-- `do_liveness`. -/
def doLiveness (f : QuadrFunc ν n) : ℕ → FlowState ν n → Fin n → Option (FlowState ν n)
  | 0, _, _ => none
  | fuel + 1, s, block => do
      let s := s.visit block
      let s ← enterChild (doLiveness f fuel) s (children f block).1
      let s ← enterChild (doLiveness f fuel) s (children f block).2
      let s ← childInOut fuel s block (children f block).1
      childInOut fuel s block (children f block).2

/-- The loop of `analyze_liveness`. -/
def livenessLoop (f : QuadrFunc ν n) (root : Fin n) : ℕ → FlowState ν n → Option (FlowState ν n)
  | 0, _ => none
  | fuel + 1, s => do
      if s.changed then
        let s ← doLiveness f fuel ({ s with changed := false }.beginTraversal) root
        livenessLoop f root fuel s
      else return s

/-! ## The results -/

/-- `rb_size`. -/
def rbSize {δ : Type} : ColorTree (RbPair ν δ) → ℕ
  | .nil => 0
  | .node _ l _ r => rbSize r + 1 + rbSize l

/-- `make_live_at_end`: the list is what has been written to the array, the next index is its
length. -/
def makeLiveAtEnd (lsize : ℕ) : ColorTree (RbPair ν Unit) → List ν → Option (List ν)
  | .nil, a => some a
  | .node _ l x r, a => do
      assert (a.length < lsize)
      let a := a ++ [x.first]
      match l, r with
      | .nil, r => makeLiveAtEnd lsize r a
      | l, .nil => makeLiveAtEnd lsize l a
      | l, r => do
          let a ← makeLiveAtEnd lsize l a
          makeLiveAtEnd lsize r a

/-- What the analysis leaves with a block: `vars_at_start` and the array `live_at_end`, of
length `lsize`. -/
structure BlockLiveness (ν : Type) [LinearOrder ν] where
  varsAtStart : DescrSet ν
  liveAtEnd : List ν

/-- `finish_liveness_computation`. -/
def finishLivenessComputation (fd : FlowData ν) : Option (BlockLiveness ν) := do
  let lsize := rbSize fd.liveOut.tree
  let a ← makeLiveAtEnd lsize fd.liveOut.tree []
  assert (a.length = lsize)
  return ⟨fd.liveIn, a⟩

/-- The state in which the loop of `analyze_liveness` starts, after `create_block_graph` has set
the root of the traversals; the marks of fresh blocks are zero. -/
def initialState (f : QuadrFunc ν n) : FlowState ν n :=
  ⟨fun b => computeLiveDefUse (f.blocks b), fun _ => 0, 0, true⟩

/-- The results for a list of blocks. -/
def finishAll (s : FlowState ν n) : List (Fin n) → Option (List (BlockLiveness ν))
  | [] => some []
  | b :: bs => do
      let r ← finishLivenessComputation (s.flowData b)
      let rs ← finishAll s bs
      return r :: rs

/-- `func->blocks`, of a function that has blocks. -/
def firstBlock : Fin (n + 1) := ⟨0, n.succ_pos⟩

/-- `analyze_liveness` on the block graph that `create_block_graph` has built; `analyze_flow`
calls it for functions with at least one block. -/
def analyzeLiveness (fuel : ℕ) (f : QuadrFunc ν (n + 1)) : Option (List (BlockLiveness ν)) := do
  let s ← livenessLoop f firstBlock fuel (initialState f)
  finishAll s (List.finRange (n + 1))

end Javalette.Flow
