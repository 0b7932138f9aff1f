import Mathlib.Logic.Function.Basic
import Javalette.Quadr.Syntax
import Javalette.Tree.Syntax

/-!
# `quadr.c`: quadruples for expressions

The module embeds the part of `quadr.c` that builds basic blocks and translates expressions.
Blocks live in a heap and are linked by `next`, as in the source.  A block is named by its `id`,
which `new_basic_block` never gives twice; `free_basic_block` takes the block off the heap, and
a pointer to a freed block is dangling: to follow it is the error `dangling`.  A call of
`xabort`, and a read of a field that the node or type at hand does not have, is the error
`abort`.

Variables of a function are numbered in the order of their declarations.  Constants travel
through the variable arguments of `quadr_arg`.  What `va_arg` yields for a type other than that
of the argument passed is undefined in C, so it is a parameter (`Platform`).
-/

namespace Javalette.Front

open SyntaxTree

/-- A quadruple whose variables and blocks are numbers. -/
abbrev Quad := Quadr ℕ ℕ

/-- An argument of a quadruple. -/
abbrev Arg := QuadrArg ℕ ℕ

/-- `var_type_t`, as far as `declare_var` and `gen_get_addr` set it. -/
inductive VarType
  | int | double | array | ptr
  deriving DecidableEq, Repr

/-- `var_t`, as far as the front end sets it. -/
structure VarDecl where
  type : Ty
  qtype : VarType
  deriving DecidableEq, Repr

/-- `basic_block_t`, as far as the front end reads it; `referenced` is `MARK_REFERENCED`. -/
structure BasicBlock where
  lst : List Quad
  next : Option ℕ
  referenced : Bool
  deriving DecidableEq, Repr

/-- The static variables of `quadr.c`, the variables of the current function and the
declarations in force (`sym->decl->u.var`). -/
structure GenState where
  heap : ℕ → Option BasicBlock
  blocks : ℕ
  prevBlock : Option ℕ
  curBlock : ℕ
  nextBlockId : ℕ
  vars : List VarDecl
  decls : String → Option ℕ

/-- How the generation of code can fail. -/
inductive GenError
  | abort | dangling | diverges
  deriving DecidableEq, Repr

/-- A computation on the state of the front end. -/
abbrev Gen := StateT GenState (Except GenError)

/-- What `va_arg` reads where an argument of the other type was passed. -/
structure Platform where
  intOfDouble : BitVec 64 → BitVec 32
  doubleOfInt : BitVec 32 → BitVec 64

/-- A variable argument as the caller passes it. -/
inductive VarArg
  | int (i : BitVec 32)
  | double (d : BitVec 64)

/-- `va_arg(ap, int)`. -/
def Platform.readInt (p : Platform) : VarArg → BitVec 32
  | .int i => i
  | .double d => p.intOfDouble d

/-- `va_arg(ap, double)`. -/
def Platform.readDouble (p : Platform) : VarArg → BitVec 64
  | .int i => p.doubleOfInt i
  | .double d => d

/-! ## Basic blocks -/

/-- `*block`. -/
def getBlock (block : ℕ) : Gen BasicBlock := fun s =>
  match s.heap block with
  | some b => .ok (b, s)
  | none => .error .dangling

/-- `*block = b`. -/
def setBlock (block : ℕ) (b : BasicBlock) : Gen Unit := fun s =>
  .ok ((), { s with heap := Function.update s.heap block (some b) })

/-- `new_basic_block`. -/
def newBasicBlock : Gen ℕ := fun s =>
  .ok (s.nextBlockId, { s with
    heap := Function.update s.heap s.nextBlockId (some ⟨[], none, false⟩)
    nextBlockId := s.nextBlockId + 1 })

/-- `free_basic_block`. -/
def freeBasicBlock (block : ℕ) : Gen Unit := fun s =>
  .ok ((), { s with heap := Function.update s.heap block none })

/-- `set_mark(block->mark, MARK_REFERENCED)`. -/
def markReferenced (block : ℕ) : Gen Unit := do
  let b ← getBlock block
  setBlock block { b with referenced := true }

/-- `x->next = y`. -/
def setNext (x : ℕ) (y : Option ℕ) : Gen Unit := do
  let b ← getBlock x
  setBlock x { b with next := y }

/-- The empty block that `quadr_arg_label` puts behind a label it has given out before. -/
def splitLabel (label : ℕ) : Gen ℕ := do
  let block ← newBasicBlock
  let l ← getBlock label
  setNext block l.next
  setNext label (some block)
  return block

/-- `quadr_arg_label`. -/
def quadrArgLabel (label : ℕ) : Gen Arg := do
  let l ← getBlock label
  if l.lst = [] then
    if l.referenced then
      let block ← splitLabel label
      markReferenced block
      return .label block
    else
      markReferenced label
      return .label label
  else
    return .label label

/-- `is_block_end`. -/
def isBlockEnd : QuadrOp → Bool
  | .param | .add | .sub | .div | .mul | .mod | .copy | .call | .readPtr | .writePtr | .getAddr =>
      false
  | _ => true

/-- `add_quadr`, less its assertion that the block does not end in a jump or a return yet. -/
def addQuadr (block : ℕ) (quadr : Quad) : Gen Unit := do
  let b ← getBlock block
  setBlock block { b with lst := b.lst ++ [quadr] }

/-- `add_quadr(cur_block, quadr)`. -/
def emit (quadr : Quad) : Gen Unit := do
  let s ← get
  addQuadr s.curBlock quadr

/-- Whether the last quadruple of a list is a conditional jump. -/
def endsInIf (lst : List Quad) : Bool :=
  match lst.getLast? with
  | some q => isIfOp q.op
  | none => false

/-- The dummy block of `add_basic_blocks`. -/
def addDummy (blocks : ℕ) : Gen ℕ := do
  let dummy ← newBasicBlock
  setNext dummy (some blocks)
  markReferenced dummy
  return dummy

/-- What `add_basic_blocks` does with the current block: it stays in the list, or it is freed
when it is empty, not referenced and not the first one. -/
def linkBlocks (blocks : ℕ) : Gen Unit := do
  let s ← get
  let cur ← getBlock s.curBlock
  match s.prevBlock with
  | none =>
      setNext s.curBlock (some blocks)
      modify fun s => { s with prevBlock := some s.curBlock }
  | some prev =>
      if cur.lst ≠ [] ∨ cur.referenced then
        setNext s.curBlock (some blocks)
        modify fun s => { s with prevBlock := some s.curBlock }
      else
        freeBasicBlock s.curBlock
        setNext prev (some blocks)

/-- The loop of `add_basic_blocks`: the last of the blocks becomes the current one. -/
def advanceBlocks : ℕ → ℕ → Gen Unit
  | 0, _ => throw .diverges
  | fuel + 1, blocks => do
    let b ← getBlock blocks
    match b.next with
    | none => modify fun s => { s with curBlock := blocks }
    | some next =>
        modify fun s => { s with prevBlock := some blocks }
        advanceBlocks fuel next

/-- `add_basic_blocks`, once the dummy block is there if it has to be. -/
def appendBlocks (blocks : ℕ) : Gen Unit := do
  linkBlocks blocks
  let s ← get
  advanceBlocks s.nextBlockId blocks

/-- `add_basic_blocks`. -/
def addBasicBlocks (blocks : ℕ) : Gen Unit := do
  let s ← get
  let cur ← getBlock s.curBlock
  if endsInIf cur.lst then
    let dummy ← addDummy blocks
    appendBlocks dummy
  else
    appendBlocks blocks

/-- `add_basic_blocks(new_basic_block())`. -/
def addNewBlock : Gen Unit := do
  let block ← newBasicBlock
  addBasicBlocks block

/-! ## Variables and arguments -/

/-- The `qtype` that `declare_var` gives a variable of the type. -/
def qtypeOf : Ty → Option VarType
  | .boolean => some .int
  | .int => some .int
  | .double => some .double
  | .array _ _ => some .array
  | .void => none
  | .str => none

/-- The entry of a new variable in the table. -/
def newVarDecl (d : VarDecl) : Gen ℕ := fun s =>
  .ok (s.vars.length, { s with vars := s.vars ++ [d] })

/-- `declare_var(cur_func, type)`, which is also `new_var`. -/
def declareVar (type : Ty) : Gen ℕ :=
  match qtypeOf type with
  | some q => newVarDecl ⟨type, q⟩
  | none => throw .abort

/-- `ident->decl->u.var`. -/
def declOf (ident : String) : Gen ℕ := fun s =>
  match s.decls ident with
  | some v => .ok (v, s)
  | none => .error .abort

/-- `var->type`. -/
def varType (var : ℕ) : Gen Ty := fun s =>
  match s.vars[var]? with
  | some d => .ok (d.type, s)
  | none => .error .abort

/-- `((array_type_t*) var->type)->basic_type`. -/
def basicTypeOf (var : ℕ) : Gen Ty := do
  let type ← varType var
  match type with
  | .array basicType _ => return basicType
  | _ => throw .abort

/-- `gen_copy`. -/
def genCopy (var : ℕ) (arg : Arg) : Gen Unit :=
  emit ⟨.copy, .var var, arg, .none⟩

/-- `gen_binop`. -/
def genBinop (op : QuadrOp) (result : ℕ) (arg1 arg2 : Arg) : Gen Unit :=
  emit ⟨op, .var result, arg1, arg2⟩

/-- `gen_get_addr`. -/
def genGetAddr (var : ℕ) : Gen ℕ := do
  let type ← varType var
  let ptr ← newVarDecl ⟨type, .ptr⟩
  emit ⟨.getAddr, .var ptr, .var var, .none⟩
  return ptr

/-- `gen_read_ptr`. -/
def genReadPtr (result base : ℕ) (offset : Arg) : Gen Unit :=
  emit ⟨.readPtr, .var result, .var base, offset⟩

/-- `gen_write_ptr`. -/
def genWritePtr (base : ℕ) (offset value : Arg) : Gen Unit :=
  emit ⟨.writePtr, .var base, offset, value⟩

/-- `gen_goto`. -/
def genGoto (toBlock : ℕ) : Gen Unit := do
  let label ← quadrArgLabel toBlock
  emit ⟨.goto, label, .none, .none⟩
  addNewBlock

/-- `quadr_if_op`. -/
def quadrIfOp (op : CmpOp) (jmpIfTrue : Bool) : QuadrOp :=
  match op, jmpIfTrue with
  | .eq, true => .ifEq
  | .eq, false => .ifNe
  | .neq, true => .ifNe
  | .neq, false => .ifEq
  | .gt, true => .ifGt
  | .gt, false => .ifLe
  | .lt, true => .ifLt
  | .lt, false => .ifGe
  | .geq, true => .ifGe
  | .geq, false => .ifLt
  | .leq, true => .ifLe
  | .leq, false => .ifGt

/-- The operator of the quadruple for a binary node. -/
def quadrBinop : Binop → QuadrOp
  | .add => .add
  | .sub => .sub
  | .mul => .mul
  | .div => .div
  | .mod => .mod

/-- `quadr_arg0`. -/
def quadrArg0 (P : Platform) (type : Ty) (value : VarArg) : Gen Arg :=
  match type with
  | .int => return .int (P.readInt value)
  | .double => return .double (P.readDouble value)
  | .boolean => return .int (P.readInt value)
  | _ => throw .abort

/-- The argument that `quadr_arg` reads and passes on to `quadr_arg0`. -/
def passOn (P : Platform) (type : Ty) (value : VarArg) : VarArg :=
  match type with
  | .double => .double (P.readDouble value)
  | _ => .int (P.readInt value)

/-- `quadr_arg`: a new variable that holds the constant. -/
def quadrArg (P : Platform) (type : Ty) (value : VarArg) : Gen Arg := do
  let var ← declareVar type
  let arg ← quadrArg0 P type (passOn P type value)
  genCopy var arg
  return .var var

/-! ## Expressions -/

/-- The `int` in which a truth value is kept. -/
def boolInt (b : Bool) : BitVec 32 := if b then 1 else 0

/-- Whether `gen_quadr_expr` takes its boolean case: `node->type == type_boolean`, and the node
is neither an identifier nor an element of an array. -/
def isJumping : Expr → Bool
  | .int _ | .double _ | .str _ | .ident _ | .array _ _ => false
  | .bool _ | .cmp _ _ _ | .and _ _ | .or _ _ | .not _ => true
  | .binop _ type _ _ | .neg type _ | .plus type _ | .call type _ _ => type = .boolean

/-- The end of the boolean case of `gen_quadr_expr`, after the jump to `if_true`. -/
def genTruthValue (P : Platform) (var ifTrue : ℕ) : Gen Arg := do
  addNewBlock
  let last ← newBasicBlock
  let no ← quadrArg0 P .boolean (.int (boolInt false))
  genCopy var no
  genGoto last
  addBasicBlocks ifTrue
  let yes ← quadrArg0 P .boolean (.int (boolInt true))
  genCopy var yes
  addBasicBlocks last
  return .var var

/-- The loops of `gen_call` that declare the parameters, the last one first. -/
def genParams : List Arg → Gen Unit
  | [] => return ()
  | arg :: args => do
    genParams args
    emit ⟨.param, .none, arg, .none⟩

/-- The end of `gen_call`, with all arguments computed. -/
def genCallQuadr (type : Ty) (func : ℕ) (args : List Arg) : Gen Arg := do
  genParams args
  match type with
  | .void =>
      emit ⟨.call, .none, .func func, .none⟩
      return .none
  | _ =>
      let result ← declareVar type
      emit ⟨.call, .var result, .func func, .none⟩
      return .var result

/-- The end of `gen_quadr_bool_expr` for an identifier or a call: the jump on `value /= 0`. -/
def genBoolTest (P : Platform) (label value : Arg) (jmpIfTrue : Bool) : Gen Unit := do
  let zero ← quadrArg P .boolean (.int 0)
  emit ⟨quadrIfOp .neq jmpIfTrue, label, value, zero⟩
  addNewBlock

mutual

/-- `gen_quadr_expr`. -/
def genQuadrExpr (P : Platform) (node : Expr) : Gen Arg :=
  if isJumping node then do
    let var ← declareVar .boolean
    let ifTrue ← newBasicBlock
    genQuadrBoolExpr P node ifTrue true
    genTruthValue P var ifTrue
  else
    match node with
    | .int value => quadrArg P .int (.int value)
    | .double value => quadrArg P .double (.double value)
    | .str value => return .str value
    | .ident ident => do
        let var ← declOf ident
        return .var var
    | .array ident index => do
        let base ← declOf ident
        let type ← basicTypeOf base
        let result ← declareVar type
        let offset ← genQuadrExpr P index
        let ptr ← genGetAddr base
        genReadPtr result ptr offset
        return .var result
    | .binop op type left right => do
        let result ← declareVar type
        let arg1 ← genQuadrExpr P left
        let arg2 ← genQuadrExpr P right
        emit ⟨quadrBinop op, .var result, arg1, arg2⟩
        return .var result
    | .neg type arg => do
        let result ← declareVar type
        -- `type == type_double ? 0.0 : 0` is a double in both cases
        let zero ← quadrArg P type (.double 0)
        let arg2 ← genQuadrExpr P arg
        emit ⟨.sub, .var result, zero, arg2⟩
        return .var result
    | .plus _ arg => genQuadrExpr P arg
    | .call type func args => do
        let args ← genArgs P args
        genCallQuadr type func args
    | _ => throw .abort
termination_by 2 * sizeOf node + 1

/-- `gen_quadr_bool_expr`. -/
def genQuadrBoolExpr (P : Platform) (node : Expr) (jmpDest : ℕ) (jmpIfTrue : Bool) : Gen Unit :=
  match node with
  | .cmp op left right => do
      let label ← quadrArgLabel jmpDest
      let arg1 ← genQuadrExpr P left
      let arg2 ← genQuadrExpr P right
      emit ⟨quadrIfOp op jmpIfTrue, label, arg1, arg2⟩
      addNewBlock
  | .and left right =>
      if jmpIfTrue then do
        let last ← newBasicBlock
        genQuadrBoolExpr P left last false
        genQuadrBoolExpr P right last false
        genGoto jmpDest
        addBasicBlocks last
      else do
        genQuadrBoolExpr P left jmpDest false
        genQuadrBoolExpr P right jmpDest false
  | .or left right =>
      if jmpIfTrue then do
        genQuadrBoolExpr P left jmpDest true
        genQuadrBoolExpr P right jmpDest true
      else do
        let last ← newBasicBlock
        genQuadrBoolExpr P left last true
        genQuadrBoolExpr P right last true
        genGoto jmpDest
        addBasicBlocks last
  | .not arg => genQuadrBoolExpr P arg jmpDest (!jmpIfTrue)
  | .bool value => if value = jmpIfTrue then genGoto jmpDest else return ()
  | .ident ident => do
      let var ← declOf ident
      let label ← quadrArgLabel jmpDest
      genBoolTest P label (.var var) jmpIfTrue
  | .call type func args => do
      let label ← quadrArgLabel jmpDest
      let args ← genArgs P args
      let value ← genCallQuadr type func args
      genBoolTest P label value jmpIfTrue
  | _ => throw .abort
termination_by 2 * sizeOf node

/-- The loop of `gen_call` that computes the arguments. -/
def genArgs (P : Platform) : List Expr → Gen (List Arg)
  | [] => return []
  | arg :: rest => do
    let arg ← genQuadrExpr P arg
    let rest ← genArgs P rest
    return arg :: rest
termination_by args => 2 * sizeOf args

end

/-- `start_function`; `id` is the number of the first block. -/
def startFunction (id : ℕ) : GenState where
  heap := Function.update (fun _ => none) id (some ⟨[], none, false⟩)
  blocks := id
  prevBlock := none
  curBlock := id
  nextBlockId := id + 1
  vars := []
  decls := fun _ => none

end Javalette.Front
