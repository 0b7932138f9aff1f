import Javalette.Quadr.Generate

/-!
# Instructions and functions

The part of `do_semantic_check` that generates code, for a program in which the type checker finds
no error, and `gen_quadr`, which it calls for assignments, increments, decrements and returns.

Scopes are the bindings of identifiers to variables; the end of a block restores the bindings
from before it.
-/

namespace Javalette.Front

open SyntaxTree

/-- The identifier stands for the variable from now on (`declare` and `decl->u.var = var`). -/
def bindIdent (ident : String) (var : ℕ) : Gen Unit :=
  modify fun s => { s with decls := Function.update s.decls ident (some var) }

/-- `push_scope`, `body`, `pop_scope`. -/
def inScope {α : Type} (body : Gen α) : Gen α := do
  let s ← get
  let a ← body
  modify fun s' => { s' with decls := s.decls }
  return a

/-- A declarator of `NODE_DECLARATION`. -/
def genDeclarator (P : Platform) (type : Ty) : Declarator → Gen Unit
  | .var ident none => do
      let var ← declareVar type
      bindIdent ident var
  | .var ident (some init) => do
      let var0 ← declareVar type
      let value ← genQuadrExpr P init
      genCopy var0 value
      let var ← declareVar type
      bindIdent ident var
      genCopy var (.var var0)
  | .array ident arraySize => do
      let var ← declareVar (.array type arraySize)
      bindIdent ident var

/-- The loop over the declarators. -/
def genDeclarators (P : Platform) (type : Ty) : List Declarator → Gen Unit
  | [] => return ()
  | decl :: decls => do
      genDeclarator P type decl
      genDeclarators P type decls

/-- `NODE_ASSIGN` of `gen_quadr`. -/
def genAssign (P : Platform) (lvalue : Lvalue) (expr : Expr) : Gen Unit :=
  match lvalue with
  | .ident ident => do
      let var ← declOf ident
      let value ← genQuadrExpr P expr
      genCopy var value
  | .array ident index => do
      let value ← genQuadrExpr P expr
      let off ← genQuadrExpr P index
      let var ← declOf ident
      let ptr ← genGetAddr var
      genWritePtr ptr off value

/-- `NODE_INC` and `NODE_DEC` of `gen_quadr`.  For an element of an array the type of the element
is taken for an array type, whose `basic_type` it does not have. -/
def genIncDec (P : Platform) (op : QuadrOp) : Lvalue → Gen Unit
  | .ident ident => do
      let var ← declOf ident
      let type ← varType var
      let one ← if type = .double then quadrArg P .double (.double 0x3FF0000000000000)
        else quadrArg P .int (.int 1)
      genBinop op var (.var var) one
  | .array _ _ => throw .abort

/-- `NODE_RETURN` of `gen_quadr`. -/
def genReturn (P : Platform) (expr : Option Expr) : Gen Unit := do
  let arg1 ← match expr with
    | some expr => genQuadrExpr P expr
    | none => pure .none
  emit ⟨.ret, .none, arg1, .none⟩
  addNewBlock

/-- The condition of `NODE_IF` and `NODE_IF_ELSE`; the result is `if_false`. -/
def genBranch (P : Platform) (cond : Expr) : Gen ℕ := do
  let ifFalse ← newBasicBlock
  genQuadrBoolExpr P cond ifFalse false
  addNewBlock
  return ifFalse

/-- The step from `then_instr` to `else_instr` of `NODE_IF_ELSE`; the result is `if_end`. -/
def genElse (ifFalse : ℕ) : Gen ℕ := do
  let ifEnd ← newBasicBlock
  genGoto ifEnd
  addBasicBlocks ifFalse
  return ifEnd

/-- The start of a loop: a jump to its condition, and the first block of its body. -/
def genLoopHead : Gen (ℕ × ℕ) := do
  let cond ← newBasicBlock
  genGoto cond
  let body ← newBasicBlock
  addBasicBlocks body
  return (cond, body)

/-- The end of a loop: its condition, which jumps back to the body. -/
def genLoopTail (P : Platform) (cond : Expr) (condBlock bodyBlock : ℕ) : Gen Unit := do
  addBasicBlocks condBlock
  genQuadrBoolExpr P cond bodyBlock true
  addNewBlock

mutual

/-- `do_semantic_check` for an instruction; the result is `*was_return`. -/
def genInstr (P : Platform) : Instr → Gen Bool
  | .empty => return false
  | .expr expr => do
      let _ ← genQuadrExpr P expr
      return false
  | .block instrs => inScope (genInstrs P instrs)
  | .declaration type decls => do
      genDeclarators P type decls
      return false
  | .assign lvalue expr => do
      genAssign P lvalue expr
      return false
  | .inc lvalue => do
      genIncDec P .add lvalue
      return false
  | .dec lvalue => do
      genIncDec P .sub lvalue
      return false
  | .ifThen cond thenInstr => do
      let ifFalse ← genBranch P cond
      let _ ← genInstr P thenInstr
      addBasicBlocks ifFalse
      return false
  | .ifElse cond thenInstr elseInstr => do
      let ifFalse ← genBranch P cond
      let wr1 ← genInstr P thenInstr
      let ifEnd ← genElse ifFalse
      let wr2 ← genInstr P elseInstr
      addBasicBlocks ifEnd
      return wr1 && wr2
  | .whileDo cond body => do
      let (condBlock, bodyBlock) ← genLoopHead
      let _ ← genInstr P body
      genLoopTail P cond condBlock bodyBlock
      return false
  | .forDo instr1 cond instr3 body => do
      let _ ← genInstr P instr1
      let (condBlock, bodyBlock) ← genLoopHead
      let _ ← genInstr P body
      let _ ← genInstr P instr3
      genLoopTail P cond condBlock bodyBlock
      return false
  | .ret expr => do
      genReturn P expr
      return true

/-- The loop over the instructions of a block. -/
def genInstrs (P : Platform) : List Instr → Gen Bool
  | [] => return false
  | instr :: instrs => do
      let wr1 ← genInstr P instr
      let wr ← genInstrs P instrs
      return wr1 || wr

end

/-- The loop over the parameters of `NODE_FUNC`. -/
def genArgDecls : List (Ty × String) → Gen Unit
  | [] => return ()
  | (type, ident) :: args => do
      let var ← declareVar type
      bindIdent ident var
      genArgDecls args

/-- The body of `NODE_FUNC` after `start_function`.  A function that returns a value and can end
without one is an error that the type checker reports. -/
def genFunction (P : Platform) (node : FuncNode) : Gen Unit := do
  genArgDecls node.args
  let wr ← inScope (genInstrs P node.body)
  if wr then return ()
  else if node.returnType = .void then do
    addNewBlock
    emit ⟨.ret, .none, .none, .none⟩
  else throw .abort

end Javalette.Front
