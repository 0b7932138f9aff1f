import Mathlib.Data.Nat.Notation

/-!
# The syntax tree

The data of `tree.h` and `types.h`.  A node carries its type where the generation of code reads
it (`node->type`, filled by the type check).  Identifiers are symbols: which variable one stands
for depends on the declarations in force when the code is generated.
-/

namespace Javalette.SyntaxTree

/-- `type_t`, less the types of functions. -/
inductive Ty
  | void | int | double | str | boolean
  | array (basicType : Ty) (arraySize : ℕ)
  deriving DecidableEq, Repr

/-- `NODE_ADD` … `NODE_MOD`. -/
inductive Binop
  | add | sub | mul | div | mod
  deriving DecidableEq, Repr

/-- `NODE_EQ` … `NODE_LEQ`, the nodes with `CMP_OP_MASK`. -/
inductive CmpOp
  | eq | neq | gt | lt | geq | leq
  deriving DecidableEq, Repr

/-- `expr_t`. -/
inductive Expr
  | int (value : BitVec 32)
  | double (value : BitVec 64)
  | bool (value : Bool)
  | str (value : String)
  | ident (ident : String)
  | array (ident : String) (index : Expr)
  | binop (op : Binop) (type : Ty) (left right : Expr)
  | cmp (op : CmpOp) (left right : Expr)
  | and (left right : Expr)
  | or (left right : Expr)
  | neg (type : Ty) (arg : Expr)
  | plus (type : Ty) (arg : Expr)
  | not (arg : Expr)
  | call (type : Ty) (func : ℕ) (args : List Expr)

/-- `lvalue_t`. -/
inductive Lvalue
  | ident (ident : String)
  | array (ident : String) (index : Expr)

/-- `declarator_t`. -/
inductive Declarator
  | var (ident : String) (init : Option Expr)
  | array (ident : String) (arraySize : ℕ)

/-- `instr_t` and the nodes it can hold. -/
inductive Instr
  | empty
  | expr (expr : Expr)
  | block (instrs : List Instr)
  | declaration (type : Ty) (decls : List Declarator)
  | assign (lvalue : Lvalue) (expr : Expr)
  | inc (lvalue : Lvalue)
  | dec (lvalue : Lvalue)
  | ifThen (cond : Expr) (thenInstr : Instr)
  | ifElse (cond : Expr) (thenInstr elseInstr : Instr)
  | whileDo (cond : Expr) (body : Instr)
  | forDo (instr1 : Instr) (cond : Expr) (instr3 body : Instr)
  | ret (expr : Option Expr)

/-- `func_t`, less its name. -/
structure FuncNode where
  returnType : Ty
  args : List (Ty × String)
  body : List Instr

end Javalette.SyntaxTree
