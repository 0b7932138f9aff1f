import Mathlib.Data.Nat.Notation

/-!
# Quadruples

The data of `quadr.h`.  A quadruple has an operator, a result and two arguments.  The model is
generic in what names a variable (`var_t*`) and what names a block (`basic_block_t*`), so that
a function whose jumps can only lead to its own blocks is a function over the type of those
blocks.  Doubles are their 64 bits; a function argument is its number in the table of functions.
-/

namespace Javalette

/-- `quadr_op_t`. -/
inductive QuadrOp
  | add | sub | div | mul | mod | copy
  | readPtr | writePtr | getAddr
  | ret | param | call
  | ifEq | ifNe | ifLt | ifGt | ifLe | ifGe
  | goto
  | none
  deriving DecidableEq, Repr

/-- `quadr_arg_t`: the tag with what the union holds for it. -/
inductive QuadrArg (ν β : Type)
  | none
  | var (v : ν)
  | int (i : BitVec 32)
  | double (d : BitVec 64)
  | label (b : β)
  | str (s : String)
  | func (f : ℕ)
  deriving DecidableEq, Repr

/-- `quadr_t`, less the link to the next quadruple of the list. -/
structure Quadr (ν β : Type) where
  op : QuadrOp
  result : QuadrArg ν β
  arg1 : QuadrArg ν β
  arg2 : QuadrArg ν β
  deriving DecidableEq, Repr

/-- `is_if_op`. -/
def isIfOp : QuadrOp → Bool
  | .ifEq | .ifNe | .ifLt | .ifGt | .ifLe | .ifGe => true
  | _ => false

section Variables

variable {ν β : Type} [DecidableEq ν]

/-- The argument is the variable `v`. -/
def QuadrArg.isVar (v : ν) : QuadrArg ν β → Bool
  | .var w => w = v
  | _ => false

@[simp] lemma QuadrArg.isVar_iff {v : ν} {a : QuadrArg ν β} : a.isVar v = true ↔ a = .var v := by
  cases a <;> simp [isVar]

/-- `used_in_quadr`. -/
def usedInQuadr (q : Quadr ν β) (v : ν) : Bool :=
  q.arg1.isVar v || q.arg2.isVar v || (q.op = .writePtr && q.result.isVar v)

/-- `assigned_in_quadr`. -/
def assignedInQuadr (q : Quadr ν β) (v : ν) : Bool :=
  q.op ≠ .writePtr && q.result.isVar v

end Variables

/-- `quadr_func_t` as the flow analysis sees it: `n` blocks in the order of the block list, the
first of them at index `0`, and jumps between them only. -/
structure QuadrFunc (ν : Type) (n : ℕ) where
  blocks : Fin n → List (Quadr ν (Fin n))

end Javalette
