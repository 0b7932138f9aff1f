import Mathlib.Data.Int.Notation
import Javalette.Quadr.Syntax
import Javalette.Tree.Syntax

/-!
# The meaning of expressions

A direct semantics of the expressions of the source language: operands are evaluated from left
to right, and the right operand of `&&` and `||` only if the left one does not decide.  It is
the statement of purpose that the translation into quadruples is compared with.

The meaning of what is not part of an expression is a parameter (`Meaning`): the arithmetic, the
comparisons and the negation of doubles, and what a call returns, which may depend on all the
calls before it.  The six comparisons are independent of each other, since none of `<`, `>`, `<=`
and `>=` holds of a double that is not a number.  A boolean is kept as an integer, `0` or `1`.
-/

namespace Javalette.Front

open SyntaxTree

/-- The value of a variable or of an expression; `ptr` is the address of an array variable, and
`void` is what a function without a result yields. -/
inductive Value
  | int (i : BitVec 32)
  | double (d : BitVec 64)
  | str (s : String)
  | ptr (array : ℕ)
  | void
  deriving DecidableEq, Repr

/-- A call that has been made: the function, its arguments in the order of the parameters, and
the result. -/
structure Call where
  func : ℕ
  args : List Value
  result : Value
  deriving DecidableEq, Repr

/-- The meaning of doubles and calls.  A comparison or a negation may have no result, and a call
may fail to return; `call` is given the calls made before. -/
structure Meaning where
  double : Binop → BitVec 64 → BitVec 64 → BitVec 64
  doubleTest : CmpOp → BitVec 64 → BitVec 64 → Option Bool
  doubleNeg : BitVec 64 → Option (BitVec 64)
  call : List Call → ℕ → List Value → Option Value

/-- What an expression can read: the variable of each identifier, the values of the variables
and the elements of the arrays. -/
structure Reading where
  decls : String → Option ℕ
  env : ℕ → Value
  mem : ℕ → BitVec 32 → Option Value

variable (M : Meaning)

/-- Integer arithmetic; division by zero has no value. -/
def intOp (op : Binop) (a b : BitVec 32) : Option (BitVec 32) :=
  match op with
  | .add => some (a + b)
  | .sub => some (a - b)
  | .mul => some (a * b)
  | .div => if b = 0 then none else some (a.sdiv b)
  | .mod => if b = 0 then none else some (a.srem b)

/-- The value of a binary operation; there is no remainder of doubles. -/
def binValue (op : Binop) (a b : Value) : Option Value :=
  match a, b with
  | .int a, .int b => (intOp op a b).map Value.int
  | .double a, .double b => if op = .mod then none else some (.double (M.double op a b))
  | _, _ => none

/-- Whether a comparison holds. -/
def testValue (op : CmpOp) (a b : Value) : Option Bool :=
  match a, b with
  | .int a, .int b => some (match op with
      | .eq => a == b
      | .neq => a != b
      | .gt => b.slt a
      | .lt => a.slt b
      | .geq => b.sle a
      | .leq => a.sle b)
  | .double a, .double b => M.doubleTest op a b
  | _, _ => none

/-- The value of unary minus at a type. -/
def negValue (type : Ty) (a : Value) : Option Value :=
  match type, a with
  | .int, .int a => some (.int (-a))
  | .double, .double a => (M.doubleNeg a).map Value.double
  | _, _ => none

/-- The truth value that a value stands for. -/
def truth : Value → Option Bool
  | .int i => some (!(i == 0))
  | _ => none

/-- A truth value as a value. -/
def boolValue (b : Bool) : Value := .int (if b then 1 else 0)

/-- The value of a call: a truth value if the call is boolean, and `void` if it has no result. -/
def callValue (type : Ty) (v : Value) : Option Value :=
  match type with
  | .boolean => (truth v).map boolValue
  | .void => some .void
  | _ => some v

/-- The element of an array. -/
def element (R : Reading) (ident : String) (index : Value) : Option Value :=
  match R.decls ident, index with
  | some array, .int i => R.mem array i
  | _, _ => none

mutual

/-- The value of an expression and the calls made by then. -/
def evalExpr (R : Reading) : Expr → List Call → Option (Value × List Call)
  | .int value, tr => some (.int value, tr)
  | .double value, tr => some (.double value, tr)
  | .bool value, tr => some (boolValue value, tr)
  | .str value, tr => some (.str value, tr)
  | .ident ident, tr => (R.decls ident).map fun v => (R.env v, tr)
  | .array ident index, tr => do
      let (i, tr) ← evalExpr R index tr
      let v ← element R ident i
      return (v, tr)
  | .binop op _ left right, tr => do
      let (a, tr) ← evalExpr R left tr
      let (b, tr) ← evalExpr R right tr
      let v ← binValue M op a b
      return (v, tr)
  | .cmp op left right, tr => do
      let (a, tr) ← evalExpr R left tr
      let (b, tr) ← evalExpr R right tr
      let t ← testValue M op a b
      return (boolValue t, tr)
  | .and left right, tr => do
      let (a, tr) ← evalExpr R left tr
      let b ← truth a
      if b then do
        let (c, tr) ← evalExpr R right tr
        let d ← truth c
        return (boolValue d, tr)
      else return (boolValue false, tr)
  | .or left right, tr => do
      let (a, tr) ← evalExpr R left tr
      let b ← truth a
      if b then return (boolValue true, tr)
      else do
        let (c, tr) ← evalExpr R right tr
        let d ← truth c
        return (boolValue d, tr)
  | .neg type arg, tr => do
      let (a, tr) ← evalExpr R arg tr
      let v ← negValue M type a
      return (v, tr)
  | .plus _ arg, tr => evalExpr R arg tr
  | .not arg, tr => do
      let (a, tr) ← evalExpr R arg tr
      let b ← truth a
      return (boolValue (!b), tr)
  | .call type func args, tr => do
      let (vs, tr) ← evalArgs R args tr
      let v ← M.call tr func vs
      let w ← callValue type v
      return (w, tr ++ [⟨func, vs, v⟩])

/-- The values of the arguments of a call. -/
def evalArgs (R : Reading) : List Expr → List Call → Option (List Value × List Call)
  | [], tr => some ([], tr)
  | arg :: args, tr => do
      let (v, tr) ← evalExpr R arg tr
      let (vs, tr) ← evalArgs R args tr
      return (v :: vs, tr)

end

/-- The truth value of a boolean expression and the calls made by then. -/
def evalBool (R : Reading) (e : Expr) (tr : List Call) : Option (Bool × List Call) := do
  let (a, tr) ← evalExpr M R e tr
  let b ← truth a
  return (b, tr)

/-- The values of two operands, the left one first. -/
def evalPair (R : Reading) (left right : Expr) (tr : List Call) :
    Option ((Value × Value) × List Call) := do
  let (a, tr) ← evalExpr M R left tr
  let (b, tr) ← evalExpr M R right tr
  return ((a, b), tr)

/-- The result of a call, which is made after its arguments have been computed. -/
def evalCall (R : Reading) (func : ℕ) (args : List Expr) (tr : List Call) :
    Option (Value × List Call) := do
  let (vs, tr) ← evalArgs M R args tr
  let v ← M.call tr func vs
  return (v, tr ++ [⟨func, vs, v⟩])

/-! ## The value of each kind of node -/

section Nodes

variable {M : Meaning} {R : Reading} {tr tr' : List Call} {v : Value} {t : Bool}

attribute [local simp] evalExpr evalArgs

@[simp] lemma truth_boolValue (b : Bool) : truth (boolValue b) = some b := by
  cases b <;> rfl

lemma element_eq_some {x : String} {a : ℕ} {i : Value} (hx : R.decls x = some a) :
    element R x i = some v ↔ ∃ k, i = .int k ∧ R.mem a k = some v := by
  cases i <;> simp [element, hx]

lemma evalExpr_binop (op : Binop) (ty : Ty) (l r : Expr) :
    evalExpr M R (.binop op ty l r) tr =
      (evalPair M R l r tr).bind fun p => (binValue M op p.1.1 p.1.2).map (·, p.2) := by
  simp only [evalExpr, evalPair, Option.bind_assoc, Option.map_eq_bind, Function.comp_def,
    Option.bind_eq_bind, Option.pure_def, Option.bind_some]

lemma evalExpr_array (x : String) (i : Expr) :
    evalExpr M R (.array x i) tr =
      (evalExpr M R i tr).bind fun p => (element R x p.1).map (·, p.2) := by
  simp only [evalExpr, Option.map_eq_bind, Function.comp_def, Option.bind_eq_bind,
    Option.pure_def]

lemma evalExpr_call (ty : Ty) (f : ℕ) (es : List Expr) :
    evalExpr M R (.call ty f es) tr =
      (evalCall M R f es tr).bind fun p => (callValue ty p.1).map (·, p.2) := by
  simp only [evalExpr, evalCall, Option.bind_assoc, Option.map_eq_bind, Function.comp_def,
    Option.bind_eq_bind, Option.pure_def, Option.bind_some]

lemma evalArgs_cons (e : Expr) (es : List Expr) :
    evalArgs M R (e :: es) tr =
      (evalExpr M R e tr).bind fun p => (evalArgs M R es p.2).map fun q => (p.1 :: q.1, q.2) := by
  simp only [evalArgs, Option.map_eq_bind, Function.comp_def, Option.bind_eq_bind,
    Option.pure_def]

lemma evalBool_cmp (op : CmpOp) (l r : Expr) :
    evalBool M R (.cmp op l r) tr =
      (evalPair M R l r tr).bind fun p => (testValue M op p.1.1 p.1.2).map (·, p.2) := by
  simp only [evalBool, evalExpr, evalPair, Option.bind_assoc, Option.map_eq_bind, Function.comp_def,
    Option.bind_eq_bind, Option.pure_def, Option.bind_some, truth_boolValue]

lemma evalBool_not (e : Expr) :
    evalBool M R (.not e) tr = (evalBool M R e tr).map fun p => (!p.1, p.2) := by
  simp only [evalBool, evalExpr, Option.bind_assoc, Option.map_eq_bind, Function.comp_def,
    Option.bind_eq_bind, Option.pure_def, Option.bind_some, truth_boolValue]

lemma evalBool_bool (b : Bool) : evalBool M R (.bool b) tr = some (b, tr) := by
  simp [evalBool]

lemma evalBool_ident (x : String) :
    evalBool M R (.ident x) tr =
      (R.decls x).bind fun u => (truth (R.env u)).map (·, tr) := by
  simp only [evalBool, evalExpr, Option.map_eq_bind, Option.bind_assoc, Function.comp_def,
    Option.bind_eq_bind, Option.pure_def, Option.bind_some]

/-- The right operand is evaluated only if the left one holds. -/
lemma evalBool_and (l r : Expr) :
    evalBool M R (.and l r) tr =
      (evalBool M R l tr).bind fun p =>
        if p.1 = false then some (false, p.2) else evalBool M R r p.2 := by
  simp only [evalBool, evalExpr, Option.bind_eq_bind, Option.bind_assoc, Option.pure_def,
    Option.bind_some]
  refine congrArg (Option.bind _) (funext fun p => congrArg (Option.bind _) (funext fun b => ?_))
  cases b <;> simp [Option.bind_assoc]

/-- The right operand is evaluated only if the left one does not hold. -/
lemma evalBool_or (l r : Expr) :
    evalBool M R (.or l r) tr =
      (evalBool M R l tr).bind fun p =>
        if p.1 = true then some (true, p.2) else evalBool M R r p.2 := by
  simp only [evalBool, evalExpr, Option.bind_eq_bind, Option.bind_assoc, Option.pure_def,
    Option.bind_some]
  refine congrArg (Option.bind _) (funext fun p => congrArg (Option.bind _) (funext fun b => ?_))
  cases b <;> simp [Option.bind_assoc]

lemma evalBool_call (ty : Ty) (f : ℕ) (es : List Expr) :
    evalBool M R (.call ty f es) tr =
      (evalCall M R f es tr).bind fun p =>
        ((callValue ty p.1).bind truth).map (·, p.2) := by
  simp only [evalBool, evalExpr, evalCall, Option.bind_assoc, Option.map_eq_bind, Function.comp_def,
    Option.bind_eq_bind, Option.pure_def, Option.bind_some]

end Nodes

/-! ## Well-typed expressions -/

/-- The types of the identifiers and the parameters and results of the functions. -/
structure Types where
  ident : String → Option Ty
  func : ℕ → Option (List Ty × Ty)

/-- The types of values that variables can hold. -/
def Scalar (t : Ty) : Prop := t = .int ∨ t = .double ∨ t = .boolean

/-- The types of the operands of a comparison. -/
def comparable (op : CmpOp) (t : Ty) : Prop :=
  match op with
  | .eq | .neq => Scalar t
  | .gt | .lt | .geq | .leq => t = .int ∨ t = .double

mutual

/-- `do_type_check` accepts the expression at the type, and its operands are scalars. -/
def WellTyped (T : Types) : Expr → Ty → Prop
  | .int _, t => t = .int
  | .double _, t => t = .double
  | .bool _, t => t = .boolean
  | .str _, _ => False
  | .ident ident, t => T.ident ident = some t ∧ Scalar t
  | .array ident index, t =>
      (∃ n, T.ident ident = some (.array t n)) ∧ Scalar t ∧ WellTyped T index .int
  | .binop op type left right, t =>
      t = type ∧ (type = .int ∨ (type = .double ∧ op ≠ .mod)) ∧
        WellTyped T left type ∧ WellTyped T right type
  | .cmp op left right, t =>
      t = .boolean ∧ ∃ u, comparable op u ∧ WellTyped T left u ∧ WellTyped T right u
  | .and left right, t => t = .boolean ∧ WellTyped T left .boolean ∧ WellTyped T right .boolean
  | .or left right, t => t = .boolean ∧ WellTyped T left .boolean ∧ WellTyped T right .boolean
  | .neg type arg, t => t = type ∧ (type = .int ∨ type = .double) ∧ WellTyped T arg type
  | .plus type arg, t => t = type ∧ (type = .int ∨ type = .double) ∧ WellTyped T arg type
  | .not arg, t => t = .boolean ∧ WellTyped T arg .boolean
  | .call type func args, t => t = type ∧ Scalar type ∧
      ∃ params, T.func func = some (params, type) ∧ ArgsTyped T args params

/-- The arguments of a call have the types of the parameters. -/
def ArgsTyped (T : Types) : List Expr → List Ty → Prop
  | [], params => params = []
  | arg :: args, params =>
      ∃ t rest, params = t :: rest ∧ Scalar t ∧ WellTyped T arg t ∧ ArgsTyped T args rest

end

mutual

/-- No element of an array stands where `gen_quadr_bool_expr` needs a condition, in an
expression whose value is needed. -/
def jumpsOk : Expr → Bool
  | .int _ | .double _ | .bool _ | .str _ | .ident _ => true
  | .array _ index => jumpsOk index
  | .binop _ _ left right => jumpsOk left && jumpsOk right
  | .cmp _ left right => jumpsOk left && jumpsOk right
  | .and left right | .or left right => condOk left && condOk right
  | .neg _ arg | .plus _ arg => jumpsOk arg
  | .not arg => condOk arg
  | .call _ _ args => argsOk args

/-- The same for a condition. -/
def condOk : Expr → Bool
  | .array _ _ => false
  | .int _ | .double _ | .str _ | .binop _ _ _ _ | .neg _ _ | .plus _ _ => false
  | .bool _ | .ident _ => true
  | .cmp _ left right => jumpsOk left && jumpsOk right
  | .and left right | .or left right => condOk left && condOk right
  | .not arg => condOk arg
  | .call _ _ args => argsOk args

/-- The same for the arguments of a call. -/
def argsOk : List Expr → Bool
  | [] => true
  | arg :: args => jumpsOk arg && argsOk args

end

mutual

/-- There is no unary minus on an integer. -/
def noIntNeg : Expr → Bool
  | .int _ | .double _ | .bool _ | .str _ | .ident _ => true
  | .array _ index => noIntNeg index
  | .binop _ _ left right | .cmp _ left right | .and left right | .or left right =>
      noIntNeg left && noIntNeg right
  | .neg type arg => !(type == .int) && noIntNeg arg
  | .plus _ arg | .not arg => noIntNeg arg
  | .call _ _ args => noIntNegArgs args

/-- There is no unary minus on an integer in the arguments. -/
def noIntNegArgs : List Expr → Bool
  | [] => true
  | arg :: args => noIntNeg arg && noIntNegArgs args

end

end Javalette.Front
