import Mathlib.Algebra.Group.Nat.Defs
import Javalette.Library.Agrees
import Javalette.Library.Doubles
import Javalette.Quadr.Generate
import Javalette.Tree.Eval

/-!
# What the translation takes an expression for

`gen_quadr_expr` and `gen_quadr_bool_expr` do not compute an expression as it stands.  Unary minus
is a subtraction from a zero, which for integers is what the platform makes of the double `0.0`.
A condition that is to jump when it is false tests the opposite of each comparison (`quadr_if_op`):
`a < b` is taken for the negation of `a >= b`.  `lower` rewrites an expression accordingly.

On integers the rewritten expression means the same as the expression itself, if the zero is read
as zero.  On doubles it does not: neither `a < b` nor `a >= b` holds of a double that is not a
number, and the negation of the double `0.0` is not `0.0 - 0.0`.
-/

namespace Javalette.Front

open SyntaxTree

/-! ## Doubles as bits -/

/-- A comparison of doubles: only `/=` holds if an operand is not a number. -/
def ieeeTest (op : CmpOp) (a b : BitVec 64) : Bool :=
  if isNaN a || isNaN b then op = .neq
  else match op with
    | .eq => doubleOrder a = doubleOrder b
    | .neq => doubleOrder a ≠ doubleOrder b
    | .gt => doubleOrder b < doubleOrder a
    | .lt => doubleOrder a < doubleOrder b
    | .geq => doubleOrder b ≤ doubleOrder a
    | .leq => doubleOrder a ≤ doubleOrder b

/-- Negation of a double changes the sign bit. -/
def ieeeNeg (a : BitVec 64) : BitVec 64 := a ^^^ 0x8000000000000000

/-- The meaning with the comparisons and the negation of the machine. -/
def Meaning.ieee (double : Binop → BitVec 64 → BitVec 64 → BitVec 64)
    (call : List Call → ℕ → List Value → Option Value) : Meaning where
  double := double
  doubleTest op a b := some (ieeeTest op a b)
  doubleNeg a := some (ieeeNeg a)
  call := call

/-! ## Rewriting -/

/-- The comparison that is tested to jump when the given one does not hold. -/
def opposite : CmpOp → CmpOp
  | .eq => .neq
  | .neq => .eq
  | .gt => .leq
  | .lt => .geq
  | .geq => .lt
  | .leq => .gt

/-- The zero that unary minus subtracts from. -/
def negZero (P : Platform) : Ty → Expr
  | .double => .double 0
  | _ => .int (P.intOfDouble 0)

/-- The condition `left op right` for a jump on the truth value `sense`. -/
def sensedCmp (op : CmpOp) (left right : Expr) (sense : Bool) : Expr :=
  if sense then .cmp op left right else .not (.cmp (opposite op) left right)

section Lowering

variable (P : Platform)

mutual

/-- The expression that `gen_quadr_expr` computes. -/
def lower : Expr → Expr
  | .int value => .int value
  | .double value => .double value
  | .bool value => .bool value
  | .str value => .str value
  | .ident ident => .ident ident
  | .array ident index => .array ident (lower index)
  | .binop op type left right => .binop op type (lower left) (lower right)
  | .cmp op left right => .cmp op (lower left) (lower right)
  | .and left right => .and (lowerCond left false) (lowerCond right false)
  | .or left right => .or (lowerCond left true) (lowerCond right true)
  | .neg type arg => .binop .sub type (negZero P type) (lower arg)
  | .plus type arg => .plus type (lower arg)
  | .not arg => .not (lowerCond arg false)
  | .call type func args => .call type func (lowerArgs args)

/-- The condition that `gen_quadr_bool_expr` tests to jump on the truth value `sense`. -/
def lowerCond : Expr → Bool → Expr
  | .cmp op left right, sense => sensedCmp op (lower left) (lower right) sense
  | .and left right, _ => .and (lowerCond left false) (lowerCond right false)
  | .or left right, _ => .or (lowerCond left true) (lowerCond right true)
  | .not arg, sense => .not (lowerCond arg (!sense))
  | .call type func args, _ => .call type func (lowerArgs args)
  | .bool value, _ => .bool value
  | .ident ident, _ => .ident ident
  | .int value, _ => .int value
  | .double value, _ => .double value
  | .str value, _ => .str value
  | .array ident index, _ => .array ident (lower index)
  | .binop op type left right, _ => .binop op type (lower left) (lower right)
  | .neg type arg, _ => .binop .sub type (negZero P type) (lower arg)
  | .plus type arg, _ => .plus type (lower arg)

/-- The arguments that `gen_call` computes. -/
def lowerArgs : List Expr → List Expr
  | [] => []
  | arg :: args => lower arg :: lowerArgs args

end

end Lowering

/-- The condition with the comparisons that are tested, and the operands as they are. -/
def invert : Expr → Bool → Expr
  | .cmp op left right, sense => sensedCmp op left right sense
  | .and left right, _ => .and (invert left false) (invert right false)
  | .or left right, _ => .or (invert left true) (invert right true)
  | .not arg, sense => .not (invert arg (!sense))
  | e, _ => e

/-- The operands of the comparisons and the arguments of the calls that a condition consists of. -/
def operands : Expr → List Expr
  | .cmp _ left right => [left, right]
  | .and left right | .or left right => operands left ++ operands right
  | .not arg => operands arg
  | .call _ _ args => args
  | _ => []

/-- The expressions whose value is computed with jumps. -/
def isCondition : Expr → Bool
  | .bool _ | .cmp _ _ _ | .and _ _ | .or _ _ | .not _ => true
  | .call type _ _ => type = .boolean
  | _ => false

/-- The value of a condition is its truth value. -/
lemma evalExpr_condition {M : Meaning} {R : Reading} {e : Expr} {tr : List Call}
    (h : isCondition e = true) :
    evalExpr M R e tr = (evalBool M R e tr).map fun p => (boolValue p.1, p.2) := by
  cases e with
  | bool b => rw [evalBool_bool, evalExpr, Option.map_some]
  | cmp op l r => simp [evalBool, evalExpr, Option.map_bind, Option.bind_assoc]
  | and l r =>
    simp only [evalBool, evalExpr, Option.bind_eq_bind, Option.map_bind, Option.bind_assoc,
      Function.comp_def]
    refine congrArg (Option.bind _) (funext fun p => congrArg (Option.bind _) (funext fun b => ?_))
    cases b <;> simp [Option.bind_assoc]
  | or l r =>
    simp only [evalBool, evalExpr, Option.bind_eq_bind, Option.map_bind, Option.bind_assoc,
      Function.comp_def]
    refine congrArg (Option.bind _) (funext fun p => congrArg (Option.bind _) (funext fun b => ?_))
    cases b <;> simp [Option.bind_assoc]
  | not arg => simp [evalBool, evalExpr, Option.map_bind, Option.bind_assoc]
  | call type func args =>
    obtain rfl : type = .boolean := by simpa [isCondition] using h
    simp only [evalBool, evalExpr_call, callValue, Option.bind_eq_bind, Option.map_bind,
      Option.bind_assoc]
    refine congrArg (Option.bind _) (funext fun p => ?_)
    rcases ht : truth p.1 <;> simp [ht]
  | _ => cases h

/-! ## Where rewriting makes no difference -/

/-- The meaning in which nothing has a result that rewriting changes: a comparison has none unless
its opposite is its negation, and the negation of a double has none unless it is the difference
from `0.0`. -/
def Meaning.tame (M : Meaning) : Meaning where
  double := M.double
  doubleTest op a b :=
    if M.doubleTest (opposite op) a b = (M.doubleTest op a b).map not then M.doubleTest op a b
    else none
  doubleNeg a := if M.doubleNeg a = some (M.double .sub 0 a) then M.doubleNeg a else none
  call := M.call

lemma ieeeTest_opposite (op : CmpOp) {a b : BitVec 64} (ha : isNaN a = false)
    (hb : isNaN b = false) : ieeeTest (opposite op) a b = !ieeeTest op a b := by
  have hnumbers : (isNaN a || isNaN b) = false := by rw [ha, hb, Bool.or_self]
  simp only [ieeeTest, hnumbers, Bool.false_eq_true, if_false]
  cases op with
  | eq => exact decide_not
  | neq => exact (Bool.not_eq_eq_eq_not.mp (decide_not).symm)
  | gt | lt => exact (decide_eq_decide.mpr Int.not_lt.symm).trans decide_not
  | geq | leq => exact (decide_eq_decide.mpr Int.not_le.symm).trans decide_not

/-- On the machine, comparisons of numbers are as they were. -/
lemma ieee_tame_doubleTest {double : Binop → BitVec 64 → BitVec 64 → BitVec 64}
    {call : List Call → ℕ → List Value → Option Value} (op : CmpOp) {a b : BitVec 64}
    (ha : isNaN a = false) (hb : isNaN b = false) :
    (Meaning.ieee double call).tame.doubleTest op a b = some (ieeeTest op a b) :=
  if_pos (congrArg some (ieeeTest_opposite op ha hb))

section Tame

variable {P : Platform} {M : Meaning} {R : Reading}

/-- The constant that unary minus subtracts from is zero at the type of each node. -/
def ZeroOk (P : Platform) (ok : Bool) : Prop := P.intOfDouble 0 = 0 ∨ ok = true

lemma ZeroOk.left {x y : Bool} (h : ZeroOk P (x && y)) : ZeroOk P x :=
  h.imp_right fun h => (Bool.and_eq_true_iff.mp h).1

lemma ZeroOk.right {x y : Bool} (h : ZeroOk P (x && y)) : ZeroOk P y :=
  h.imp_right fun h => (Bool.and_eq_true_iff.mp h).2

lemma testValue_tame (op : CmpOp) (a b : Value) :
    Agrees (testValue M.tame op a b) (testValue M op a b) := by
  intro t ht
  cases a <;> cases b <;> first | exact ht | skip
  simp only [testValue, Meaning.tame] at ht ⊢
  split at ht
  · exact ht
  · cases ht

lemma binValue_tame {op : Binop} {a b : Value} : binValue M.tame op a b = binValue M op a b := by
  cases a <;> cases b <;> rfl

/-- Comparisons of integers exclude their opposites, and so do those of doubles that have a
result. -/
lemma testValue_opposite {op : CmpOp} {a b : Value} {t : Bool}
    (h : testValue M.tame op a b = some t) : testValue M (opposite op) a b = some !t := by
  cases a <;> cases b <;> try cases h
  · cases op <;> simp [testValue, opposite, BitVec.sle_eq_not_slt, bne]
  · rename_i a b
    simp only [testValue, Meaning.tame] at h ⊢
    split at h
    · rename_i hop
      rw [hop, h]
      rfl
    · cases h

/-- Unary minus is subtraction from zero where it has a result. -/
lemma binValue_negZero {type : Ty} {ok : Bool} (h : ZeroOk P (!(type == .int) && ok))
    {tr : List Call} {a v : Value} (hv : negValue M.tame type a = some v) :
    ∃ zero, evalExpr M R (negZero P type) tr = some (zero, tr) ∧
      binValue M .sub zero a = some v := by
  cases type <;> cases a <;> try cases hv
  · have hzero : P.intOfDouble 0 = 0 := h.resolve_right (by simp)
    exact ⟨.int 0, by simpa [negZero, evalExpr] using hzero, by simp [binValue, intOp]⟩
  · rename_i a
    refine ⟨.double 0, by simp [negZero, evalExpr], ?_⟩
    simp only [negValue, Meaning.tame, Option.map_eq_some_iff] at hv
    obtain ⟨d, hd, rfl⟩ := hv
    split at hd
    · rename_i hneg
      obtain rfl := Option.some.inj (hneg.symm.trans hd)
      rfl
    · cases hd

lemma agrees_sensedCmp {op : CmpOp} {l r : Expr} {tr : List Call} (sense : Bool)
    (h : Agrees (evalPair M.tame R l r tr) (evalPair M R (lower P l) (lower P r) tr)) :
    Agrees (evalBool M.tame R (.cmp op l r) tr)
      (evalBool M R (sensedCmp op (lower P l) (lower P r) sense) tr) := by
  cases sense with
  | true =>
    rw [sensedCmp, if_pos rfl, evalBool_cmp, evalBool_cmp]
    refine h.bind fun p b hb => ?_
    obtain ⟨t, ht, rfl⟩ := Option.map_eq_some_iff.mp hb
    rw [testValue_tame _ _ _ t ht]
    rfl
  | false =>
    rw [sensedCmp, if_neg (by simp), evalBool_not, evalBool_cmp, evalBool_cmp, Option.map_bind]
    refine h.bind fun p b hb => ?_
    obtain ⟨t, ht, rfl⟩ := Option.map_eq_some_iff.mp hb
    simp [testValue_opposite ht]

lemma agrees_pair {l r : Expr} {tr : List Call}
    (hl : Agrees (evalExpr M.tame R l tr) (evalExpr M R (lower P l) tr))
    (hr : ∀ tr, Agrees (evalExpr M.tame R r tr) (evalExpr M R (lower P r) tr)) :
    Agrees (evalPair M.tame R l r tr) (evalPair M R (lower P l) (lower P r) tr) :=
  hl.bind fun p => (hr p.2).bind fun _ => Agrees.refl _

lemma agrees_and {l r l' r' : Expr} {tr : List Call}
    (hl : Agrees (evalBool M.tame R l tr) (evalBool M R l' tr))
    (hr : ∀ tr, Agrees (evalBool M.tame R r tr) (evalBool M R r' tr)) :
    Agrees (evalBool M.tame R (.and l r) tr) (evalBool M R (.and l' r') tr) := by
  rw [evalBool_and, evalBool_and]
  exact hl.bind fun p => (Agrees.refl _).ite (hr p.2)

lemma agrees_or {l r l' r' : Expr} {tr : List Call}
    (hl : Agrees (evalBool M.tame R l tr) (evalBool M R l' tr))
    (hr : ∀ tr, Agrees (evalBool M.tame R r tr) (evalBool M R r' tr)) :
    Agrees (evalBool M.tame R (.or l r) tr) (evalBool M R (.or l' r') tr) := by
  rw [evalBool_or, evalBool_or]
  exact hl.bind fun p => (Agrees.refl _).ite (hr p.2)

lemma agrees_not {e e' : Expr} {tr : List Call}
    (h : Agrees (evalBool M.tame R e tr) (evalBool M R e' tr)) :
    Agrees (evalBool M.tame R (.not e) tr) (evalBool M R (.not e') tr) := by
  rw [evalBool_not, evalBool_not]
  intro b hb
  obtain ⟨p, hp, rfl⟩ := Option.map_eq_some_iff.mp hb
  rw [h p hp]
  rfl

/-- As a value, a condition is `0` or `1`. -/
lemma agrees_condition {e e' : Expr} {tr : List Call} (he : isCondition e = true)
    (he' : isCondition e' = true) (h : Agrees (evalBool M.tame R e tr) (evalBool M R e' tr)) :
    Agrees (evalExpr M.tame R e tr) (evalExpr M R e' tr) := by
  rw [evalExpr_condition he, evalExpr_condition he']
  intro b hb
  obtain ⟨p, hp, rfl⟩ := Option.map_eq_some_iff.mp hb
  rw [h p hp]
  rfl

lemma agrees_call {func : ℕ} {es es' : List Expr} {tr : List Call}
    (h : Agrees (evalArgs M.tame R es tr) (evalArgs M R es' tr)) :
    Agrees (evalCall M.tame R func es tr) (evalCall M R func es' tr) :=
  h.bind fun _ => Agrees.refl _

mutual

/-- Where the tame meaning gives an expression a value, the rewritten expression has it. -/
lemma lower_of_tame : ∀ (e : Expr) (tr : List Call), ZeroOk P (noIntNeg e) →
    Agrees (evalExpr M.tame R e tr) (evalExpr M R (lower P e) tr)
  | .int _, _, _ | .double _, _, _ | .bool _, _, _ | .str _, _, _ | .ident _, _, _ => by
    simp only [lower, evalExpr]
    exact Agrees.refl _
  | .array x i, tr, hz => by
    rw [lower, evalExpr_array, evalExpr_array]
    exact (lower_of_tame i tr (by simpa only [noIntNeg] using hz)).bind fun _ => Agrees.refl _
  | .binop op ty l r, tr, hz => by
    simp only [noIntNeg] at hz
    rw [lower, evalExpr_binop, evalExpr_binop]
    exact (agrees_pair (lower_of_tame l tr hz.left) fun tr =>
      lower_of_tame r tr hz.right).bind fun _ => Agrees.refl _
  | .cmp op l r, tr, hz => by
    simp only [noIntNeg] at hz
    rw [lower]
    exact agrees_condition rfl rfl (agrees_sensedCmp true (agrees_pair
      (lower_of_tame l tr hz.left) fun tr => lower_of_tame r tr hz.right))
  | .and l r, tr, hz => by
    simp only [noIntNeg] at hz
    rw [lower]
    exact agrees_condition rfl rfl (agrees_and (lowerCond_of_tame l false tr hz.left) fun tr =>
      lowerCond_of_tame r false tr hz.right)
  | .or l r, tr, hz => by
    simp only [noIntNeg] at hz
    rw [lower]
    exact agrees_condition rfl rfl (agrees_or (lowerCond_of_tame l true tr hz.left) fun tr =>
      lowerCond_of_tame r true tr hz.right)
  | .neg ty e, tr, hz => by
    simp only [noIntNeg] at hz
    rw [lower]
    intro b hb
    simp only [evalExpr, Option.bind_eq_bind, Option.bind_eq_some_iff] at hb
    obtain ⟨p, hp, v, hv, hb⟩ := hb
    -- the negation of the tame arithmetic is a subtraction from the zero constant
    obtain ⟨zero, hzero, hsub⟩ : ∃ zero, evalExpr M R (negZero P ty) tr = some (zero, tr) ∧
        binValue M .sub zero p.1 = some v := binValue_negZero hz hv
    have he := lower_of_tame e tr hz.right p hp
    simp only [evalExpr, Option.bind_eq_bind, hzero, Option.bind_some, he, hsub]
    exact hb
  | .plus _ e, tr, hz => by
    simp only [lower, evalExpr]
    exact lower_of_tame e tr (by simpa only [noIntNeg] using hz)
  | .not e, tr, hz => by
    rw [lower]
    exact agrees_condition rfl rfl (agrees_not (lowerCond_of_tame e false tr
      (by simpa only [noIntNeg] using hz)))
  | .call ty f es, tr, hz => by
    rw [lower, evalExpr_call, evalExpr_call]
    exact (agrees_call (lowerArgs_of_tame es tr (by simpa only [noIntNeg] using hz))).bind
      fun _ => Agrees.refl _

/-- The same for a condition. -/
lemma lowerCond_of_tame : ∀ (e : Expr) (sense : Bool) (tr : List Call), ZeroOk P (noIntNeg e) →
    Agrees (evalBool M.tame R e tr) (evalBool M R (lowerCond P e sense) tr)
  | .cmp op l r, sense, tr, hz => by
    simp only [noIntNeg] at hz
    rw [lowerCond]
    exact agrees_sensedCmp sense (agrees_pair (lower_of_tame l tr hz.left) fun tr =>
      lower_of_tame r tr hz.right)
  | .and l r, _, tr, hz => by
    simp only [noIntNeg] at hz
    rw [lowerCond]
    exact agrees_and (lowerCond_of_tame l false tr hz.left) fun tr =>
      lowerCond_of_tame r false tr hz.right
  | .or l r, _, tr, hz => by
    simp only [noIntNeg] at hz
    rw [lowerCond]
    exact agrees_or (lowerCond_of_tame l true tr hz.left) fun tr =>
      lowerCond_of_tame r true tr hz.right
  | .not e, sense, tr, hz => by
    rw [lowerCond]
    exact agrees_not (lowerCond_of_tame e (!sense) tr (by simpa only [noIntNeg] using hz))
  | .call ty f es, _, tr, hz => by
    rw [lowerCond]
    refine Agrees.bind ?_ fun _ => Agrees.refl _
    rw [evalExpr_call, evalExpr_call]
    exact (agrees_call (lowerArgs_of_tame es tr (by simpa only [noIntNeg] using hz))).bind
      fun _ => Agrees.refl _
  | .int _, _, _, _ | .double _, _, _, _ | .bool _, _, _, _ | .str _, _, _, _
  | .ident _, _, _, _ => by
    simp only [lowerCond, evalBool, evalExpr]
    exact Agrees.refl _
  | .array x i, _, tr, hz => (lower_of_tame (.array x i) tr hz).bind fun _ => Agrees.refl _
  | .binop op ty l r, _, tr, hz =>
    (lower_of_tame (.binop op ty l r) tr hz).bind fun _ => Agrees.refl _
  | .neg ty e, _, tr, hz => (lower_of_tame (.neg ty e) tr hz).bind fun _ => Agrees.refl _
  | .plus ty e, _, tr, hz => (lower_of_tame (.plus ty e) tr hz).bind fun _ => Agrees.refl _

/-- The same for the arguments of a call. -/
lemma lowerArgs_of_tame : ∀ (es : List Expr) (tr : List Call), ZeroOk P (noIntNegArgs es) →
    Agrees (evalArgs M.tame R es tr) (evalArgs M R (lowerArgs P es) tr)
  | [], _, _ => by
    simp only [lowerArgs, evalArgs]
    exact Agrees.refl _
  | e :: es, tr, hz => by
    simp only [noIntNegArgs] at hz
    simp only [lowerArgs, evalArgs]
    exact (lower_of_tame e tr hz.left).bind fun p =>
      (lowerArgs_of_tame es p.2 hz.right).bind fun _ => Agrees.refl _

end

end Tame

/-! ## Conditions with operands that are computed correctly -/

section Operands

variable {P : Platform} {M : Meaning} {R : Reading}

/-- Rewriting the operands of a condition does not change their values. -/
def OperandsOk (P : Platform) (M : Meaning) (R : Reading) (e : Expr) : Prop :=
  ∀ x ∈ operands e, ∀ tr, evalExpr M R (lower P x) tr = evalExpr M R x tr

lemma evalArgs_lowerArgs : ∀ {es : List Expr} {tr : List Call},
    (∀ x ∈ es, ∀ tr, evalExpr M R (lower P x) tr = evalExpr M R x tr) →
    evalArgs M R (lowerArgs P es) tr = evalArgs M R es tr
  | [], _, _ => by rw [lowerArgs]
  | e :: es, tr, h => by
    rw [lowerArgs, evalArgs_cons, evalArgs_cons, h e List.mem_cons_self]
    refine congrArg (Option.bind _) (funext fun p => ?_)
    rw [evalArgs_lowerArgs fun x hx => h x (List.mem_cons_of_mem _ hx)]

lemma evalBool_sensedCmp {op : CmpOp} {l r l' r' : Expr} {tr : List Call} (sense : Bool)
    (h : evalPair M R l r tr = evalPair M R l' r' tr) :
    evalBool M R (sensedCmp op l r sense) tr = evalBool M R (sensedCmp op l' r' sense) tr := by
  cases sense <;> simp [sensedCmp, evalBool_not, evalBool_cmp, h]

/-- Then only the comparisons that are tested make a difference. -/
lemma evalBool_lowerCond : ∀ {e : Expr} (sense : Bool) {tr : List Call}, condOk e = true →
    OperandsOk P M R e → evalBool M R (lowerCond P e sense) tr = evalBool M R (invert e sense) tr
  | .cmp op l r, sense, tr, _, h => by
    rw [lowerCond, invert]
    refine evalBool_sensedCmp sense ?_
    simp only [evalPair, h l (by simp [operands]), h r (by simp [operands])]
  | .and l r, _, tr, hok, h => by
    simp only [condOk, Bool.and_eq_true] at hok
    rw [lowerCond, invert, evalBool_and, evalBool_and, evalBool_lowerCond (e := l) false hok.1
      fun x hx => h x (List.mem_append_left _ hx)]
    refine congrArg (Option.bind _) (funext fun p => ?_)
    rw [evalBool_lowerCond (e := r) false hok.2 fun x hx => h x (List.mem_append_right _ hx)]
  | .or l r, _, tr, hok, h => by
    simp only [condOk, Bool.and_eq_true] at hok
    rw [lowerCond, invert, evalBool_or, evalBool_or, evalBool_lowerCond (e := l) true hok.1
      fun x hx => h x (List.mem_append_left _ hx)]
    refine congrArg (Option.bind _) (funext fun p => ?_)
    rw [evalBool_lowerCond (e := r) true hok.2 fun x hx => h x (List.mem_append_right _ hx)]
  | .not e, sense, tr, hok, h => by
    rw [lowerCond, invert, evalBool_not, evalBool_not,
      evalBool_lowerCond (e := e) (!sense) (by simpa only [condOk] using hok) h]
  | .call ty f es, _, tr, _, h => by
    have hes : evalArgs M R (lowerArgs P es) tr = evalArgs M R es tr := evalArgs_lowerArgs h
    simp only [lowerCond, invert, evalBool_call, evalCall, hes]
  | .bool _, _, _, _, _ | .ident _, _, _, _, _ => by
    simp only [lowerCond, invert]

/-- Where the tame meaning gives a condition a truth value, the comparisons that are tested make no
difference either. -/
lemma evalBool_invert_of_tame {e : Expr} (sense : Bool) {tr : List Call} (hok : condOk e = true)
    (h : OperandsOk P M R e) (hz : ZeroOk P (noIntNeg e)) :
    Agrees (evalBool M.tame R e tr) (evalBool M R (invert e sense) tr) := by
  rw [← evalBool_lowerCond sense hok h]
  exact lowerCond_of_tame e sense tr hz

end Operands

/-- The rewritten condition has its value computed with jumps as well. -/
lemma isCondition_lowerCond {P : Platform} {e : Expr} {sense : Bool} (h : isCondition e = true) :
    isCondition (lowerCond P e sense) = true := by
  cases e with
  | call type func args => simpa [lowerCond, isCondition] using h
  | cmp op l r => cases sense <;> rfl
  | _ => first | rfl | cases h

lemma lower_condition {P : Platform} {e : Expr} (h : isCondition e = true) :
    lower P e = lowerCond P e true := by
  cases e with
  | _ => first | (cases h; done) | simp [lower, lowerCond, sensedCmp]

end Javalette.Front
