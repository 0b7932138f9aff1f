import Javalette.Library.Agrees
import Javalette.Quadr.Run
import Javalette.Tree.Returns

/-!
# The meaning of instructions

A direct semantics of the instructions of the source language, the statement of purpose that the
translation of a function is compared with: `Exec` at the steps `storeSteps`.

Each declaration that is executed makes a new object, and an identifier stands for the object of
the innermost declaration in force.  An object has no value, and an element of an array has none,
until it has been assigned to; an expression has a value only if that does not depend on what such
objects hold.  In an assignment to an element of an array the new value is computed before the
index.
-/

namespace Javalette.Front

open SyntaxTree

/-- The state of a function that is executed. -/
structure Store where
  scope : String → Option ℕ
  /-- the scopes that the current one is in -/
  saved : List (String → Option ℕ)
  type : ℕ → Ty
  env : ℕ → Option Value
  mem : ℕ → BitVec 32 → Option Value
  next : ℕ
  trace : List Call

namespace Store

/-- The objects that have a value hold it. -/
def Holds (s : Store) (env : ℕ → Value) : Prop := ∀ l v, s.env l = some v → env l = v

/-- What an expression reads, if the objects hold what `env` says. -/
def reading (s : Store) (env : ℕ → Value) : Reading := ⟨s.scope, env, s.mem⟩

/-- The calls made by now. -/
def called (s : Store) (tr : List Call) : Store := { s with trace := tr }

/-- A new object, which the identifier stands for from now on. -/
def declare (s : Store) (ident : String) (type : Ty) : Store :=
  { s with
    scope := Function.update s.scope ident (some s.next)
    type := Function.update s.type s.next type
    env := Function.update s.env s.next none
    mem := Function.update s.mem s.next fun _ => none
    next := s.next + 1 }

/-- A new value of an object. -/
def set (s : Store) (l : ℕ) (v : Value) : Store :=
  { s with env := Function.update s.env l (some v) }

/-- A new value of an element of an array. -/
def put (s : Store) (l : ℕ) (k : BitVec 32) (v : Value) : Store :=
  { s with mem := Function.update s.mem l (Function.update (s.mem l) k (some v)) }

end Store

/-! ## Steps -/

section Steps

variable (M : Meaning)

/-- The expression has the value, and the calls made by then are `tr`. -/
def HasValue (s : Store) (e : Expr) (v : Value) (tr : List Call) : Prop :=
  ∀ env, s.Holds env → evalExpr M (s.reading env) e s.trace = some (v, tr)

/-- The same for the truth value of a condition. -/
def HasTruth (s : Store) (e : Expr) (t : Bool) (tr : List Call) : Prop :=
  ∀ env, s.Holds env → evalBool M (s.reading env) e s.trace = some (t, tr)

/-- A declarator is executed; its initializer cannot refer to the new object. -/
def Declares (type : Ty) (decl : Declarator) (s s' : Store) : Prop :=
  match decl with
  | .var ident none => s' = s.declare ident type
  | .var ident (some init) => ∃ v tr, HasValue M s init v tr ∧
      s' = ((s.called tr).declare ident type).set s.next v
  | .array ident arraySize => s' = s.declare ident (.array type arraySize)

/-- An assignment is executed. -/
def Assigns (lvalue : Lvalue) (e : Expr) (s s' : Store) : Prop :=
  match lvalue with
  | .ident ident => ∃ l v tr, s.scope ident = some l ∧ HasValue M s e v tr ∧
      s' = (s.called tr).set l v
  | .array ident index => ∃ l t n v tr k tr', s.scope ident = some l ∧ s.type l = .array t n ∧
      HasValue M s e v tr ∧ HasValue M (s.called tr) index (.int k) tr' ∧ k.toNat < n ∧
      s' = (s.called tr').put l k v

/-- The one of a type. -/
def oneOf (type : Ty) : Value :=
  if type = .double then .double 0x3FF0000000000000 else .int 1

/-- An increment or a decrement is executed. -/
def Changes (op : Binop) (lvalue : Lvalue) (s s' : Store) : Prop :=
  match lvalue with
  | .ident ident => ∃ l a v, s.scope ident = some l ∧ s.env l = some a ∧
      binValue M op a (oneOf (s.type l)) = some v ∧ s' = s.set l v
  | .array ident index => ∃ l t n k tr a v, s.scope ident = some l ∧ s.type l = .array t n ∧
      HasValue M s index (.int k) tr ∧ s.mem l k = some a ∧
      binValue M op a (oneOf t) = some v ∧ s' = (s.called tr).put l k v

/-- The steps of an execution. -/
def storeSteps : Steps Store Value where
  eval e s v s' := ∃ tr, HasValue M s e v tr ∧ s' = s.called tr
  test e s t s' := ∃ tr, HasTruth M s e t tr ∧ s' = s.called tr
  declare := Declares M
  assign := Assigns M
  inc := Changes M .add
  dec := Changes M .sub
  pushScope s s' := s' = { s with saved := s.scope :: s.saved }
  popScope s s' := ∃ scope saved, s.saved = scope :: saved ∧
    s' = { s with scope := scope, saved := saved }

/-- The store when a function is called: the parameters hold the arguments. -/
def enter : List (Ty × String) → List Value → Store → Store
  | (type, ident) :: args, v :: vs, s => enter args vs ((s.declare ident type).set s.next v)
  | _, _, s => s

/-- The store before any declaration. -/
def emptyStore : Store where
  scope _ := none
  saved := []
  type _ := .void
  env _ := none
  mem _ _ := none
  next := 0
  trace := []

end Steps

/-- The state in which an execution has ended. -/
def Outcome.state {State Value : Type} : Outcome State Value → State
  | .falls s => s
  | .returned _ s => s

/-- The value that has been returned. -/
def Outcome.value {State : Type} : Outcome State Value → Value
  | .falls _ => .void
  | .returned v _ => v.getD .void

/-! ## What is read -/

section Reading

variable {M : Meaning} {R R' : Reading}

/-- The first reading finds its objects among those of the second one. -/
def Reading.Within (R R' : Reading) : Prop :=
  ∀ x l, R.decls x = some l → ∃ v, R'.decls x = some v ∧ R'.env v = R.env l ∧
    ∀ k a, R.mem l k = some a → R'.mem v k = some a

lemma Reading.Within.element (h : R.Within R') (x : String) (i : Value) :
    Agrees (element R x i) (element R' x i) := by
  intro a ha
  cases hx : R.decls x with
  | none => simp [Front.element, hx] at ha
  | some l =>
    obtain ⟨v, hv, -, hmem⟩ := h x l hx
    obtain ⟨k, rfl, hk⟩ := (element_eq_some hx).mp ha
    exact (element_eq_some hv).mpr ⟨k, rfl, hmem k a hk⟩

mutual

/-- An expression that has a value has it wherever the objects are found. -/
lemma Reading.Within.evalExpr (h : R.Within R') : ∀ (e : Expr) (tr : List Call),
    Agrees (evalExpr M R e tr) (evalExpr M R' e tr)
  | .int _, _ | .double _, _ | .bool _, _ | .str _, _ => by
    simp only [Front.evalExpr]
    exact Agrees.refl _
  | .ident x, tr => by
    simp only [Front.evalExpr]
    intro r hr
    obtain ⟨l, hl, rfl⟩ := Option.map_eq_some_iff.mp hr
    obtain ⟨v, hv, henv, -⟩ := h x l hl
    rw [hv, Option.map_some, henv]
  | .array x i, tr => by
    simp only [Front.evalExpr]
    exact (h.evalExpr i tr).bind fun p => (h.element x p.1).bind fun _ => Agrees.refl _
  | .binop op type l r, tr => by
    simp only [Front.evalExpr]
    exact (h.evalExpr l tr).bind fun p => (h.evalExpr r p.2).bind fun _ => Agrees.refl _
  | .cmp op l r, tr => by
    simp only [Front.evalExpr]
    exact (h.evalExpr l tr).bind fun p => (h.evalExpr r p.2).bind fun _ => Agrees.refl _
  | .and l r, tr => by
    simp only [Front.evalExpr]
    refine (h.evalExpr l tr).bind fun p => (Agrees.refl (truth p.1)).bind fun b => ?_
    cases b with
    | true => exact (h.evalExpr r p.2).bind fun _ => Agrees.refl _
    | false => exact Agrees.refl _
  | .or l r, tr => by
    simp only [Front.evalExpr]
    refine (h.evalExpr l tr).bind fun p => (Agrees.refl (truth p.1)).bind fun b => ?_
    cases b with
    | true => exact Agrees.refl _
    | false => exact (h.evalExpr r p.2).bind fun _ => Agrees.refl _
  | .neg type e, tr => by
    simp only [Front.evalExpr]
    exact (h.evalExpr e tr).bind fun _ => Agrees.refl _
  | .plus type e, tr => by
    simp only [Front.evalExpr]
    exact h.evalExpr e tr
  | .not e, tr => by
    simp only [Front.evalExpr]
    exact (h.evalExpr e tr).bind fun _ => Agrees.refl _
  | .call type f es, tr => by
    simp only [Front.evalExpr]
    exact (h.evalArgs es tr).bind fun _ => Agrees.refl _

lemma Reading.Within.evalArgs (h : R.Within R') : ∀ (es : List Expr) (tr : List Call),
    Agrees (evalArgs M R es tr) (evalArgs M R' es tr)
  | [], _ => by
    simp only [Front.evalArgs]
    exact Agrees.refl _
  | e :: es, tr => by
    simp only [Front.evalArgs]
    exact (h.evalExpr e tr).bind fun p => (h.evalArgs es p.2).bind fun _ => Agrees.refl _

end

lemma Reading.Within.evalBool (h : R.Within R') (e : Expr) (tr : List Call) :
    Agrees (evalBool M R e tr) (evalBool M R' e tr) :=
  (h.evalExpr e tr).bind fun _ => Agrees.refl _

end Reading

end Javalette.Front
