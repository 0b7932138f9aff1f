import Javalette.Library.Agrees
import Javalette.Scope.Lexical
import Javalette.Types.Equiv

/-!
# `tree.c`: the type check of expressions

`do_type_check` fills in the types of an expression.  Where it fails it reports an error, unless
`suppress_type_errors` says that there has been one already; `type_check` clears that variable,
also when it is called for the index of an array in the middle of another check.

The declaration of a symbol is the innermost one of the open scopes, which is what `sym->decl`
points to (`Scope.scoping_lexical`).  A declaration is the number of its cell, and the cells with
`initialized` are a function of it.  `palloc` hands out cells in order; no cell is used again, and
nothing compares cells.

An identifier that is indexed is asserted to be an array.  The default build has no assertions, and
there the fields of an array type are read from whatever type the identifier has.

The reports are kept in a list whose length is `errors_num`, and the expressions that have been
handed to the generator of code in another.  An assertion that fails and a read through a null
pointer yield `none`.
-/

namespace Javalette.Check

open Javalette.Scope Javalette.Types

/-- The binary operators among the `node_type_t`. -/
inductive BinaryOp
  | eq | neq | add | sub | div | mul | mod | geq | leq | gt | lt | or | and
  deriving DecidableEq, Repr

/-- `NODE_NOT`, `NODE_NEG` and `NODE_PLUS`. -/
inductive UnaryOp
  | not | neg | plus
  deriving DecidableEq, Repr

/-- The fields of `expr_t`. -/
structure Head where
  srcPos : SrcPos
  type : Option Typ

mutual

/-- `expr_t` and the nodes that begin as it does. -/
inductive Expr (σ : Type)
  | binary (head : Head) (op : BinaryOp) (left right : Expr σ)
  | unary (head : Head) (op : UnaryOp) (arg : Expr σ)
  | int (head : Head) (value : ℤ)
  | bool (head : Head) (value : ℤ)
  | double (head : Head) (value : BitVec 64)
  | str (head : Head) (value : String)
  | ident (head : Head) (sym : σ)
  | array (head : Head) (sym : σ) (index : Expr σ)
  | call (head : Head) (sym : σ) (args : ExprList σ)

/-- `expr_list_t`. -/
inductive ExprList (σ : Type)
  | nil
  | cons (srcPos : SrcPos) (expr : Expr σ) (next : ExprList σ)

end

variable {σ : Type}

/-- The first fields of a node. -/
@[simp] def Expr.head : Expr σ → Head
  | .binary head _ _ _ | .unary head _ _ | .int head _ | .bool head _ | .double head _
  | .str head _ | .ident head _ | .array head _ _ | .call head _ _ => head

/-- `expr->type`. -/
def Expr.type (e : Expr σ) : Option Typ := e.head.type

/-- `expr->src_pos`. -/
def Expr.srcPos (e : Expr σ) : SrcPos := e.head.srcPos

/-- There are no more arguments. -/
def ExprList.isNil : ExprList σ → Bool
  | .nil => true
  | .cons _ _ _ => false

/-- What the checks read and write. -/
structure Checker (σ : Type) where
  env : Env σ ℕ Typ
  initialized : ℕ → Bool
  nextDecl : ℕ
  errors : List (SrcPos × String)
  warnings : List (SrcPos × String)
  suppressTypeErrors : Bool
  suppressCodeGeneration : Bool
  generated : List (Expr σ)

namespace Checker

/-- `errors_num`. -/
def errorsNum (s : Checker σ) : ℕ := s.errors.length

/-- `error`. -/
def error (s : Checker σ) (srcPos : SrcPos) (msg : String) : Checker σ :=
  { s with errors := s.errors ++ [(srcPos, msg)] }

/-- `warn`. -/
def warn (s : Checker σ) (srcPos : SrcPos) (msg : String) : Checker σ :=
  { s with warnings := s.warnings ++ [(srcPos, msg)] }

/-- An error with the assignment `suppress_type_errors = 1`. -/
def lastError (s : Checker σ) (srcPos : SrcPos) (msg : String) : Checker σ :=
  { s.error srcPos msg with suppressTypeErrors := true }

end Checker

/-- What a check returns: the result, the node with its new types and the new state. -/
abbrev Checked (σ : Type) := Bool × Expr σ × Checker σ

/-- Two pointers to types are equal. -/
def sameType : Option Typ → Option Typ → Bool
  | none, none => true
  | some (.func addr _ _ _), some (.func addr' _ _ _) => addr = addr'
  | some (.array addr _ _), some (.array addr' _ _) => addr = addr'
  | some t, some u => t.isBasic && u.isBasic && t.cons = u.cons
  | _, _ => false

/-- How the program has been compiled: whether without its assertions, and what the reads of the
fields of an array type find behind the only field of a basic type. -/
structure Build where
  ndebug : Bool
  past : Typ → Option Typ × ℤ

namespace Build

/-- The same with the assertions. -/
def asserting (B : Build) : Build := { B with ndebug := false }

/-- `atype->basic_type` and `atype->array_size`, after the assertion that `atype` is the type of an
array.  In the type of a function, `return_type` and `args_num` have these places. -/
def arrayFields (B : Build) : Typ → Option (Option Typ × ℤ)
  | .array _ basicType arraySize => some (some basicType, arraySize)
  | .func _ returnType argsNum _ => if B.ndebug then some (some returnType, argsNum) else none
  | type => if B.ndebug then some (B.past type) else none

end Build

/-- The type of an operation on two operands of the type `type`, if it is allowed. -/
def binaryType (op : BinaryOp) (type : Option Typ) : Option Typ :=
  match op with
  | .or | .and => if sameType type (some .boolean) then some .boolean else none
  | .add | .sub | .div | .mul =>
      if sameType type (some .int) || sameType type (some .double) then type else none
  | .mod => if sameType type (some .int) then type else none
  | .geq | .leq | .gt | .lt =>
      if sameType type (some .int) || sameType type (some .double) then some .boolean else none
  | .eq | .neq => some .boolean

/-- Whether the operation is allowed on an operand of the type `type`. -/
def unaryAllowed (op : UnaryOp) (type : Typ) : Bool :=
  match type.cons with
  | .int | .double => op ≠ .not
  | .boolean => op = .not
  | _ => false

/-- The end of `do_type_check`. -/
def finish (s : Checker σ) (ret : Bool) (expr : Expr σ) : Checked σ :=
  (ret, expr,
    if !s.suppressTypeErrors && !ret then s.lastError expr.srcPos "type error" else s)

/-- `check_array_index`, where `typeCheck` is `type_check` of the index. -/
def checkArrayIndex (typeCheck : Checker σ → Option (Checked σ)) (s : Checker σ)
    (arraySize : ℤ) : Option (Checked σ) := do
  let (ret, index, s) ← typeCheck s
  if ret && sameType index.type (some .int) then
    match index with
    | .int head value =>
        if value < 0 ∨ arraySize ≤ value then
          return (true, index, s.warn head.srcPos "array index out of range")
        else return (true, index, s)
    | _ => return (true, index, s)
  else return (false, index, s.error index.srcPos "bad array index")

variable [DecidableEq σ] (B : Build)

mutual

/-- `do_type_check`. -/
def doTypeCheck (expr : Expr σ) (s : Checker σ) : Option (Checked σ) :=
  if expr.type.isSome then some (true, expr, s)
  else
    match expr with
    | .binary head op left right => do
        let (ret, left, s) ← doTypeCheck left s
        let (ret, right, s) ← (if ret then doTypeCheck right s else some (false, right, s))
        let type :=
          if ret && sameType left.type right.type then binaryType op left.type else none
        return finish s type.isSome (.binary { head with type := type } op left right)
    | .unary head op arg => do
        let (ret, arg, s) ← doTypeCheck arg s
        if ret then do
          let argType ← arg.type
          let ret := unaryAllowed op argType
          let type := if ret then some argType else none
          return finish s ret (.unary { head with type := type } op arg)
        else return finish s false (.unary head op arg)
    | .int head value => return finish s true (.int { head with type := some .int } value)
    | .bool head value => return finish s true (.bool { head with type := some .boolean } value)
    | .double head value => return finish s true (.double { head with type := some .double } value)
    | .str head value => return finish s true (.str { head with type := some .str } value)
    | .ident head sym =>
        match s.env.innermost sym with
        | some decl =>
            let s := if s.initialized decl.cell then s
              else s.error head.srcPos "using uninitialized variable"
            return finish s true (.ident { head with type := some decl.type } sym)
        | none =>
            return finish (s.lastError head.srcPos "undefined identifier") false (.ident head sym)
    | .array head sym index =>
        match s.env.innermost sym with
        | some decl => do
            let (basicType, arraySize) ← B.arrayFields decl.type
            let (ret, index, s) ← checkArrayIndex
              (fun s => doTypeCheck index { s with suppressTypeErrors := false }) s arraySize
            return finish s ret (.array { head with type := basicType } sym index)
        | none =>
            return finish (s.lastError head.srcPos "undefined identifier") false
              (.array head sym index)
    | .call head sym args =>
        match s.env.innermost sym with
        | some decl =>
            match decl.type with
            | .func _ returnType _ argsTp => do
                let (ret, rest, args, s) ← checkArgs args argsTp s
                let s := if rest then s.lastError head.srcPos "wrong number of arguments" else s
                let ret := ret && !rest
                let type := if ret then some returnType else none
                return finish s ret (.call { head with type := type } sym args)
            | _ =>
                return finish (s.lastError head.srcPos "not a function") false
                  (.call head sym args)
        | none =>
            return finish (s.lastError head.srcPos "undefined function") false
              (.call head sym args)

/-- The loop over the arguments of a call: its result, and whether arguments or parameters are
left. -/
def checkArgs (args : ExprList σ) (argsTp : List Typ) (s : Checker σ) :
    Option (Bool × Bool × ExprList σ × Checker σ) :=
  match args, argsTp with
  | .nil, _ => some (true, !argsTp.isEmpty, .nil, s)
  | args, [] => some (true, true, args, s)
  | .cons srcPos expr next, type :: argsTp => do
      let (ret, expr, s) ← doTypeCheck expr s
      let ret ← (if ret then expr.type.map (typeEquiv · type) else some false)
      if ret then do
        let (ret, rest, next, s) ← checkArgs next argsTp s
        return (ret, rest, .cons srcPos expr next, s)
      else
        return (false, !next.isNil || !argsTp.isEmpty, .cons srcPos expr next,
          s.lastError srcPos "type error: wrong type of argument")

end

/-- `type_check`. -/
def typeCheck (expr : Expr σ) (s : Checker σ) : Option (Checked σ) :=
  doTypeCheck B expr { s with suppressTypeErrors := false }

/-! ## Typed expressions -/

mutual

/-- Every node of the expression has a type. -/
def Expr.Typed : Expr σ → Prop
  | .binary head _ left right => head.type.isSome ∧ left.Typed ∧ right.Typed
  | .unary head _ arg => head.type.isSome ∧ arg.Typed
  | .array head _ index => head.type.isSome ∧ index.Typed
  | .call head _ args => head.type.isSome ∧ args.Typed
  | .int head _ | .bool head _ | .double head _ | .str head _ | .ident head _ => head.type.isSome

/-- Every node of the arguments has a type. -/
def ExprList.Typed : ExprList σ → Prop
  | .nil => True
  | .cons _ expr next => expr.Typed ∧ next.Typed

end

mutual

/-- Below a node that has a type every node has one.  So it is in the trees of the parser, where
`new_node` has left all types null. -/
def Expr.Coherent : Expr σ → Prop
  | .binary head _ left right =>
      (head.type.isSome → left.Typed ∧ right.Typed) ∧ left.Coherent ∧ right.Coherent
  | .unary head _ arg => (head.type.isSome → arg.Typed) ∧ arg.Coherent
  | .array head _ index => (head.type.isSome → index.Typed) ∧ index.Coherent
  | .call head _ args => (head.type.isSome → args.Typed) ∧ args.Coherent
  | .int _ _ | .bool _ _ | .double _ _ | .str _ _ | .ident _ _ => True

/-- The same of every argument. -/
def ExprList.Coherent : ExprList σ → Prop
  | .nil => True
  | .cons _ expr next => expr.Coherent ∧ next.Coherent

end

omit [DecidableEq σ] in
lemma Expr.Coherent.typed {e : Expr σ} (h : e.Coherent) (htype : e.type.isSome) : e.Typed := by
  cases e with
  | binary | unary | array | call => exact ⟨htype, h.1 htype⟩
  | int | bool | double | str | ident => exact htype

mutual

/-- Only arrays are indexed. -/
def Expr.IndexesArrays (env : Env σ ℕ Typ) : Expr σ → Prop
  | .binary _ _ left right => left.IndexesArrays env ∧ right.IndexesArrays env
  | .unary _ _ arg => arg.IndexesArrays env
  | .array _ sym index => (∀ decl ∈ env.innermost sym, decl.type.cons = .array) ∧
      index.IndexesArrays env
  | .call _ _ args => args.IndexesArrays env
  | .int _ _ | .bool _ _ | .double _ _ | .str _ _ | .ident _ _ => True

/-- The same in every argument. -/
def ExprList.IndexesArrays (env : Env σ ℕ Typ) : ExprList σ → Prop
  | .nil => True
  | .cons _ expr next => expr.IndexesArrays env ∧ next.IndexesArrays env

end

/-! ## What a check reports -/

section Grows

omit [DecidableEq σ]

/-- Only reports have been added, and an error has been if reports are suppressed that were not
before. -/
structure Grows (s s' : Checker σ) : Prop where
  env : s'.env = s.env
  initialized : s'.initialized = s.initialized
  nextDecl : s'.nextDecl = s.nextDecl
  generated : s'.generated = s.generated
  le : s.errorsNum ≤ s'.errorsNum
  suppressed : s'.suppressTypeErrors → s.suppressTypeErrors ∨ s.errorsNum < s'.errorsNum

lemma Grows.refl (s : Checker σ) : Grows s s := ⟨rfl, rfl, rfl, rfl, Nat.le_refl _, .inl⟩

lemma Grows.trans {s s' s'' : Checker σ} (h : Grows s s') (h' : Grows s' s'') : Grows s s'' where
  env := h'.env.trans h.env
  initialized := h'.initialized.trans h.initialized
  nextDecl := h'.nextDecl.trans h.nextDecl
  generated := h'.generated.trans h.generated
  le := Nat.le_trans h.le h'.le
  suppressed hsup := by
    obtain hsup | hlt := h'.suppressed hsup
    · exact (h.suppressed hsup).imp_right fun hlt => Nat.lt_of_lt_of_le hlt h'.le
    · exact .inr (Nat.lt_of_le_of_lt h.le hlt)

@[simp] lemma errorsNum_error (s : Checker σ) (srcPos : SrcPos) (msg : String) :
    (s.error srcPos msg).errorsNum = s.errorsNum + 1 := List.length_append

@[simp] lemma errorsNum_lastError (s : Checker σ) (srcPos : SrcPos) (msg : String) :
    (s.lastError srcPos msg).errorsNum = s.errorsNum + 1 := List.length_append

lemma Grows.error {s s' : Checker σ} (h : Grows s s') (srcPos : SrcPos) (msg : String) :
    Grows s (s'.error srcPos msg) :=
  h.trans ⟨rfl, rfl, rfl, rfl, by simp, .inl⟩

lemma Grows.lastError {s s' : Checker σ} (h : Grows s s') (srcPos : SrcPos) (msg : String) :
    Grows s (s'.lastError srcPos msg) :=
  h.trans ⟨rfl, rfl, rfl, rfl, by simp, fun _ => .inr (by simp)⟩

/-- A check that starts with reports allowed. -/
lemma Grows.of_reset {s s' : Checker σ} (h : Grows { s with suppressTypeErrors := false } s') :
    Grows s s' where
  env := h.env
  initialized := h.initialized
  nextDecl := h.nextDecl
  generated := h.generated
  le := h.le
  suppressed hsup := .inr ((h.suppressed hsup).resolve_left Bool.false_ne_true)

/-- What is read as the type of an element is one, if an assertion has made sure of it or the type
is one of arrays. -/
lemma isSome_arrayFields {B : Build} {t : Typ} {f : Option Typ × ℤ} (h : B.arrayFields t = some f)
    (ht : B.ndebug = false ∨ t.cons = .array) : f.1.isSome := by
  cases t with
  | array addr basicType arraySize =>
    cases h
    rfl
  | void | int | double | str | boolean | func =>
    have hdebug : B.ndebug = false := ht.resolve_right (by simp)
    simp [Build.arrayFields, hdebug] at h

end Grows

/-- Either an assertion makes sure of it, or only arrays are indexed. -/
def Expr.ArraysOnly (B : Build) (env : Env σ ℕ Typ) (e : Expr σ) : Prop :=
  B.ndebug = false ∨ e.IndexesArrays env

/-- The same of arguments. -/
def ExprList.ArraysOnly (B : Build) (env : Env σ ℕ Typ) (es : ExprList σ) : Prop :=
  B.ndebug = false ∨ es.IndexesArrays env

/-- The result `r` of a check of `e`: after a failure reports are suppressed, and after a success
everything has a type, unless something else than an array has been indexed. -/
structure Reports (B : Build) (s : Checker σ) (e : Expr σ) (r : Checked σ) : Prop where
  grows : Grows s r.2.2
  failed : r.1 = false → r.2.2.suppressTypeErrors
  type : e.ArraysOnly B s.env → r.1 = true → r.2.1.type.isSome
  typed : e.ArraysOnly B s.env → r.1 = true → e.Coherent → r.2.1.Typed

section Reports

variable {B : Build} {s s' : Checker σ} {e e' : Expr σ} {r : Checked σ} {head : Head}

lemma reports_finish {ret : Bool} (hg : Grows s s')
    (htype : e.ArraysOnly B s.env → ret = true → e'.type.isSome)
    (htyped : e.ArraysOnly B s.env → ret = true → e.Coherent → e'.Typed) :
    Reports B s e (finish s' ret e') := by
  refine ⟨?_, ?_, htype, htyped⟩
  · unfold finish
    dsimp only
    split
    · exact hg.lastError _ _
    · exact hg
  · intro hret
    unfold finish at hret ⊢
    dsimp only at hret ⊢
    rw [hret, Bool.not_false, Bool.and_true]
    split
    · rfl
    · next hsup => simpa using hsup

lemma reports_failed (e e' : Expr σ) (hg : Grows s s') : Reports B s e (finish s' false e') :=
  reports_finish hg (fun _ h => absurd h Bool.false_ne_true)
    fun _ h => absurd h Bool.false_ne_true

lemma reports_leaf (hg : Grows s s') (htype : e'.type.isSome) (htyped : e'.Typed) :
    Reports B s e (finish s' true e') :=
  reports_finish hg (fun _ _ => htype) fun _ _ _ => htyped

lemma reports_typed (htype : e.type.isSome) : Reports B s e (true, e, s) :=
  ⟨Grows.refl s, fun hf => absurd hf (by simp), fun _ _ => htype, fun _ _ hc => hc.typed htype⟩

lemma reports_binary {op : BinaryOp} {left right : Expr σ}
    (hleft : ∀ r, doTypeCheck B left s = some r → Reports B s left r)
    (hright : ∀ s r, doTypeCheck B right s = some r → Reports B s right r)
    (hhead : ¬(Expr.binary head op left right).type.isSome)
    (h : doTypeCheck B (.binary head op left right) s = some r) :
    Reports B s (.binary head op left right) r := by
  rw [doTypeCheck, if_neg hhead] at h
  obtain ⟨⟨ret, left', s₁⟩, hl, h⟩ := Option.bind_eq_some_iff.mp h
  obtain ⟨⟨ret', right', s₂⟩, hr, h⟩ := Option.bind_eq_some_iff.mp h
  have hl := hleft _ hl
  cases h
  split at hr
  · next hret =>
      have hr := hright s₁ _ hr
      refine reports_finish (hl.grows.trans hr.grows) (fun _ htype => htype)
        fun hB htype hc => ⟨htype, ?_, ?_⟩
      · exact hl.typed (hB.imp_right And.left) hret hc.2.1
      · refine hr.typed ?_ ?_ hc.2.2
        · rw [Expr.ArraysOnly, hl.grows.env]
          exact hB.imp_right And.right
        · split at htype
          · next hok => exact ((Bool.and_eq_true _ _).mp hok).1
          · cases htype
  · cases hr
    exact reports_failed _ _ hl.grows

lemma reports_unary {op : UnaryOp} {arg : Expr σ}
    (harg : ∀ r, doTypeCheck B arg s = some r → Reports B s arg r)
    (hhead : ¬(Expr.unary head op arg).type.isSome)
    (h : doTypeCheck B (.unary head op arg) s = some r) :
    Reports B s (.unary head op arg) r := by
  rw [doTypeCheck, if_neg hhead] at h
  obtain ⟨⟨ret, arg', s₁⟩, ha, h⟩ := Option.bind_eq_some_iff.mp h
  have ha := harg _ ha
  dsimp only at h
  split at h
  · next hret =>
      obtain ⟨argType, -, h⟩ := Option.bind_eq_some_iff.mp h
      cases h
      have htype : unaryAllowed op argType = true →
          (if unaryAllowed op argType then some argType else none).isSome := by
        intro hok
        rw [if_pos hok]
        rfl
      exact reports_finish ha.grows (fun _ hok => htype hok)
        fun hB hok hc => ⟨htype hok, ha.typed hB hret hc.2⟩
  · cases h
    exact reports_failed _ _ ha.grows

lemma reports_ident {sym : σ} (hhead : ¬(Expr.ident head sym).type.isSome)
    (h : doTypeCheck B (.ident head sym) s = some r) : Reports B s (.ident head sym) r := by
  rw [doTypeCheck, if_neg hhead] at h
  dsimp only at h
  split at h
  · cases h
    refine reports_leaf ?_ rfl rfl
    split
    · exact Grows.refl s
    · exact (Grows.refl s).error _ _
  · cases h
    exact reports_failed _ _ ((Grows.refl s).lastError _ _)

lemma reports_checkArrayIndex {index : Expr σ} {arraySize : ℤ}
    {check : Checker σ → Option (Checked σ)} (hcheck : ∀ r, check s = some r → Reports B s index r)
    (h : checkArrayIndex check s arraySize = some r) :
    Grows s r.2.2 ∧ (r.1 = false → s.errorsNum < r.2.2.errorsNum) ∧
      (index.ArraysOnly B s.env → r.1 = true → index.Coherent → r.2.1.Typed) := by
  obtain ⟨⟨ret, index', s'⟩, hr, h⟩ := Option.bind_eq_some_iff.mp h
  have hrep := hcheck _ hr
  dsimp only at h
  split at h
  · next hok =>
      have hret : ret = true := (Bool.and_eq_true _ _ ▸ hok).1
      have hok : ∀ s'', Grows s' s'' → Grows s s'' ∧ (true = false → s.errorsNum < s''.errorsNum) ∧
          (index.ArraysOnly B s.env → true = true → index.Coherent → index'.Typed) :=
        fun s'' hg => ⟨hrep.grows.trans hg, fun hfalse => absurd hfalse (by simp),
          fun hB _ => hrep.typed hB hret⟩
      split at h
      · split at h
        · cases h
          exact hok _ ⟨rfl, rfl, rfl, rfl, Nat.le_refl _, .inl⟩
        · cases h
          exact hok _ (Grows.refl s')
      · cases h
        exact hok _ (Grows.refl s')
  · cases h
    refine ⟨hrep.grows.error _ _, fun _ => ?_, fun _ hfalse => absurd hfalse Bool.false_ne_true⟩
    rw [errorsNum_error]
    exact Nat.lt_succ_of_le hrep.grows.le

lemma Reports.of_reset (h : Reports B { s with suppressTypeErrors := false } e r) :
    Reports B s e r :=
  ⟨h.grows.of_reset, h.failed, h.type, h.typed⟩

lemma reports_array {sym : σ} {index : Expr σ}
    (hindex : ∀ s r, doTypeCheck B index s = some r → Reports B s index r)
    (hhead : ¬(Expr.array head sym index).type.isSome)
    (h : doTypeCheck B (.array head sym index) s = some r) :
    Reports B s (.array head sym index) r := by
  rw [doTypeCheck, if_neg hhead] at h
  dsimp only at h
  split at h
  · next decl hdecl =>
      obtain ⟨⟨basicType, arraySize⟩, hfields, h⟩ := Option.bind_eq_some_iff.mp h
      obtain ⟨⟨ret, index', s₁⟩, hcheck, h⟩ := Option.bind_eq_some_iff.mp h
      cases h
      have htype : (Expr.array head sym index).ArraysOnly B s.env → basicType.isSome :=
        fun hB => isSome_arrayFields hfields (hB.imp_right fun hB => hB.1 decl hdecl)
      have hreports : ∀ r, doTypeCheck B index { s with suppressTypeErrors := false } = some r →
          Reports B s index r := fun r hr => (hindex _ r hr).of_reset
      obtain ⟨hg, -, htyped⟩ := reports_checkArrayIndex hreports hcheck
      exact reports_finish hg (fun hB _ => htype hB)
        fun hB hok hc => ⟨htype hB, htyped (hB.imp_right And.right) hok hc.2⟩
  · cases h
    exact reports_failed _ _ ((Grows.refl s).lastError _ _)

/-- The result of the loop over the arguments. -/
structure ArgsReports (B : Build) (s : Checker σ) (args : ExprList σ)
    (r : Bool × Bool × ExprList σ × Checker σ) : Prop where
  grows : Grows s r.2.2.2
  typed : args.ArraysOnly B s.env → r.1 = true → r.2.1 = false → args.Coherent → r.2.2.1.Typed

lemma reports_call {sym : σ} {args : ExprList σ}
    (hargs : ∀ argsTp r, checkArgs B args argsTp s = some r → ArgsReports B s args r)
    (hhead : ¬(Expr.call head sym args).type.isSome)
    (h : doTypeCheck B (.call head sym args) s = some r) :
    Reports B s (.call head sym args) r := by
  rw [doTypeCheck, if_neg hhead] at h
  dsimp only at h
  split at h
  · split at h
    · obtain ⟨⟨ret, rest, args', s₁⟩, hcheck, h⟩ := Option.bind_eq_some_iff.mp h
      cases h
      obtain ⟨hg, htyped⟩ := hargs _ _ hcheck
      refine reports_finish ?_ (fun _ hok => ?_) fun hB hok hc => ?_
      · dsimp only
        split
        · exact hg.lastError _ _
        · exact hg
      · rw [Expr.type, Expr.head, if_pos hok]
        rfl
      · have hboth := (Bool.and_eq_true _ _).mp hok
        refine ⟨?_, htyped hB hboth.1 ?_ hc.2⟩
        · rw [if_pos hok]
          rfl
        · rw [← Bool.not_eq_true']
          exact hboth.2
    · cases h
      exact reports_failed _ _ ((Grows.refl s).lastError _ _)
  · cases h
    exact reports_failed _ _ ((Grows.refl s).lastError _ _)

lemma reports_arg {srcPos : SrcPos} {expr : Expr σ} {next : ExprList σ} {type : Typ}
    {argsTp : List Typ} {r : Bool × Bool × ExprList σ × Checker σ}
    (hexpr : ∀ r, doTypeCheck B expr s = some r → Reports B s expr r)
    (hnext : ∀ s r, checkArgs B next argsTp s = some r → ArgsReports B s next r)
    (h : checkArgs B (.cons srcPos expr next) (type :: argsTp) s = some r) :
    ArgsReports B s (.cons srcPos expr next) r := by
  rw [checkArgs] at h
  obtain ⟨⟨ret, expr', s₁⟩, he, h⟩ := Option.bind_eq_some_iff.mp h
  obtain ⟨ret', hret', h⟩ := Option.bind_eq_some_iff.mp h
  have he := hexpr _ he
  dsimp only at h hret'
  split at h
  · next hok =>
      obtain ⟨⟨ret'', rest, next', s₂⟩, hn, h⟩ := Option.bind_eq_some_iff.mp h
      obtain ⟨hg, htyped⟩ := hnext s₁ _ hn
      have hret : ret = true := by
        by_contra hne
        rw [if_neg hne, hok] at hret'
        cases hret'
      cases h
      refine ⟨he.grows.trans hg, fun hB hret'' hrest hc => ⟨?_, ?_⟩⟩
      · exact he.typed (hB.imp_right And.left) hret hc.1
      · refine htyped ?_ hret'' hrest hc.2
        rw [ExprList.ArraysOnly, he.grows.env]
        exact hB.imp_right And.right
  · cases h
    exact ⟨he.grows.lastError _ _, fun _ hf => absurd hf (by simp)⟩

end Reports

section Checks

variable (B : Build)

mutual

theorem doTypeCheck_reports (e : Expr σ) (s : Checker σ) (r : Checked σ)
    (h : doTypeCheck B e s = some r) : Reports B s e r := by
  by_cases htype : e.type.isSome
  · rw [doTypeCheck.eq_def, if_pos htype] at h
    cases h
    exact reports_typed htype
  match e with
  | .binary head op left right =>
      exact reports_binary (doTypeCheck_reports left s) (doTypeCheck_reports right) htype h
  | .unary head op arg => exact reports_unary (doTypeCheck_reports arg s) htype h
  | .int head value | .bool head value | .double head value | .str head value =>
      rw [doTypeCheck, if_neg htype] at h
      cases h
      exact reports_leaf (Grows.refl s) rfl rfl
  | .ident head sym => exact reports_ident htype h
  | .array head sym index => exact reports_array (doTypeCheck_reports index) htype h
  | .call head sym args =>
      exact reports_call (fun argsTp => checkArgs_reports args argsTp s) htype h

theorem checkArgs_reports (args : ExprList σ) (argsTp : List Typ) (s : Checker σ)
    (r : Bool × Bool × ExprList σ × Checker σ) (h : checkArgs B args argsTp s = some r) :
    ArgsReports B s args r := by
  match args, argsTp with
  | .nil, _ =>
      rw [checkArgs] at h
      cases h
      exact ⟨Grows.refl s, fun _ _ _ _ => trivial⟩
  | .cons srcPos expr next, [] =>
      unfold checkArgs at h
      cases h
      exact ⟨Grows.refl s, fun _ _ hrest => absurd hrest (by simp)⟩
  | .cons srcPos expr next, type :: argsTp =>
      exact reports_arg (doTypeCheck_reports expr s) (checkArgs_reports next argsTp) h

end

end Checks

/-- **A failed type check reports an error**, and a successful one leaves a type at every node. -/
theorem typeCheck_reports {B : Build} {e : Expr σ} {s : Checker σ} {r : Checked σ}
    (h : typeCheck B e s = some r) :
    (r.1 = false → s.errorsNum < r.2.2.errorsNum) ∧ Reports B s e r := by
  have hrep := doTypeCheck_reports B e _ r h
  refine ⟨fun hret => ?_, hrep.of_reset⟩
  exact (hrep.grows.suppressed (hrep.failed hret)).resolve_left Bool.false_ne_true

/-! ## Where a check returns -/

section Returns

variable {B : Build} {s : Checker σ}

omit [DecidableEq σ] in
lemma checkArrayIndex_returns {check : Checker σ → Option (Checked σ)} {arraySize : ℤ}
    (h : ∃ r, check s = some r) : ∃ r, checkArrayIndex check s arraySize = some r := by
  obtain ⟨⟨ret, index, s'⟩, h⟩ := h
  rw [checkArrayIndex, h]
  dsimp only [Option.bind_eq_bind, Option.bind_some]
  split
  · split
    · split
      · exact ⟨_, rfl⟩
      · exact ⟨_, rfl⟩
    · exact ⟨_, rfl⟩
  · exact ⟨_, rfl⟩

variable (B)

mutual

/-- Where only arrays are indexed, no assertion fails and no null pointer is followed. -/
theorem doTypeCheck_returns (e : Expr σ) (s : Checker σ) (h : e.IndexesArrays s.env) :
    ∃ r, doTypeCheck B e s = some r := by
  by_cases htype : e.type.isSome
  · rw [doTypeCheck.eq_def, if_pos htype]
    exact ⟨_, rfl⟩
  match e with
  | .binary head op left right =>
      obtain ⟨⟨ret, left', s₁⟩, hl⟩ := doTypeCheck_returns left s h.1
      -- the check of the left operand leaves the declarations as they are
      have henv : right.IndexesArrays s₁.env :=
        (doTypeCheck_reports B left s _ hl).grows.env ▸ h.2
      obtain ⟨r, hr⟩ := doTypeCheck_returns right s₁ henv
      rw [doTypeCheck, if_neg htype, hl]
      cases ret with
      | false => exact ⟨_, rfl⟩
      | true =>
        dsimp only [Option.bind_eq_bind, Option.bind_some]
        rw [if_pos rfl, hr]
        exact ⟨_, rfl⟩
  | .unary head op arg =>
      obtain ⟨⟨ret, arg', s₁⟩, ha⟩ := doTypeCheck_returns arg s h
      have hrep := doTypeCheck_reports B arg s _ ha
      rw [doTypeCheck, if_neg htype, ha]
      cases ret with
      | false => exact ⟨_, rfl⟩
      | true =>
        -- the operation reads the type that the check has found
        obtain ⟨t, ht⟩ := Option.isSome_iff_exists.mp (hrep.type (.inr h) rfl)
        dsimp only [Option.bind_eq_bind, Option.bind_some] at ht ⊢
        rw [if_pos rfl, ht]
        exact ⟨_, rfl⟩
  | .int head value | .bool head value | .double head value | .str head value =>
      rw [doTypeCheck, if_neg htype]
      exact ⟨_, rfl⟩
  | .ident head sym =>
      rw [doTypeCheck, if_neg htype]
      dsimp only
      split
      · exact ⟨_, rfl⟩
      · exact ⟨_, rfl⟩
  | .array head sym index =>
      rw [doTypeCheck, if_neg htype]
      dsimp only
      split
      · next decl hdecl =>
          -- the type has the fields of an array
          obtain ⟨a, basicType, arraySize, harray⟩ : ∃ a t n, decl.type = .array a t n := by
            have hcons := h.1 decl hdecl
            cases htp : decl.type with
            | array a t n => exact ⟨a, t, n, rfl⟩
            | void | int | double | str | boolean | func => simp [htp] at hcons
          have hindex : ∃ r, doTypeCheck B index { s with suppressTypeErrors := false } = some r :=
            doTypeCheck_returns index _ h.2
          obtain ⟨r, hr⟩ : ∃ r, checkArrayIndex
              (fun s => doTypeCheck B index { s with suppressTypeErrors := false }) s arraySize =
                some r := checkArrayIndex_returns hindex
          rw [harray]
          dsimp only [Build.arrayFields, Option.bind_eq_bind, Option.bind_some]
          rw [hr]
          exact ⟨_, rfl⟩
      · exact ⟨_, rfl⟩
  | .call head sym args =>
      rw [doTypeCheck, if_neg htype]
      dsimp only
      split
      · split
        · next argsTp _ =>
            obtain ⟨r, hr⟩ := checkArgs_returns args argsTp s h
            rw [hr]
            exact ⟨_, rfl⟩
        · exact ⟨_, rfl⟩
      · exact ⟨_, rfl⟩

theorem checkArgs_returns (args : ExprList σ) (argsTp : List Typ) (s : Checker σ)
    (h : args.IndexesArrays s.env) : ∃ r, checkArgs B args argsTp s = some r := by
  match args, argsTp with
  | .nil, _ =>
      unfold checkArgs
      exact ⟨_, rfl⟩
  | .cons srcPos expr next, [] =>
      unfold checkArgs
      exact ⟨_, rfl⟩
  | .cons srcPos expr next, type :: argsTp =>
      obtain ⟨⟨ret, expr', s₁⟩, he⟩ := doTypeCheck_returns expr s h.1
      have hrep := doTypeCheck_reports B expr s _ he
      obtain ⟨r, hr⟩ := checkArgs_returns next argsTp s₁ (hrep.grows.env ▸ h.2)
      rw [checkArgs, he]
      cases ret with
      | false => exact ⟨_, rfl⟩
      | true =>
        obtain ⟨t, ht⟩ := Option.isSome_iff_exists.mp (hrep.type (.inr h.1) rfl)
        dsimp only [Option.bind_eq_bind, Option.bind_some] at ht ⊢
        rw [if_pos rfl, ht]
        dsimp only [Option.map_some, Option.bind_some]
        split
        · rw [hr]
          exact ⟨_, rfl⟩
        · exact ⟨_, rfl⟩

end

end Returns

/-! ## What the assertions change -/

section Asserting

omit [DecidableEq σ]

lemma arrayFields_asserting (B : Build) (t : Typ) :
    Agrees (B.asserting.arrayFields t) (B.arrayFields t) := by
  cases t with
  | array => exact Agrees.refl _
  | void | int | double | str | boolean | func => exact Agrees.of_none _

lemma agrees_checkArrayIndex {check check' : Checker σ → Option (Checked σ)} {s : Checker σ}
    (h : Agrees (check s) (check' s)) (arraySize : ℤ) :
    Agrees (checkArrayIndex check s arraySize) (checkArrayIndex check' s arraySize) :=
  h.bind fun _ => Agrees.refl _

end Asserting

mutual

/-- A check in which no assertion fails is the same without assertions. -/
theorem doTypeCheck_asserting (B : Build) (e : Expr σ) (s : Checker σ) :
    Agrees (doTypeCheck B.asserting e s) (doTypeCheck B e s) := by
  rw [doTypeCheck.eq_def, doTypeCheck.eq_def B]
  apply Agrees.ite (Agrees.refl _)
  match e with
  | .binary head op left right =>
      apply (doTypeCheck_asserting B left s).bind
      rintro ⟨ret, left', s₁⟩
      apply Agrees.bind
      · exact (doTypeCheck_asserting B right s₁).ite (Agrees.refl _)
      · exact fun _ => Agrees.refl _
  | .unary head op arg => exact (doTypeCheck_asserting B arg s).bind fun _ => Agrees.refl _
  | .int head value | .bool head value | .double head value | .str head value
  | .ident head sym => exact Agrees.refl _
  | .array head sym index =>
      dsimp only
      split
      · next decl _ =>
          apply (arrayFields_asserting B decl.type).bind
          rintro ⟨basicType, arraySize⟩
          have hindex := doTypeCheck_asserting B index { s with suppressTypeErrors := false }
          exact (agrees_checkArrayIndex hindex arraySize).bind fun _ => Agrees.refl _
      · exact Agrees.refl _
  | .call head sym args =>
      dsimp only
      split
      · split
        · exact (checkArgs_asserting B args _ s).bind fun _ => Agrees.refl _
        · exact Agrees.refl _
      · exact Agrees.refl _

theorem checkArgs_asserting (B : Build) (args : ExprList σ) (argsTp : List Typ) (s : Checker σ) :
    Agrees (checkArgs B.asserting args argsTp s) (checkArgs B args argsTp s) := by
  rw [checkArgs.eq_def, checkArgs.eq_def B]
  match args, argsTp with
  | .nil, _ => exact Agrees.refl _
  | .cons srcPos expr next, [] => exact Agrees.refl _
  | .cons srcPos expr next, type :: argsTp =>
      apply (doTypeCheck_asserting B expr s).bind
      rintro ⟨ret, expr', s₁⟩
      apply (Agrees.refl _).bind
      intro ret'
      exact ((checkArgs_asserting B next argsTp s₁).bind fun _ => Agrees.refl _).ite
        (Agrees.refl _)

end

lemma typeCheck_asserting (B : Build) (e : Expr σ) (s : Checker σ) :
    Agrees (typeCheck B.asserting e s) (typeCheck B e s) := doTypeCheck_asserting B e _

end Javalette.Check
