import Javalette.Check.TypeCheck

/-!
# `tree.c`: the semantic check

`do_semantic_check` goes through the instructions in the order of the text.  It declares the
variables, checks the expressions and hands what it has checked to the generator of code as long
as there are no errors.  What the generator does with it is left out: it does not report errors.

A failing assertion, a null pointer and too many nested blocks yield `none`.
-/

namespace Javalette.Check

open Javalette.Scope Javalette.Types

/-- `declarator_t`. -/
inductive Declarator (σ : Type)
  | var (srcPos : SrcPos) (sym : σ) (init : Option (Expr σ))
  | array (srcPos : SrcPos) (sym : σ) (arraySize : ℤ)

mutual

/-- The nodes that `instr_t` can hold; an instruction of a block is one of them or a block. -/
inductive Instr (σ : Type)
  | empty
  | expr (expr : Expr σ)
  | block (body : InstrList σ)
  | declaration (srcPos : SrcPos) (type : Typ) (decls : List (Declarator σ))
  | assign (srcPos : SrcPos) (lvalue expr : Expr σ)
  | inc (srcPos : SrcPos) (lvalue : Expr σ)
  | dec (srcPos : SrcPos) (lvalue : Expr σ)
  | ifThen (cond : Expr σ) (thenInstr : Instr σ)
  | ifElse (cond : Expr σ) (thenInstr elseInstr : Instr σ)
  | whileDo (cond : Expr σ) (body : Instr σ)
  | forDo (instr1 : Instr σ) (cond : Expr σ) (instr3 body : Instr σ)
  | ret (srcPos : SrcPos) (expr : Option (Expr σ))

/-- `instr_t`. -/
inductive InstrList (σ : Type)
  | nil
  | cons (instr : Instr σ) (next : InstrList σ)

end

/-- `arg_t`. -/
structure Arg (σ : Type) where
  type : Typ
  sym : σ
  srcPos : SrcPos

/-- `func_t`; its type is at the address `addr`. -/
structure Func (σ : Type) where
  srcPos : SrcPos
  sym : σ
  addr : ℕ
  returnType : Typ
  args : List (Arg σ)
  body : InstrList σ

variable {σ : Type}

/-- `node->type` of a function. -/
def Func.type (f : Func σ) : Typ :=
  .func f.addr f.returnType f.args.length (f.args.map Arg.type)

namespace Checker

/-- `should_generate_code`. -/
def shouldGenerateCode (s : Checker σ) : Bool := s.errorsNum = 0 && !s.suppressCodeGeneration

/-- `gencode` of a node with the expressions `es`, and the calls of the generator elsewhere. -/
def generate (s : Checker σ) (es : List (Expr σ)) : Checker σ :=
  if s.shouldGenerateCode then { s with generated := s.generated ++ es } else s

/-- An error if `bad` holds. -/
def errorIf (s : Checker σ) (bad : Bool) (srcPos : SrcPos) (msg : String) : Checker σ :=
  if bad then s.error srcPos msg else s

variable [DecidableEq σ]

/-- An action on the scopes. -/
def act (s : Checker σ) (a : Action σ ℕ Typ) : Option (Checker σ) := do
  return { s with env := ← s.env.act a }

/-- `declare`. -/
def declare (s : Checker σ) (sym : σ) (type : Typ) (srcPos : SrcPos) : Option (Checker σ) :=
  if sym ∈ (s.env.headD []).map Entry.sym then some (s.error srcPos "duplicate identifier")
  else do
    let s ← s.act (.declare sym type srcPos s.nextDecl)
    return { s with
      initialized := Function.update s.initialized s.nextDecl false
      nextDecl := s.nextDecl + 1 }

/-- `sym->decl->initialized = true`. -/
def setInitialized (s : Checker σ) (sym : σ) : Option (Checker σ) := do
  let decl ← s.env.innermost sym
  return { s with initialized := Function.update s.initialized decl.cell true }

end Checker

variable [DecidableEq σ] (B : Build)

/-- `check_lvalue`. -/
def checkLvalue (lvalue : Expr σ) (s : Checker σ) : Option (Checked σ) :=
  match lvalue with
  | .ident head sym =>
      match s.env.innermost sym with
      | some decl =>
          some (true, .ident { head with type := some decl.type } sym,
            { s with initialized := Function.update s.initialized decl.cell true })
      | none => some (false, lvalue, s.error head.srcPos "undefined identifier")
  | .array head sym index =>
      match s.env.innermost sym with
      | some decl => do
          let (basicType, arraySize) ← B.arrayFields decl.type
          let (ret, index, s) ← checkArrayIndex (typeCheck B index) s arraySize
          return (ret, .array { head with type := basicType } sym index, s)
      | none => some (false, lvalue, s.error head.srcPos "undefined identifier")
  | lvalue => some (false, lvalue, s.error lvalue.srcPos "invalid lvalue")

/-- The check has succeeded, but the type is not equivalent to `type`. -/
def mismatch (ret : Bool) (actual : Option Typ) (type : Typ) : Option Bool :=
  if ret then actual.map fun t => !typeEquiv t type else some false

/-- The check of an expression whose type has to be equivalent to `type`. -/
def checkAgainst (type : Typ) (srcPos : SrcPos) (msg : String) (e : Expr σ) (s : Checker σ) :
    Option (Expr σ × Checker σ) := do
  let (ret, e, s) ← typeCheck B e s
  let bad ← mismatch ret e.type type
  return (e, s.errorIf bad srcPos msg)

/-- `INT_MAX`. -/
def intMax : ℤ := 2147483647

/-- The turn of the loop of `NODE_DECLARATION`. -/
def checkDeclarator (type : Typ) (s : Checker σ) : Declarator σ → Option (Checker σ)
  | .var srcPos sym none => s.declare sym type srcPos
  | .var srcPos sym (some init) => do
      let (init, s) ← checkAgainst B type init.srcPos "type error" init s
      let s ← (s.generate [init]).declare sym type srcPos
      s.setInitialized sym
  | .array srcPos sym arraySize => do
      let s := s.errorIf (arraySize < 0) srcPos "negative array size"
      let arraySize := if arraySize < 0 then intMax else arraySize
      let s ← s.declare sym (.array s.nextDecl type arraySize) srcPos
      s.setInitialized sym

/-- `NODE_DECLARATION`. -/
def checkDeclaration (srcPos : SrcPos) (type : Typ) (decls : List (Declarator σ))
    (s : Checker σ) : Option (Checker σ) :=
  if sameType type (some .void) then
    some (s.error srcPos "declaring identifier(s) as void")
  else decls.foldlM (checkDeclarator B type) s

/-- `NODE_ASSIGN`. -/
def checkAssign (lvalue expr : Expr σ) (s : Checker σ) : Option (Checker σ) := do
  let (flag, expr, s) ← typeCheck B expr s
  let (ok, lvalue, s) ← checkLvalue B lvalue s
  let bad ← (if ok && flag then do return !typeEquiv (← expr.type) (← lvalue.type)
    else some false)
  return (s.errorIf bad expr.srcPos "type error").generate [lvalue, expr]

/-- `NODE_INC` and `NODE_DEC`. -/
def checkInc (srcPos : SrcPos) (lvalue : Expr σ) (s : Checker σ) : Option (Checker σ) := do
  let (ok, lvalue, s) ← checkLvalue B lvalue s
  return (s.errorIf (ok && !sameType lvalue.type (some .int)) srcPos "type error").generate [lvalue]

/-- `NODE_RETURN` in a function whose result is of the type `returnType`. -/
def checkReturn (returnType : Typ) (srcPos : SrcPos) (expr : Option (Expr σ)) (s : Checker σ) :
    Option (Checker σ) :=
  match expr with
  | none =>
      some ((s.errorIf (!sameType returnType (some .void)) srcPos "return type error").generate [])
  | some expr =>
      if sameType returnType (some .void) then
        some ((s.error srcPos "return type error").generate [expr])
      else do
        let (ret, expr, s) ← typeCheck B expr s
        let bad ← (if ret then expr.type.map fun t => !typeEquiv returnType t else some false)
        return (s.errorIf bad srcPos "return type error").generate [expr]

mutual

/-- `do_semantic_check` of an instruction, and what it leaves in `*was_return`. -/
def doSemanticCheck (returnType : Typ) : Instr σ → Checker σ → Option (Bool × Checker σ)
  | .empty, s => some (false, s)
  | .expr expr, s => do
      let (expr, s) ← checkAgainst B .void expr.srcPos "invalid statement" expr s
      return (false, s.generate [expr])
  | .block body, s => do
      let s ← s.act .push
      let (wasReturn, s) ← doSemanticChecks returnType body s
      return (wasReturn, ← s.act .pop)
  | .declaration srcPos type decls, s => do return (false, ← checkDeclaration B srcPos type decls s)
  | .assign _ lvalue expr, s => do return (false, ← checkAssign B lvalue expr s)
  | .inc srcPos lvalue, s | .dec srcPos lvalue, s => do return (false, ← checkInc B srcPos lvalue s)
  | .ifThen cond thenInstr, s => do
      let (cond, s) ← checkAgainst B .boolean cond.srcPos "type error" cond s
      let (_, s) ← doSemanticCheck returnType thenInstr (s.generate [cond])
      return (false, s)
  | .ifElse cond thenInstr elseInstr, s => do
      let (cond, s) ← checkAgainst B .boolean cond.srcPos "type error" cond s
      let (wr1, s) ← doSemanticCheck returnType thenInstr (s.generate [cond])
      let (wr2, s) ← doSemanticCheck returnType elseInstr s
      return (wr1 && wr2, s)
  | .whileDo cond body, s => do
      let (cond, s) ←
        checkAgainst B .boolean cond.srcPos "type error: expected boolean expression" cond s
      let (_, s) ← doSemanticCheck returnType body s
      return (false, s.generate [cond])
  | .forDo instr1 cond instr3 body, s => do
      let (_, s) ← doSemanticCheck returnType instr1 s
      let (cond, s) ←
        checkAgainst B .boolean cond.srcPos "type error: expected boolean expression" cond s
      let (_, s) ← doSemanticCheck returnType body s
      let (_, s) ← doSemanticCheck returnType instr3 s
      return (false, s.generate [cond])
  | .ret srcPos expr, s => do return (true, ← checkReturn B returnType srcPos expr s)

/-- The loop over the instructions of a block. -/
def doSemanticChecks (returnType : Typ) : InstrList σ → Checker σ → Option (Bool × Checker σ)
  | .nil, s => some (false, s)
  | .cons instr next, s => do
      let (wr1, s) ← doSemanticCheck returnType instr s
      let (wasReturn, s) ← doSemanticChecks returnType next s
      return (wr1 || wasReturn, s)

end

/-- `main_type`. -/
def mainType : Typ := .func 0 .int 0 []

/-- The turn of the loop of `NODE_FUNC` over the parameters. -/
def declareArg (s : Checker σ) (arg : Arg σ) : Option (Checker σ) := do
  let s ← s.declare arg.sym arg.type arg.srcPos
  s.setInitialized arg.sym

/-- The turn of the loop of `NODE_FUNC`. -/
def checkFunc (mainSym : σ) (s : Checker σ) (f : Func σ) : Option (Checker σ) := do
  let s := s.errorIf (f.sym = mainSym && !typeEquiv f.type mainType) f.srcPos
    "wrong type of function main()"
  let s ← s.act .push
  let s ← f.args.foldlM declareArg s
  let (wasReturn, s) ← doSemanticCheck B f.returnType (.block f.body) s
  let s := s.errorIf (!wasReturn && !sameType f.returnType (some .void)) f.srcPos
    "missing return statement in function"
  s.act .pop

/-- `semantic_check`. -/
def semanticCheck (mainSym : σ) (funcs : List (Func σ)) (s : Checker σ) : Option (Checker σ) := do
  let s ← funcs.foldlM (checkFunc B mainSym) s
  return s.errorIf (!funcs.any fun f => f.sym = mainSym) ⟨0, 0⟩ "no main function"

/-! ## What is handed to the generator -/

section Coherent

omit [DecidableEq σ]

/-- The initializer of a declarator is as the parser has made it. -/
def Declarator.Coherent : Declarator σ → Prop
  | .var _ _ (some init) => init.Coherent
  | _ => True

mutual

/-- All expressions of the instruction are as the parser has made them. -/
def Instr.Coherent : Instr σ → Prop
  | .empty => True
  | .expr expr => expr.Coherent
  | .block body => body.Coherent
  | .declaration _ _ decls => ∀ d ∈ decls, d.Coherent
  | .assign _ lvalue expr => lvalue.Coherent ∧ expr.Coherent
  | .inc _ lvalue | .dec _ lvalue => lvalue.Coherent
  | .ifThen cond thenInstr => cond.Coherent ∧ thenInstr.Coherent
  | .ifElse cond thenInstr elseInstr =>
      cond.Coherent ∧ thenInstr.Coherent ∧ elseInstr.Coherent
  | .whileDo cond body => cond.Coherent ∧ body.Coherent
  | .forDo instr1 cond instr3 body =>
      instr1.Coherent ∧ cond.Coherent ∧ instr3.Coherent ∧ body.Coherent
  | .ret _ expr => ∀ e ∈ expr, e.Coherent

/-- The same of every instruction of a block. -/
def InstrList.Coherent : InstrList σ → Prop
  | .nil => True
  | .cons instr next => instr.Coherent ∧ next.Coherent

end

/-- Every expression that has been handed to the generator has a type at every node. -/
def Checker.Clean (s : Checker σ) : Prop := ∀ e ∈ s.generated, e.Typed

/-- From `s` to `s'` no errors have been withdrawn, and only typed expressions have been handed to
the generator. -/
structure Advances (s s' : Checker σ) : Prop where
  le : s.errorsNum ≤ s'.errorsNum
  clean : s.Clean → s'.Clean

lemma Advances.refl (s : Checker σ) : Advances s s := ⟨Nat.le_refl _, id⟩

lemma Advances.trans {s s' s'' : Checker σ} (h : Advances s s') (h' : Advances s' s'') :
    Advances s s'' := ⟨Nat.le_trans h.le h'.le, h'.clean ∘ h.clean⟩

lemma Advances.eq_zero {s s' : Checker σ} (h : Advances s s') (h0 : s'.errorsNum = 0) :
    s.errorsNum = 0 := Nat.le_zero.mp (h0 ▸ h.le)

lemma Grows.advances {s s' : Checker σ} (h : Grows s s') : Advances s s' := by
  refine ⟨h.le, fun hc => ?_⟩
  rw [Checker.Clean, h.generated]
  exact hc

lemma advances_error (s : Checker σ) (srcPos : SrcPos) (msg : String) :
    Advances s (s.error srcPos msg) := ((Grows.refl s).error srcPos msg).advances

lemma advances_errorIf (s : Checker σ) (bad : Bool) (srcPos : SrcPos) (msg : String) :
    Advances s (s.errorIf bad srcPos msg) := by
  unfold Checker.errorIf
  split
  · exact advances_error s srcPos msg
  · exact Advances.refl s

lemma errorsNum_generate (s : Checker σ) (es : List (Expr σ)) :
    (s.generate es).errorsNum = s.errorsNum := by
  unfold Checker.generate
  split <;> rfl

/-- The generator is called with expressions that are typed if there are no errors. -/
lemma advances_generate {s : Checker σ} {es : List (Expr σ)}
    (h : s.errorsNum = 0 → ∀ e ∈ es, e.Typed) : Advances s (s.generate es) := by
  refine ⟨Nat.le_of_eq (errorsNum_generate s es).symm, fun hc => ?_⟩
  unfold Checker.generate
  split
  · next hshould =>
      rw [Checker.shouldGenerateCode, Bool.and_eq_true, decide_eq_true_eq] at hshould
      intro e he
      obtain he | he := List.mem_append.mp he
      · exact hc e he
      · exact h hshould.1 e he
  · exact hc

/-- The generator is called with a condition that has been checked before `s`. -/
lemma advances_generate_cond {s s₁ : Checker σ} {cond : Expr σ} (hadv : Advances s₁ s)
    (htyped : s₁.errorsNum = 0 → cond.Typed) : Advances s (s.generate [cond]) := by
  apply advances_generate
  intro h0 e hmem
  rw [List.mem_singleton.mp hmem]
  exact htyped (hadv.eq_zero h0)

/-- A loop advances when each of its turns does. -/
lemma foldlM_advances {γ : Type} {f : Checker σ → γ → Option (Checker σ)} {l : List γ}
    (hf : ∀ x ∈ l, ∀ s s', f s x = some s' → Advances s s') :
    ∀ {s s'}, l.foldlM f s = some s' → Advances s s' := by
  induction l with
  | nil =>
      intro s s' h
      cases h
      exact Advances.refl s
  | cons x l ih =>
      intro s s' h
      rw [List.foldlM_cons] at h
      obtain ⟨s₁, hx, h⟩ := Option.bind_eq_some_iff.mp h
      exact (hf x List.mem_cons_self s s₁ hx).trans
        (ih (fun y hy => hf y (List.mem_cons_of_mem x hy)) h)

end Coherent

variable {s s' : Checker σ}

lemma advances_act {a : Action σ ℕ Typ} (h : s.act a = some s') : Advances s s' := by
  obtain ⟨env, -, h⟩ := Option.bind_eq_some_iff.mp h
  cases h
  exact ⟨Nat.le_refl _, id⟩

lemma advances_declare {sym : σ} {type : Typ} {srcPos : SrcPos}
    (h : s.declare sym type srcPos = some s') : Advances s s' := by
  unfold Checker.declare at h
  split at h
  · cases h
    exact advances_error s _ _
  · obtain ⟨s₁, hact, h⟩ := Option.bind_eq_some_iff.mp h
    cases h
    exact (advances_act hact).trans ⟨Nat.le_refl _, id⟩

lemma advances_setInitialized {sym : σ} (h : s.setInitialized sym = some s') : Advances s s' := by
  obtain ⟨decl, -, h⟩ := Option.bind_eq_some_iff.mp h
  cases h
  exact ⟨Nat.le_refl _, id⟩

section Asserted

-- in a build with the assertions, nothing but an array has been indexed when a check returns
variable {B : Build} (hB : B.ndebug = false)

include hB

/-- An expression that has been checked is typed as long as there are no errors. -/
lemma typed_of_typeCheck {e : Expr σ} {r : Checked σ} (h : typeCheck B e s = some r)
    (hc : e.Coherent) (h0 : r.2.2.errorsNum = 0) : r.2.1.Typed := by
  obtain ⟨hfailed, hrep⟩ := typeCheck_reports h
  cases hret : r.1 with
  | false =>
      have hlt := hfailed hret
      omega
  | true => exact hrep.typed (.inl hB) hret hc

lemma checkAgainst_advances {type : Typ} {srcPos : SrcPos} {msg : String} {e : Expr σ}
    {r : Expr σ × Checker σ} (hc : e.Coherent) (h : checkAgainst B type srcPos msg e s = some r) :
    Advances s r.2 ∧ (r.2.errorsNum = 0 → r.1.Typed) := by
  obtain ⟨⟨ret, e', s₁⟩, hcheck, h⟩ := Option.bind_eq_some_iff.mp h
  obtain ⟨bad, -, h⟩ := Option.bind_eq_some_iff.mp h
  cases h
  have herr := advances_errorIf s₁ bad srcPos msg
  refine ⟨(typeCheck_reports hcheck).2.grows.advances.trans herr, fun h0 => ?_⟩
  exact typed_of_typeCheck hB hcheck hc (herr.eq_zero h0)

lemma checkLvalue_advances {e : Expr σ} {r : Checked σ} (hc : e.Coherent)
    (h : checkLvalue B e s = some r) :
    Advances s r.2.2 ∧ (r.2.2.errorsNum = 0 → r.2.1.Typed) := by
  -- where a message is given the count is not zero, so nothing more is asked
  have hbad : ∀ srcPos msg, Advances s (s.error srcPos msg) ∧
      ((s.error srcPos msg).errorsNum = 0 → e.Typed) := by
    intro srcPos msg
    refine ⟨advances_error s srcPos msg, fun h0 => ?_⟩
    rw [errorsNum_error] at h0
    cases h0
  unfold checkLvalue at h
  split at h
  · split at h
    · cases h
      exact ⟨⟨Nat.le_refl _, id⟩, fun _ => rfl⟩
    · cases h
      exact hbad _ _
  · split at h
    · obtain ⟨⟨basicType, arraySize⟩, hfields, h⟩ := Option.bind_eq_some_iff.mp h
      obtain ⟨⟨ret, index', s₁⟩, hindex, h⟩ := Option.bind_eq_some_iff.mp h
      cases h
      obtain ⟨hg, hfailed, htyped⟩ :=
        reports_checkArrayIndex (fun r hr => (typeCheck_reports hr).2) hindex
      refine ⟨hg.advances, fun h0 => ⟨isSome_arrayFields hfields (.inl hB), ?_⟩⟩
      refine htyped (.inl hB) ?_ hc.2
      by_contra hne
      have hlt := hfailed (Bool.not_eq_true _ ▸ hne)
      dsimp only at h0 hlt
      omega
    · cases h
      exact hbad _ _
  · cases h
    exact hbad _ _

lemma checkDeclarator_advances {type : Typ} {d : Declarator σ} (hc : d.Coherent)
    (h : checkDeclarator B type s d = some s') : Advances s s' := by
  match d with
  | .var srcPos sym none => exact advances_declare h
  | .var srcPos sym (some init) =>
      obtain ⟨⟨init', s₁⟩, hinit, h⟩ := Option.bind_eq_some_iff.mp h
      obtain ⟨s₂, hdeclare, h⟩ := Option.bind_eq_some_iff.mp h
      obtain ⟨hadv, htyped⟩ := checkAgainst_advances hB hc hinit
      have hgen : Advances s₁ (s₁.generate [init']) := by
        apply advances_generate
        intro h0 e he
        rw [List.mem_singleton.mp he]
        exact htyped h0
      exact ((hadv.trans hgen).trans (advances_declare hdeclare)).trans (advances_setInitialized h)
  | .array srcPos sym arraySize =>
      obtain ⟨s₁, hdeclare, h⟩ := Option.bind_eq_some_iff.mp h
      exact ((advances_errorIf s _ _ _).trans (advances_declare hdeclare)).trans
        (advances_setInitialized h)

lemma checkDeclaration_advances {srcPos : SrcPos} {type : Typ} {decls : List (Declarator σ)}
    (hc : ∀ d ∈ decls, d.Coherent) (h : checkDeclaration B srcPos type decls s = some s') :
    Advances s s' := by
  unfold checkDeclaration at h
  split at h
  · cases h
    exact advances_error s _ _
  · exact foldlM_advances (fun d hd _ _ hturn => checkDeclarator_advances hB (hc d hd) hturn) h

lemma checkAssign_advances {lvalue expr : Expr σ} (hl : lvalue.Coherent) (he : expr.Coherent)
    (h : checkAssign B lvalue expr s = some s') : Advances s s' := by
  obtain ⟨⟨flag, expr', s₁⟩, hexpr, h⟩ := Option.bind_eq_some_iff.mp h
  obtain ⟨⟨ok, lvalue', s₂⟩, hlvalue, h⟩ := Option.bind_eq_some_iff.mp h
  obtain ⟨bad, -, h⟩ := Option.bind_eq_some_iff.mp h
  cases h
  obtain ⟨hadv, htyped⟩ := checkLvalue_advances hB hl hlvalue
  have herr := advances_errorIf s₂ bad expr'.srcPos "type error"
  apply (((typeCheck_reports hexpr).2.grows.advances.trans hadv).trans herr).trans
  apply advances_generate
  intro h0 e hmem
  have h2 := herr.eq_zero h0
  simp only [List.mem_cons, List.not_mem_nil, or_false] at hmem
  obtain rfl | rfl := hmem
  · exact htyped h2
  · exact typed_of_typeCheck hB hexpr he (hadv.eq_zero h2)

lemma checkInc_advances {srcPos : SrcPos} {lvalue : Expr σ} (hl : lvalue.Coherent)
    (h : checkInc B srcPos lvalue s = some s') : Advances s s' := by
  obtain ⟨⟨ok, lvalue', s₁⟩, hlvalue, h⟩ := Option.bind_eq_some_iff.mp h
  cases h
  obtain ⟨hadv, htyped⟩ := checkLvalue_advances hB hl hlvalue
  have herr := advances_errorIf s₁ (ok && !sameType lvalue'.type (some .int)) srcPos "type error"
  apply (hadv.trans herr).trans
  apply advances_generate
  intro h0 e hmem
  rw [List.mem_singleton.mp hmem]
  exact htyped (herr.eq_zero h0)

lemma checkReturn_advances {returnType : Typ} {srcPos : SrcPos} {expr : Option (Expr σ)}
    (hc : ∀ e ∈ expr, e.Coherent) (h : checkReturn B returnType srcPos expr s = some s') :
    Advances s s' := by
  match expr with
  | none =>
      cases h
      exact (advances_errorIf s _ _ _).trans (advances_generate fun _ e he => absurd he (by simp))
  | some expr =>
      unfold checkReturn at h
      dsimp only at h
      split at h
      · -- the returned expression has not been checked, but there is an error
        cases h
        apply (advances_error s srcPos "return type error").trans
        apply advances_generate
        intro h0
        rw [errorsNum_error] at h0
        cases h0
      · obtain ⟨⟨ret, expr', s₁⟩, hexpr, h⟩ := Option.bind_eq_some_iff.mp h
        obtain ⟨bad, -, h⟩ := Option.bind_eq_some_iff.mp h
        cases h
        have herr := advances_errorIf s₁ bad srcPos "return type error"
        apply ((typeCheck_reports hexpr).2.grows.advances.trans herr).trans
        apply advances_generate
        intro h0 e hmem
        rw [List.mem_singleton.mp hmem]
        exact typed_of_typeCheck hB hexpr (hc expr rfl) (herr.eq_zero h0)

end Asserted

variable {B : Build}

mutual

theorem doSemanticCheck_advances {returnType : Typ} (hB : B.ndebug = false) (instr : Instr σ)
    (s : Checker σ) (r : Bool × Checker σ) (hc : instr.Coherent)
    (h : doSemanticCheck B returnType instr s = some r) : Advances s r.2 := by
  match instr with
  | .empty =>
      cases h
      exact Advances.refl s
  | .expr expr =>
      obtain ⟨⟨expr', s₁⟩, hexpr, h⟩ := Option.bind_eq_some_iff.mp h
      cases h
      obtain ⟨hadv, htyped⟩ := checkAgainst_advances hB hc hexpr
      exact hadv.trans (advances_generate_cond (Advances.refl s₁) htyped)
  | .block body =>
      obtain ⟨s₁, hpush, h⟩ := Option.bind_eq_some_iff.mp h
      obtain ⟨⟨wr, s₂⟩, hbody, h⟩ := Option.bind_eq_some_iff.mp h
      obtain ⟨s₃, hpop, h⟩ := Option.bind_eq_some_iff.mp h
      cases h
      have hrun := doSemanticChecks_advances hB body s₁ _ hc hbody
      exact ((advances_act hpush).trans hrun).trans (advances_act hpop)
  | .declaration srcPos type decls =>
      obtain ⟨s₁, hdecls, h⟩ := Option.bind_eq_some_iff.mp h
      cases h
      exact checkDeclaration_advances hB hc hdecls
  | .assign _ lvalue expr =>
      obtain ⟨s₁, hassign, h⟩ := Option.bind_eq_some_iff.mp h
      cases h
      exact checkAssign_advances hB hc.1 hc.2 hassign
  | .inc srcPos lvalue | .dec srcPos lvalue =>
      obtain ⟨s₁, hinc, h⟩ := Option.bind_eq_some_iff.mp h
      cases h
      exact checkInc_advances hB hc hinc
  | .ifThen cond thenInstr =>
      obtain ⟨⟨cond', s₁⟩, hcond, h⟩ := Option.bind_eq_some_iff.mp h
      obtain ⟨⟨wr, s₂⟩, hthen, h⟩ := Option.bind_eq_some_iff.mp h
      cases h
      obtain ⟨hadv, htyped⟩ := checkAgainst_advances hB hc.1 hcond
      have hgen := advances_generate_cond (Advances.refl s₁) htyped
      have hrun := doSemanticCheck_advances hB thenInstr _ _ hc.2 hthen
      exact (hadv.trans hgen).trans hrun
  | .ifElse cond thenInstr elseInstr =>
      obtain ⟨⟨cond', s₁⟩, hcond, h⟩ := Option.bind_eq_some_iff.mp h
      obtain ⟨⟨wr1, s₂⟩, hthen, h⟩ := Option.bind_eq_some_iff.mp h
      obtain ⟨⟨wr2, s₃⟩, helse, h⟩ := Option.bind_eq_some_iff.mp h
      cases h
      obtain ⟨hadv, htyped⟩ := checkAgainst_advances hB hc.1 hcond
      have hgen := advances_generate_cond (Advances.refl s₁) htyped
      have hrun := doSemanticCheck_advances hB thenInstr _ _ hc.2.1 hthen
      have hrun' := doSemanticCheck_advances hB elseInstr _ _ hc.2.2 helse
      exact ((hadv.trans hgen).trans hrun).trans hrun'
  | .whileDo cond body =>
      obtain ⟨⟨cond', s₁⟩, hcond, h⟩ := Option.bind_eq_some_iff.mp h
      obtain ⟨⟨wr, s₂⟩, hbody, h⟩ := Option.bind_eq_some_iff.mp h
      cases h
      obtain ⟨hadv, htyped⟩ := checkAgainst_advances hB hc.1 hcond
      have hrun := doSemanticCheck_advances hB body _ _ hc.2 hbody
      exact (hadv.trans hrun).trans (advances_generate_cond hrun htyped)
  | .forDo instr1 cond instr3 body =>
      obtain ⟨⟨wr1, s₁⟩, hinstr1, h⟩ := Option.bind_eq_some_iff.mp h
      obtain ⟨⟨cond', s₂⟩, hcond, h⟩ := Option.bind_eq_some_iff.mp h
      obtain ⟨⟨wr2, s₃⟩, hbody, h⟩ := Option.bind_eq_some_iff.mp h
      obtain ⟨⟨wr3, s₄⟩, hinstr3, h⟩ := Option.bind_eq_some_iff.mp h
      cases h
      have hrun1 := doSemanticCheck_advances hB instr1 _ _ hc.1 hinstr1
      obtain ⟨hadv, htyped⟩ := checkAgainst_advances hB hc.2.1 hcond
      have hrun := doSemanticCheck_advances hB body _ _ hc.2.2.2 hbody
      have hrun3 := doSemanticCheck_advances hB instr3 _ _ hc.2.2.1 hinstr3
      have hgen := advances_generate_cond (hrun.trans hrun3) htyped
      exact (((hrun1.trans hadv).trans hrun).trans hrun3).trans hgen
  | .ret srcPos expr =>
      obtain ⟨s₁, hret, h⟩ := Option.bind_eq_some_iff.mp h
      cases h
      exact checkReturn_advances hB hc hret

theorem doSemanticChecks_advances {returnType : Typ} (hB : B.ndebug = false) (instrs : InstrList σ)
    (s : Checker σ) (r : Bool × Checker σ) (hc : instrs.Coherent)
    (h : doSemanticChecks B returnType instrs s = some r) : Advances s r.2 := by
  match instrs with
  | .nil =>
      cases h
      exact Advances.refl s
  | .cons instr next =>
      obtain ⟨⟨wr1, s₁⟩, hinstr, h⟩ := Option.bind_eq_some_iff.mp h
      obtain ⟨⟨wr2, s₂⟩, hnext, h⟩ := Option.bind_eq_some_iff.mp h
      cases h
      have hrun := doSemanticCheck_advances hB instr s _ hc.1 hinstr
      have hruns := doSemanticChecks_advances hB next s₁ _ hc.2 hnext
      exact hrun.trans hruns

end

lemma checkFunc_advances {mainSym : σ} {f : Func σ} (hB : B.ndebug = false) (hc : f.body.Coherent)
    (h : checkFunc B mainSym s f = some s') : Advances s s' := by
  obtain ⟨s₁, hpush, h⟩ := Option.bind_eq_some_iff.mp h
  obtain ⟨s₂, hargs, h⟩ := Option.bind_eq_some_iff.mp h
  obtain ⟨⟨wr, s₃⟩, hbody, h⟩ := Option.bind_eq_some_iff.mp h
  have hmain := advances_errorIf s (f.sym = mainSym && !typeEquiv f.type mainType) f.srcPos
    "wrong type of function main()"
  have hdeclare : Advances s₁ s₂ := by
    apply foldlM_advances (fun arg _ t t' hturn => ?_) hargs
    obtain ⟨t₁, hd, hi⟩ := Option.bind_eq_some_iff.mp hturn
    exact (advances_declare hd).trans (advances_setInitialized hi)
  have hrun := doSemanticCheck_advances hB (.block f.body) s₂ _ hc hbody
  exact (((hmain.trans (advances_act hpush)).trans hdeclare).trans hrun).trans
    ((advances_errorIf s₃ _ _ _).trans (advances_act h))

/-- The expressions handed to the generator in the course of the whole check are typed. -/
theorem semanticCheck_advances {mainSym : σ} {funcs : List (Func σ)} (hB : B.ndebug = false)
    (hc : ∀ f ∈ funcs, f.body.Coherent) (h : semanticCheck B mainSym funcs s = some s') :
    Advances s s' := by
  obtain ⟨s₁, hfuncs, h⟩ := Option.bind_eq_some_iff.mp h
  cases h
  have hrun := foldlM_advances (fun f hf _ _ hturn => checkFunc_advances hB (hc f hf) hturn) hfuncs
  exact hrun.trans (advances_errorIf s₁ _ _ _)

/-! ## What the assertions change -/

section Asserting

variable (B : Build)

lemma checkLvalue_asserting (e : Expr σ) (s : Checker σ) :
    Agrees (checkLvalue B.asserting e s) (checkLvalue B e s) := by
  unfold checkLvalue
  split
  · exact Agrees.refl _
  · split
    · next index _ decl _ =>
        apply (arrayFields_asserting B decl.type).bind
        intro fields
        exact (agrees_checkArrayIndex (typeCheck_asserting B index s) _).bind fun _ => Agrees.refl _
    · exact Agrees.refl _
  · exact Agrees.refl _

lemma checkAgainst_asserting (type : Typ) (srcPos : SrcPos) (msg : String) (e : Expr σ)
    (s : Checker σ) : Agrees (checkAgainst B.asserting type srcPos msg e s)
      (checkAgainst B type srcPos msg e s) :=
  (typeCheck_asserting B e s).bind fun _ => Agrees.refl _

lemma checkDeclarator_asserting (type : Typ) (s : Checker σ) (d : Declarator σ) :
    Agrees (checkDeclarator B.asserting type s d) (checkDeclarator B type s d) := by
  cases d with
  | array srcPos sym arraySize => exact Agrees.refl _
  | var srcPos sym init =>
    cases init with
    | none => exact Agrees.refl _
    | some init => exact (checkAgainst_asserting B type _ _ init s).bind fun _ => Agrees.refl _

lemma checkDeclaration_asserting (srcPos : SrcPos) (type : Typ) (decls : List (Declarator σ))
    (s : Checker σ) : Agrees (checkDeclaration B.asserting srcPos type decls s)
      (checkDeclaration B srcPos type decls s) := by
  apply (Agrees.refl _).ite
  exact Agrees.foldlM (fun s d _ => checkDeclarator_asserting B type s d) s

lemma checkAssign_asserting (lvalue expr : Expr σ) (s : Checker σ) :
    Agrees (checkAssign B.asserting lvalue expr s) (checkAssign B lvalue expr s) := by
  apply (typeCheck_asserting B expr s).bind
  rintro ⟨flag, expr, s⟩
  exact (checkLvalue_asserting B lvalue s).bind fun _ => Agrees.refl _

lemma checkInc_asserting (srcPos : SrcPos) (lvalue : Expr σ) (s : Checker σ) :
    Agrees (checkInc B.asserting srcPos lvalue s) (checkInc B srcPos lvalue s) :=
  (checkLvalue_asserting B lvalue s).bind fun _ => Agrees.refl _

lemma checkReturn_asserting (returnType : Typ) (srcPos : SrcPos) (expr : Option (Expr σ))
    (s : Checker σ) : Agrees (checkReturn B.asserting returnType srcPos expr s)
      (checkReturn B returnType srcPos expr s) := by
  cases expr with
  | none => exact Agrees.refl _
  | some expr =>
    apply (Agrees.refl _).ite
    exact (typeCheck_asserting B expr s).bind fun _ => Agrees.refl _

mutual

theorem doSemanticCheck_asserting (returnType : Typ) (instr : Instr σ) (s : Checker σ) :
    Agrees (doSemanticCheck B.asserting returnType instr s)
      (doSemanticCheck B returnType instr s) := by
  match instr with
  | .empty => exact Agrees.refl _
  | .expr expr => exact (checkAgainst_asserting B _ _ _ expr s).bind fun _ => Agrees.refl _
  | .block body =>
      apply (Agrees.refl _).bind
      intro s
      exact (doSemanticChecks_asserting returnType body s).bind fun _ => Agrees.refl _
  | .declaration srcPos type decls =>
      exact (checkDeclaration_asserting B srcPos type decls s).bind fun _ => Agrees.refl _
  | .assign _ lvalue expr =>
      exact (checkAssign_asserting B lvalue expr s).bind fun _ => Agrees.refl _
  | .inc srcPos lvalue | .dec srcPos lvalue =>
      exact (checkInc_asserting B srcPos lvalue s).bind fun _ => Agrees.refl _
  | .ifThen cond thenInstr =>
      apply (checkAgainst_asserting B _ _ _ cond s).bind
      rintro ⟨cond, s⟩
      exact (doSemanticCheck_asserting returnType thenInstr _).bind fun _ => Agrees.refl _
  | .ifElse cond thenInstr elseInstr =>
      apply (checkAgainst_asserting B _ _ _ cond s).bind
      rintro ⟨cond, s⟩
      apply (doSemanticCheck_asserting returnType thenInstr _).bind
      rintro ⟨wr1, s⟩
      exact (doSemanticCheck_asserting returnType elseInstr s).bind fun _ => Agrees.refl _
  | .whileDo cond body =>
      apply (checkAgainst_asserting B _ _ _ cond s).bind
      rintro ⟨cond, s⟩
      exact (doSemanticCheck_asserting returnType body s).bind fun _ => Agrees.refl _
  | .forDo instr1 cond instr3 body =>
      apply (doSemanticCheck_asserting returnType instr1 s).bind
      rintro ⟨-, s⟩
      apply (checkAgainst_asserting B _ _ _ cond s).bind
      rintro ⟨cond, s⟩
      apply (doSemanticCheck_asserting returnType body s).bind
      rintro ⟨-, s⟩
      exact (doSemanticCheck_asserting returnType instr3 s).bind fun _ => Agrees.refl _
  | .ret srcPos expr =>
      exact (checkReturn_asserting B returnType srcPos expr s).bind fun _ => Agrees.refl _

theorem doSemanticChecks_asserting (returnType : Typ) (instrs : InstrList σ) (s : Checker σ) :
    Agrees (doSemanticChecks B.asserting returnType instrs s)
      (doSemanticChecks B returnType instrs s) := by
  match instrs with
  | .nil => exact Agrees.refl _
  | .cons instr next =>
      apply (doSemanticCheck_asserting returnType instr s).bind
      rintro ⟨wr1, s⟩
      exact (doSemanticChecks_asserting returnType next s).bind fun _ => Agrees.refl _

end

/-- A semantic check in which no assertion fails is the same without assertions. -/
theorem semanticCheck_asserting (mainSym : σ) (funcs : List (Func σ)) (s : Checker σ) :
    Agrees (semanticCheck B.asserting mainSym funcs s) (semanticCheck B mainSym funcs s) := by
  apply Agrees.bind
  · refine Agrees.foldlM (fun s f _ => ?_) s
    apply (Agrees.refl _).bind
    intro s
    apply (Agrees.refl _).bind
    intro s
    exact (doSemanticCheck_asserting B f.returnType (.block f.body) s).bind fun _ => Agrees.refl _
  · exact fun _ => Agrees.refl _

end Asserting

/-! ## The result -/

/-- **A failed type check always reports an error.**  From every state, `type_check` fails only
with a new error.  Where only arrays are indexed it returns, and when it succeeds on a tree of the
parser every node has a type.  So in a whole check that begins before anything has been generated,
and in which the assertions about indexed identifiers hold, the generator gets typed expressions
only. -/
theorem type_check_reports (B : Build) (s : Checker σ) :
    (∀ e r, typeCheck B e s = some r → r.1 = false → s.errorsNum < r.2.2.errorsNum) ∧
    (∀ e, e.IndexesArrays s.env → ∃ r, typeCheck B e s = some r ∧
      (r.1 = true → e.Coherent → r.2.1.Typed)) ∧
    (∀ mainSym funcs s', s.generated = [] → (∀ f ∈ funcs, f.body.Coherent) →
      semanticCheck B.asserting mainSym funcs s = some s' →
        semanticCheck B mainSym funcs s = some s' ∧ ∀ e ∈ s'.generated, e.Typed) := by
  refine ⟨fun e r h => (typeCheck_reports h).1, fun e he => ?_, ?_⟩
  · obtain ⟨r, hr⟩ := doTypeCheck_returns B e { s with suppressTypeErrors := false } he
    exact ⟨r, hr, (typeCheck_reports hr).2.typed (.inr he)⟩
  · intro mainSym funcs s' hgen hc h
    refine ⟨semanticCheck_asserting B mainSym funcs s s' h, ?_⟩
    apply (semanticCheck_advances (B := B.asserting) rfl hc h).clean
    rw [Checker.Clean, hgen]
    exact fun e he => absurd he List.not_mem_nil

/-- The state before the check when nothing has been declared. -/
def emptyChecker : Checker ℕ := ⟨[[]], fun _ => false, 0, [], [], false, false, []⟩

/-- The same when `int a[3]` has been declared, where `a` is the symbol `1`. -/
def arrayChecker : Checker ℕ :=
  { emptyChecker with
    env := [[⟨1, 0, .array 0 .int 3⟩]], initialized := fun _ => true, nextDecl := 1 }

/-- A build without assertions, in which nothing but null pointers are found behind a type. -/
def defaultBuild : Build := ⟨true, fun _ => (none, 0)⟩

/-- `a[y]`, where `y` is the symbol `2`; the node of the array has the type given. -/
def arrayAtY (type : Option Typ) : Expr ℕ :=
  .array ⟨⟨1, 1⟩, type⟩ 1 (.ident ⟨⟨1, 3⟩, none⟩ 2)

/-- **A node with a type can have one without below it.**  The check of `a[y]` fails if `y` is not
declared, and leaves a type at the node of the array only.  A second check succeeds at once. -/
theorem type_check_leaves_untyped :
    (∃ s, typeCheck defaultBuild (arrayAtY none) arrayChecker =
      some (false, arrayAtY (some .int), s)) ∧
    ¬∀ (B : Build) (s : Checker ℕ) (e : Expr ℕ) (r : Checked ℕ), typeCheck B e s = some r →
      (r.1 = false → s.errorsNum < r.2.2.errorsNum) ∧
        (r.1 = true → r.2.2.errorsNum = s.errorsNum → r.2.1.Typed) := by
  refine ⟨⟨_, rfl⟩, fun h => ?_⟩
  obtain ⟨-, hindex⟩ :=
    (h defaultBuild arrayChecker (arrayAtY (some .int)) _ rfl).2 rfl rfl
  exact Bool.false_ne_true hindex

/-- `int main() { return 7; }`, where `main` is the symbol `0`. -/
def mainReturning : Func ℕ :=
  ⟨⟨1, 1⟩, 0, 0, .int, [], .cons (.ret ⟨1, 14⟩ (some (.int ⟨⟨1, 21⟩, none⟩ 7))) .nil⟩

/-- `a[0]`. -/
def arrayAtZero : Expr ℕ := .array ⟨⟨1, 1⟩, none⟩ 1 (.int ⟨⟨1, 3⟩, none⟩ 0)

theorem type_check_reports_main :
    (∃ r, typeCheck defaultBuild (arrayAtY none) arrayChecker = some r ∧ r.1 = false ∧
      arrayChecker.errorsNum < r.2.2.errorsNum) ∧
    (∃ r, typeCheck defaultBuild arrayAtZero arrayChecker = some r ∧ r.1 = true ∧ r.2.1.Typed) ∧
    (∃ s, semanticCheck defaultBuild 0 [mainReturning] emptyChecker = some s ∧
      s.generated.length = 1 ∧ ∀ e ∈ s.generated, e.Typed) := by
  have hreports := type_check_reports defaultBuild arrayChecker
  refine ⟨⟨_, rfl, rfl, hreports.1 (arrayAtY none) _ rfl rfl⟩, ?_, ?_⟩
  · have hindexes : arrayAtZero.IndexesArrays arrayChecker.env := by
      refine ⟨fun decl hdecl => ?_, trivial⟩
      cases hdecl
      rfl
    obtain ⟨r, hr, htyped⟩ := hreports.2.1 arrayAtZero hindexes
    have hok : r.1 = true := by
      cases hr
      rfl
    exact ⟨r, hr, hok, htyped hok ⟨fun h => absurd h (by decide), trivial⟩⟩
  · have hlen : (semanticCheck defaultBuild.asserting 0 [mainReturning] emptyChecker).map
        (fun s => s.generated.length) = some 1 := by decide +kernel
    obtain ⟨s, hs, hl⟩ := Option.map_eq_some_iff.mp hlen
    have hc : ∀ f ∈ [mainReturning], f.body.Coherent := by
      intro f hf
      rw [List.mem_singleton.mp hf]
      refine ⟨fun e he => ?_, trivial⟩
      cases he
      trivial
    obtain ⟨hrun, htyped⟩ :=
      (type_check_reports defaultBuild emptyChecker).2.2 0 [mainReturning] s rfl hc hs
    exact ⟨s, hrun, hl, htyped⟩

end Javalette.Check
