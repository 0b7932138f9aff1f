import Javalette.Tree.Generate

/-!
# The check for a missing return

`do_semantic_check` reports through the pointer `was_return` whether an instruction always ends in
a return.  The pointers lead to the local variables of the calls that are active, or to the static
`dummy_wr`, which all the calls share whose result is not wanted, and whose value is never used;
`doSemanticCheck` has these stores, in the order of the source.  `returns` is what a caller finds
in a variable of its own, and it is also the result of `genInstr`.

`Exec` runs an instruction to its end, for any meaning of the expressions, declarations and
assignments.  `was_return_sound` is that an instruction that is reported cannot be run to its end
without a return.
-/

namespace Javalette.Front

open SyntaxTree

/-! ## The flags -/

/-- The variables that `was_return` can point to: `none` is `dummy_wr`, and the others are the
local variables on the stack. -/
abbrev Flags := Option ℕ → Bool

/-- The loop over a list with one node, which `check` is called for; the local variable `wr1` is
at `sp`. -/
def checkNode (check : ℕ → Option ℕ → Flags → Flags) (sp : ℕ) (wr : Option ℕ) (f : Flags) :
    Flags :=
  let f := Function.update f wr false
  let f := check (sp + 1) (some sp) f
  Function.update f wr (f wr || f (some sp))

mutual

/-- `do_semantic_check`, as far as it concerns `*was_return`; its local variables `wr1` and `wr2`
are at `sp` and `sp + 1`. -/
def doSemanticCheck : Instr → ℕ → Option ℕ → Flags → Flags
  | .block instrs, sp, wr, f => checkNodes instrs sp wr (Function.update f wr false)
  | .ifThen _ thenInstr, sp, wr, f =>
      checkNode (doSemanticCheck thenInstr) (sp + 2) none (Function.update f wr false)
  | .ifElse _ thenInstr elseInstr, sp, wr, f =>
      let f := Function.update f wr false
      let f := checkNode (doSemanticCheck thenInstr) (sp + 2) (some sp) f
      let f := checkNode (doSemanticCheck elseInstr) (sp + 2) (some (sp + 1)) f
      Function.update f wr (f (some sp) && f (some (sp + 1)))
  | .whileDo _ body, sp, wr, f =>
      checkNode (doSemanticCheck body) (sp + 2) none (Function.update f wr false)
  | .forDo instr1 _ instr3 body, sp, wr, f =>
      let f := Function.update f wr false
      let f := doSemanticCheck instr1 (sp + 2) none f
      let f := checkNode (doSemanticCheck body) (sp + 2) none f
      doSemanticCheck instr3 (sp + 2) none f
  | .ret _, _, wr, f => Function.update (Function.update f wr false) wr true
  | .empty, _, wr, f | .expr _, _, wr, f | .declaration _ _, _, wr, f | .assign _ _, _, wr, f
  | .inc _, _, wr, f | .dec _, _, wr, f => Function.update f wr false

/-- The loop over the nodes of a block. -/
def checkNodes : List Instr → ℕ → Option ℕ → Flags → Flags
  | [], _, _, f => f
  | instr :: instrs, sp, wr, f =>
      let f := doSemanticCheck instr (sp + 1) (some sp) f
      checkNodes instrs sp wr (Function.update f wr (f wr || f (some sp)))

end

/-- What `do_semantic_check` has done about the returns of a function. -/
structure FuncCheck where
  errorsNum : ℕ
  appended : Bool

/-- The end of `NODE_FUNC`: an error for a missing return, or the return that is appended to a
function without a value.  `errorsNum` is the number of errors that have been found before. -/
def checkFunc (node : FuncNode) (errorsNum : ℕ) (f : Flags) : FuncCheck :=
  let wr := checkNode (doSemanticCheck (.block node.body)) 1 (some 0) f (some 0)
  { errorsNum := if !wr && node.returnType ≠ .void then errorsNum + 1 else errorsNum
    appended := !wr && node.returnType = .void }

mutual

/-- Whether an instruction is reported. -/
def returns : Instr → Bool
  | .block instrs => returnsAny instrs
  | .ifElse _ thenInstr elseInstr => returns thenInstr && returns elseInstr
  | .ret _ => true
  | _ => false

/-- Whether one of the instructions of a block is. -/
def returnsAny : List Instr → Bool
  | [] => false
  | instr :: instrs => returns instr || returnsAny instrs

end

/-- A check leaves `b` in a variable of its caller, whose other variables it does not change. -/
def Reports (check : ℕ → Option ℕ → Flags → Flags) (b : Bool) : Prop :=
  ∀ sp wr f, ∀ n < sp, check sp wr f (some n) = if some n = wr then b else f (some n)

section Reports

variable {check : ℕ → Option ℕ → Flags → Flags} {b : Bool} {wr : Option ℕ} {f : Flags} {n sp : ℕ}

lemma update_flag (wr : Option ℕ) (f : Flags) (b : Bool) (n : ℕ) :
    Function.update f wr b (some n) = if some n = wr then b else f (some n) := by
  by_cases h : some n = wr
  · rw [if_pos h, ← h, Function.update_self]
  · rw [if_neg h, Function.update_of_ne h]

lemma Reports.node (h : Reports check b) : Reports (checkNode check) b := by
  intro sp wr f n hn
  have hother : some n ≠ some sp := fun he => Nat.ne_of_lt hn (Option.some.inj he)
  rw [checkNode, update_flag]
  by_cases hwr : some n = wr
  · -- the variable has been cleared, and the call does not change it
    subst hwr
    rw [if_pos rfl, if_pos rfl, h _ _ _ n (Nat.lt_succ_of_lt hn), if_neg hother,
      Function.update_self, Bool.false_or, h _ _ _ sp (Nat.lt_succ_self sp), if_pos rfl]
  · rw [if_neg hwr, if_neg hwr, h _ _ _ n (Nat.lt_succ_of_lt hn), if_neg hother,
      Function.update_of_ne hwr]

lemma Reports.dummy (h : Reports check b) (hn : n < sp) :
    check sp none f (some n) = f (some n) := by
  rw [h sp none f n hn, if_neg (Option.some_ne_none n)]

end Reports

mutual

/-- Every instruction is reported to the variable that the caller names. -/
theorem doSemanticCheck_reports : ∀ i : Instr, Reports (doSemanticCheck i) (returns i)
  | .block instrs => by
      intro sp wr f n hn
      rw [doSemanticCheck, checkNodes_reports instrs sp wr _ n hn, update_flag, returns]
      by_cases hwr : some n = wr
      · rw [if_pos hwr, if_pos hwr, if_pos hwr, Bool.false_or]
      · rw [if_neg hwr, if_neg hwr, if_neg hwr]
  | .ifThen c t => by
      intro sp wr f n hn
      rw [doSemanticCheck, (doSemanticCheck_reports t).node.dummy (by omega), update_flag]
      rfl
  | .ifElse c t e => by
      intro sp wr f n hn
      have ht := (doSemanticCheck_reports t).node
      have he := (doSemanticCheck_reports e).node
      have hsp : ∀ {k m : ℕ}, k ≠ m → some k ≠ some m := fun hne h => hne (Option.some.inj h)
      -- the two results, and what is not changed on the way
      rw [doSemanticCheck, update_flag, he _ _ _ sp (by omega), if_neg (hsp (by omega)),
        he _ _ _ (sp + 1) (by omega), if_pos rfl, ht _ _ _ sp (by omega), if_pos rfl,
        he _ _ _ n (by omega), if_neg (hsp (by omega)), ht _ _ _ n (by omega),
        if_neg (hsp (by omega)), update_flag, returns]
      by_cases hwr : some n = wr
      · rw [if_pos hwr, if_pos hwr]
      · rw [if_neg hwr, if_neg hwr, if_neg hwr]
  | .whileDo c b => by
      intro sp wr f n hn
      rw [doSemanticCheck, (doSemanticCheck_reports b).node.dummy (by omega), update_flag]
      rfl
  | .forDo i₁ c i₃ b => by
      intro sp wr f n hn
      rw [doSemanticCheck, (doSemanticCheck_reports i₃).dummy (by omega),
        (doSemanticCheck_reports b).node.dummy (by omega),
        (doSemanticCheck_reports i₁).dummy (by omega), update_flag]
      rfl
  | .ret e => fun sp wr f n hn => by
      rw [doSemanticCheck, Function.update_idem, update_flag]
      rfl
  | .empty | .expr _ | .declaration _ _ | .assign _ _ | .inc _ | .dec _ => fun sp wr f n hn => by
      rw [doSemanticCheck, update_flag]
      rfl

theorem checkNodes_reports : ∀ (is : List Instr) (sp : ℕ) (wr : Option ℕ) (f : Flags), ∀ n < sp,
    checkNodes is sp wr f (some n) =
      if some n = wr then f (some n) || returnsAny is else f (some n)
  | [], sp, wr, f, n, hn => by
      rw [checkNodes, returnsAny, Bool.or_false, ite_self]
  | i :: is, sp, wr, f, n, hn => by
      have hi := doSemanticCheck_reports i
      have hother : some n ≠ some sp := fun he => Nat.ne_of_lt hn (Option.some.inj he)
      rw [checkNodes, checkNodes_reports is sp wr _ n hn, update_flag, returnsAny,
        hi _ _ _ n (Nat.lt_succ_of_lt hn), if_neg hother]
      by_cases hwr : some n = wr
      · subst hwr
        rw [if_pos rfl, if_pos rfl, if_pos rfl, hi _ _ _ n (Nat.lt_succ_of_lt hn), if_neg hother,
          hi _ _ _ sp (Nat.lt_succ_self sp), if_pos rfl, Bool.or_assoc]
      · rw [if_neg hwr, if_neg hwr, if_neg hwr]

end

/-! ## Execution -/

/-- The meaning of what an instruction consists of, over any states and values; it need not be
determined. -/
structure Steps (State Value : Type) where
  eval : Expr → State → Value → State → Prop
  test : Expr → State → Bool → State → Prop
  declare : Ty → Declarator → State → State → Prop
  assign : Lvalue → Expr → State → State → Prop
  inc : Lvalue → State → State → Prop
  dec : Lvalue → State → State → Prop
  pushScope : State → State → Prop
  popScope : State → State → Prop

/-- How an execution ends. -/
inductive Outcome (State Value : Type)
  | falls (s : State)
  | returned (v : Option Value) (s : State)

/-- The execution has ended in a return. -/
def Outcome.IsReturn {State Value : Type} (o : Outcome State Value) : Prop :=
  ∃ v s, o = .returned v s

section Exec

variable {State Value : Type} (M : Steps State Value)

/-- The declarators of a declaration, one after the other. -/
inductive Declared (type : Ty) : List Declarator → State → State → Prop
  | nil {s} : Declared type [] s s
  | cons {d ds s s₁ s'} : M.declare type d s s₁ → Declared type ds s₁ s' →
      Declared type (d :: ds) s s'

mutual

/-- An instruction is executed to its end. -/
inductive Exec : Instr → State → Outcome State Value → Prop
  | empty {s} : Exec .empty s (.falls s)
  | expr {e s v s'} : M.eval e s v s' → Exec (.expr e) s (.falls s')
  | block {is s s₁ s₂ s'} : M.pushScope s s₁ → ExecAll is s₁ (.falls s₂) → M.popScope s₂ s' →
      Exec (.block is) s (.falls s')
  | blockReturned {is s s₁ v s₂} : M.pushScope s s₁ → ExecAll is s₁ (.returned v s₂) →
      Exec (.block is) s (.returned v s₂)
  | declaration {type ds s s'} : Declared M type ds s s' →
      Exec (.declaration type ds) s (.falls s')
  | assign {lvalue e s s'} : M.assign lvalue e s s' → Exec (.assign lvalue e) s (.falls s')
  | inc {lvalue s s'} : M.inc lvalue s s' → Exec (.inc lvalue) s (.falls s')
  | dec {lvalue s s'} : M.dec lvalue s s' → Exec (.dec lvalue) s (.falls s')
  | thenTrue {c i s s₁ o} : M.test c s true s₁ → Exec i s₁ o → Exec (.ifThen c i) s o
  | thenFalse {c i s s'} : M.test c s false s' → Exec (.ifThen c i) s (.falls s')
  | elseTrue {c i₁ i₂ s s₁ o} : M.test c s true s₁ → Exec i₁ s₁ o → Exec (.ifElse c i₁ i₂) s o
  | elseFalse {c i₁ i₂ s s₁ o} : M.test c s false s₁ → Exec i₂ s₁ o →
      Exec (.ifElse c i₁ i₂) s o
  | whileDo {c i s o} : ExecLoop c [i] s o → Exec (.whileDo c i) s o
  | forDo {i₁ c i₃ i s s₁ o} : Exec i₁ s (.falls s₁) → ExecLoop c [i, i₃] s₁ o →
      Exec (.forDo i₁ c i₃ i) s o
  | forReturned {i₁ c i₃ i s v s'} : Exec i₁ s (.returned v s') →
      Exec (.forDo i₁ c i₃ i) s (.returned v s')
  | ret {s} : Exec (.ret none) s (.returned none s)
  | retValue {e s v s'} : M.eval e s v s' → Exec (.ret (some e)) s (.returned (some v) s')

/-- Instructions are executed one after the other, up to a return. -/
inductive ExecAll : List Instr → State → Outcome State Value → Prop
  | nil {s} : ExecAll [] s (.falls s)
  | cons {i is s s₁ o} : Exec i s (.falls s₁) → ExecAll is s₁ o → ExecAll (i :: is) s o
  | returned {i is s v s'} : Exec i s (.returned v s') → ExecAll (i :: is) s (.returned v s')

/-- A loop is executed: the condition comes before each round. -/
inductive ExecLoop : Expr → List Instr → State → Outcome State Value → Prop
  | done {c is s s'} : M.test c s false s' → ExecLoop c is s (.falls s')
  | round {c is s s₁ s₂ o} : M.test c s true s₁ → ExecAll is s₁ (.falls s₂) →
      ExecLoop c is s₂ o → ExecLoop c is s o
  | returned {c is s s₁ v s₂} : M.test c s true s₁ → ExecAll is s₁ (.returned v s₂) →
      ExecLoop c is s (.returned v s₂)

end

variable {M}

mutual

/-- An instruction that is reported ends in a return. -/
theorem returns_sound : ∀ i : Instr, returns i = true → ∀ {s : State} {o : Outcome State Value},
    Exec M i s o → o.IsReturn
  | .block is, hr, s, o, h => by
      rw [returns] at hr
      cases h with
      | block _ hall _ =>
          obtain ⟨v, s', heq⟩ := returnsAny_sound is hr hall
          cases heq
      | blockReturned _ hall => exact ⟨_, _, rfl⟩
  | .ifElse c i₁ i₂, hr, s, o, h => by
      rw [returns, Bool.and_eq_true] at hr
      cases h with
      | elseTrue _ h₁ => exact returns_sound i₁ hr.1 h₁
      | elseFalse _ h₂ => exact returns_sound i₂ hr.2 h₂
  | .ret e, _, s, o, h => by
      cases h with
      | ret => exact ⟨_, _, rfl⟩
      | retValue _ => exact ⟨_, _, rfl⟩
  | .empty, hr, _, _, _ | .expr _, hr, _, _, _ | .declaration _ _, hr, _, _, _
  | .assign _ _, hr, _, _, _ | .inc _, hr, _, _, _ | .dec _, hr, _, _, _
  | .ifThen _ _, hr, _, _, _ | .whileDo _ _, hr, _, _, _ | .forDo _ _ _ _, hr, _, _, _ => by
      simp [returns] at hr

/-- Of the instructions of a block one is reported, and no execution gets past it. -/
theorem returnsAny_sound : ∀ is : List Instr, returnsAny is = true →
    ∀ {s : State} {o : Outcome State Value}, ExecAll M is s o → o.IsReturn
  | [], hr, _, _, _ => by simp [returnsAny] at hr
  | i :: is, hr, s, o, h => by
      rw [returnsAny, Bool.or_eq_true] at hr
      cases h with
      | cons hi hall =>
          rcases hr with hr | hr
          · obtain ⟨v, s', heq⟩ := returns_sound i hr hi
            cases heq
          · exact returnsAny_sound is hr hall
      | returned hi => exact ⟨_, _, rfl⟩

end

end Exec

/-! ## Functions -/

/-- `wr`, at the end of a function. -/
lemma checkFunc_eq (node : FuncNode) (errorsNum : ℕ) (f : Flags) : checkFunc node errorsNum f =
    { errorsNum :=
        if !returnsAny node.body && node.returnType ≠ .void then errorsNum + 1 else errorsNum
      appended := !returnsAny node.body && node.returnType = .void } := by
  have hwr : checkNode (doSemanticCheck (.block node.body)) 1 (some 0) f (some 0) =
      returnsAny node.body := by
    rw [(doSemanticCheck_reports (.block node.body)).node _ _ _ 0 Nat.one_pos, if_pos rfl, returns]
  rw [checkFunc]
  simp only [hwr]

/-- Whatever the generation of code yields, it is this value. -/
def Yields {α : Type} (m : Gen α) (a : α) : Prop := ∀ s r, m s = .ok r → r.1 = a

section Yields

variable {α β : Type} {m : Gen α} {g : α → Gen β} {a : α} {b : β}

lemma yields_pure (b : β) : Yields (pure b) b := by
  intro s r h
  rw [← Except.ok.inj h]

lemma bind_eq_ok {s : GenState} {r : β × GenState} (h : (m >>= g) s = .ok r) :
    ∃ a s', m s = .ok (a, s') ∧ g a s' = .ok r := by
  have h' : (m s).bind (fun p => g p.1 p.2) = .ok r := h
  cases hm : m s with
  | error e =>
      rw [hm] at h'
      cases h'
  | ok p =>
      rw [hm] at h'
      exact ⟨p.1, p.2, rfl, h'⟩

lemma Yields.bind (hm : Yields m a) (h : Yields (g a) b) : Yields (m >>= g) b := by
  intro s r hr
  obtain ⟨a', s', hms, hr⟩ := bind_eq_ok hr
  obtain rfl : a' = a := hm s _ hms
  exact h s' r hr

lemma yields_bind (h : ∀ a, Yields (g a) b) : Yields (m >>= g) b := by
  intro s r hr
  obtain ⟨a, s', -, hr⟩ := bind_eq_ok hr
  exact h a s' r hr

lemma Yields.inScope (h : Yields m a) : Yields (inScope m) a :=
  yields_bind fun _ => h.bind (yields_bind fun _ => yields_pure a)

/-- A result that is known can be passed on. -/
lemma Yields.bind_congr (h : Yields m a) (g : α → Gen β) : m >>= g = m >>= fun _ => g a := by
  funext s
  show (m s).bind (fun p => g p.1 p.2) = (m s).bind fun p => g a p.2
  cases hm : m s with
  | error e => rfl
  | ok p =>
      obtain rfl : p.1 = a := h s p hm
      rfl

end Yields

mutual

/-- The generation of code has the same results as the check. -/
theorem genInstr_returns (P : Platform) : ∀ i : Instr, Yields (genInstr P i) (returns i)
  | .block is => by
      rw [genInstr, returns]
      exact (genInstrs_returns P is).inScope
  | .ifElse c i₁ i₂ => by
      rw [genInstr, returns]
      refine yields_bind fun _ => (genInstr_returns P i₁).bind (yields_bind fun _ => ?_)
      exact (genInstr_returns P i₂).bind (yields_bind fun _ => yields_pure _)
  | .ifThen _ _ | .whileDo _ _ => by
      rw [genInstr]
      exact yields_bind fun _ => yields_bind fun _ => yields_bind fun _ => yields_pure _
  | .forDo _ _ _ _ => by
      rw [genInstr]
      refine yields_bind fun _ => yields_bind fun _ => yields_bind fun _ => ?_
      exact yields_bind fun _ => yields_bind fun _ => yields_pure _
  | .empty => by
      rw [genInstr]
      exact yields_pure _
  | .expr _ | .declaration _ _ | .assign _ _ | .inc _ | .dec _ | .ret _ => by
      rw [genInstr]
      exact yields_bind fun _ => yields_pure _

theorem genInstrs_returns (P : Platform) : ∀ is : List Instr,
    Yields (genInstrs P is) (returnsAny is)
  | [] => by
      rw [genInstrs]
      exact yields_pure _
  | i :: is => by
      rw [genInstrs, returnsAny]
      exact (genInstr_returns P i).bind ((genInstrs_returns P is).bind (yields_pure _))

end

/-- A return is appended to a function, or a missing one is an error, as `checkFunc` has it. -/
theorem genFunction_eq (P : Platform) (node : FuncNode) (errorsNum : ℕ) (f : Flags) :
    genFunction P node = (do
      genArgDecls node.args
      let _ ← inScope (genInstrs P node.body)
      if (checkFunc node errorsNum f).appended then do
        addNewBlock
        emit ⟨.ret, .none, .none, .none⟩
      else if (checkFunc node errorsNum f).errorsNum = errorsNum then return ()
      else throw .abort) := by
  rw [genFunction, checkFunc_eq]
  refine congrArg _ (funext fun _ => ?_)
  rw [(genInstrs_returns P node.body).inScope.bind_congr]
  refine congrArg _ (funext fun _ => ?_)
  cases returnsAny node.body <;> by_cases htype : node.returnType = .void <;> simp [htype]

section Main

variable {State Value : Type}

/-- **The check for a missing return is sound**: an instruction that is reported ends in a return,
and so do the bodies of a function with a value that is accepted, and of a function without one to
which no return is appended. -/
theorem was_return_sound (M : Steps State Value) :
    (∀ (i : Instr) (sp : ℕ) (f : Flags), ∀ n < sp,
      doSemanticCheck i sp (some n) f (some n) = true → ∀ s o, Exec M i s o → o.IsReturn) ∧
    (∀ (node : FuncNode) (errorsNum : ℕ) (f : Flags), node.returnType ≠ .void →
      (checkFunc node errorsNum f).errorsNum = 0 →
        ∀ s o, Exec M (.block node.body) s o → o.IsReturn) ∧
    ∀ (node : FuncNode) (errorsNum : ℕ) (f : Flags), node.returnType = .void →
      (checkFunc node errorsNum f).appended = false →
        ∀ s o, Exec M (.block node.body) s o → o.IsReturn := by
  refine ⟨fun i sp f n hn hwr s o => ?_, fun node errorsNum f htype herrors s o => ?_,
    fun node errorsNum f htype happended s o => ?_⟩
  · rw [doSemanticCheck_reports i sp (some n) f n hn, if_pos rfl] at hwr
    exact returns_sound i hwr
  · apply returns_sound (.block node.body)
    rw [returns]
    by_contra hno
    rw [checkFunc_eq, Bool.eq_false_iff.mpr hno] at herrors
    simp [htype] at herrors
  · apply returns_sound (.block node.body)
    rw [returns]
    by_contra hno
    rw [checkFunc_eq, Bool.eq_false_iff.mpr hno] at happended
    simp [htype] at happended

end Main

/-- A function with a return in each branch of a condition. -/
def branches : FuncNode where
  returnType := .int
  args := [(.boolean, "b")]
  body := [.ifElse (.ident "b") (.ret (some (.int 1))) (.block [.empty, .ret (some (.int 2))])]

/-- Every step is possible. -/
def anySteps : Steps Unit Unit where
  eval _ _ _ _ := True
  test _ _ _ _ := True
  declare _ _ _ _ := True
  assign _ _ _ _ := True
  inc _ _ _ := True
  dec _ _ _ := True
  pushScope _ _ := True
  popScope _ _ := True

theorem was_return_sound_branches :
    Exec anySteps (.block branches.body) () (.returned (some ()) ()) ∧
      ∀ o, Exec anySteps (.block branches.body) () o → o.IsReturn := by
  have hret : Exec anySteps (.ret (some (.int 1))) () (.returned (some ()) ()) :=
    .retValue (show anySteps.eval _ () () () from trivial)
  have hbody : ExecAll anySteps branches.body () (.returned (some ()) ()) :=
    .returned (.elseTrue (show anySteps.test _ () true () from trivial) hret)
  refine ⟨.blockReturned (show anySteps.pushScope () () from trivial) hbody, fun o h => ?_⟩
  exact (was_return_sound anySteps).2.1 branches 0 (fun _ => false) (by decide) (by decide) () o h

end Javalette.Front
