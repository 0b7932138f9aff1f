import Javalette.Tree.Control

/-!
# Functions are translated correctly

The translation of a function does what the function does: if a call of the function, executed by
the direct semantics, ends, then every run of the code of the function leads to a return with the
same value, after the same calls.
-/

namespace Javalette.Front

open SyntaxTree LinkedList Layout

variable {P : Platform} {M : Meaning} {A B C D : Layout} {α β : Type} {s s' : Store}
variable {w w' : World} {place place' : ℕ → Option ℕ} {e : Expr} {dangles : Prop}

/-! ## All instructions -/

section Instructions

variable {is : List Instr} {i : Instr} {lvalue : Lvalue}

/-- The instructions of a block are translated into code that does what they do. -/
def InstrsSim (P : Platform) (M : Meaning) (is : List Instr) : Prop :=
  ∀ A : Layout, A.Shaped → ZerosOk P (exprsOfAll is) → scopesAllOk is = true →
    Emits (genInstrs P is) A True fun _ B => Simulates M False (ExecAll (storeSteps M.tame) is) A B

lemma InstrsSim.post (h : InstrsSim P M is) (hA : A.Shaped) (hz : ZerosOk P (exprsOfAll is))
    (hs : scopesAllOk is = true) :
    Emits (genInstrs P is) A True fun _ B =>
      Grown (targetsAllOk is = true) (startsInstrs is) A B ∧
        Simulates M False (ExecAll (storeSteps M.tame) is) A B := by
  have hshape := (instrs_spec (P := P) is A hA).mono (fun _ => trivial) fun _ _ h => h
  exact (hshape.and (h A hA hz hs)).mono id fun _ _ h => ⟨h.1.2, h.2⟩

/-- An instruction that takes one step. -/
lemma step_sim {m : Gen Unit} {wr : Bool} {step : Store → Store → Prop}
    (hgen : genInstr P i = m >>= fun _ => pure wr)
    (hexec : ∀ s o, Exec (storeSteps M.tame) i s o → Falls step s o)
    (h : ∀ A : Layout, A.Shaped → ZerosOk P (exprsOf i) →
      Emits m A True fun _ B => B.decls = A.decls ∧ Simulates M True (Falls step) A B) :
    InstrSim P M i := by
  intro A hA hz _
  rw [hgen]
  refine (h A hA hz).bind fun _ B hB => emits_pure ⟨fun _ => hB.1, ?_⟩
  intro place s w o hM hback ho
  exact (hB.2 place s w o hM hback (hexec s o ho)).mono fun _ => trivial

lemma expr_sim (e : Expr) : InstrSim P M (.expr e) := by
  intro A hA hz _
  rw [genInstr]
  have hz : ZeroOk P (noIntNeg e) := hz e (by simp [exprsOf])
  refine (emits_expr (M := M) hA e).bind fun arg B h =>
    emits_pure ⟨fun _ => h.extends'.decls, ?_⟩
  rintro place s w o hM - hexec
  cases hexec with
  | expr hev =>
    obtain ⟨tr, hv, rfl⟩ := hev
    obtain ⟨w', hafter, hgo, -, hM'⟩ := h.value hz hM hv
    exact ⟨place, w', hgo, hM', Places.refl place, hafter.kept, rfl, fun _ => rfl⟩

lemma declaration_sim (type : Ty) (decls : List Declarator) :
    InstrSim P M (.declaration type decls) := by
  intro A hA hz _
  rw [genInstr]
  have hz : ∀ e ∈ initsOf decls, ZeroOk P (noIntNeg e) := fun e he =>
    hz e (by simpa only [exprsOf] using he)
  refine (sim_genDeclarators (M := M) type decls hA hz).bind fun _ B hB => emits_pure ⟨?_, ?_⟩
  · rintro ⟨⟩
  · intro place s w o hM hback hexec
    cases hexec with
    | declaration hdecls =>
      exact (hB place s w _ hM hback ⟨_, rfl, hdecls⟩).mono (by rintro ⟨⟩)

lemma assign_sim (lvalue : Lvalue) (e : Expr) : InstrSim P M (.assign lvalue e) := by
  have hgen : genInstr P (.assign lvalue e) = genAssign P lvalue e >>= fun _ => pure false := by
    rw [genInstr]
  have hexec : ∀ s o, Exec (storeSteps M.tame) (.assign lvalue e) s o →
      Falls (Assigns M.tame lvalue e) s o := by
    intro s o h
    cases h with
    | assign h => exact ⟨_, rfl, h⟩
  refine step_sim hgen hexec fun A hA hz => ?_
  cases lvalue with
  | ident x => exact sim_assignIdent hA x (hz e (by simp [exprsOf]))
  | array x index =>
    exact sim_assignArray hA x (hz e (by simp [exprsOf])) (hz index (by simp [exprsOf]))

lemma inc_sim (lvalue : Lvalue) : InstrSim P M (.inc lvalue) := by
  have hgen : genInstr P (.inc lvalue) = genIncDec P .add lvalue >>= fun _ => pure false := by
    rw [genInstr]
  refine step_sim hgen (fun s o h => ?_) fun A _ _ => sim_genIncDec .add lvalue
  cases h with
  | inc h => exact ⟨_, rfl, h⟩

lemma dec_sim (lvalue : Lvalue) : InstrSim P M (.dec lvalue) := by
  have hgen : genInstr P (.dec lvalue) = genIncDec P .sub lvalue >>= fun _ => pure false := by
    rw [genInstr]
  refine step_sim hgen (fun s o h => ?_) fun A _ _ => sim_genIncDec .sub lvalue
  cases h with
  | dec h => exact ⟨_, rfl, h⟩

lemma ret_sim (e : Option Expr) : InstrSim P M (.ret e) := by
  intro A hA hz _
  rw [genInstr]
  have hz : ∀ e' ∈ e, ZeroOk P (noIntNeg e') := by
    rintro e' rfl
    exact hz e' (by simp [exprsOf])
  refine (sim_genReturn (M := M) hA e hz).bind fun _ B hB => emits_pure ⟨fun _ => hB.1, ?_⟩
  intro place s w o hM hback hexec
  exact (hB.2 place s w o hM hback hexec).mono fun _ => trivial

lemma block_sim (h : InstrsSim P M is) : InstrSim P M (.block is) := by
  intro A hA hz hs
  rw [genInstr]
  have hz : ZerosOk P (exprsOfAll is) := by simpa only [exprsOf] using hz
  have hs : scopesAllOk is = true := by simpa only [scopesOk] using hs
  refine (emits_inScope_bound (h A hA hz hs)).mono id ?_
  rintro _ _ ⟨B, hB, rfl⟩
  refine ⟨fun _ => rfl, fun place s w o hM hback hexec => ?_⟩
  cases hexec with
  | block hpush hall hpop =>
    obtain rfl := hpush
    obtain ⟨scope, saved, hsaved, rfl⟩ := hpop
    obtain ⟨place', w', h⟩ := hB place _ w _ (hM.leave hM (Places.refl place) _) hback hall
    obtain ⟨rfl, rfl⟩ : scope = s.scope ∧ saved = s.saved := by
      simpa using hsaved.symm.trans h.saved
    exact ⟨place', w', h.goes.prolong (prolongs_bound _), hM.leave h.isMatch h.places _, h.places,
      h.kept, rfl, fun _ => rfl⟩
  | blockReturned hpush hall =>
    obtain rfl := hpush
    obtain ⟨p, arg, w', h⟩ := hB place _ w _ (hM.leave hM (Places.refl place) _) hback hall
    exact ⟨p, arg, w', h.prolong (prolongs_bound _)⟩

mutual

/-- Every instruction is translated into code that does what it does. -/
theorem instr_sim : ∀ i : Instr, InstrSim P M i
  | .empty => fun A _ _ _ => by
      rw [genInstr]
      refine emits_pure ⟨fun _ => rfl, fun place s w o hM _ hexec => ?_⟩
      cases hexec
      exact Ends.refl hM
  | .expr e => expr_sim e
  | .block is => block_sim (instrs_sim is)
  | .declaration type decls => declaration_sim type decls
  | .assign lvalue e => assign_sim lvalue e
  | .inc lvalue => inc_sim lvalue
  | .dec lvalue => dec_sim lvalue
  | .ifThen _ i => ifThen_sim (instr_sim i)
  | .ifElse _ i₁ i₂ => ifElse_sim (instr_sim i₁) (instr_sim i₂)
  | .whileDo _ i => while_sim (instr_sim i)
  | .forDo i₁ _ i₃ i => for_sim (instr_sim i₁) (instr_sim i₃) (instr_sim i)
  | .ret e => ret_sim e

/-- The instructions of every block are translated into code that does what they do. -/
theorem instrs_sim : ∀ is : List Instr, InstrsSim P M is
  | [] => fun A _ _ _ => by
      rw [genInstrs]
      exact emits_pure (simulates_nil.mono fun _ => trivial)
  | i :: is => fun A hA hz hs => by
      rw [genInstrs]
      simp only [exprsOfAll] at hz
      simp only [scopesAllOk, Bool.and_eq_true] at hs
      refine ((instr_sim i).post hA hz.append.1 hs.1).bind fun _ B hB => ?_
      refine ((instrs_sim is).post hB.grown.shaped hz.append.2 hs.2).bind fun _ C hC => ?_
      exact emits_pure ((hB.sim.cons hC.2 hC.1.prolongs).mono False.elim)

end

end Instructions

/-! ## Functions -/

section Functions

/-- The arguments of a call are in the variables of the parameters. -/
def Passed (A : Layout) (vs : List Value) (w : World) : Prop :=
  ∀ i v, vs[i]? = some v → w.env (A.vars.length + i) = v

/-- The parameters get the first variables. -/
lemma sim_genArgDecls : ∀ (args : List (Ty × String)) (A : Layout),
    Emits (genArgDecls args) A dangles fun _ B => B.code = A.code ∧
      ∀ vs place s w, vs.length = args.length → Matches place A s w → Passed A vs w →
        ∃ place', Matches place' B (enter args vs s) w
  | [], A => by
    refine emits_pure ⟨rfl, fun vs place s w hlen hM _ => ⟨place, ?_⟩⟩
    obtain rfl := List.eq_nil_of_length_eq_zero hlen
    exact hM
  | (type, x) :: args, A => by
    have hdeclare : Runs (declareVar type >>= fun var => bindIdent x var) A True fun _ B =>
        ∃ d : VarDecl, d.type = type ∧
          B = (A.declare d).bound (Function.update A.decls x (some A.vars.length)) := by
      have h : Runs (declareVar type >>= fun var => bindIdent x var >>= fun _ => pure ()) A True
          fun _ B => ∃ d : VarDecl, d.type = type ∧
            B = (A.declare d).bound (Function.update A.decls x (some A.vars.length)) :=
        runs_declareIdent type x (fun d hd => runs_pure ⟨d, hd, rfl⟩) trivial
      exact h
    have hbind : genArgDecls ((type, x) :: args) =
        (declareVar type >>= fun var => bindIdent x var) >>= fun _ => genArgDecls args := by
      rw [genArgDecls, bind_assoc]
    rw [hbind]
    refine hdeclare.emits.bind ?_
    rintro _ _ ⟨d, rfl, rfl⟩
    refine (sim_genArgDecls args _).mono id fun _ B hB => ⟨hB.1, ?_⟩
    intro vs place s w hlen hM hpassed
    cases vs with
    | nil => cases hlen
    | cons v vs =>
      rw [enter]
      have hM' := (hM.declare x d).set (Function.update_self s.next (some A.vars.length) place) v
      -- the caller has stored the argument already, so the world does not change
      have hset : w.set A.vars.length v = w := by
        have hv : w.env A.vars.length = v := hpassed 0 v rfl
        rw [World.set, ← hv, Function.update_eq_self]
      rw [hset] at hM'
      refine hB.2 vs _ _ w (Nat.succ.inj hlen) hM' fun i a ha => ?_
      have hlater : ((A.declare d).bound (Function.update A.decls x
          (some A.vars.length))).vars.length + i = A.vars.length + (i + 1) := by
        show (A.vars ++ [d]).length + i = _
        rw [List.length_append, List.length_singleton]
        omega
      rw [hlater]
      exact hpassed (i + 1) a ha

/-- A function has been translated: a call that returns leads to a return with the same value. -/
def ReturnsAs (M : Meaning) (node : FuncNode) (A D : Layout) : Prop :=
  ∀ vs place s w o, vs.length = node.args.length → Matches place A s w → Passed A vs w →
    Backed D w → Exec (storeSteps M.tame) (.block node.body) (enter node.args vs s) o →
      ∃ p arg w', CameBack M A D w o.value o.state p arg w'

lemma sim_genFunction (node : FuncNode) (hA : A.Shaped) (hz : ZerosOk P (exprsOfAll node.body))
    (hs : scopesAllOk node.body = true) :
    Emits (genFunction P node) A True fun _ D => ReturnsAs M node A D := by
  unfold genFunction
  refine ((sim_genArgDecls node.args A).and (grow_genArgDecls node.args hA)).bind fun _ B hB => ?_
  obtain ⟨⟨hcode, hargs⟩, hgrown⟩ := hB
  rw [(genInstrs_returns P node.body).inScope.bind_congr]
  have hbody : InstrSim P M (.block node.body) := instr_sim _
  have hpost : Emits (inScope (genInstrs P node.body)) B True fun _ C =>
      InstrPost M (.block node.body) B C := by
    have h := hbody.post hgrown.shaped (by simpa only [exprsOf] using hz)
      (by simpa only [scopesOk] using hs)
    rwa [genInstr] at h
  refine hpost.bind fun _ C hC => ?_
  -- what the body does, from the start of the function
  have hends : ∀ vs place s w o, vs.length = node.args.length → Matches place A s w →
      Passed A vs w → Backed C w →
      Exec (storeSteps M.tame) (.block node.body) (enter node.args vs s) o →
        ∃ place', Ends M True place' B C (enter node.args vs s) w o := by
    intro vs place s w o hlen hM hpassed hback hexec
    obtain ⟨place', hM'⟩ := hargs vs place s w hlen hM hpassed
    exact ⟨place', (hC.sim place' _ w o hM' hback hexec).mono fun _ => rfl⟩
  have hfrom : ∀ {D : Layout} {w w' : World} {p : Point},
      Goes M 0 B D w p w' → Goes M 0 A D w p w' := by
    intro D w w' p hgo
    rwa [Goes, ← hcode]
  have hreturned : ∀ {D : Layout} {w : World} {v : Option Value} {s' : Store} {p : ℕ}
      {arg : Arg} {w' : World}, CameBack M B D w (v.getD .void) s' p arg w' →
        CameBack M A D w (Outcome.returned v s').value (Outcome.returned v s').state p arg w' :=
    fun h => ⟨hfrom h.goes, h.ret, h.value, h.trace⟩
  split
  · rename_i hreturns
    refine emits_pure fun vs place s w o hlen hM hpassed hback hexec => ?_
    obtain ⟨place', h⟩ := hends vs place s w o hlen hM hpassed hback hexec
    obtain ⟨v, s', rfl⟩ := returns_sound (.block node.body) (by rwa [returns]) hexec
    obtain ⟨p, arg, w', h⟩ := h
    exact ⟨p, arg, w', hreturned h⟩
  · split
    · -- a return is appended
      let D := C.begin.emit ⟨.ret, .none, .none, .none⟩
      have hext : C.Extends D := extends_begin.trans (extends_emit _)
      have hret : Runs (addNewBlock >>= fun _ => emit ⟨.ret, .none, .none, .none⟩) C False
          fun _ D => ReturnsAs M node A D := by
        refine runs_addNewBlock_bind
          (runs_emit fun vs place s w o hlen hM hpassed hback hexec => ?_)
        obtain ⟨place', h⟩ := hends vs place s w o hlen hM hpassed (hback.mono hext.vars) hexec
        cases o with
        | returned v s' =>
          obtain ⟨p, arg, w', h⟩ := h
          exact ⟨p, arg, w', hreturned (h.prolong hext.prolongs)⟩
        | falls s' =>
          obtain ⟨place'', w', h⟩ := h
          refine ⟨_, .none, w', hfrom (h.goes.extend hext), ?_, rfl, h.isMatch.trace⟩
          show D.code[C.code.length]? = _
          rw [code_emit, code_begin]
          simp
      exact hret.emits
    · exact emits_abort

end Functions

/-! ## Calls -/

section Calls

/-- A function has been called: the parameters hold the arguments, and there is memory for the
arrays. -/
structure Entered (g : GenState) (vs : List Value) (w : World) : Prop where
  args : ∀ i v, vs[i]? = some v → w.env i = v
  arrays : ∀ v d t n k, g.vars[v]? = some d → d.type = .array t n → k.toNat < n → w.mem v k ≠ none
  trace : w.trace = []
  params : w.params = []

/-- Every run of the blocks leads to one return, with the value and after the calls. -/
def ReturnsWith (M : Meaning) (bs : List Blk) (w : World) (v : Value) (tr : List Call) : Prop :=
  ∃ p arg w', (codeOf bs)[p]? = some ⟨.ret, .none, arg, .none⟩ ∧ readArg w' arg = some v ∧
    w'.trace = tr ∧ ∀ c, Run M (codeOf bs) (fun l q => labelPos bs l = some q) (.at 0, w) c →
      Run M (codeOf bs) (fun l q => labelPos bs l = some q) c (.at p, w')

lemma final_ret {code : List Quad} {lab : ℕ → ℕ → Prop} {p : ℕ} {arg : Arg}
    (h : code[p]? = some ⟨.ret, .none, arg, .none⟩) : Final M code lab (.at p, w) :=
  final_stuck h rfl

/-- There is one run, which every other one is a part of. -/
lemma CameBack.returnsWith {v : Value} {p : ℕ} {arg : Arg} (hA : A.code = [])
    (hB : B.Sound) (h : CameBack M A B w v s p arg w') : ReturnsWith M B.all w v s.trace := by
  refine ⟨p, arg, w', h.ret, h.value, h.trace, fun c hrun => ?_⟩
  have hgo : Run M B.code B.At (.at 0, w) (.at p, w') := by
    have hleads := h.goes.leads B (Extends.refl B) hB
    rwa [hA] at hleads
  exact hrun.rest onePosition_at hgo (final_ret h.ret)

/-- Before any declaration there is nothing to match. -/
lemma matches_start {id : ℕ} (htrace : w.trace = []) (hparams : w.params = []) :
    Matches (fun _ => none) (Layout.start id) emptyStore w := by
  refine ⟨?_, ?_, ?_, ?_, ?_, htrace, hparams⟩
  · rintro x l ⟨⟩
  · rintro l v ⟨⟩
  · rintro l l' v ⟨⟩
  · rintro l v a ⟨⟩
  · rintro l v k a ⟨⟩

/-- `int f(int n) { while (n > 1) n--; return n; }`. -/
def countDown : FuncNode where
  returnType := .int
  args := [(.int, "n")]
  body := [.whileDo (.cmp .gt (.ident "n") (.int 1)) (.dec (.ident "n")), .ret (some (.ident "n"))]

/-- From `2`, one round of the loop is executed. -/
lemma exec_countDown (M : Meaning) :
    ∃ o, Exec (storeSteps M) (.block countDown.body)
      (enter countDown.args [.int 2] emptyStore) o ∧
      o.value = .int 1 ∧ o.state.trace = [] := by
  let s₀ : Store := enter countDown.args [.int 2] emptyStore
  let s : Store := { s₀ with saved := s₀.scope :: s₀.saved }
  let s' : Store := s.set 0 (.int 1)
  have htest : ∀ (s₁ : Store) (k : BitVec 32), s₁.scope "n" = some 0 → s₁.env 0 = some (.int k) →
      HasTruth M s₁ (.cmp .gt (.ident "n") (.int 1)) ((1 : BitVec 32).slt k) s₁.trace := by
    intro s₁ k hscope hk env h
    have hn : env 0 = .int k := h 0 _ hk
    simp [evalBool_cmp, evalPair, evalExpr, Store.reading, hscope, hn, testValue]
  have hvalue : HasValue M s' (.ident "n") (.int 1) [] := fun env h =>
    congrArg (fun v => some (v, [])) (h 0 _ rfl)
  have hdec : Changes M .sub (.ident "n") s s' := ⟨0, .int 2, .int 1, rfl, rfl, rfl, rfl⟩
  have hloop : ExecLoop (storeSteps M) (.cmp .gt (.ident "n") (.int 1)) [.dec (.ident "n")] s
      (.falls s') :=
    .round ⟨[], htest s 2 rfl rfl, rfl⟩ (.cons (.dec hdec) .nil)
      (.done ⟨[], htest s' 1 rfl rfl, rfl⟩)
  exact ⟨_, .blockReturned rfl (.cons (.whileDo hloop)
    (.returned (.retValue ⟨[], hvalue, rfl⟩))), rfl, rfl⟩

end Calls

end Javalette.Front
