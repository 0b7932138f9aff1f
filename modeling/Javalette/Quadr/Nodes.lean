import Javalette.Quadr.Translate

/-!
# The translation, node by node

One lemma for each kind of node: if the operands are translated as they should be, so is the
node.
-/

namespace Javalette.Front

open SyntaxTree Layout

variable {P : Platform} {M : Meaning} {sig : ℕ → Option (List Ty × Ty)}
variable {A B C : Layout} {e l r : Expr} {a a₁ a₂ : Arg}

attribute [local simp] genQuadrExpr genArgs startsExpr WellTyped

/-! ## Parts that several nodes share -/

namespace Layout

lemma FreshTargets.nil : FreshTargets A B [] := ⟨List.nodup_nil, fun _ h => nomatch h⟩

lemma FreshTargets.trans {δ ε : List Quad} (h₁ : FreshTargets A B δ) (h₂ : FreshTargets B C ε)
    (hAB : A.next ≤ B.next) (hBC : B.next ≤ C.next) : FreshTargets A C (δ ++ ε) := by
  refine ⟨?_, fun t ht => ?_⟩
  · rw [targets_append]
    refine List.nodup_append.mpr ⟨h₁.nodup, h₂.nodup, fun t ht t' ht' htt => ?_⟩
    have := h₁.fresh t ht
    have := h₂.fresh t' ht'
    omega
  · rw [targets_append] at ht
    rcases List.mem_append.mp ht with ht | ht
    · have := h₁.fresh t ht
      omega
    · have := h₂.fresh t ht
      omega

/-- Code without jumps. -/
lemma FreshTargets.plain {δ : List Quad} (h : ∀ q ∈ δ, isBlockEnd q.op = false) :
    FreshTargets A B δ := by
  have hnil : targets δ = [] :=
    List.filterMap_eq_nil_iff.mpr fun q hq => targetOf_plain (h q hq)
  exact ⟨hnil ▸ List.nodup_nil, fun t ht => by rw [hnil] at ht; cases ht⟩

lemma FreshTargets.single {q : Quad} (h : isBlockEnd q.op = false) : FreshTargets A B [q] :=
  FreshTargets.plain fun r hr => by rw [List.mem_singleton.mp hr, h]

/-- A variable declared first makes no difference. -/
lemma fresh_of_declare {d : VarDecl}
    (h : ∃ δ, B.code = (A.declare d).code ++ δ ∧ FreshTargets (A.declare d) B δ) :
    ∃ δ, B.code = A.code ++ δ ∧ FreshTargets A B δ := by
  obtain ⟨δ, hδ, hfresh⟩ := h
  exact ⟨δ, hδ, hfresh.nodup, hfresh.fresh⟩

lemma opens_of_declare {d : VarDecl} {x : Start} (h : Opens (A.declare d) B x) : Opens A B x := by
  cases x <;> exact h

lemma FreshTargets.mono {δ : List Quad} (h : FreshTargets A B δ) {A' B' : Layout}
    (hA : A'.next ≤ A.next) (hB : B.next ≤ B'.next) : FreshTargets A' B' δ :=
  ⟨h.nodup, fun t ht => ⟨Nat.le_trans hA (h.fresh t ht).1, Nat.lt_of_lt_of_le (h.fresh t ht).2 hB⟩⟩

end Layout

/-- An expression is translated after preparations that emit nothing. -/
lemma runs_expr {Q : Arg → Layout → Prop} {abort : Prop} (he : ExprSpec P M sig e)
    (hA : A.Shaped) (hQ : ∀ a B, ExprPost P M e A a B → Q a B)
    (habort : (¬∃ t, WellTyped (A.types sig) e t ∧ jumpsOk e = true) → abort) :
    Runs (genQuadrExpr P e) A abort Q :=
  (he A hA).mono habort hQ

/-- The last quadruple of a node puts the value into the new variable `n`. -/
lemma exprPost_emit {x : Start} {n : ℕ} {q : Quad} (hext : A.Extends B) (hshaped : B.Shaped)
    (hpend : B.pend = A.pend) (hcode : ∃ δ, B.code = A.code ++ δ ∧ FreshTargets A B δ)
    (hopens : Opens A B x) (hstarts : x.then .quad = startsExpr e)
    (hn : A.vars.length ≤ n ∧ n < B.vars.length) (hq : isBlockEnd q.op = false)
    (hparam : q.op ≠ .param)
    (hmeaning : ∀ m w, m ≤ A.code.length → w.params = [] →
      Delivers M m A (B.emit q) w (evalExpr M (A.reading w) (lower P e) w.trace)
        fun v w' => readArg w' (.var n) = some v) :
    ExprPost P M e A (.var n) (B.emit q) := by
  obtain ⟨δ, hδ, hfresh⟩ := hcode
  refine ⟨hext.trans (extends_emit q), hshaped.emit hq hparam, hpend, ?_, ?_, ?_, ?_, hmeaning⟩
  · refine ⟨δ ++ [q], by rw [code_emit, hδ, List.append_assoc], ?_⟩
    exact hfresh.trans (FreshTargets.single hq) hext.next (Nat.le_refl _)
  · rw [← hstarts]
    exact hopens.then (opens_emit q) (extends_emit q)
  · rintro v ⟨⟩
    exact hn.2
  · rintro v ⟨⟩
    exact Or.inl hn.1

/-! ## Constants -/

/-- The constant that `quadr_arg` copies. -/
def constArg (P : Platform) (type : Ty) (value : VarArg) : Option Arg :=
  match type with
  | .int | .boolean => some (.int (P.readInt value))
  | .double => some (.double (P.readDouble value))
  | _ => none

/-- The layout after `quadr_arg`. -/
def Layout.withConst (A : Layout) (d : VarDecl) (c : Arg) : Layout :=
  (A.declare d).emit ⟨.copy, .var A.vars.length, c, .none⟩

lemma runs_quadrArg {Q : Arg → Layout → Prop} {abort : Prop} {type : Ty} {value : VarArg}
    (h : ∀ d c, constArg P type value = some c → Q (.var A.vars.length) (A.withConst d c))
    (habort : constArg P type value = none → abort) :
    Runs (quadrArg P type value) A abort Q := by
  -- the constant has been read when the copy is emitted
  have hcopy : ∀ q c, constArg P type value = some c →
      Runs (pure c >>= fun c => genCopy A.vars.length c >>= fun _ => pure (.var A.vars.length))
        (A.declare ⟨type, q⟩) abort Q := fun q c hc => by
    rw [pure_bind]
    exact runs_emit_bind (runs_pure (h ⟨type, q⟩ c hc))
  unfold quadrArg
  refine runs_declareVar_bind (fun q hq => ?_) (fun hq => ?_)
  · cases type with
    | int => exact hcopy q _ rfl
    | double => exact hcopy q _ rfl
    | boolean => exact hcopy q _ rfl
    | array b n => exact runs_abort (habort rfl)
    | void => exact runs_abort (habort rfl)
    | str => exact runs_abort (habort rfl)
  · cases type <;> first | exact habort rfl | cases hq

lemma code_withConst (d : VarDecl) (c : Arg) :
    (A.withConst d c).code = A.code ++ [⟨.copy, .var A.vars.length, c, .none⟩] :=
  code_emit _

lemma extends_withConst (d : VarDecl) (c : Arg) : A.Extends (A.withConst d c) :=
  (extends_declare d).trans (extends_emit _)

/-- The constant is copied into the new variable. -/
lemma goes_withConst {n : ℕ} {d : VarDecl} {c : Arg} {w : World} {v : Value}
    (hc : readArg w c = some v) :
    Goes M n A (A.withConst d c) w (.at (A.withConst d c).code.length)
      (w.set A.vars.length v) := by
  refine goes_plain (A := A.declare d) rfl ?_
  simp [execPlain, hc, setResult]

lemma delivers_withConst {n : ℕ} {d : VarDecl} {c : Arg} {w : World} {v : Value}
    (hw : w.params = []) (hc : readArg w c = some v) :
    Delivers M n A (A.withConst d c) w (some (v, w.trace))
      fun v w' => readArg w' (.var A.vars.length) = some v :=
  ⟨w.set A.vars.length v, (After.refl A hw).set (Nat.le_refl _) v, goes_withConst hc,
    congrArg some (Function.update_self _ _ _)⟩

lemma const_spec {type : Ty} {value : VarArg} {c : Arg} {v : Value}
    (hgen : genQuadrExpr P e = quadrArg P type value)
    (hc : constArg P type value = some c) (hread : ∀ w, readArg w c = some v)
    (hstarts : startsExpr e = .quad)
    (heval : ∀ R tr, evalExpr M R (lower P e) tr = some (v, tr)) : ExprSpec P M sig e := by
  intro A hA
  rw [hgen]
  refine runs_quadrArg (fun d c' hc' => ?_) fun hnone => ?_
  · obtain rfl : c' = c := Option.some.inj (hc'.symm.trans hc)
    refine exprPost_emit (x := .nothing) (extends_declare d) (hA.declare d) rfl
      ⟨[], (List.append_nil _).symm, FreshTargets.nil⟩ rfl hstarts.symm ?_ rfl (by simp) ?_
    · exact ⟨Nat.le_refl _, by simp [Layout.declare]⟩
    · intro n w _ hw
      rw [heval]
      exact delivers_withConst hw (hread w)
  · rw [hc] at hnone
    cases hnone

lemma int_spec (value : BitVec 32) : ExprSpec P M sig (.int value) :=
  const_spec (v := .int value) (by rw [genQuadrExpr]; rfl) rfl (fun _ => rfl)
    (by simp) fun _ _ => by simp only [lower, evalExpr]

lemma double_spec (value : BitVec 64) : ExprSpec P M sig (.double value) :=
  const_spec (v := .double value) (by rw [genQuadrExpr]; rfl) rfl (fun _ => rfl)
    (by simp) fun _ _ => by simp only [lower, evalExpr]

/-! ## Nodes without quadruples -/

lemma str_spec (value : String) : ExprSpec P M sig (.str value) := by
  intro A hA
  rw [genQuadrExpr]
  refine runs_pure ⟨Extends.refl A, hA, rfl, ⟨[], (List.append_nil _).symm, FreshTargets.nil⟩,
    ?_, ?_, ?_, ?_⟩
  · simp only [startsExpr]
    rfl
  · rintro v ⟨⟩
  · rintro v ⟨⟩
  · intro n w _ hw
    simp only [lower, evalExpr]
    exact delivers_refl hw rfl rfl

lemma ident_spec (x : String) : ExprSpec P M sig (.ident x) := by
  intro A hA
  rw [genQuadrExpr]
  refine runs_declOf_bind (fun u hu => ?_) (fun hnone => ?_)
  · refine runs_pure ⟨Extends.refl A, hA, rfl, ⟨[], (List.append_nil _).symm, FreshTargets.nil⟩,
      ?_, ?_, ?_, ?_⟩
    · simp only [startsExpr]
      rfl
    · rintro v ⟨⟩
      exact hA.inScope x u hu
    · rintro v ⟨⟩
      exact Or.inr ⟨x, by rw [identOf], hu⟩
    · intro n w _ hw
      simp only [lower, evalExpr, reading, hu, Option.map_some]
      exact delivers_refl hw rfl rfl
  · rintro ⟨t, ht, -⟩
    simp [Layout.types, hnone] at ht

lemma plus_spec {ty : Ty} (hty : ty ≠ .boolean) (he : ExprSpec P M sig e) :
    ExprSpec P M sig (.plus ty e) := by
  intro A hA
  rw [genQuadrExpr, if_neg (by simpa [isJumping] using hty)]
  refine runs_expr he hA (fun a B h => ?_) fun habort => ?_
  · exact ⟨h.extends', h.shaped, h.pend, h.code, by simpa only [startsExpr] using h.opens, h.arg_lt,
      by simpa only [identOf] using h.arg_new, by simpa only [lower, evalExpr] using h.meaning⟩
  · rintro ⟨t, ht, hok⟩
    simp only [WellTyped] at ht
    exact habort ⟨ty, ht.2.2, by simpa only [jumpsOk] using hok⟩

/-! ## Operations -/

lemma runs_quadrArg_bind {α : Type} {Q : α → Layout → Prop} {abort : Prop} {type : Ty}
    {value : VarArg} {f : Arg → Gen α}
    (h : ∀ d c, constArg P type value = some c →
      Runs (f (.var A.vars.length)) (A.withConst d c) abort Q)
    (habort : constArg P type value = none → abort) :
    Runs (quadrArg P type value >>= f) A abort Q := by
  refine (runs_quadrArg (Q := fun a B => ∃ d c, constArg P type value = some c ∧
    a = .var A.vars.length ∧ B = A.withConst d c)
    (fun d c hc => ⟨d, c, hc, rfl, rfl⟩) habort).bind ?_
  rintro _ _ ⟨d, c, hc, rfl, rfl⟩
  exact h d c hc

/-- What holds after the translation of two operands, the left one first. -/
structure PairPost (P : Platform) (M : Meaning) (l r : Expr) (A : Layout) (a₁ a₂ : Arg)
    (C : Layout) : Prop where
  extends' : A.Extends C
  shaped : C.Shaped
  pend : C.pend = A.pend
  code : ∃ δ, C.code = A.code ++ δ ∧ FreshTargets A C δ
  opens : Opens A C ((startsExpr l).then (startsExpr r))
  meaning : ∀ n w, n ≤ A.code.length → w.params = [] →
    Delivers M n A C w (evalPair M (A.reading w) (lower P l) (lower P r) w.trace)
      fun p w' => readArg w' a₁ = some p.1 ∧ readArg w' a₂ = some p.2

lemma ExprPost.pair (hA : A.Shaped) (h₁ : ExprPost P M l A a₁ B) (h₂ : ExprPost P M r B a₂ C) :
    PairPost P M l r A a₁ a₂ C := by
  obtain ⟨δ, hδ, hfresh⟩ := h₁.code
  obtain ⟨ε, hε, hfresh'⟩ := h₂.code
  refine ⟨h₁.extends'.trans h₂.extends', h₂.shaped, h₂.pend.trans h₁.pend,
    ⟨δ ++ ε, by rw [hε, hδ, List.append_assoc],
      hfresh.trans hfresh' h₁.extends'.next h₂.extends'.next⟩,
    h₁.opens.then h₂.opens h₂.extends', ?_⟩
  intro n w hn hw
  refine (h₁.meaning n w hn hw).bind h₁.extends' h₂.extends' fun x w₁ hafter₁ hread₁ => ?_
  -- the right operand finds the variables as they were
  have hright := h₂.meaning n w₁ (Nat.le_trans hn h₁.extends'.code.length_le) hafter₁.params
  rw [hafter₁.evalExpr h₁.extends' hA] at hright
  have hread : Delivers M n B C w₁
      ((evalExpr M (A.reading w) (lower P r) w₁.trace).map fun q => ((x, q.1), q.2))
      fun p w' => readArg w' a₁ = some p.1 ∧ readArg w' a₂ = some p.2 :=
    hright.map fun y w₂ hafter₂ hread₂ =>
      ⟨readArg_congr hread₁ fun v hv => hafter₂.env v (h₁.arg_lt v hv), hread₂⟩
  rw [Option.map_eq_bind] at hread
  exact hread

/-- Two operands are translated, the left one first. -/
lemma runs_pair {α : Type} {Q : α → Layout → Prop} {abort : Prop} {f : Arg → Arg → Gen α}
    (hl : ExprSpec P M sig l) (hr : ExprSpec P M sig r) (hA : A.Shaped)
    (h : ∀ a₁ a₂ C, PairPost P M l r A a₁ a₂ C → Runs (f a₁ a₂) C abort Q)
    (habort : ¬(∃ t u, WellTyped (A.types sig) l t ∧ WellTyped (A.types sig) r u ∧
      jumpsOk l = true ∧ jumpsOk r = true) → abort) :
    Runs (genQuadrExpr P l >>= fun a₁ => genQuadrExpr P r >>= f a₁) A abort Q := by
  refine ((hl A hA).mono (fun hno => habort fun ⟨t, u, ht, _, hok, _⟩ => hno ⟨t, ht, hok⟩)
    fun a B h => h).bind fun a₁ B h₁ => ?_
  refine ((hr B h₁.shaped).mono (fun hno => habort fun ⟨t, u, _, hu, _, hok⟩ => hno ⟨u, ?_, hok⟩)
    fun a B h => h).bind fun a₂ C h₂ => h a₁ a₂ C (h₁.pair hA h₂)
  rw [h₁.extends'.types hA]
  exact hu

lemma qtypeOf_eq_none {ty : Ty} (h : qtypeOf ty = none) : ¬Scalar ty := by
  rintro (rfl | rfl | rfl) <;> cases h

lemma execPlain_binop (op : Binop) {n : ℕ} {w : World} {x y : Value}
    (h₁ : readArg w a₁ = some x) (h₂ : readArg w a₂ = some y) :
    execPlain M ⟨quadrBinop op, .var n, a₁, a₂⟩ w = (binValue M op x y).map (w.set n) := by
  cases op <;> simp only [execPlain, quadrBinop, binopOf, h₁, h₂, setResult,
    Option.bind_eq_bind, Option.bind_some] <;> exact Option.map_eq_bind.symm

lemma quadrBinop_plain (op : Binop) : isBlockEnd (quadrBinop op) = false ∧
    quadrBinop op ≠ .param := by
  cases op <;> exact ⟨rfl, by simp [quadrBinop]⟩

lemma binop_spec {op : Binop} {ty : Ty} (hty : ty ≠ .boolean) (hl : ExprSpec P M sig l)
    (hr : ExprSpec P M sig r) : ExprSpec P M sig (.binop op ty l r) := by
  intro A hA
  rw [genQuadrExpr, if_neg (by simpa [isJumping] using hty)]
  refine runs_declareVar_bind (fun q hq => ?_) (fun hq => ?_)
  · have hdecl := extends_declare (A := A) ⟨ty, q⟩
    refine runs_pair hl hr (hA.declare _) (fun a₁ a₂ C h => ?_) fun hno => ?_
    · -- the temporary for the result is declared before the operands
      have hlen : A.vars.length < C.vars.length := by
        have := h.extends'.vars.length_le
        simp only [Layout.declare, List.length_append, List.length_singleton] at this
        omega
      refine runs_emit_bind (runs_pure (exprPost_emit (hdecl.trans h.extends') h.shaped h.pend
        (fresh_of_declare h.code) (opens_of_declare h.opens) ?_ ⟨Nat.le_refl _, hlen⟩
        (quadrBinop_plain op).1 (quadrBinop_plain op).2 ?_))
      · simp only [startsExpr]
      · intro n w hn hw
        rw [lower, evalExpr_binop]
        exact ((h.meaning n w hn hw).before hw hdecl (code_declare _)).store
          (g := fun p => binValue M op p.1 p.2) (quadrBinop_plain op).1 (Nat.le_refl _)
          fun p w' _ hread => execPlain_binop op hread.1 hread.2
    · rintro ⟨t, ht, hok⟩
      simp only [WellTyped] at ht
      simp only [jumpsOk, Bool.and_eq_true] at hok
      refine hno ⟨ty, ty, ?_, ?_, hok.1, hok.2⟩
      · rw [hdecl.types hA]
        exact ht.2.2.1
      · rw [hdecl.types hA]
        exact ht.2.2.2
  · rintro ⟨t, ht, -⟩
    simp only [WellTyped] at ht
    refine qtypeOf_eq_none hq ?_
    exact ht.2.1.imp_right fun h => Or.inl h.1

lemma Layout.Shaped.withConst (hA : A.Shaped) (d : VarDecl) (c : Arg) : (A.withConst d c).Shaped :=
  (hA.declare d).emit rfl (by simp)

/-- Unary minus is translated as the difference from the zero. -/
lemma genQuadrExpr_neg {ty : Ty} (hty : ty = .int ∨ ty = .double) (e : Expr) :
    genQuadrExpr P (.neg ty e) = genQuadrExpr P (.binop .sub ty (negZero P ty) e) := by
  have hzero : quadrArg P ty (.double 0) = genQuadrExpr P (negZero P ty) := by
    rcases hty with rfl | rfl
    · rw [negZero, genQuadrExpr]
      · rfl
      · rintro ⟨⟩
    · rw [negZero, genQuadrExpr]
      rfl
  have hjump : isJumping (.neg ty e) = false ∧
      isJumping (.binop .sub ty (negZero P ty) e) = false := by
    rcases hty with rfl | rfl <;> exact ⟨rfl, rfl⟩
  conv_lhs => rw [genQuadrExpr, if_neg (by simp [hjump.1])]
  conv_rhs => rw [genQuadrExpr, if_neg (by simp [hjump.2]), ← hzero]
  rfl

lemma lower_negZero (ty : Ty) : lower P (negZero P ty) = negZero P ty := by
  cases ty <;> simp only [negZero, lower]

lemma neg_spec {ty : Ty} (hty : ty ≠ .boolean) (he : ExprSpec P M sig e) :
    ExprSpec P M sig (.neg ty e) := by
  intro A hA
  by_cases hscalar : ty = .int ∨ ty = .double
  · have hzero : ExprSpec P M sig (negZero P ty) := by
      rcases hscalar with rfl | rfl
      · exact int_spec _
      · exact double_spec _
    rw [genQuadrExpr_neg hscalar]
    refine (binop_spec hty hzero he A hA).mono (fun hno => ?_) fun a B h => ?_
    · rintro ⟨t, ht, hok⟩
      simp only [WellTyped] at ht
      refine hno ⟨ty, ⟨rfl, ?_, ?_, ht.2.2⟩, ?_⟩
      · exact ht.2.1.imp_right fun h => ⟨h, by simp⟩
      · rcases hscalar with rfl | rfl <;> simp [negZero]
      · rcases hscalar with rfl | rfl <;> simpa only [negZero, jumpsOk, Bool.true_and] using hok
    · have hstarts : startsExpr (.binop .sub ty (negZero P ty) e) = startsExpr (.neg ty e) := by
        rcases hscalar with rfl | rfl <;> simp [negZero, Start.then]
      refine ⟨h.extends', h.shaped, h.pend, h.code, hstarts ▸ h.opens, h.arg_lt,
        by simpa only [identOf] using h.arg_new, ?_⟩
      have hmeaning := h.meaning
      rw [lower, lower_negZero] at hmeaning
      rw [lower]
      exact hmeaning
  · -- no zero of the type is known
    have habort : ¬∃ t, WellTyped (A.types sig) (.neg ty e) t ∧ jumpsOk (.neg ty e) = true := by
      rintro ⟨t, ht, -⟩
      simp only [WellTyped] at ht
      exact hscalar ht.2.1
    rw [genQuadrExpr, if_neg (by simpa [isJumping] using hty)]
    refine runs_declareVar_bind (fun q _ => runs_quadrArg_bind (fun d c hc => ?_) fun _ => habort)
      fun _ => habort
    cases ty <;> simp_all [constArg]

lemma runs_basicTypeOf_bind {α : Type} {Q : α → Layout → Prop} {abort : Prop} {var : ℕ}
    {f : Ty → Gen α}
    (h : ∀ d t n, A.vars[var]? = some d → d.type = .array t n → Runs (f t) A abort Q)
    (habort : (¬∃ d t n, A.vars[var]? = some d ∧ d.type = .array t n) → abort) :
    Runs (basicTypeOf var >>= f) A abort Q := by
  unfold basicTypeOf
  rw [bind_assoc]
  refine runs_varType_bind (fun d hd => ?_) fun hnone => habort ?_
  · cases htype : d.type with
    | array t n =>
      show Runs (pure t >>= f) A abort Q
      rw [pure_bind]
      exact h d t n hd htype
    | _ =>
      refine runs_abort (habort ?_)
      rintro ⟨d', t, n, hd', ht⟩
      obtain rfl : d' = d := Option.some.inj (hd'.symm.trans hd)
      rw [htype] at ht
      cases ht
  · rintro ⟨d, t, n, hd, -⟩
    rw [hnone] at hd
    cases hd

/-- The layout after `gen_get_addr`. -/
def Layout.withAddr (A : Layout) (d : VarDecl) (var : ℕ) : Layout :=
  (A.declare d).emit ⟨.getAddr, .var A.vars.length, .var var, .none⟩

lemma code_withAddr (d : VarDecl) (var : ℕ) :
    (A.withAddr d var).code = A.code ++ [⟨.getAddr, .var A.vars.length, .var var, .none⟩] :=
  code_emit _

lemma runs_genGetAddr_bind {α : Type} {Q : α → Layout → Prop} {abort : Prop} {var : ℕ}
    {f : ℕ → Gen α} (hvar : var < A.vars.length)
    (h : ∀ d, Runs (f A.vars.length) (A.withAddr d var) abort Q) :
    Runs (genGetAddr var >>= f) A abort Q := by
  unfold genGetAddr
  simp only [bind_assoc, pure_bind]
  refine runs_varType_bind (fun d _ => runs_newVarDecl_bind (runs_emit_bind (h _))) fun hnone => ?_
  exact absurd hvar (Nat.not_lt.mpr (List.getElem?_eq_none_iff.mp hnone))

/-- The address of an array is put into a new variable. -/
lemma Delivers.withAddr {n v : ℕ} {d : VarDecl} {w : World} {o : Option (Value × List Call)}
    (h : Delivers M n A B w o fun b w' => readArg w' a = some b)
    (hlen : A.vars.length ≤ B.vars.length)
    (ha : ∀ u, a = .var u → u < B.vars.length) :
    Delivers M n A (B.withAddr d v) w o fun b w' =>
      readArg w' a = some b ∧ readArg w' (.var B.vars.length) = some (.ptr v) := by
  have hdeclared : Delivers M n A (B.declare d) w o fun b w' => readArg w' a = some b :=
    h.extend_end (extends_declare d) (code_declare d)
  have hemit := hdeclared.emit (q := ⟨.getAddr, .var B.vars.length, .var v, .none⟩)
    (f := some) (S := fun b w' =>
      readArg w' a = some b ∧ readArg w' (.var B.vars.length) = some (.ptr v)) rfl
    fun b w' hafter hread => ⟨w'.set B.vars.length (.ptr v),
      by simp [execPlain, varOf, setResult], hafter.set hlen _,
      readArg_congr hread fun u hu => Function.update_of_ne (Nat.ne_of_lt (ha u hu)) _ _,
      congrArg some (Function.update_self _ _ _)⟩
  rwa [Option.bind_fun_some] at hemit

/-- A pointer to an array of the program selects its elements. -/
lemma readPtr_element {x : String} {base : ℕ} {w w' : World} {tr : List Call} {v : Value}
    (hbase : A.decls x = some base) (hafter : After A w w' tr) :
    readPtr w' (.ptr base) v = element (A.reading w) x v := by
  have hmem : w'.mem = (A.reading w).mem := hafter.mem
  cases v <;> simp [readPtr, element, reading, hbase, hmem]

lemma execPlain_readPtr {n : ℕ} {p : Arg} {w : World} {x y : Value} (hp : readArg w p = some x)
    (ha : readArg w a = some y) :
    execPlain M ⟨.readPtr, .var n, p, a⟩ w = (readPtr w x y).map (w.set n) := by
  simp only [execPlain, hp, ha, setResult, Option.bind_eq_bind, Option.bind_some]
  exact Option.map_eq_bind.symm

lemma array_spec {x : String} {i : Expr} (hi : ExprSpec P M sig i) :
    ExprSpec P M sig (.array x i) := by
  intro A hA
  rw [genQuadrExpr]
  refine runs_declOf_bind (fun base hbase => ?_) fun hnone => ?_
  · refine runs_basicTypeOf_bind (fun d t n hd ht => ?_) fun hno => ?_
    · refine runs_declareVar_bind (fun q hq => ?_) fun hq => ?_
      · let A₁ := A.declare ⟨t, q⟩
        have hext₁ : A.Extends A₁ := extends_declare _
        refine Runs.bind (runs_expr hi (hA.declare _) (fun a C h => h) fun hno => ?_)
          fun a C h => ?_
        · rintro ⟨u, hu, hok⟩
          simp only [WellTyped] at hu
          refine hno ⟨.int, ?_, by simpa only [jumpsOk] using hok⟩
          rw [hext₁.types hA]
          exact hu.2.2
        · have hlen : A.vars.length < C.vars.length := by
            have := h.extends'.vars.length_le
            simp only [Layout.declare, List.length_append, List.length_singleton] at this
            omega
          -- the address is computed after the index, so it is read where the index left the state
          refine runs_genGetAddr_bind (Nat.lt_trans (hA.inScope x base hbase) hlen) fun d' => ?_
          let D := C.withAddr d' base
          have hext₂ : C.Extends D := (extends_declare d').trans (extends_emit _)
          have hcode : ∃ δ, D.code = A.code ++ δ ∧ FreshTargets A D δ := by
            obtain ⟨δ, hδ, hfresh⟩ := h.code
            refine ⟨δ ++ [⟨.getAddr, .var C.vars.length, .var base, .none⟩], ?_, ?_⟩
            · rw [code_withAddr, hδ, code_declare, List.append_assoc]
            · exact FreshTargets.trans (B := C) ⟨hfresh.nodup, hfresh.fresh⟩
                (FreshTargets.single rfl) h.extends'.next hext₂.next
          have hopens : Opens A D (startsExpr (.array x i)) := by
            have hget : Opens C D .quad := opens_of_declare (opens_emit _)
            simp only [startsExpr]
            exact (opens_of_declare h.opens).then hget hext₂
          refine runs_emit_bind (runs_pure (exprPost_emit ((hext₁.trans h.extends').trans hext₂)
            ((h.shaped.declare d').emit rfl (by simp)) h.pend hcode hopens ?_ ?_ rfl (by simp) ?_))
          · simp only [startsExpr]
            cases startsExpr i <;> rfl
          · exact ⟨Nat.le_refl _, Nat.lt_of_lt_of_le hlen hext₂.vars.length_le⟩
          · intro n w hn hw
            rw [lower, evalExpr_array]
            have hindex := (h.meaning n w hn hw).before hw hext₁ (code_declare _)
            have haddr := hindex.withAddr (d := d') (v := base) (Nat.le_of_lt hlen) h.arg_lt
            refine haddr.store (g := element (A.reading w) x) rfl (Nat.le_refl _)
              fun b w' hafter hb => ?_
            obtain ⟨hread, hptr⟩ := hb
            rw [← readPtr_element hbase hafter]
            exact execPlain_readPtr hptr hread
      · rintro ⟨u, hu, -⟩
        simp only [WellTyped, Layout.types, hbase, Option.bind_some, hd, Option.map_some, ht] at hu
        obtain ⟨⟨m, hm⟩, hscalar, -⟩ := hu
        cases hm
        exact qtypeOf_eq_none hq hscalar
    · rintro ⟨u, hu, -⟩
      simp only [WellTyped, Layout.types, hbase, Option.bind_some] at hu
      obtain ⟨⟨m, hm⟩, -, -⟩ := hu
      obtain ⟨d, hd, ht⟩ := Option.map_eq_some_iff.mp hm
      exact hno ⟨d, u, m, hd, ht⟩
  · rintro ⟨u, hu, -⟩
    simp [Layout.types, hnone] at hu

/-! ## Calls -/

namespace Layout

/-- Quadruples for the current block. -/
def emits (A : Layout) (qs : List Quad) : Layout :=
  { A with cur := { A.cur with lst := A.cur.lst ++ qs } }

lemma emits_emit (qs : List Quad) (q : Quad) : (A.emits qs).emit q = A.emits (qs ++ [q]) := by
  simp [emits, emit]

@[simp] lemma emits_nil : A.emits [] = A := by
  simp [emits]

@[simp] lemma code_emits (qs : List Quad) : (A.emits qs).code = A.code ++ qs := by
  simp [emits, code, all]

lemma extends_emits (qs : List Quad) : A.Extends (A.emits qs) := by
  induction qs using List.reverseRecOn with
  | nil => exact emits_nil ▸ Extends.refl A
  | append_singleton qs q ih =>
    rw [← emits_emit]
    exact ih.trans (extends_emit q)

lemma opens_emits {qs : List Quad} (h : qs ≠ []) : Opens A (A.emits qs) .quad :=
  ⟨_, cur_mem_all, rfl, by simp [emits, h]⟩

end Layout

/-- The parameters of a call, the last one first. -/
def paramQuads : List Arg → List Quad
  | [] => []
  | a :: args => paramQuads args ++ [⟨.param, .none, a, .none⟩]

/-- The quadruples of a call: the parameters stand immediately before it. -/
def callQuads (result : Arg) (func : ℕ) (args : List Arg) : List Quad :=
  paramQuads args ++ [⟨.call, result, .func func, .none⟩]

lemma op_paramQuads {args : List Arg} : ∀ q ∈ paramQuads args, q.op = .param := by
  induction args with
  | nil => exact fun _ h => nomatch h
  | cons a args ih =>
    intro q hq
    rcases List.mem_append.mp hq with hq | hq
    · exact ih q hq
    · rw [List.mem_singleton.mp hq]

lemma callQuads_plain {result : Arg} {func : ℕ} {args : List Arg} :
    ∀ q ∈ callQuads result func args, isBlockEnd q.op = false := by
  intro q hq
  rcases List.mem_append.mp hq with hq | hq
  · rw [op_paramQuads q hq]
    rfl
  · rw [List.mem_singleton.mp hq]
    rfl

/-- Parameters and what they are for. -/
lemma paramsAdjacent_params {ps : List Quad} (hps : ∀ q ∈ ps, q.op = .param) {next : Quad}
    (hnext : next.op = .call) : paramsAdjacent (ps ++ [next]) = true := by
  induction ps with
  | nil => exact paramsAdjacent_single (by simp [hnext])
  | cons q ps ih =>
    simp only [List.cons_append, paramsAdjacent, Bool.and_eq_true]
    refine ⟨?_, ih fun r hr => hps r (List.mem_cons_of_mem _ hr)⟩
    cases ps with
    | nil => simp [hnext]
    | cons r ps => simp [hps r (by simp)]

lemma runs_genParams_bind {α : Type} {Q : α → Layout → Prop} {abort : Prop} {f : Unit → Gen α} :
    ∀ {args : List Arg} {A : Layout}, Runs (f ()) (A.emits (paramQuads args)) abort Q →
      Runs (genParams args >>= f) A abort Q
  | [], A, h => by
    rw [genParams, pure_bind]
    simpa [paramQuads] using h
  | a :: args, A, h => by
    rw [genParams, bind_assoc]
    refine runs_genParams_bind (runs_emit_bind ?_)
    rw [emits_emit]
    exact h

lemma runs_genCallQuadr {Q : Arg → Layout → Prop} {abort : Prop} {type : Ty} {func : ℕ}
    {args : List Arg}
    (hvoid : type = .void → Q .none (A.emits (callQuads .none func args)))
    (h : type ≠ .void → ∀ d,
      Q (.var A.vars.length) ((A.declare d).emits (callQuads (.var A.vars.length) func args)))
    (habort : ¬Scalar type → abort) :
    Runs (genCallQuadr type func args) A abort Q := by
  have hvar : type ≠ .void → Runs (declareVar type >>= fun result =>
      emit ⟨.call, .var result, .func func, .none⟩ >>= fun _ => pure (.var result))
      (A.emits (paramQuads args)) abort Q := fun hne => by
    refine runs_declareVar_bind (fun q _ => runs_emit_bind (runs_pure ?_)) fun hq => ?_
    · have := h hne ⟨type, q⟩
      rw [callQuads, ← emits_emit] at this
      exact this
    · exact habort fun hscalar => qtypeOf_eq_none hq hscalar
  unfold genCallQuadr
  refine runs_genParams_bind ?_
  cases type with
  | void =>
    refine runs_emit_bind (runs_pure ?_)
    rw [emits_emit]
    exact hvoid rfl
  | _ => exact hvar (by simp)

/-- The parameters are declared in the order of the source. -/
lemma goes_params {n : ℕ} {w : World} : ∀ {args : List Arg} {vs : List Value},
    List.Forall₂ (fun a v => readArg w a = some v) args vs →
    Goes M n A (A.emits (paramQuads args)) w (.at (A.emits (paramQuads args)).code.length)
      { w with params := vs ++ w.params }
  | [], [], _ => by
    simp only [paramQuads, emits_nil]
    exact goes_refl rfl
  | a :: args, v :: vs, h => by
    obtain ⟨ha, hargs⟩ := List.forall₂_cons.mp h
    rw [paramQuads, ← emits_emit]
    refine (goes_params hargs).trans (extends_emit _) (goes_plain rfl ?_)
    have ha' : readArg { w with params := vs ++ w.params } a = some v := by
      cases a <;> exact ha
    simp [execPlain, ha']

/-- What the operand of a call holds: nothing after the call of a function without a result. -/
def resultOf (type : Ty) (x : Value) : Value := if type = .void then .void else x

/-- What holds after the translation of a call, whose result is in `arg`. -/
structure CallPost (P : Platform) (M : Meaning) (type : Ty) (func : ℕ) (es : List Expr)
    (A : Layout) (arg : Arg) (B : Layout) : Prop where
  extends' : A.Extends B
  shaped : B.Shaped
  pend : B.pend = A.pend
  code : ∃ δ, B.code = A.code ++ δ ∧ FreshTargets A B δ
  opens : Opens A B ((startsArgs es).then .quad)
  arg_lt : ∀ v, arg = .var v → v < B.vars.length
  arg_new : ∀ v, arg = .var v → A.vars.length ≤ v
  meaning : ∀ n w, n ≤ A.code.length → w.params = [] →
    Delivers M n A B w (evalCall M (A.reading w) func (lowerArgs P es) w.trace)
      fun x w' => readArg w' arg = some (resultOf type x)

/-- A call is made with the values of its arguments. -/
def callWith (M : Meaning) (func : ℕ) (p : List Value × List Call) : Option (Value × List Call) :=
  (M.call p.2 func p.1).map fun x => (x, p.2 ++ [⟨func, p.1, x⟩])

lemma evalCall_eq {R : Reading} {func : ℕ} {es : List Expr} {tr : List Call} :
    evalCall M R func es tr = (evalArgs M R es tr).bind (callWith M func) := by
  refine congrArg (Option.bind _) (funext fun p => ?_)
  simp only [callWith, Option.map_eq_bind]
  rfl

/-- What the quadruples of a call do to the block list. -/
lemma ArgsPost.callPost {type : Ty} {func : ℕ} {es : List Expr} {args : List Arg} {result : Arg}
    {D : Layout} (h : ArgsPost P M es A args B) (hext : B.Extends D) (hshaped : D.Shaped)
    (hpend : D.pend = B.pend) (hcode : D.code = B.code ++ callQuads result func args)
    (hopens : Opens B D .quad)
    (hresult : ∀ v, result = .var v → B.vars.length ≤ v ∧ v < D.vars.length)
    (hmeaning : ∀ n w vs, List.Forall₂ (fun a v => readArg w a = some v) args vs →
      w.params = [] → Delivers M n B D w (callWith M func (vs, w.trace))
        fun x w' => readArg w' result = some (resultOf type x)) :
    CallPost P M type func es A result D := by
  obtain ⟨δ, hδ, hfresh⟩ := h.code
  refine ⟨h.extends'.trans hext, hshaped, hpend.trans h.pend, ⟨δ ++ callQuads result func args,
    by rw [hcode, hδ, List.append_assoc], hfresh.trans (FreshTargets.plain callQuads_plain)
      h.extends'.next hext.next⟩, h.opens.then hopens hext, fun v hv => (hresult v hv).2,
    fun v hv => Nat.le_trans h.extends'.vars.length_le (hresult v hv).1, ?_⟩
  intro n w hn hw
  rw [evalCall_eq]
  exact (h.meaning n w hn hw).bind h.extends' hext fun vs w₁ hafter hread =>
    hmeaning n w₁ vs hread hafter.params

lemma paramsAdjacent_call {result : Arg} {func : ℕ} {args : List Arg} :
    paramsAdjacent (callQuads result func args) = true :=
  paramsAdjacent_params op_paramQuads rfl

/-- The parameters are declared and the function is called, with the result in a new variable if
there is one. -/
lemma delivers_call {n func : ℕ} {type : Ty} {args : List Arg} {result : Arg} {w : World}
    {vs : List Value} {B' : Layout} (hcode : B'.code = B.code)
    (hresult : type = .void ∧ result = .none ∨
      type ≠ .void ∧ ∃ u, result = .var u ∧ B.vars.length ≤ u)
    (hread : List.Forall₂ (fun a v => readArg w a = some v) args vs) (hw : w.params = []) :
    Delivers M n B (B'.emits (callQuads result func args)) w (callWith M func (vs, w.trace))
      fun x w' => readArg w' result = some (resultOf type x) := by
  let w₁ : World := { w with params := vs ++ w.params }
  have hparams : Goes M n B (B'.emits (paramQuads args)) w
      (.at (B'.emits (paramQuads args)).code.length) w₁ := (goes_params hread).before hcode
  have hexec : execPlain M ⟨.call, result, .func func, .none⟩ w₁ =
      (M.call w.trace func vs).bind fun x =>
        setResult { w with trace := w.trace ++ [⟨func, vs, x⟩], params := [] } result x := by
    simp [execPlain, funcOf, w₁, hw]
  rw [callQuads, ← emits_emit, callWith]
  cases hcall : M.call w.trace func vs with
  | none =>
    rw [hcall] at hexec
    exact hparams.stuck (extends_emit _) (stuck_plain rfl hexec)
  | some x =>
    rw [hcall, Option.bind_some] at hexec
    let w₂ : World := { w with trace := w.trace ++ [⟨func, vs, x⟩], params := [] }
    have hafter : After B w w₂ (w.trace ++ [⟨func, vs, x⟩]) := ⟨fun _ _ => rfl, rfl, rfl, rfl⟩
    rcases hresult with ⟨hvoid, rfl⟩ | ⟨hne, u, rfl, hu⟩
    · exact ⟨w₂, hafter, hparams.trans (extends_emit _) (goes_plain rfl hexec),
        by simp [resultOf, hvoid, readArg]⟩
    · exact ⟨w₂.set u x, hafter.set hu x, hparams.trans (extends_emit _) (goes_plain rfl hexec),
        by simp [resultOf, hne, readArg, World.set]⟩

lemma runs_call {abort : Prop} {type : Ty} {func : ℕ} {es : List Expr}
    (hargs : ArgsSpec P M sig es) (hA : A.Shaped)
    (habort : ¬(Scalar type ∧ ∃ ts, ArgsTyped (A.types sig) es ts ∧ argsOk es = true) → abort) :
    Runs (genArgs P es >>= fun args => genCallQuadr type func args) A abort
      (CallPost P M type func es A) := by
  refine ((hargs A hA).mono (fun hno => habort fun h => hno h.2) fun a B h => h).bind
    fun args B h => ?_
  refine runs_genCallQuadr (fun hvoid => ?_) (fun hne d => ?_)
    fun hno => habort fun h => hno h.1
  · refine h.callPost (extends_emits _) (h.shaped.emits callQuads_plain paramsAdjacent_call) rfl
      (code_emits _) (opens_emits (by simp [callQuads])) (fun v hv => nomatch hv) ?_
    exact fun n w vs hread hw => delivers_call rfl (Or.inl ⟨hvoid, rfl⟩) hread hw
  · refine h.callPost ((extends_declare d).trans (extends_emits _))
      ((h.shaped.declare d).emits callQuads_plain paramsAdjacent_call) rfl (code_emits _)
      (opens_of_declare (opens_emits (by simp [callQuads]))) ?_ ?_
    · rintro v ⟨⟩
      exact ⟨Nat.le_refl _, by simp [Layout.declare, Layout.emits]⟩
    · exact fun n w vs hread hw => delivers_call (code_declare d)
        (Or.inr ⟨hne, _, rfl, Nat.le_refl _⟩) hread hw

lemma callValue_eq {type : Ty} (htype : type ≠ .boolean) (x : Value) :
    callValue type x = some (resultOf type x) := by
  cases type <;> first | rfl | exact absurd rfl htype

lemma call_spec {type : Ty} {func : ℕ} {es : List Expr} (htype : type ≠ .boolean)
    (hargs : ArgsSpec P M sig es) : ExprSpec P M sig (.call type func es) := by
  intro A hA
  rw [genQuadrExpr, if_neg (by simpa [isJumping] using htype)]
  refine (runs_call hargs hA ?_).mono id fun arg B h => ?_
  · rintro hno ⟨t, ht, hok⟩
    simp only [WellTyped] at ht
    obtain ⟨-, hscalar, params, -, hparams⟩ := ht
    exact hno ⟨hscalar, params, hparams, by simpa only [jumpsOk] using hok⟩
  · refine ⟨h.extends', h.shaped, h.pend, h.code, by simpa only [startsExpr] using h.opens,
      h.arg_lt, fun v hv => Or.inl (h.arg_new v hv), fun n w hn hw => ?_⟩
    have heval : evalExpr M (A.reading w) (lower P (.call type func es)) w.trace =
        (evalCall M (A.reading w) func (lowerArgs P es) w.trace).map
          fun p => (resultOf type p.1, p.2) := by
      rw [lower, evalExpr_call, Option.map_eq_bind]
      simp only [callValue_eq htype, Option.map_some]
      rfl
    rw [heval]
    exact (h.meaning n w hn hw).map fun x w' _ hread => hread

lemma args_nil_spec : ArgsSpec P M sig [] := by
  intro A hA
  rw [genArgs]
  refine runs_pure ⟨Extends.refl A, hA, rfl, ⟨[], (List.append_nil _).symm, FreshTargets.nil⟩,
    ?_, (fun v hv => absurd hv List.not_mem_nil), ?_⟩
  · simp only [startsArgs]
    rfl
  · intro n w _ hw
    simp only [lowerArgs, evalArgs]
    exact delivers_refl hw rfl List.Forall₂.nil

lemma args_cons_spec {es : List Expr} (he : ExprSpec P M sig e) (hes : ArgsSpec P M sig es) :
    ArgsSpec P M sig (e :: es) := by
  intro A hA
  rw [genArgs]
  refine Runs.bind (runs_expr he hA (fun a B h => h) fun hno => ?_) fun a B h₁ => ?_
  · rintro ⟨ts, hts, hok⟩
    simp only [ArgsTyped] at hts
    simp only [argsOk, Bool.and_eq_true] at hok
    obtain ⟨t, rest, -, -, ht, -⟩ := hts
    exact hno ⟨t, ht, hok.1⟩
  · refine Runs.bind ((hes B h₁.shaped).mono (fun hno => ?_) fun args C h => h) fun args C h₂ => ?_
    · rintro ⟨ts, hts, hok⟩
      simp only [ArgsTyped] at hts
      simp only [argsOk, Bool.and_eq_true] at hok
      obtain ⟨t, rest, -, -, -, hrest⟩ := hts
      refine hno ⟨rest, ?_, hok.2⟩
      rw [h₁.extends'.types hA]
      exact hrest
    · obtain ⟨δ, hδ, hfresh⟩ := h₁.code
      obtain ⟨ε, hε, hfresh'⟩ := h₂.code
      refine runs_pure ⟨h₁.extends'.trans h₂.extends', h₂.shaped, h₂.pend.trans h₁.pend,
        ⟨δ ++ ε, by rw [hε, hδ, List.append_assoc],
          hfresh.trans hfresh' h₁.extends'.next h₂.extends'.next⟩, ?_, ?_, ?_⟩
      · simp only [startsArgs]
        exact h₁.opens.then h₂.opens h₂.extends'
      · intro v hv
        rcases List.mem_cons.mp hv with hv | hv
        · exact Nat.lt_of_lt_of_le (h₁.arg_lt v hv.symm) h₂.extends'.vars.length_le
        · exact h₂.arg_lt v hv
      · intro n w hn hw
        rw [lowerArgs, evalArgs_cons]
        -- the later arguments leave what the earlier ones are read from alone
        refine (h₁.meaning n w hn hw).bind h₁.extends' h₂.extends' fun x w₁ hafter₁ hread₁ => ?_
        have hrest := h₂.meaning n w₁ (Nat.le_trans hn h₁.extends'.code.length_le) hafter₁.params
        rw [hafter₁.evalArgs h₁.extends' hA] at hrest
        exact hrest.map fun xs w₂ hafter₂ hread₂ => List.Forall₂.cons
          (readArg_congr hread₁ fun v hv => hafter₂.env v (h₁.arg_lt v hv)) hread₂

end Javalette.Front
