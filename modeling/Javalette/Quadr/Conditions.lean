import Javalette.Quadr.Nodes

/-!
# The translation of conditions

One lemma for each kind of condition, and the boolean case of `gen_quadr_expr`, which turns a
condition into a value.  The induction over expressions is at the end.
-/

namespace Javalette.Front

open SyntaxTree Layout

variable {P : Platform} {M : Meaning} {sig : ℕ → Option (List Ty × Ty)}
variable {A B C : Layout} {e l r : Expr} {dest t : ℕ} {sense : Bool}

attribute [local simp] genQuadrBoolExpr startsExpr startsCond refs WellTyped

/-! ## Giving out a label -/

namespace Layout

lemma Referred.perm {δ ε : List Quad} {n : ℕ} (h : Referred A B dest n δ)
    (hperm : (targets δ).Perm (targets ε)) : Referred A B dest n ε := by
  have hcount := hperm.count_eq dest
  refine ⟨h.other, fun hnone => ?_, fun ch hch => ?_, ?_,
    fun s hs => h.fresh s (hperm.mem_iff.mpr hs)⟩
  · rw [← hcount]
    exact h.listed hnone
  · rw [← hcount]
    exact h.pending ch hch
  · exact (hperm.filter _).nodup_iff.mp h.nodup

/-- A jump that can be made stays possible. -/
lemma JumpTarget.mono {δ : List Quad} {n : ℕ} (h : A.JumpTarget dest t)
    (href : Referred A B dest n δ) : B.JumpTarget dest t := by
  rcases h with ⟨ch, hch, b, hb, hid, hr⟩ | ⟨hnone, ht⟩
  · obtain ⟨ch', hch', hgrow, -⟩ := href.pending ch hch
    obtain ⟨b', hb', hid', hr'⟩ := hgrow b hb
    exact Or.inl ⟨ch', hch', b', hb', hid'.trans hid, hr' hr⟩
  · exact Or.inr ⟨(href.listed hnone).1, ht⟩

lemma JumpTarget.congr (h : A.JumpTarget dest t) (hpend : B.pend dest = A.pend dest) :
    B.JumpTarget dest t := by
  rw [JumpTarget, hpend]
  exact h

lemma DestOk.lt (h : A.DestOk dest) (hsound : A.Sound) : dest < A.next := by
  rcases h with ⟨ch, hch⟩ | ⟨b, hb, rfl, -⟩
  · exact hsound.label_lt hch
  · exact hsound.below b hb

/-- A label that is in the list is not waiting to get there. -/
lemma Sound.pend_none (h : A.Sound) {b : Blk} (hb : b ∈ A.all) : A.pend b.id = none := by
  cases hp : A.pend b.id with
  | none => rfl
  | some ch =>
    obtain ⟨c, rest, rfl, hid⟩ := h.labelHead _ _ hp
    exact absurd hid (h.labelApart _ _ hp c List.mem_cons_self b hb)

lemma DestOk.congr (h : A.DestOk dest) (hext : A.Extends B) (hpend : B.pend dest = A.pend dest) :
    B.DestOk dest := by
  rcases h with ⟨ch, hch⟩ | ⟨b, hb, hid, hne⟩
  · exact Or.inl ⟨ch, hpend.trans hch⟩
  · obtain ⟨b', hb', hid', hne'⟩ := hext.holds b hb hne
    exact Or.inr ⟨b', hb', hid'.trans hid, hne'⟩

lemma DestOk.mono {δ : List Quad} {n : ℕ} (h : A.DestOk dest) (hext : A.Extends B)
    (href : Referred A B dest n δ) : B.DestOk dest := by
  rcases h with ⟨ch, hch⟩ | ⟨b, hb, hid, hne⟩
  · obtain ⟨ch', hch', -⟩ := href.pending ch hch
    exact Or.inl ⟨ch', hch'⟩
  · obtain ⟨b', hb', hid', hne'⟩ := hext.holds b hb hne
    exact Or.inr ⟨b', hb', hid'.trans hid, hne'⟩

end Layout

/-- What holds after `quadr_arg_label`, which has given out the block `t` for `dest`. -/
structure ReferPost (A : Layout) (dest t : ℕ) (B : Layout) : Prop where
  extends' : A.Extends B
  shaped : A.Shaped → B.Shaped
  all : B.all = A.all
  target : B.JumpTarget dest t
  refer : ∀ q, targetOf q = some t → Referred A B dest 1 [q]

lemma targets_single {q : Quad} (hq : targetOf q = some t) : targets [q] = [t] := by
  simp [targets, hq]

lemma referPost_pending {ch : List Blk} (hsound : A.Sound) (hch : A.pend dest = some ch) :
    ReferPost A dest (referTarget A.next ch) (A.refer dest ch) := by
  obtain ⟨b, rest, rfl, rfl⟩ := hsound.labelHead _ _ hch
  have hlt := hsound.label_lt hch
  have hpend : (A.refer b.id (b :: rest)).pend b.id = some (referChain A.next (b :: rest)) :=
    Function.update_self _ _ _
  -- the first reference marks the label's block, a later one puts a new block behind it
  cases href : b.referenced with
  | false =>
    simp only [referTarget, href, Bool.false_eq_true, if_false]
    simp only [referChain, href, Bool.false_eq_true, if_false] at hpend
    refine ⟨extends_refer hch, Shaped.refer, rfl, ?_, fun q hq => ?_⟩
    · exact Or.inl ⟨_, hpend, _, List.mem_cons_self, rfl, rfl⟩
    · refine ⟨fun l hl => Function.update_of_ne hl _ _, fun hnone => ?_, fun ch hch' => ?_, ?_, ?_⟩
      · rw [hnone] at hch
        cases hch
      · obtain rfl : b :: rest = ch := Option.some.inj (hch.symm.trans hch')
        refine ⟨_, hpend, ?_, by simp [targets_single hq], fun h => ?_, fun _ => rfl⟩
        · intro c hc
          rcases List.mem_cons.mp hc with rfl | hc
          · exact ⟨_, List.mem_cons_self, rfl, fun _ => rfl⟩
          · exact ⟨c, List.mem_cons_of_mem _ hc, rfl, id⟩
        · rw [headReferenced, href] at h
          cases h
      · simp [targets_single hq]
      · intro s hs hne
        rw [targets_single hq] at hs
        exact absurd (List.mem_singleton.mp hs) hne
  | true =>
    simp only [referTarget, href, if_true]
    simp only [referChain, href, if_true] at hpend
    have hne : A.next ≠ b.id := Nat.ne_of_gt hlt
    refine ⟨extends_refer hch, Shaped.refer, rfl, ?_, fun q hq => ?_⟩
    · exact Or.inl ⟨_, hpend, _, List.mem_cons_of_mem _ List.mem_cons_self, rfl, rfl⟩
    · have hcount : (targets [q]).count b.id = 0 := by
        rw [targets_single hq]
        exact List.count_eq_zero.mpr fun h => hne (List.mem_singleton.mp h).symm
      refine ⟨fun l hl => Function.update_of_ne hl _ _, fun hnone => ?_, fun ch hch' => ?_, ?_, ?_⟩
      · rw [hnone] at hch
        cases hch
      · obtain rfl : b :: rest = ch := Option.some.inj (hch.symm.trans hch')
        refine ⟨_, hpend, ?_, by omega, fun _ => ⟨hcount, href⟩, fun _ => href⟩
        intro c hc
        rcases List.mem_cons.mp hc with rfl | hc
        · exact ⟨c, List.mem_cons_self, rfl, id⟩
        · exact ⟨c, List.mem_cons_of_mem _ (List.mem_cons_of_mem _ hc), rfl, id⟩
      · rw [targets_single hq]
        exact (List.nodup_singleton _).filter _
      · intro s hs _
        rw [targets_single hq] at hs
        rw [List.mem_singleton.mp hs]
        refine ⟨Nat.le_refl _, ?_⟩
        show A.next < referNext A.next (b :: rest)
        simp [referNext, href]

lemma referPost_listed {b : Blk} (hsound : A.Sound) (hb : b ∈ A.all) :
    ReferPost A b.id b.id A := by
  have hnone := hsound.pend_none hb
  refine ⟨Extends.refl A, id, rfl, Or.inr ⟨hnone, rfl⟩, fun q hq => ?_⟩
  refine ⟨fun _ _ => rfl, fun _ => ⟨hnone, by simp [targets_single hq]⟩, fun ch hch => ?_, ?_, ?_⟩
  · rw [hnone] at hch
    cases hch
  · simp [targets_single hq]
  · intro s hs hne
    rw [targets_single hq] at hs
    exact absurd (List.mem_singleton.mp hs) hne

lemma runs_quadrArgLabel_bind {α : Type} {Q : α → Layout → Prop} {abort : Prop} {f : Arg → Gen α}
    (hdest : A.DestOk dest)
    (h : ∀ t B, ReferPost A dest t B → Runs (f (.label t)) B abort Q) :
    Runs (quadrArgLabel dest >>= f) A abort Q := by
  refine runs_of_sound fun hsound => ?_
  have hlabel : Runs (quadrArgLabel dest) A abort
      (fun a B => ∃ t, a = .label t ∧ ReferPost A dest t B) := by
    rcases hdest with ⟨ch, hch⟩ | ⟨b, hb, rfl, hne⟩
    · exact runs_quadrArgLabel hch ⟨_, rfl, referPost_pending hsound hch⟩
    · exact runs_quadrArgLabel_settled hb hne ⟨_, rfl, referPost_listed hsound hb⟩
  refine hlabel.bind ?_
  rintro _ B ⟨t, rfl, hB⟩
  exact h t B hB

/-! ## One conditional jump -/

/-- What the computation of operands does to the block list. -/
structure Computes (A C : Layout) (x : Start) : Prop where
  extends' : A.Extends C
  shaped : C.Shaped
  pend : C.pend = A.pend
  code : ∃ δ, C.code = A.code ++ δ ∧ FreshTargets A C δ
  opens : Opens A C x

lemma PairPost.computes (h : PairPost P M l r A a₁ a₂ C) :
    Computes A C ((startsExpr l).then (startsExpr r)) :=
  ⟨h.extends', h.shaped, h.pend, h.code, h.opens⟩

lemma CallPost.computes {type : Ty} {func : ℕ} {es : List Expr}
    (h : CallPost P M type func es A a C) : Computes A C ((startsArgs es).then .quad) :=
  ⟨h.extends', h.shaped, h.pend, h.code, h.opens⟩

lemma Computes.trans {x y : Start} (h₁ : Computes A B x) (h₂ : Computes B C y) :
    Computes A C (x.then y) := by
  obtain ⟨δ, hδ, hfresh⟩ := h₁.code
  obtain ⟨ε, hε, hfresh'⟩ := h₂.code
  exact ⟨h₁.extends'.trans h₂.extends', h₂.shaped, h₂.pend.trans h₁.pend,
    ⟨δ ++ ε, by rw [hε, hδ, List.append_assoc],
      hfresh.trans hfresh' h₁.extends'.next h₂.extends'.next⟩,
    h₁.opens.then h₂.opens h₂.extends'⟩

lemma computes_withConst (hA : A.Shaped) (d : VarDecl) (c : Arg) :
    Computes A (A.withConst d c) .quad :=
  ⟨extends_withConst d c, hA.withConst d c, rfl, ⟨_, code_withConst d c, FreshTargets.single rfl⟩,
    opens_of_declare (opens_emit _)⟩

namespace ReferPost

variable {A' : Layout}

lemma code (h : ReferPost A dest t A') : A'.code = A.code := by
  rw [Layout.code, Layout.code, h.all]

lemma reading (h : ReferPost A dest t A') (w : World) : A'.reading w = A.reading w := by
  rw [Layout.reading, Layout.reading, h.extends'.decls]

/-- What is computed after the label has been given out. -/
lemma delivers {n : ℕ} {w : World} {α : Type} {o : Option (α × List Call)} {R : α → World → Prop}
    (h : ReferPost A dest t A') (hw : w.params = []) (hy : Delivers M n A' C w o R) :
    Delivers M n A C w o R :=
  hy.before hw h.extends' h.code

end ReferPost

/-- The label is given out, the operands are computed, and a new block is begun after the
jump. -/
lemma jumpPost_emit {A' : Layout} {x : Start} {q : Quad} {α : Type}
    {o : World → Option (α × List Call)} {R : α → World → Prop} {g : α → Option Bool}
    (hA : dest < A.next) (hC : C.Sound)
    (hrefer : ReferPost A dest t A') (h : Computes A' C x)
    (hstarts : x.then .quad = startsCond e sense)
    (hrefs : refs e sense = 1) (hq : targetOf q = some t) (hparam : q.op ≠ .param)
    (heval : ∀ w, evalBool M (A.reading w) (lowerCond P e sense) w.trace =
      (o w).bind fun p => (g p.1).map (·, p.2))
    (hmeaning : ∀ n w, n ≤ A'.code.length → w.params = [] → Delivers M n A' C w (o w) R)
    (hexec : ∀ y w' pos, R y w' → execQuad M q pos w' =
      (g y).map fun b => (if b = sense then .label t else .at (pos + 1), w')) :
    JumpPost P M e dest sense A (C.emit q).begin := by
  have hext : C.Extends (C.emit q).begin := (extends_emit q).trans extends_begin
  have hpend : (C.emit q).begin.pend = C.pend := pend_begin (hC.emit q)
  have hcode : (C.emit q).begin.code = C.code ++ [q] := by rw [code_begin, code_emit]
  obtain ⟨ε, hε, hfresh⟩ := h.code
  refine ⟨(hrefer.extends'.trans h.extends').trans hext, (h.shaped.emit_ended hparam).begin,
    ⟨ε ++ [q], ?_, ?_⟩, ?_, fun n w hn hw => ?_⟩
  · rw [hcode, hε, hrefer.code, List.append_assoc]
  · have hlt : dest < A'.next := Nat.lt_of_lt_of_le hA hrefer.extends'.next
    -- nothing after the operands refers to the label again but the jump itself
    have hrest : Referred C (C.emit q).begin dest 0 [] :=
      FreshTargets.nil.referred hpend (Nat.lt_of_lt_of_le hlt h.extends'.next)
    have href := ((hrefer.refer q hq).trans (hfresh.referred h.pend hlt) hrefer.extends'.next
      h.extends'.next).trans hrest (hrefer.extends'.trans h.extends').next hext.next
    rw [hrefs]
    refine href.perm ?_
    rw [List.append_nil, targets_append, targets_append]
    exact List.perm_append_comm
  · have hopens : Opens A C x := Opens.then (x := .nothing) hrefer.all h.opens h.extends'
    have hquad := (hopens.then (opens_emit q) (extends_emit q)).then (opens_begin (hC.emit q))
      extends_begin
    rw [← hstarts]
    cases x <;> exact hquad
  · rw [heval]
    have hn' : n ≤ A'.code.length := by rwa [hrefer.code]
    exact (hrefer.delivers hw (hmeaning n w hn' hw)).decide extends_begin code_begin
      (hrefer.target.congr (congrFun (hpend.trans h.pend) dest)) hexec

lemma targetOf_if {op : CmpOp} : targetOf ⟨quadrIfOp op sense, .label t, a₁, a₂⟩ = some t :=
  if_pos (Or.inr (isIfOp_quadrIfOp op sense))

lemma quadrIfOp_ne_param {op : CmpOp} : quadrIfOp op sense ≠ .param := by
  cases op <;> cases sense <;> simp [quadrIfOp]

lemma computes_refl (hA : A.Shaped) : Computes A A .nothing :=
  ⟨Extends.refl A, hA, rfl, ⟨[], (List.append_nil _).symm, FreshTargets.nil⟩, rfl⟩

/-- A jump is taken when the comparison has the value that it jumps on. -/
lemma ite_beq_sense {α : Type} (b sense : Bool) (x y : α) :
    (if (b == sense) = sense then x else y) = if b = true then x else y := by
  cases b <;> cases sense <;> rfl

lemma cmp_cond {op : CmpOp} (hl : ExprSpec P M sig l) (hr : ExprSpec P M sig r) :
    CondSpec P M sig (.cmp op l r) := by
  intro A dest sense hA hdest
  rw [genQuadrBoolExpr]
  refine runs_of_sound fun hsound => runs_quadrArgLabel_bind hdest fun t A' hrefer => ?_
  refine runs_pair hl hr (hrefer.shaped hA) (fun a₁ a₂ C h => ?_) fun hno => ?_
  · refine runs_of_sound fun hC => runs_emit_bind (runs_addNewBlock ?_)
    refine jumpPost_emit (hdest.lt hsound) hC hrefer h.computes (by simp)
      (by simp) targetOf_if quadrIfOp_ne_param
      (g := fun p => (testValue M (sensed op sense) p.1 p.2).map (· == sense))
      (fun w => ?_) (fun n w hn hw => h.meaning n w hn hw) fun p w' pos hread => ?_
    · rw [lowerCond, evalBool_sensed, hrefer.reading]
      simp only [Option.map_map]
      rfl
    · rw [execQuad_if hread.1 hread.2, Option.map_map]
      simp only [Function.comp_def, ite_beq_sense]
  · rintro ⟨ht, hok⟩
    simp only [WellTyped] at ht
    simp only [condOk, Bool.and_eq_true] at hok
    obtain ⟨-, u, -, hl, hr⟩ := ht
    have htypes := hrefer.extends'.types hA sig
    exact hno ⟨u, u, htypes ▸ hl, htypes ▸ hr, hok⟩

lemma testValue_truth (v : Value) (sense : Bool) :
    testValue M (sensed .neq sense) v (.int 0) = (truth v).map (· == sense) := by
  cases v <;> cases sense <;> simp [testValue, sensed, opposite, truth, bne]

/-- A constant is copied when an operand has been computed. -/
lemma Delivers.withConst {n : ℕ} {d : VarDecl} {c : Arg} {k : Value} {w : World}
    {o : Option (Value × List Call)} (h : Delivers M n A C w o fun v w' => readArg w' a = some v)
    (hlen : A.vars.length ≤ C.vars.length) (ha : ∀ u, a = .var u → u < C.vars.length)
    (hc : ∀ w, readArg w c = some k) :
    Delivers M n A (C.withConst d c) w o fun v w' =>
      readArg w' a = some v ∧ readArg w' (.var C.vars.length) = some k := by
  have hdeclared : Delivers M n A (C.declare d) w o fun v w' => readArg w' a = some v :=
    h.extend_end (extends_declare d) (code_declare d)
  have hemit := hdeclared.emit (q := ⟨.copy, .var C.vars.length, c, .none⟩) (f := some)
    (S := fun v w' => readArg w' a = some v ∧ readArg w' (.var C.vars.length) = some k) rfl
    fun v w' hafter hread => ⟨w'.set C.vars.length k, by simp [execPlain, hc, setResult],
      hafter.set hlen _, readArg_congr hread fun u hu =>
        Function.update_of_ne (Nat.ne_of_lt (ha u hu)) _ _,
      congrArg some (Function.update_self _ _ _)⟩
  rwa [Option.bind_fun_some] at hemit

/-- The jump on a truth value. -/
lemma runs_genBoolTest {abort : Prop} {A' : Layout} {x : Start} {value : Arg}
    {o : World → Option (Value × List Call)} (hA : dest < A.next)
    (hrefer : ReferPost A dest t A') (h : Computes A' C x)
    (hstarts : startsCond e sense = x.then .quad)
    (hrefs : refs e sense = 1) (hvalue : ∀ v, value = .var v → v < C.vars.length)
    (heval : ∀ w, evalBool M (A.reading w) (lowerCond P e sense) w.trace =
      (o w).bind fun p => (truth p.1).map (·, p.2))
    (hmeaning : ∀ n w, n ≤ A'.code.length → w.params = [] →
      Delivers M n A' C w (o w) fun v w' => readArg w' value = some v) :
    Runs (genBoolTest P (.label t) value sense) C abort (fun _ => JumpPost P M e dest sense A) := by
  unfold genBoolTest
  refine runs_quadrArg_bind (fun d c hc => ?_) fun hnone => by cases hnone
  obtain rfl : QuadrArg.int 0 = c := Option.some.inj hc
  refine runs_of_sound fun hD => runs_emit_bind (runs_addNewBlock ?_)
  refine jumpPost_emit hA hD hrefer (h.trans (computes_withConst h.shaped d _)) ?_ hrefs targetOf_if
    quadrIfOp_ne_param (R := fun v w' => readArg w' value = some v ∧
      readArg w' (.var C.vars.length) = some (.int 0)) heval (fun n w hn hw => ?_)
    fun v w' pos hread => ?_
  · rw [hstarts]
    cases x <;> rfl
  · exact (hmeaning n w hn hw).withConst (d := d) h.extends'.vars.length_le hvalue (fun _ => rfl)
  · rw [execQuad_if hread.1 hread.2, testValue_truth, Option.map_map]
    simp only [Function.comp_def, beq_iff_eq]

lemma ident_cond (x : String) : CondSpec P M sig (.ident x) := by
  intro A dest sense hA hdest
  rw [genQuadrBoolExpr]
  refine runs_of_sound fun hsound => runs_declOf_bind (fun u hu => ?_) fun hnone => ?_
  · refine runs_quadrArgLabel_bind hdest fun t A' hrefer => ?_
    refine runs_genBoolTest (o := fun w => some (w.env u, w.trace)) (hdest.lt hsound) hrefer
      (computes_refl (hrefer.shaped hA)) ?_ ?_ ?_ (fun w => ?_)
      fun n w _ hw => delivers_refl hw rfl rfl
    · simp only [startsCond]
      rfl
    · simp
    · rintro v ⟨⟩
      exact Nat.lt_of_lt_of_le (hA.inScope x u hu) hrefer.extends'.vars.length_le
    · simp only [lowerCond, evalBool_ident, reading, hu, Option.bind_some]
  · rintro ⟨ht, -⟩
    simp [Layout.types, hnone] at ht

/-- The truth value of a call is that of its result. -/
lemma callValue_truth (type : Ty) (x : Value) :
    (callValue type x).bind truth = truth (resultOf type x) := by
  cases type with
  | boolean => cases hx : truth x <;> simp [callValue, resultOf, hx]
  | _ => rfl

lemma call_cond {type : Ty} {func : ℕ} {es : List Expr} (hargs : ArgsSpec P M sig es) :
    CondSpec P M sig (.call type func es) := by
  intro A dest sense hA hdest
  rw [genQuadrBoolExpr]
  refine runs_of_sound fun hsound => runs_quadrArgLabel_bind hdest fun t A' hrefer => ?_
  rw [← bind_assoc]
  refine (runs_call hargs (hrefer.shaped hA) ?_).bind fun value C h => ?_
  · rintro hno ⟨ht, hok⟩
    simp only [WellTyped] at ht
    obtain ⟨-, hscalar, params, -, hparams⟩ := ht
    have htypes := hrefer.extends'.types hA sig
    exact hno ⟨hscalar, params, htypes ▸ hparams, by simpa only [condOk] using hok⟩
  · refine runs_genBoolTest (o := fun w => (evalCall M (A'.reading w) func (lowerArgs P es)
      w.trace).map fun p => (resultOf type p.1, p.2)) (hdest.lt hsound) hrefer h.computes ?_ ?_
      h.arg_lt (fun w => ?_) fun n w hn hw => (h.meaning n w hn hw).map fun x w' _ hread => hread
    · simp only [startsCond]
      cases startsArgs es <;> rfl
    · simp
    · simp only [lowerCond, evalBool_call, callValue_truth, hrefer.reading, Option.bind_map]
      rfl

/-! ## Jumps that are always taken, or never -/

lemma runs_genGoto {abort : Prop} (sense : Bool) (hA : A.Shaped) (hdest : A.DestOk dest) :
    Runs (genGoto dest) A abort (fun _ => JumpPost P M (.bool sense) dest sense A) := by
  refine runs_of_sound fun hsound => runs_quadrArgLabel_bind hdest fun t A' hrefer => ?_
  refine runs_of_sound fun hA' => runs_emit_bind (runs_addNewBlock ?_)
  refine jumpPost_emit (hdest.lt hsound) hA' hrefer (computes_refl (hrefer.shaped hA)) ?_ ?_
    (o := fun w => some ((), w.trace)) (R := fun _ _ => True) (g := fun _ => some sense)
    (if_pos (Or.inl rfl)) (by simp) (fun w => ?_) (fun n w _ hw => delivers_refl hw rfl trivial)
    fun _ w' pos _ => ?_
  · simp only [startsCond, if_true]
    rfl
  · simp only [refs, if_true]
  · rw [lowerCond, evalBool_bool]
    rfl
  · rw [Option.map_some, if_pos rfl]
    rfl

lemma bool_cond (value : Bool) : CondSpec P M sig (.bool value) := by
  intro A dest sense hA hdest
  rw [genQuadrBoolExpr]
  split
  · rename_i hvalue
    rw [hvalue]
    exact runs_genGoto _ hA hdest
  · rename_i hvalue
    refine runs_of_sound fun hsound => runs_pure ⟨Extends.refl A, hA, ⟨[], ?_, ?_⟩, ?_, ?_⟩
    · exact (List.append_nil _).symm
    · simp only [refs, if_neg hvalue]
      exact FreshTargets.nil.referred rfl (hdest.lt hsound)
    · simp only [startsCond, if_neg hvalue]
      rfl
    · intro n w _ hw
      rw [lowerCond, evalBool_bool]
      refine ⟨w, After.refl A hw, ?_⟩
      rw [if_neg hvalue]
      exact goes_refl rfl

lemma Decides.not {n : ℕ} {w : World} {o : Option (Bool × List Call)}
    (h : Decides M n A B dest (!sense) w o) :
    Decides M n A B dest sense w (o.map fun p => (!p.1, p.2)) := by
  rcases o with _ | ⟨t, tr⟩
  · exact h
  · obtain ⟨w', hafter, hgo⟩ := h
    refine ⟨w', hafter, ?_⟩
    cases t <;> cases sense <;> exact hgo

lemma not_cond (he : CondSpec P M sig e) : CondSpec P M sig (.not e) := by
  intro A dest sense hA hdest
  rw [genQuadrBoolExpr]
  refine (he A dest (!sense) hA hdest).mono (fun hno => ?_) fun _ B h => ?_
  · rintro ⟨ht, hok⟩
    simp only [WellTyped] at ht
    exact hno ⟨ht.2, by simpa only [condOk] using hok⟩
  · refine ⟨h.extends', h.shaped, by simpa only [refs] using h.code,
      by simpa only [startsCond] using h.opens, fun n w hn hw => ?_⟩
    rw [lowerCond, evalBool_not]
    exact (h.meaning n w hn hw).not

/-! ## Connectives -/

/-- What holds after the translation of two conditions that jump to `dest` on the truth value
`sense`, where the second one counts only if the first one does not jump. -/
structure TwoJumps (P : Platform) (M : Meaning) (l r : Expr) (dest : ℕ) (sense : Bool)
    (A C : Layout) : Prop where
  extends' : A.Extends C
  shaped : C.Shaped
  code : ∃ δ, C.code = A.code ++ δ ∧ Referred A C dest (refs l sense + refs r sense) δ
  opens : Opens A C ((startsCond l sense).then (startsCond r sense))
  meaning : ∀ n w, n ≤ A.code.length → w.params = [] → Decides M n A C dest sense w
    ((evalBool M (A.reading w) (lowerCond P l sense) w.trace).bind fun p =>
      if p.1 = sense then some (sense, p.2)
      else evalBool M (A.reading w) (lowerCond P r sense) p.2)

lemma JumpPost.two (hA : A.Shaped) (h₁ : JumpPost P M l dest sense A B)
    (h₂ : JumpPost P M r dest sense B C) : TwoJumps P M l r dest sense A C := by
  obtain ⟨δ, hδ, href⟩ := h₁.code
  obtain ⟨ε, hε, href'⟩ := h₂.code
  refine ⟨h₁.extends'.trans h₂.extends', h₂.shaped, ⟨δ ++ ε, by rw [hε, hδ, List.append_assoc],
    href.trans href' h₁.extends'.next h₂.extends'.next⟩, h₁.opens.then h₂.opens h₂.extends', ?_⟩
  intro n w hn hw
  refine (h₁.meaning n w hn hw).two (f := evalBool M (A.reading w) (lowerCond P r sense))
    h₁.extends' h₂.extends' (fun l hl => hl.mono href') fun w₁ hafter₁ => ?_
  have hright := h₂.meaning n w₁ (Nat.le_trans hn h₁.extends'.code.length_le) hafter₁.params
  rwa [hafter₁.evalBool h₁.extends' hA] at hright

lemma runs_two {abort : Prop} (sense : Bool) (hl : CondSpec P M sig l) (hr : CondSpec P M sig r)
    (hA : A.Shaped) (hdest : A.DestOk dest)
    (habort : ¬(WellTyped (A.types sig) l .boolean ∧ WellTyped (A.types sig) r .boolean ∧
      condOk l = true ∧ condOk r = true) → abort) :
    Runs (genQuadrBoolExpr P l dest sense >>= fun _ => genQuadrBoolExpr P r dest sense) A abort
      (fun _ => TwoJumps P M l r dest sense A) := by
  refine ((hl A dest sense hA hdest).mono
    (fun hno => habort fun ⟨hl, _, hok, _⟩ => hno ⟨hl, hok⟩) fun _ B h => h).bind fun _ B h₁ => ?_
  obtain ⟨δ, -, href⟩ := h₁.code
  refine (hr B dest sense h₁.shaped (hdest.mono h₁.extends' href)).mono (fun hno => habort ?_)
    fun _ C h₂ => h₁.two hA h₂
  rintro ⟨-, hr, -, hok⟩
  refine hno ⟨?_, hok⟩
  rw [h₁.extends'.types hA]
  exact hr

/-- The condition is decided by its operands, the second of which counts only if the truth value
of the first one is not `sense`. -/
def Splits (P : Platform) (M : Meaning) (e l r : Expr) (sense sense' : Bool) : Prop :=
  ∀ R tr, evalBool M R (lowerCond P e sense') tr =
    (evalBool M R (lowerCond P l sense) tr).bind fun p =>
      if p.1 = sense then some (sense, p.2) else evalBool M R (lowerCond P r sense) p.2

lemma splits_and (l r : Expr) (sense' : Bool) : Splits P M (.and l r) l r false sense' :=
  fun R tr => by rw [lowerCond, evalBool_and]

lemma splits_or (l r : Expr) (sense' : Bool) : Splits P M (.or l r) l r true sense' :=
  fun R tr => by rw [lowerCond, evalBool_or]

/-- Both operands jump to the destination. -/
lemma TwoJumps.jumpPost (h : TwoJumps P M l r dest sense A C)
    (hrefs : refs e sense = refs l sense + refs r sense)
    (hstarts : startsCond e sense = (startsCond l sense).then (startsCond r sense))
    (hsplit : Splits P M e l r sense sense) : JumpPost P M e dest sense A C := by
  refine ⟨h.extends', h.shaped, hrefs ▸ h.code, hstarts ▸ h.opens, fun n w hn hw => ?_⟩
  rw [hsplit]
  exact h.meaning n w hn hw

namespace Layout

variable {k lab : ℕ} {ch : List Blk} {D : Layout}

lemma Sound.label_ne_nil (h : A.Sound) (hl : A.pend k = some ch) : ch ≠ [] := by
  obtain ⟨b, rest, rfl, -⟩ := h.labelHead k ch hl
  exact List.cons_ne_nil _ _

lemma Sound.extends_add (h : A.Sound) (hl : A.pend k = some ch) : A.Extends (A.add k ch) :=
  Layout.extends_add hl (h.label_ne_nil hl) (h.labelEmpty k ch hl)

lemma Sound.code_add (h : A.Sound) (hl : A.pend k = some ch) : (A.add k ch).code = A.code :=
  Layout.code_add (h.label_ne_nil hl) (h.labelEmpty k ch hl)

lemma Sound.shaped_add (h : A.Sound) (hl : A.pend k = some ch) (hA : A.Ended) :
    (A.add k ch).Shaped :=
  hA.add (h.label_ne_nil hl) (h.labelEmpty k ch hl)

/-- What is referred to does not depend on another label. -/
lemma Referred.settle {δ : List Quad} {n : ℕ} (h : Referred A B dest n δ) (hne : dest ≠ k) :
    Referred (A.settle k) (B.settle k) dest n δ := by
  have hA : (A.settle k).pend dest = A.pend dest := Function.update_of_ne hne _ _
  have hB : (B.settle k).pend dest = B.pend dest := Function.update_of_ne hne _ _
  refine ⟨fun l hl => ?_, fun hnone => ?_, fun ch hch => ?_, h.nodup, h.fresh⟩
  · rcases eq_or_ne l k with rfl | hlk
    · show Function.update B.pend l none l = Function.update A.pend l none l
      rw [Function.update_self, Function.update_self]
    · exact (Function.update_of_ne hlk _ _).trans
        ((h.other l hl).trans (Function.update_of_ne hlk _ _).symm)
  · rw [hB]
    exact h.listed (hA ▸ hnone)
  · rw [hB]
    exact h.pending ch (hA ▸ hch)

/-- Labels that are not given out make no difference. -/
lemma Referred.mono {δ : List Quad} {n : ℕ} {A' B' : Layout} (h : Referred A B dest n δ)
    (hpend : A'.pend = A.pend) (hpend' : B'.pend = B.pend) (hnext : A'.next ≤ A.next)
    (hnext' : B.next ≤ B'.next) : Referred A' B' dest n δ := by
  refine ⟨?_, ?_, ?_, h.nodup, fun t ht hne => ?_⟩
  · rw [hpend, hpend']
    exact h.other
  · rw [hpend, hpend']
    exact h.listed
  · rw [hpend, hpend']
    exact h.pending
  · have := h.fresh t ht hne
    omega

lemma settle_newLabel (h : A.Sound) (hpend : ∀ j ≠ A.next, B.pend j = A.newLabel.pend j) :
    (B.settle A.next).pend = A.pend := by
  funext j
  rcases eq_or_ne j A.next with rfl | hne
  · exact (Function.update_self _ _ _).trans h.pend_next.symm
  · exact (Function.update_of_ne hne _ _).trans
      ((hpend j hne).trans (Function.update_of_ne hne _ _))

end Layout

/-- A jump to a label goes on at the end of the code once the label is in the list. -/
lemma Goes.enter_add {n : ℕ} {w w' : World} {k : ℕ} {ch : List Blk}
    (h : Goes M n A B w (.label k) w') (htarget : B.JumpTarget dest k)
    (hch : C.pend dest = some ch) (hpend : C.pend dest = B.pend dest) (hext : B.Extends C)
    (hC : C.Sound) (hn : n ≤ C.code.length) :
    Goes M n A (C.add dest ch) w (.at (C.add dest ch).code.length) w' := by
  rcases htarget with ⟨ch', hch', b, hb, rfl, href⟩ | ⟨hnone, -⟩
  · obtain rfl : ch = ch' := Option.some.inj (hch.symm.trans (hpend.trans hch'))
    obtain ⟨xs, ys, rfl⟩ := List.append_of_mem hb
    rw [← hC.code_add hch] at hn
    refine h.enter (hext.trans (hC.extends_add hch)) ?_ hn
    rw [hC.code_add hch]
    exact settled_add (hC.labelEmpty _ _ hch) (Or.inr href)
  · rw [← hpend, hch] at hnone
    cases hnone

/-- A condition that jumps over a jump is decided the other way. -/
lemma Decides.over {n last : ℕ} {w : World} {o : Option (Bool × List Call)} {A' D : Layout}
    (h : Decides M n A' B last sense w o) (hA' : A.Extends A') (hcode : A'.code = A.code)
    (hAB : A.Extends B) (hBD : B.Extends D)
    (hover : ∀ k w', B.JumpTarget last k → Goes M n A B w (.label k) w' →
      Goes M n A D w (.at D.code.length) w')
    (hjump : ∀ w', w'.params = [] → ∃ w'', After B w' w'' w'.trace ∧ ∃ k, D.JumpTarget dest k ∧
      Goes M n B D w' (.label k) w'') (hw : w.params = []) :
    Decides M n A D dest (!sense) w o := by
  rcases o with _ | ⟨t, tr⟩
  · exact (Stuck.before hcode h).extend hBD
  obtain ⟨w₁, hafter, hgo⟩ := h
  have hafter : After A w w₁ tr := hafter.before hw hA'
  by_cases ht : t = sense
  · rw [if_pos ht] at hgo
    obtain ⟨k, hk, hgo⟩ := hgo
    refine ⟨w₁, hafter, ?_⟩
    rw [ht, if_neg (by simp)]
    exact hover k w₁ hk (hgo.before hcode)
  · rw [if_neg ht] at hgo
    obtain ⟨w₂, hafter₂, k, hk, hgo₂⟩ := hjump w₁ hafter.params
    rw [hafter.trace] at hafter₂
    refine ⟨w₂, hafter.trans hAB hafter₂, ?_⟩
    rw [if_pos (Bool.eq_not.mpr ht)]
    exact ⟨k, hk, (hgo.before hcode).trans hBD hgo₂⟩

/-- Both operands jump over a jump to the destination. -/
lemma runs_over {abort : Prop} (sense : Bool) (hl : CondSpec P M sig l) (hr : CondSpec P M sig r)
    (hA : A.Shaped) (hdest : A.DestOk dest)
    (habort : ¬(WellTyped (A.types sig) l .boolean ∧ WellTyped (A.types sig) r .boolean ∧
      condOk l = true ∧ condOk r = true) → abort)
    (hrefs : refs e (!sense) = 1)
    (hstarts : startsCond e (!sense) =
      ((startsCond l sense).then (startsCond r sense)).then .quad)
    (hsplit : Splits P M e l r sense (!sense)) :
    Runs (newBasicBlock >>= fun last => genQuadrBoolExpr P l last sense >>= fun _ =>
        genQuadrBoolExpr P r last sense >>= fun _ => genGoto dest >>= fun _ => addBasicBlocks last)
      A abort (fun _ => JumpPost P M e dest (!sense) A) := by
  refine runs_of_sound fun hsound => runs_newBasicBlock_bind ?_
  rw [← bind_assoc]
  have hlt := hdest.lt hsound
  have hne : dest ≠ A.next := Nat.ne_of_lt hlt
  have hnew : A.Extends A.newLabel := extends_newLabel
  have hlast : A.newLabel.pend A.next = some A.newChain := pend_newLabel
  refine (runs_two sense hl hr hA.newLabel (Or.inl ⟨_, hlast⟩) ?_).bind fun _ C h => ?_
  · rw [hnew.types hA]
    exact habort
  obtain ⟨δ, hδ, href⟩ := h.code
  obtain ⟨ch, hch, -⟩ := href.pending _ hlast
  have hdestC : C.DestOk dest := hdest.congr (hnew.trans h.extends')
    ((href.other dest hne).trans (Function.update_of_ne hne _ _))
  refine (runs_genGoto (P := P) (M := M) (!sense) h.shaped hdestC).bind fun _ D hgoto => ?_
  obtain ⟨ε, hε, href'⟩ := hgoto.code
  have hchD : D.pend A.next = some ch := (href'.other _ hne.symm).trans hch
  refine runs_of_sound fun hD => runs_addBasicBlocks hchD ?_
  let E := D.add A.next ch
  have hextE : D.Extends E := hD.extends_add hchD
  have hfresh : FreshTargets A C δ :=
    href.freshTargets ⟨_, hlast⟩ (Nat.le_refl _) (Nat.lt_succ_self _) h.extends'.next
  refine ⟨((hnew.trans h.extends').trans hgoto.extends').trans hextE,
    hD.shaped_add hchD hgoto.shaped.toEnded, ⟨δ ++ ε, ?_, ?_⟩, ?_, fun n w hn hw => ?_⟩
  · rw [hD.code_add hchD, hε, hδ, code_newLabel, List.append_assoc]
  · -- only the jump refers to the destination; the label `last` is in the list now
    have hsettled : FreshTargets A (C.settle A.next) δ :=
      hfresh.mono (Nat.le_refl _) (Nat.le_refl _)
    have hleft : Referred A (C.settle A.next) dest 0 δ :=
      hsettled.referred (settle_newLabel hsound href.other) hlt
    have hright : Referred (C.settle A.next) E dest 1 ε := by
      have := href'.settle (k := A.next) hne
      simp only [refs, if_true] at this
      exact this.mono rfl pend_add (Nat.le_refl _) (show D.next ≤ E.next from add_next_le)
    have := hleft.trans hright (hnew.trans h.extends').next
      (Nat.le_trans hgoto.extends'.next add_next_le)
    rw [hrefs]
    exact this
  · have hopens : Opens A.newLabel D _ := h.opens.then hgoto.opens hgoto.extends'
    have hstart : Opens A E _ := (Opens.then (x := .nothing) (B := A.newLabel) rfl hopens
      (h.extends'.trans hgoto.extends')).then (opens_add hD hchD (hD.label_ne_nil hchD)) hextE
    simp only [startsCond, if_true] at hstart
    rw [hstarts]
    cases hx : (startsCond l sense).then (startsCond r sense) <;> rw [hx] at hstart <;> exact hstart
  · rw [hsplit]
    have hextAC : A.Extends C := hnew.trans h.extends'
    have hnC : n ≤ C.code.length := Nat.le_trans hn hextAC.code.length_le
    refine (h.meaning n w hn hw).over hnew (code_newLabel) hextAC (hgoto.extends'.trans hextE)
      (fun k w₁ hk hgo => ?_) (fun w₁ hw₁ => ?_) hw
    · -- the jump is jumped over
      exact hgo.enter_add hk hchD (href'.other _ hne.symm) hgoto.extends' hD
        (Nat.le_trans hnC hgoto.extends'.code.length_le)
    · have hjump := hgoto.meaning n w₁ hnC hw₁
      rw [lowerCond, evalBool_bool] at hjump
      obtain ⟨w₂, hafter₂, hgo₂⟩ := hjump
      rw [if_pos rfl] at hgo₂
      obtain ⟨k, hk, hgo₂⟩ := hgo₂
      refine ⟨w₂, hafter₂, k, hk.congr ?_, hgo₂.extend hextE⟩
      rw [pend_add]
      exact Function.update_of_ne hne _ _

lemma and_cond (hl : CondSpec P M sig l) (hr : CondSpec P M sig r) :
    CondSpec P M sig (.and l r) := by
  intro A dest sense hA hdest
  rw [genQuadrBoolExpr]
  have habort : ¬(WellTyped (A.types sig) l .boolean ∧ WellTyped (A.types sig) r .boolean ∧
      condOk l = true ∧ condOk r = true) →
      ¬(WellTyped (A.types sig) (.and l r) .boolean ∧ condOk (.and l r) = true) := by
    rintro hno ⟨ht, hok⟩
    simp only [WellTyped] at ht
    simp only [condOk, Bool.and_eq_true] at hok
    exact hno ⟨ht.2.1, ht.2.2, hok⟩
  cases sense with
  | true =>
    rw [if_pos rfl]
    exact runs_over false hl hr hA hdest habort (by simp only [refs, Bool.not_false, if_true])
      (by simp only [startsCond, Bool.not_false, if_true]) (splits_and l r _)
  | false =>
    rw [if_neg (by simp)]
    refine (runs_two _ hl hr hA hdest habort).mono id fun _ C h => ?_
    exact h.jumpPost (by simp) (by simp) (splits_and l r _)

lemma or_cond (hl : CondSpec P M sig l) (hr : CondSpec P M sig r) :
    CondSpec P M sig (.or l r) := by
  intro A dest sense hA hdest
  rw [genQuadrBoolExpr]
  have habort : ¬(WellTyped (A.types sig) l .boolean ∧ WellTyped (A.types sig) r .boolean ∧
      condOk l = true ∧ condOk r = true) →
      ¬(WellTyped (A.types sig) (.or l r) .boolean ∧ condOk (.or l r) = true) := by
    rintro hno ⟨ht, hok⟩
    simp only [WellTyped] at ht
    simp only [condOk, Bool.and_eq_true] at hok
    exact hno ⟨ht.2.1, ht.2.2, hok⟩
  cases sense with
  | false =>
    rw [if_neg (by simp)]
    exact runs_over true hl hr hA hdest habort (by simp) (by simp)
      (splits_or l r _)
  | true =>
    rw [if_pos rfl]
    refine (runs_two _ hl hr hA hdest habort).mono id fun _ C h => ?_
    exact h.jumpPost (by simp) (by simp) (splits_or l r _)

/-- The expressions that `gen_quadr_bool_expr` does not know. -/
lemma abort_cond (hgen : ∀ dest sense, genQuadrBoolExpr P e dest sense = throw .abort)
    (hok : condOk e = false) : CondSpec P M sig e := by
  intro A dest sense _ _
  rw [hgen]
  refine runs_abort ?_
  rintro ⟨-, h⟩
  rw [hok] at h
  cases h

/-! ## The boolean case of `gen_quadr_expr` -/

lemma isJumping_of_isCondition (h : isCondition e = true) : isJumping e = true := by
  cases e <;> first | rfl | exact h | cases h

lemma startsExpr_condition (h : isCondition e = true) :
    startsExpr e = (startsCond e true).then .block := by
  cases e with
  | bool b => cases b <;> simp [startsExpr, startsCond, Start.then]
  | cmp op l r =>
    simp only [startsExpr, startsCond]
    cases (startsExpr l).then (startsExpr r) <;> rfl
  | and l r =>
    simp only [startsExpr, startsCond, if_true]
    cases (startsCond l false).then (startsCond r false) <;> rfl
  | or l r => simp only [startsExpr, startsCond, if_true]
  | not arg => simp only [startsExpr, startsCond, Bool.not_true]
  | call type func args =>
    simp only [startsExpr, startsCond]
    cases startsArgs args <;> rfl
  | _ => cases h

lemma wellTyped_condition {T : Types} {u : Ty} (h : isCondition e = true) (ht : WellTyped T e u) :
    u = .boolean := by
  cases e with
  | bool b => simpa only [WellTyped] using ht
  | call type func args =>
    simp only [WellTyped] at ht
    exact ht.1.trans (by simpa [isCondition] using h)
  | cmp _ _ _ | and _ _ | or _ _ | not _ =>
    simp only [WellTyped] at ht
    exact ht.1
  | _ => cases h

lemma condOk_condition (h : isCondition e = true) : condOk e = jumpsOk e := by
  cases e <;> first | (cases h; done) | simp only [condOk, jumpsOk]

namespace Layout

/-- The current block at the start has got a quadruple or has been left. -/
lemma Opens.extend {x : Start} (h : Opens A B (x.then .block)) (hext : B.Extends C) :
    Opens A C (x.then .block) := by
  cases x with
  | quad =>
    obtain ⟨b, hb, hid, hne⟩ := h
    obtain ⟨b', hb', hid', hne'⟩ := hext.holds b hb hne
    exact ⟨b', hb', hid'.trans hid, hne'⟩
  | _ => exact fun hlst href hne => hext.gone _ (h hlst href hne)

end Layout

/-- The truth value that is put into the result. -/
def truthQuad (var : ℕ) (b : Bool) : Quad := ⟨.copy, .var var, .int (boolInt b), .none⟩

lemma goes_truthQuad {n var : ℕ} {b : Bool} {w : World} :
    Goes M n A (A.emit (truthQuad var b)) w (.at (A.emit (truthQuad var b)).code.length)
      (w.set var (boolValue b)) :=
  goes_plain rfl (by cases b <;> rfl)

/-- The boolean case of `gen_quadr_expr`. -/
lemma genQuadrExpr_jumping (h : isJumping e = true) :
    genQuadrExpr P e = (do
      let var ← declareVar .boolean
      let ifTrue ← newBasicBlock
      genQuadrBoolExpr P e ifTrue true
      genTruthValue P var ifTrue) := by
  unfold genQuadrExpr
  exact if_pos h

/-- What holds after the end of the boolean case, for the variable `v` of the result: from the end
of the code before it is `0`, and from a jump to `label` it is `1`. -/
structure TruthPost (M : Meaning) (v label : ℕ) (B E : Layout) : Prop where
  begins : B.begin.Extends E
  shaped : E.Shaped
  pend : E.pend = Function.update B.pend label none
  code : ∃ δ, E.code = B.code ++ δ ∧ FreshTargets B E δ
  falls : ∀ n w, n ≤ B.code.length → w.params = [] →
    ∃ w', After B (w.set v (boolValue false)) w' w.trace ∧ Goes M n B E w (.at E.code.length) w'
  jumps : ∀ n A w k w', n ≤ B.code.length → Goes M n A B w (.label k) w' → B.JumpTarget label k →
    Goes M n A E w (.at E.code.length) (w'.set v (boolValue true))

/-- The result is put into the variable, on either way. -/
lemma runs_genTruthValue {abort : Prop} {v label : ℕ} {ch : List Blk} (hB : B.Sound)
    (hshaped : B.Shaped) (hch : B.pend label = some ch) :
    Runs (genTruthValue P v label) B abort
      fun arg E => arg = .var v ∧ TruthPost M v label B E := by
  unfold genTruthValue
  refine runs_addNewBlock_bind ?_
  -- `false` is put into the result, and the other case is jumped over
  let B₁ := B.begin
  let B₂ := B₁.newLabel.emit (truthQuad v false)
  have hB₁ : B.Extends B₁ := extends_begin
  have hB₂ : B₁.Extends B₂ := extends_newLabel.trans (extends_emit _)
  have hlast : B₂.pend B₁.next = some B₁.newChain := pend_newLabel
  have hshaped₂ : B₂.Shaped := hshaped.toEnded.begin.newLabel.emit rfl (by simp [truthQuad])
  refine runs_newBasicBlock_bind ?_
  show Runs (pure _ >>= _) _ _ _
  rw [pure_bind]
  refine runs_emit_bind ?_
  refine (runs_genGoto (P := P) (M := M) true hshaped₂ (Or.inl ⟨_, hlast⟩)).bind
    fun _ C hgoto => ?_
  obtain ⟨ε, hε, href⟩ := hgoto.code
  obtain ⟨ch', hch', -⟩ := href.pending _ hlast
  have hne : label ≠ B₁.next := Nat.ne_of_lt (Nat.lt_of_lt_of_le (hB.label_lt hch) hB₁.next)
  have hpend₁ : B₁.pend = B.pend := pend_begin hB
  have hchC : C.pend label = some ch := by
    rw [href.other _ hne, ← hch, ← hpend₁]
    exact Function.update_of_ne hne _ _
  refine runs_of_sound fun hC => runs_addBasicBlocks_bind hchC ?_
  -- `true` is put into the result
  let D₁ := C.add label ch
  let D₂ := D₁.emit (truthQuad v true)
  have hD₁ : C.Extends D₁ := hC.extends_add hchC
  have hD₂ : D₁.Extends D₂ := extends_emit _
  have hshaped' : D₂.Shaped :=
    (hC.shaped_add hchC hgoto.shaped.toEnded).emit rfl (by simp [truthQuad])
  show Runs (pure _ >>= _) _ _ _
  rw [pure_bind]
  refine runs_emit_bind (runs_of_sound fun hD => ?_)
  have hchD : D₂.pend B₁.next = some ch' := by
    show (C.add label ch).pend B₁.next = some ch'
    rw [pend_add]
    exact (Function.update_of_ne hne.symm _ _).trans hch'
  refine runs_addBasicBlocks_bind hchD (runs_pure ⟨rfl, ?_⟩)
  let E := D₂.add B₁.next ch'
  have hE : D₂.Extends E := hD.extends_add hchD
  have hBC : B.Extends C := (hB₁.trans hB₂).trans hgoto.extends'
  have hCE : C.Extends E := (hD₁.trans hD₂).trans hE
  have hcodeB₂ : B₂.code = B.code ++ [truthQuad v false] := by
    rw [code_emit, code_newLabel, code_begin]
  have hcodeD₂ : D₂.code = C.code ++ [truthQuad v true] := by rw [code_emit, hC.code_add hchC]
  have hcodeE : E.code = D₂.code := hD.code_add hchD
  show TruthPost M v label B E
  refine ⟨(hB₂.trans hgoto.extends').trans hCE, hD.shaped_add hchD hshaped'.toEnded, ?_, ?_,
    fun n w hn hw => ?_, fun n A w k w' hn hgo hk => ?_⟩
  · -- both labels are in the list now
    funext k
    rw [pend_add]
    rcases eq_or_ne k B₁.next with rfl | hk
    · rw [Function.update_self, Function.update_of_ne hne.symm]
      refine (?_ : B.pend B₁.next = none).symm
      rw [← hpend₁]
      exact (hB.begin).pend_next
    · rw [Function.update_of_ne hk]
      show (C.add label ch).pend k = _
      rw [pend_add]
      rcases eq_or_ne k label with rfl | hk'
      · rw [Function.update_self, Function.update_self]
      · rw [Function.update_of_ne hk', Function.update_of_ne hk', href.other k hk, ← hpend₁]
        exact Function.update_of_ne hk _ _
  · refine ⟨[truthQuad v false] ++ (ε ++ [truthQuad v true]), ?_, ?_⟩
    · rw [hcodeE, hcodeD₂, hε, hcodeB₂]
      simp
    · have hmiddle : FreshTargets B C ε :=
        href.freshTargets ⟨_, hlast⟩ hB₁.next (Nat.lt_succ_self _) hgoto.extends'.next
      have hleft : FreshTargets B B [truthQuad v false] := FreshTargets.single rfl
      have hright : FreshTargets C E [truthQuad v true] := FreshTargets.single rfl
      exact hleft.trans (hmiddle.trans hright hBC.next hCE.next) (Nat.le_refl _)
        (hBC.trans hCE).next
  · have hgo₁ : Goes M n B B₁.newLabel w (.at B₁.newLabel.code.length) w :=
      goes_refl (code_newLabel.trans code_begin)
    have hgo₂ : Goes M n B B₂ w (.at B₂.code.length) (w.set v (boolValue false)) :=
      hgo₁.trans (extends_emit _) goes_truthQuad
    have hn₂ : n ≤ B₂.code.length := Nat.le_trans hn (hB₁.trans hB₂).code.length_le
    have hjump := hgoto.meaning n (w.set v (boolValue false)) hn₂ hw
    rw [lowerCond, evalBool_bool] at hjump
    obtain ⟨w', hafter, hgo⟩ := hjump
    rw [if_pos rfl] at hgo
    obtain ⟨k, hk, hgo⟩ := hgo
    exact ⟨w', hafter.before hw (hB₁.trans hB₂), (hgo₂.trans hgoto.extends' hgo).enter_add hk hchD
      (hchD.trans hch'.symm) (hD₁.trans hD₂) hD
      (Nat.le_trans hn ((hBC.trans hD₁).trans hD₂).code.length_le)⟩
  · have hgo₁ : Goes M n A D₁ w (.at D₁.code.length) w' :=
      hgo.enter_add hk hchC (hchC.trans hch.symm) hBC hC (Nat.le_trans hn hBC.code.length_le)
    exact (hgo₁.trans hD₂ goes_truthQuad).extend_end hE hcodeE

/-- The value of a condition is put into a new variable. -/
lemma condition_spec (hcond : isCondition e = true) (he : CondSpec P M sig e) :
    ExprSpec P M sig e := by
  intro A hA
  rw [genQuadrExpr_jumping (isJumping_of_isCondition hcond)]
  refine runs_of_sound fun hsound => runs_declareVar_bind (fun q hq => ?_) fun hq => by cases hq
  let A₁ := A.declare ⟨.boolean, q⟩
  let A₂ := A₁.newLabel
  have hA₂ : A.Extends A₂ := (extends_declare _).trans extends_newLabel
  have hlabel : A₂.pend A.next = some A₁.newChain := pend_newLabel
  refine runs_newBasicBlock_bind ?_
  refine ((he A₂ A.next true (hA.declare _).newLabel (Or.inl ⟨_, hlabel⟩)).mono (fun hno => ?_)
    fun _ B h => h).bind fun _ B h => ?_
  · rintro ⟨u, hu, hok⟩
    obtain rfl := wellTyped_condition hcond hu
    exact hno ⟨hA₂.types hA sig ▸ hu, (condOk_condition hcond).trans hok⟩
  obtain ⟨δ, hδ, href⟩ := h.code
  obtain ⟨ch, hch, -⟩ := href.pending _ hlabel
  refine runs_of_sound fun hB => (runs_genTruthValue (M := M) hB h.shaped hch).mono id ?_
  rintro _ E ⟨rfl, hE⟩
  obtain ⟨ε, hε, hfresh⟩ := hE.code
  have hAB : A.Extends B := hA₂.trans h.extends'
  have hBE : B.Extends E := extends_begin.trans hE.begins
  have hlt : A.vars.length < A₂.vars.length := by simp [A₂, A₁, Layout.newLabel, Layout.declare]
  refine ⟨hAB.trans hBE, hE.shaped, ?_, ⟨δ ++ ε, ?_, ?_⟩, ?_, ?_, ?_, fun n w hn hw => ?_⟩
  · -- the label is in the list now
    rw [hE.pend]
    funext k
    rcases eq_or_ne k A.next with rfl | hk
    · rw [Function.update_self]
      exact hsound.pend_next.symm
    · rw [Function.update_of_ne hk, href.other k hk]
      exact Function.update_of_ne hk _ _
  · rw [hε, hδ]
    simp [A₂, A₁]
  · have hleft : FreshTargets A B δ :=
      href.freshTargets ⟨_, hlabel⟩ (Nat.le_refl _) (Nat.lt_succ_self _) h.extends'.next
    exact hleft.trans hfresh hAB.next hBE.next
  · have hopens : Opens A B (startsCond e true) :=
      Opens.then (x := .nothing) (B := A₂) rfl h.opens h.extends'
    rw [startsExpr_condition hcond]
    exact (hopens.then (opens_begin hB) extends_begin).extend hE.begins
  · rintro v ⟨⟩
    exact Nat.lt_of_lt_of_le hlt (h.extends'.trans hBE).vars.length_le
  · rintro v ⟨⟩
    exact Or.inl (Nat.le_refl _)
  · have hdecides := h.meaning n w hn hw
    have hnB : n ≤ B.code.length := Nat.le_trans hn hAB.code.length_le
    rw [lower_condition hcond, evalExpr_condition (isCondition_lowerCond hcond)]
    rcases hr : evalBool M (A₂.reading w) (lowerCond P e true) w.trace with _ | ⟨t, tr⟩
    · rw [hr] at hdecides
      have hnone : evalBool M (A.reading w) (lowerCond P e true) w.trace = none := hr
      rw [hnone]
      exact (Stuck.before rfl hdecides).extend hBE
    rw [hr] at hdecides
    have hsome : evalBool M (A.reading w) (lowerCond P e true) w.trace = some (t, tr) := hr
    rw [hsome]
    obtain ⟨w₁, hafter₁, hgo₁⟩ := hdecides
    have hafter : After A w w₁ tr := hafter₁.before hw hA₂
    cases t with
    | true =>
      rw [if_pos rfl] at hgo₁
      obtain ⟨k, hk, hgo₁⟩ := hgo₁
      exact ⟨_, hafter.set (Nat.le_refl _) _, hE.jumps n A w k w₁ hnB (hgo₁.before rfl) hk,
        congrArg some (Function.update_self _ _ _)⟩
    | false =>
      rw [if_neg (by simp)] at hgo₁
      obtain ⟨w₂, hafter₂, hgo₂⟩ := hE.falls n w₁ hnB hafter.params
      rw [hafter.trace] at hafter₂
      have hvar : w₂.env A.vars.length = boolValue false :=
        (hafter₂.env _ (Nat.lt_of_lt_of_le hlt h.extends'.vars.length_le)).trans
          (Function.update_self _ _ _)
      exact ⟨w₂, (hafter.set (Nat.le_refl _) _).trans hAB hafter₂,
        (hgo₁.before rfl).trans hBE hgo₂, congrArg some hvar⟩

/-! ## The induction -/

/-- An operation of type boolean is not translated. -/
lemma boolean_abort (hjump : isJumping e = true)
    (hgen : ∀ dest sense, genQuadrBoolExpr P e dest sense = throw .abort)
    (htype : ∀ T u, ¬WellTyped T e u) : ExprSpec P M sig e := by
  intro A hA
  rw [genQuadrExpr_jumping hjump]
  have habort : ¬∃ u, WellTyped (A.types sig) e u ∧ jumpsOk e = true :=
    fun ⟨u, hu, _⟩ => htype _ u hu
  refine runs_declareVar_bind (fun q hq => runs_newBasicBlock_bind ?_) fun _ => habort
  rw [hgen]
  exact Runs.bind (R := fun _ _ => False) (runs_abort habort) fun _ _ h => h.elim

/-- Expressions of another type are translated node by node. -/
lemma boolean_or {type : Ty} (hne : type ≠ .boolean → ExprSpec P M sig e)
    (hjump : type = .boolean → isJumping e = true)
    (hgen : ∀ dest sense, genQuadrBoolExpr P e dest sense = throw .abort)
    (htype : ∀ T u, WellTyped T e u → type = .int ∨ type = .double) : ExprSpec P M sig e := by
  by_cases h : type = .boolean
  · refine boolean_abort (hjump h) hgen fun T u hu => ?_
    rcases htype T u hu with h' | h' <;> rw [h'] at h <;> cases h
  · exact hne h

mutual

/-- Every expression is translated as it should be. -/
theorem expr_spec : ∀ e : Expr, ExprSpec P M sig e
  | .int value => int_spec value
  | .double value => double_spec value
  | .bool value => condition_spec rfl (cond_spec (.bool value))
  | .str value => str_spec value
  | .ident x => ident_spec x
  | .array _ i => array_spec (expr_spec i)
  | .binop op type l r => by
      refine boolean_or (fun h => binop_spec h (expr_spec l) (expr_spec r)) (fun h => ?_)
        (fun _ _ => by unfold genQuadrBoolExpr; rfl) fun T u hu => ?_
      · simp [isJumping, h]
      · simp only [WellTyped] at hu
        exact hu.2.1.imp_right And.left
  | .cmp op l r => condition_spec rfl (cmp_cond (expr_spec l) (expr_spec r))
  | .and l r => condition_spec rfl (and_cond (cond_spec l) (cond_spec r))
  | .or l r => condition_spec rfl (or_cond (cond_spec l) (cond_spec r))
  | .neg type e => by
      refine boolean_or (fun h => neg_spec h (expr_spec e)) (fun h => ?_)
        (fun _ _ => by unfold genQuadrBoolExpr; rfl) fun T u hu => ?_
      · simp [isJumping, h]
      · simp only [WellTyped] at hu
        exact hu.2.1
  | .plus type e => by
      refine boolean_or (fun h => plus_spec h (expr_spec e)) (fun h => ?_)
        (fun _ _ => by unfold genQuadrBoolExpr; rfl) fun T u hu => ?_
      · simp [isJumping, h]
      · simp only [WellTyped] at hu
        exact hu.2.1
  | .not e => condition_spec rfl (not_cond (cond_spec e))
  | .call type func es => by
      by_cases h : type = .boolean
      · exact condition_spec (by simp [isCondition, h]) (call_cond (args_spec es))
      · exact call_spec h (args_spec es)

/-- Every condition is translated as it should be. -/
theorem cond_spec : ∀ e : Expr, CondSpec P M sig e
  | .cmp op l r => cmp_cond (expr_spec l) (expr_spec r)
  | .and l r => and_cond (cond_spec l) (cond_spec r)
  | .or l r => or_cond (cond_spec l) (cond_spec r)
  | .not e => not_cond (cond_spec e)
  | .bool value => bool_cond value
  | .ident x => ident_cond x
  | .call type func es => call_cond (args_spec es)
  | .int _ | .double _ | .str _ | .array _ _ | .binop _ _ _ _ | .neg _ _ | .plus _ _ =>
      abort_cond (fun _ _ => by unfold genQuadrBoolExpr; rfl) rfl

/-- The arguments of every call are translated as they should be. -/
theorem args_spec : ∀ es : List Expr, ArgsSpec P M sig es
  | [] => args_nil_spec
  | e :: es => args_cons_spec (expr_spec e) (args_spec es)

end

end Javalette.Front
