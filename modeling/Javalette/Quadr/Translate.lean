import Javalette.Quadr.Lowering
import Javalette.Quadr.Structure

/-!
# What the translation of an expression means

One induction over expressions proves all that holds of `gen_quadr_expr` and
`gen_quadr_bool_expr`: what happens to the block list (`Structure`), and that the code emitted,
run from any valuation, computes the value of the expression or jumps on its truth value, with
the same calls.  `ExprPost`, `ArgsPost` and `JumpPost` say it for a value, for the arguments of
a call and for a condition; there is one lemma for each kind of node.
-/

namespace Javalette.Front

open SyntaxTree

/-! ## Triples for single operations -/

section Bind

variable {α : Type} {A : Layout} {abort : Prop} {Q : α → Layout → Prop}

lemma runs_emit_bind {q : Quad} {f : Unit → Gen α} (h : Runs (f ()) (A.emit q) abort Q) :
    Runs (emit q >>= f) A abort Q :=
  (runs_emit (Q := fun _ B => B = A.emit q) rfl).bind fun _ _ hB => hB ▸ h

lemma runs_newBasicBlock_bind {f : ℕ → Gen α} (h : Runs (f A.next) A.newLabel abort Q) :
    Runs (newBasicBlock >>= f) A abort Q := by
  refine (runs_newBasicBlock (Q := fun l B => l = A.next ∧ B = A.newLabel) ⟨rfl, rfl⟩).bind ?_
  rintro _ _ ⟨rfl, rfl⟩
  exact h

lemma runs_addBasicBlocks_bind {l : ℕ} {ch : List Blk} {f : Unit → Gen α}
    (hl : A.pend l = some ch) (h : Runs (f ()) (A.add l ch) abort Q) :
    Runs (addBasicBlocks l >>= f) A abort Q :=
  (runs_addBasicBlocks (Q := fun _ B => B = A.add l ch) hl rfl).bind fun _ _ hB => hB ▸ h

lemma runs_newVarDecl_bind {d : VarDecl} {f : ℕ → Gen α}
    (h : Runs (f A.vars.length) (A.declare d) abort Q) : Runs (newVarDecl d >>= f) A abort Q := by
  refine (runs_newVarDecl (Q := fun v B => v = A.vars.length ∧ B = A.declare d) ⟨rfl, rfl⟩).bind ?_
  rintro _ _ ⟨rfl, rfl⟩
  exact h

lemma runs_declareVar_bind {type : Ty} {f : ℕ → Gen α}
    (h : ∀ q, qtypeOf type = some q → Runs (f A.vars.length) (A.declare ⟨type, q⟩) abort Q)
    (habort : qtypeOf type = none → abort) : Runs (declareVar type >>= f) A abort Q := by
  refine (runs_declareVar (Q := fun v B => v = A.vars.length ∧
    ∃ q, qtypeOf type = some q ∧ B = A.declare ⟨type, q⟩)
    (fun q hq => ⟨rfl, q, hq, rfl⟩) habort).bind ?_
  rintro _ _ ⟨rfl, q, hq, rfl⟩
  exact h q hq

lemma runs_declOf_bind {ident : String} {f : ℕ → Gen α}
    (h : ∀ v, A.decls ident = some v → Runs (f v) A abort Q)
    (habort : A.decls ident = none → abort) : Runs (declOf ident >>= f) A abort Q := by
  refine (runs_declOf (Q := fun v B => A.decls ident = some v ∧ B = A)
    (fun v hv => ⟨hv, rfl⟩) habort).bind ?_
  rintro v _ ⟨hv, rfl⟩
  exact h v hv

lemma runs_varType_bind {var : ℕ} {f : Ty → Gen α}
    (h : ∀ d, A.vars[var]? = some d → Runs (f d.type) A abort Q)
    (habort : A.vars[var]? = none → abort) : Runs (varType var >>= f) A abort Q := by
  refine (runs_varType (Q := fun t B => ∃ d, A.vars[var]? = some d ∧ t = d.type ∧ B = A)
    (fun d hd => ⟨d, hd, rfl, rfl⟩) habort).bind ?_
  rintro _ _ ⟨d, hd, rfl, rfl⟩
  exact h d hd

end Bind

/-! ## A new block -/

namespace Layout

variable {A B C : Layout}

/-- The chain of a label that has just been made. -/
def newChain (A : Layout) : List Blk := [⟨A.next, [], false⟩]

/-- `add_basic_blocks(new_basic_block())`. -/
def begin (A : Layout) : Layout := A.newLabel.add A.next A.newChain

lemma pend_newLabel : A.newLabel.pend A.next = some A.newChain := Function.update_self _ _ _

lemma newChain_ne_nil : A.newChain ≠ [] := List.cons_ne_nil _ _

lemma newChain_empty : ∀ b ∈ A.newChain, b.lst = [] := by
  intro b hb
  rw [List.mem_singleton.mp hb]

lemma pend_begin (h : A.Sound) : A.begin.pend = A.pend := by
  rw [begin, pend_add, newLabel, Function.update_idem]
  exact Function.update_eq_self_iff.mpr h.pend_next.symm

@[simp] lemma code_begin : A.begin.code = A.code := by
  rw [begin, code_add newChain_ne_nil newChain_empty, code_newLabel]

lemma extends_begin : A.Extends A.begin :=
  extends_newLabel.trans (extends_add pend_newLabel newChain_ne_nil newChain_empty)

lemma Ended.begin (h : A.Ended) : A.begin.Shaped := h.newLabel.add newChain_ne_nil newChain_empty

lemma opens_begin (h : A.Sound) : Opens A A.begin .block :=
  opens_add (A := A.newLabel) h.newLabel pend_newLabel newChain_ne_nil

lemma Sound.begin (h : A.Sound) : A.begin.Sound := h.newLabel.add pend_newLabel

end Layout

section NewBlock

variable {α : Type} {A : Layout} {abort : Prop} {Q : α → Layout → Prop}

lemma runs_addNewBlock {Q : Unit → Layout → Prop} (h : Q () A.begin) :
    Runs addNewBlock A abort Q :=
  runs_newBasicBlock_bind (runs_addBasicBlocks Layout.pend_newLabel h)

lemma runs_addNewBlock_bind {f : Unit → Gen α} (h : Runs (f ()) A.begin abort Q) :
    Runs (addNewBlock >>= f) A abort Q :=
  (runs_addNewBlock (Q := fun _ B => B = A.begin) rfl).bind fun _ _ hB => hB ▸ h

end NewBlock

/-! ## Runs -/

section Runs

variable {M : Meaning} {n : ℕ} {A A' B C : Layout} {w w' w₁ w₂ : World} {p : Point} {q : Quad}

/-- What an expression reads in a world. -/
def Layout.reading (A : Layout) (w : World) : Reading := ⟨A.decls, w.env, w.mem⟩

/-- The variables declared by `A` keep their values, and so do the arrays; the calls made by now
are `tr`. -/
structure After (A : Layout) (w w' : World) (tr : List Call) : Prop where
  env : ∀ v < A.vars.length, w'.env v = w.env v
  mem : w'.mem = w.mem
  trace : w'.trace = tr
  params : w'.params = []

lemma After.refl (A : Layout) (h : w.params = []) : After A w w w.trace :=
  ⟨fun _ _ => rfl, rfl, rfl, h⟩

lemma After.trans {tr tr' : List Call} (h₁ : After A w w₁ tr) (hext : A.Extends B)
    (h₂ : After B w₁ w₂ tr') : After A w w₂ tr' := by
  refine ⟨fun v hv => ?_, h₂.mem.trans h₁.mem, h₂.trace, h₂.params⟩
  rw [h₂.env v (Nat.lt_of_lt_of_le hv hext.vars.length_le), h₁.env v hv]

lemma After.set {tr : List Call} (h : After A w w' tr) {v : ℕ} (hv : A.vars.length ≤ v)
    (x : Value) : After A w (w'.set v x) tr := by
  refine ⟨fun u hu => ?_, h.mem, h.trace, h.params⟩
  have hne : u ≠ v := by omega
  exact (Function.update_of_ne hne _ _).trans (h.env u hu)

lemma After.before {tr : List Call} (hw : w.params = []) (hext : A.Extends A')
    (h : After A' w w' tr) : After A w w' tr :=
  (After.refl A hw).trans hext h

/-- From the end of the code of `A`, the code of `B` leads to the point `p`, and no block that
lies before the position `n` is entered on the way. -/
def Goes (M : Meaning) (n : ℕ) (A B : Layout) (w : World) (p : Point) (w' : World) : Prop :=
  Run M B.code (B.SettledFrom n) (.at A.code.length, w) (p, w')

lemma goes_refl (h : B.code = A.code) : Goes M n A B w (.at B.code.length) w := by
  rw [Goes, h]

lemma Goes.trans (h₁ : Goes M n A B w (.at B.code.length) w₁) (hext : B.Extends C)
    (h₂ : Goes M n B C w₁ p w₂) : Goes M n A C w p w₂ :=
  Relation.ReflTransGen.trans (hext.run h₁) h₂

lemma Goes.extend (h : Goes M n A B w p w') (hext : B.Extends C) : Goes M n A C w p w' :=
  hext.run h

/-- The code does not get longer. -/
lemma Goes.extend_end (h : Goes M n A B w (.at B.code.length) w') (hext : B.Extends C)
    (hcode : C.code = B.code) : Goes M n A C w (.at C.code.length) w' :=
  h.trans hext (goes_refl hcode)

lemma Goes.enter {l : ℕ} (h : Goes M n A B w (.label l) w') (hext : B.Extends C)
    (hl : C.Settled l C.code.length) (hn : n ≤ C.code.length) :
    Goes M n A C w (.at C.code.length) w' :=
  Relation.ReflTransGen.tail (hext.run h) (Step.enter ⟨hl, hn⟩)

lemma Goes.before (hcode : A'.code = A.code) (h : Goes M n A' B w p w') : Goes M n A B w p w' := by
  rwa [Goes, ← hcode]

/-- From the end of the code of `A`, the code of `B` leads to a quadruple that cannot be
executed. -/
def Stuck (M : Meaning) (n : ℕ) (A B : Layout) (w : World) : Prop :=
  ∃ pos w' q, Goes M n A B w (.at pos) w' ∧ B.code[pos]? = some q ∧ execQuad M q pos w' = none

lemma Stuck.extend (h : Stuck M n A B w) (hext : B.Extends C) : Stuck M n A C w := by
  obtain ⟨pos, w', q, hgo, hq, hexec⟩ := h
  refine ⟨pos, w', q, hgo.extend hext, ?_, hexec⟩
  obtain ⟨rest, hrest⟩ := hext.code
  rw [← hrest, List.getElem?_append_left (List.getElem?_eq_some_iff.mp hq).1, hq]

lemma Stuck.before (hcode : A'.code = A.code) (h : Stuck M n A' B w) : Stuck M n A B w := by
  obtain ⟨pos, w', q, hgo, hstuck⟩ := h
  exact ⟨pos, w', q, hgo.before hcode, hstuck⟩

lemma Goes.stuck (h : Goes M n A B w (.at B.code.length) w₁) (hext : B.Extends C)
    (hstuck : Stuck M n B C w₁) : Stuck M n A C w := by
  obtain ⟨pos, w', q, hgo, hq⟩ := hstuck
  exact ⟨pos, w', q, h.trans hext hgo, hq⟩

lemma stuck_quad (h : execQuad M q A.code.length w = none) : Stuck M n A (A.emit q) w := by
  refine ⟨A.code.length, w, q, Relation.ReflTransGen.refl, ?_, h⟩
  rw [Layout.code_emit]
  simp

lemma execQuad_plain (hq : isBlockEnd q.op = false) (pos : ℕ) :
    execQuad M q pos w = (execPlain M q w).map fun w' => (.at (pos + 1), w') := by
  unfold execQuad
  cases hop : q.op <;> rw [hop] at hq <;> first | rfl | cases hq

lemma goes_quad {c : Point × World} (h : execQuad M q A.code.length w = some c) :
    Goes M n A (A.emit q) w c.1 c.2 := by
  refine Relation.ReflTransGen.single (Step.quad ?_ h)
  rw [Layout.code_emit]
  simp

/-- A quadruple that is not a jump. -/
lemma goes_plain (hq : isBlockEnd q.op = false) (h : execPlain M q w = some w') :
    Goes M n A (A.emit q) w (.at (A.emit q).code.length) w' := by
  have hexec : execQuad M q A.code.length w = some (.at (A.code.length + 1), w') := by
    rw [execQuad_plain hq, h]
    rfl
  have := goes_quad (n := n) (A := A) hexec
  rw [Layout.code_emit, List.length_append]
  exact this

lemma readArg_congr {a : Arg} {x : Value} (hread : readArg w a = some x)
    (henv : ∀ v, a = .var v → w'.env v = w.env v) : readArg w' a = some x := by
  cases a with
  | var v => exact (congrArg some (henv v rfl)).trans hread
  | _ => exact hread

lemma stuck_plain (hq : isBlockEnd q.op = false) (h : execPlain M q w = none) :
    Stuck M n A (A.emit q) w :=
  stuck_quad (by rw [execQuad_plain hq, h, Option.map_none])

/-- The comparison that a conditional jump tests. -/
def sensed (op : CmpOp) (sense : Bool) : CmpOp := if sense then op else opposite op

lemma cmpOf_quadrIfOp (op : CmpOp) (sense : Bool) :
    cmpOf (quadrIfOp op sense) = some (sensed op sense) := by
  cases op <;> cases sense <;> rfl

/-- A conditional jump leaves for its label when the test holds. -/
lemma execQuad_if {op : CmpOp} {sense : Bool} {l pos : ℕ} {a₁ a₂ : Arg} {x₁ x₂ : Value}
    (h₁ : readArg w a₁ = some x₁) (h₂ : readArg w a₂ = some x₂) :
    execQuad M ⟨quadrIfOp op sense, .label l, a₁, a₂⟩ pos w =
      (testValue M (sensed op sense) x₁ x₂).map
        fun t => (if t then .label l else .at (pos + 1), w) := by
  have hexec : execQuad M ⟨quadrIfOp op sense, .label l, a₁, a₂⟩ pos w = (do
      let op ← cmpOf (quadrIfOp op sense)
      let a ← readArg w a₁
      let b ← readArg w a₂
      let t ← testValue M op a b
      return (if t then Point.label l else .at (pos + 1), w)) := by
    cases op <;> cases sense <;> rfl
  rw [hexec, cmpOf_quadrIfOp, h₁, h₂]
  exact Option.map_eq_bind.symm

/-- The truth value of a condition as the jump on `sense` finds it. -/
lemma evalBool_sensed {R : Reading} {op : CmpOp} {l r : Expr} {sense : Bool} {tr : List Call} :
    evalBool M R (sensedCmp op l r sense) tr =
      (evalPair M R l r tr).bind fun p =>
        (testValue M (sensed op sense) p.1.1 p.1.2).map fun t => (t == sense, p.2) := by
  cases sense with
  | true => simp [sensedCmp, sensed, evalBool_cmp]
  | false =>
      simp [sensedCmp, sensed, evalBool_not, evalBool_cmp, Option.map_bind, Function.comp_def]

lemma isIfOp_quadrIfOp (op : CmpOp) (sense : Bool) : isIfOp (quadrIfOp op sense) = true := by
  cases op <;> cases sense <;> rfl

end Runs

/-! ## What an expression depends on -/

section Congr

variable {M : Meaning} {R R' : Reading}

mutual

/-- The value of an expression depends on the variables in scope only. -/
lemma evalExpr_congr (hdecls : R'.decls = R.decls) (hmem : R'.mem = R.mem)
    (henv : ∀ x v, R.decls x = some v → R'.env v = R.env v) :
    ∀ (e : Expr) (tr : List Call), evalExpr M R' e tr = evalExpr M R e tr
  | .int _, _ | .double _, _ | .bool _, _ | .str _, _ => by simp only [evalExpr]
  | .ident x, tr => by
    simp only [evalExpr, hdecls]
    cases hx : R.decls x with
    | none => rfl
    | some v => simp only [Option.map_some, henv x v hx]
  | .array x i, tr => by
    simp only [evalExpr, evalExpr_congr hdecls hmem henv i, element, hdecls, hmem]
  | .binop op ty l r, tr => by
    simp only [evalExpr, evalExpr_congr hdecls hmem henv l, evalExpr_congr hdecls hmem henv r]
  | .cmp op l r, tr => by
    simp only [evalExpr, evalExpr_congr hdecls hmem henv l, evalExpr_congr hdecls hmem henv r]
  | .and l r, tr => by
    simp only [evalExpr, evalExpr_congr hdecls hmem henv l, evalExpr_congr hdecls hmem henv r]
  | .or l r, tr => by
    simp only [evalExpr, evalExpr_congr hdecls hmem henv l, evalExpr_congr hdecls hmem henv r]
  | .neg ty e, tr => by
    simp only [evalExpr, evalExpr_congr hdecls hmem henv e]
  | .plus ty e, tr => by
    simp only [evalExpr, evalExpr_congr hdecls hmem henv e]
  | .not e, tr => by
    simp only [evalExpr, evalExpr_congr hdecls hmem henv e]
  | .call ty f es, tr => by
    simp only [evalExpr, evalArgs_congr hdecls hmem henv es]

lemma evalArgs_congr (hdecls : R'.decls = R.decls) (hmem : R'.mem = R.mem)
    (henv : ∀ x v, R.decls x = some v → R'.env v = R.env v) :
    ∀ (es : List Expr) (tr : List Call), evalArgs M R' es tr = evalArgs M R es tr
  | [], _ => by simp only [evalArgs]
  | e :: es, tr => by
    simp only [evalArgs, evalExpr_congr hdecls hmem henv e, evalArgs_congr hdecls hmem henv es]

end

variable {A B : Layout} {w w' : World} {tr : List Call}

lemma After.env_congr (h : After A w w' tr) (hext : A.Extends B) (hshaped : A.Shaped) :
    (B.reading w').decls = (A.reading w).decls ∧ (B.reading w').mem = (A.reading w).mem ∧
      ∀ x v, (A.reading w).decls x = some v → (B.reading w').env v = (A.reading w).env v :=
  ⟨hext.decls, h.mem, fun x v hv => h.env v (hshaped.inScope x v hv)⟩

/-- What has been computed by now does not change the value of the next operand. -/
lemma After.evalExpr (h : After A w w' tr) (hext : A.Extends B) (hshaped : A.Shaped) (e : Expr)
    (tr' : List Call) :
    evalExpr M (B.reading w') e tr' = evalExpr M (A.reading w) e tr' :=
  have ⟨hdecls, hmem, henv⟩ := h.env_congr hext hshaped
  evalExpr_congr hdecls hmem henv e tr'

lemma After.evalArgs (h : After A w w' tr) (hext : A.Extends B) (hshaped : A.Shaped)
    (es : List Expr) (tr' : List Call) :
    evalArgs M (B.reading w') es tr' = evalArgs M (A.reading w) es tr' :=
  have ⟨hdecls, hmem, henv⟩ := h.env_congr hext hshaped
  evalArgs_congr hdecls hmem henv es tr'

lemma After.evalBool (h : After A w w' tr) (hext : A.Extends B) (hshaped : A.Shaped) (e : Expr)
    (tr' : List Call) :
    evalBool M (B.reading w') e tr' = evalBool M (A.reading w) e tr' := by
  rw [Front.evalBool, Front.evalBool, h.evalExpr hext hshaped]

end Congr

/-! ## The outcome of an evaluation -/

/-- The label can be jumped to: it is not in the list yet, or it is a block that holds
quadruples. -/
def Layout.DestOk (A : Layout) (dest : ℕ) : Prop :=
  (∃ ch, A.pend dest = some ch) ∨ ∃ b ∈ A.all, b.id = dest ∧ b.lst ≠ []

/-- A jump to `t` is a jump to `dest`: `t` is `dest`, or a block that hangs on it. -/
def Layout.JumpTarget (A : Layout) (dest t : ℕ) : Prop :=
  (∃ ch, A.pend dest = some ch ∧ ∃ b ∈ ch, b.id = t ∧ b.referenced = true) ∨
    A.pend dest = none ∧ t = dest

section Outcomes

variable {M : Meaning} {n : ℕ} {A A' B C : Layout} {w w' : World} {q : Quad} {α β : Type}

/-- The code of `B` behind that of `A` does what an evaluation with the outcome `o` says: it
computes a value, for which `R` holds at the end, or it gets stuck. -/
def Delivers (M : Meaning) (n : ℕ) (A B : Layout) (w : World) (o : Option (α × List Call))
    (R : α → World → Prop) : Prop :=
  match o with
  | some (x, tr) => ∃ w', After A w w' tr ∧ Goes M n A B w (.at B.code.length) w' ∧ R x w'
  | none => Stuck M n A B w

/-- The same for a condition, which is decided by a jump to `dest` on the truth value `sense`. -/
def Decides (M : Meaning) (n : ℕ) (A B : Layout) (dest : ℕ) (sense : Bool) (w : World)
    (o : Option (Bool × List Call)) : Prop :=
  match o with
  | some (t, tr) => ∃ w', After A w w' tr ∧
      if t = sense then ∃ l, B.JumpTarget dest l ∧ Goes M n A B w (.label l) w'
      else Goes M n A B w (.at B.code.length) w'
  | none => Stuck M n A B w

variable {o : Option (α × List Call)} {R : α → World → Prop}

lemma delivers_refl {x : α} (hw : w.params = []) (hcode : B.code = A.code) (hR : R x w) :
    Delivers M n A B w (some (x, w.trace)) R :=
  ⟨w, After.refl A hw, goes_refl hcode, hR⟩

lemma Delivers.map {S : β → World → Prop} (h : Delivers M n A B w o R) {g : α → β}
    (hR : ∀ x w', After A w w' w'.trace → R x w' → S (g x) w') :
    Delivers M n A B w (o.map fun p => (g p.1, p.2)) S := by
  rcases o with _ | ⟨x, tr⟩
  · exact h
  · obtain ⟨w', hafter, hgo, hx⟩ := h
    exact ⟨w', hafter, hgo, hR x w' (hafter.trace ▸ hafter) hx⟩

/-- What has been prepared without quadruples. -/
lemma Delivers.before (hw : w.params = []) (hext : A.Extends A') (hcode : A'.code = A.code)
    (h : Delivers M n A' B w o R) : Delivers M n A B w o R := by
  rcases o with _ | ⟨x, tr⟩
  · exact Stuck.before hcode h
  · obtain ⟨w', hafter, hgo, hx⟩ := h
    exact ⟨w', hafter.before hw hext, hgo.before hcode, hx⟩

/-- What comes after does not matter while nothing is emitted. -/
lemma Delivers.extend_end (h : Delivers M n A B w o R) (hext : B.Extends C)
    (hcode : C.code = B.code) : Delivers M n A C w o R := by
  rcases o with _ | ⟨x, tr⟩
  · exact Stuck.extend h hext
  · obtain ⟨w', hafter, hgo, hx⟩ := h
    exact ⟨w', hafter, hgo.extend_end hext hcode, hx⟩

/-- One computation after the other. -/
lemma Delivers.bind {f : α × List Call → Option (β × List Call)} {S : β → World → Prop}
    (h : Delivers M n A B w o R) (hAB : A.Extends B) (hBC : B.Extends C)
    (hf : ∀ x w', After A w w' w'.trace → R x w' → Delivers M n B C w' (f (x, w'.trace)) S) :
    Delivers M n A C w (o.bind f) S := by
  rcases o with _ | ⟨x, tr⟩
  · exact Stuck.extend h hBC
  · obtain ⟨w', hafter, hgo, hx⟩ := h
    obtain rfl := hafter.trace
    have hnext := hf x w' hafter hx
    rw [Option.bind_some]
    rcases hr : f (x, w'.trace) with _ | ⟨y, tr⟩ <;> rw [hr] at hnext
    · exact hgo.stuck hBC hnext
    · obtain ⟨w'', hafter', hgo', hy⟩ := hnext
      exact ⟨w'', hafter.trans hAB hafter', hgo.trans hBC hgo', hy⟩

/-- The last quadruple of a computation, which leaves the variables of `A` as they are. -/
lemma Delivers.emit {f : α × List Call → Option (β × List Call)} {S : β → World → Prop}
    (h : Delivers M n A B w o R) (hq : isBlockEnd q.op = false)
    (hf : ∀ x w', After A w w' w'.trace → R x w' →
      match f (x, w'.trace) with
      | some (y, tr) => ∃ w'', execPlain M q w' = some w'' ∧ After A w w'' tr ∧ S y w''
      | none => execPlain M q w' = none) :
    Delivers M n A (B.emit q) w (o.bind f) S := by
  rcases o with _ | ⟨x, tr⟩
  · exact Stuck.extend h (Layout.extends_emit q)
  · obtain ⟨w', hafter, hgo, hx⟩ := h
    obtain rfl := hafter.trace
    have hnext := hf x w' hafter hx
    rw [Option.bind_some]
    rcases hr : f (x, w'.trace) with _ | ⟨y, tr⟩ <;> rw [hr] at hnext
    · exact hgo.stuck (Layout.extends_emit q) (stuck_plain hq hnext)
    · obtain ⟨w'', hexec, hafter', hy⟩ := hnext
      exact ⟨w'', hafter', hgo.trans (Layout.extends_emit q) (goes_plain hq hexec), hy⟩

/-- The last quadruple puts the value of an operation into the variable `u`. -/
lemma Delivers.store {g : α → Option Value} {u : ℕ} (h : Delivers M n A B w o R)
    (hq : isBlockEnd q.op = false) (hu : A.vars.length ≤ u)
    (hexec : ∀ x w', After A w w' w'.trace → R x w' → execPlain M q w' = (g x).map (w'.set u)) :
    Delivers M n A (B.emit q) w (o.bind fun p => (g p.1).map (·, p.2))
      fun v w' => readArg w' (.var u) = some v := by
  refine h.emit hq fun x w' hafter hx => ?_
  have hexec := hexec x w' hafter hx
  cases hg : g x with
  | none =>
    rw [hg] at hexec
    exact hexec
  | some v =>
    rw [hg] at hexec
    exact ⟨w'.set u v, hexec, hafter.set hu v, congrArg some (Function.update_self _ _ _)⟩

/-- A condition is decided by two conditions, the second of which counts only if the first one
does not jump. -/
lemma Decides.two {dest : ℕ} {sense : Bool} {o : Option (Bool × List Call)}
    {f : List Call → Option (Bool × List Call)} (h : Decides M n A B dest sense w o)
    (hAB : A.Extends B) (hBC : B.Extends C)
    (htarget : ∀ l, B.JumpTarget dest l → C.JumpTarget dest l)
    (hf : ∀ w', After A w w' w'.trace → Decides M n B C dest sense w' (f w'.trace)) :
    Decides M n A C dest sense w
      (o.bind fun p => if p.1 = sense then some (sense, p.2) else f p.2) := by
  rcases o with _ | ⟨t, tr⟩
  · exact Stuck.extend h hBC
  obtain ⟨w', hafter, hgo⟩ := h
  obtain rfl := hafter.trace
  rw [Option.bind_some]
  by_cases ht : t = sense
  · rw [if_pos ht] at hgo ⊢
    obtain ⟨l, hl, hgo⟩ := hgo
    refine ⟨w', hafter, ?_⟩
    rw [if_pos rfl]
    exact ⟨l, htarget l hl, hgo.extend hBC⟩
  · rw [if_neg ht] at hgo ⊢
    have hnext := hf w' hafter
    rcases hr : f w'.trace with _ | ⟨t', tr⟩ <;> rw [hr] at hnext
    · exact hgo.stuck hBC hnext
    obtain ⟨w'', hafter', hgo'⟩ := hnext
    refine ⟨w'', hafter.trans hAB hafter', ?_⟩
    by_cases ht' : t' = sense
    · rw [if_pos ht'] at hgo' ⊢
      obtain ⟨l, hl, hgo'⟩ := hgo'
      exact ⟨l, hl, hgo.trans hBC hgo'⟩
    · rw [if_neg ht'] at hgo' ⊢
      exact hgo.trans hBC hgo'

/-- The jump at the end of a condition. -/
lemma Delivers.decide {dest t : ℕ} {sense : Bool} {g : α → Option Bool} (h : Delivers M n A B w o R)
    (hBC : (B.emit q).Extends C) (hcode : C.code = (B.emit q).code) (htarget : C.JumpTarget dest t)
    (hexec : ∀ x w' pos, R x w' → execQuad M q pos w' =
      (g x).map fun b => (if b = sense then .label t else .at (pos + 1), w')) :
    Decides M n A C dest sense w (o.bind fun p => (g p.1).map (·, p.2)) := by
  have hext : B.Extends C := (Layout.extends_emit q).trans hBC
  rcases o with _ | ⟨x, tr⟩
  · exact Stuck.extend h hext
  obtain ⟨w', hafter, hgo, hx⟩ := h
  have hexec := hexec x w' B.code.length hx
  rw [Option.bind_some]
  cases hg : g x with
  | none =>
    rw [hg] at hexec
    exact (hgo.stuck (Layout.extends_emit q) (stuck_quad hexec)).extend hBC
  | some b =>
    rw [hg] at hexec
    have hjump := (hgo.trans (Layout.extends_emit q) (goes_quad hexec)).extend hBC
    refine ⟨w', hafter, ?_⟩
    dsimp only at hjump
    by_cases hb : b = sense
    · rw [if_pos hb] at hjump ⊢
      exact ⟨t, htarget, hjump⟩
    · rw [if_neg hb] at hjump ⊢
      rw [hcode, Layout.code_emit, List.length_append]
      exact hjump

end Outcomes

/-- The types of the identifiers in scope. -/
def Layout.types (A : Layout) (sig : ℕ → Option (List Ty × Ty)) : Types where
  ident x := (A.decls x).bind fun v => A.vars[v]?.map VarDecl.type
  func := sig

lemma Layout.Extends.types {A B : Layout} (h : A.Extends B) (hshaped : A.Shaped)
    (sig : ℕ → Option (List Ty × Ty)) : B.types sig = A.types sig := by
  have hident : (B.types sig).ident = (A.types sig).ident := by
    funext x
    show (B.decls x).bind _ = (A.decls x).bind _
    rw [h.decls]
    cases hx : A.decls x with
    | none => rfl
    | some v =>
      obtain ⟨rest, hrest⟩ := h.vars
      show B.vars[v]?.map VarDecl.type = A.vars[v]?.map VarDecl.type
      rw [← hrest, List.getElem?_append_left (hshaped.inScope x v hx)]
  exact congrArg (Types.mk · sig) hident

/-! ## The statements -/

mutual

/-- How a block fares that is current and empty when an expression is translated. -/
def startsExpr : Expr → Start
  | .int _ | .double _ => .quad
  | .bool value => if value then .quad else .block
  | .str _ | .ident _ => .nothing
  | .array _ index => (startsExpr index).then .quad
  | .binop _ _ left right => ((startsExpr left).then (startsExpr right)).then .quad
  | .cmp _ left right => ((startsExpr left).then (startsExpr right)).then .quad
  | .and left right => ((startsCond left false).then (startsCond right false)).then .quad
  | .or left right => ((startsCond left true).then (startsCond right true)).then .block
  | .neg _ _ => .quad
  | .plus _ arg => startsExpr arg
  | .not arg => (startsCond arg false).then .block
  | .call _ _ args => (startsArgs args).then .quad

/-- The same for a condition that is to jump on the truth value `sense`. -/
def startsCond : Expr → Bool → Start
  | .cmp _ left right, _ => ((startsExpr left).then (startsExpr right)).then .quad
  | .and left right, sense =>
      if sense then ((startsCond left false).then (startsCond right false)).then .quad
      else (startsCond left false).then (startsCond right false)
  | .or left right, sense =>
      if sense then (startsCond left true).then (startsCond right true)
      else ((startsCond left true).then (startsCond right true)).then .quad
  | .not arg, sense => startsCond arg (!sense)
  | .bool value, sense => if value = sense then .quad else .nothing
  | .ident _, _ => .quad
  | .call _ _ args, _ => (startsArgs args).then .quad
  | _, _ => .nothing

/-- The same for the arguments of a call. -/
def startsArgs : List Expr → Start
  | [] => .nothing
  | arg :: args => (startsExpr arg).then (startsArgs args)

end

/-- How often `gen_quadr_bool_expr` refers to its destination. -/
def refs : Expr → Bool → ℕ
  | .cmp _ _ _, _ | .ident _, _ | .call _ _ _, _ => 1
  | .and left right, sense => if sense then 1 else refs left false + refs right false
  | .or left right, sense => if sense then refs left true + refs right true else 1
  | .not arg, sense => refs arg (!sense)
  | .bool value, sense => if value = sense then 1 else 0
  | _, _ => 0

/-- The identifier that an expression consists of, but for unary plus. -/
def identOf : Expr → Option String
  | .ident ident => some ident
  | .plus _ arg => identOf arg
  | _ => none

section Specs

variable (P : Platform) (M : Meaning) (sig : ℕ → Option (List Ty × Ty))

/-- What holds after the translation of an expression, whose value is in `arg`. -/
structure ExprPost (e : Expr) (A : Layout) (arg : Arg) (B : Layout) : Prop where
  extends' : A.Extends B
  shaped : B.Shaped
  pend : B.pend = A.pend
  code : ∃ δ, B.code = A.code ++ δ ∧ Layout.FreshTargets A B δ
  opens : Layout.Opens A B (startsExpr e)
  arg_lt : ∀ v, arg = .var v → v < B.vars.length
  arg_new : ∀ v, arg = .var v → A.vars.length ≤ v ∨ ∃ x, identOf e = some x ∧ A.decls x = some v
  meaning : ∀ n w, n ≤ A.code.length → w.params = [] →
    Delivers M n A B w (evalExpr M (A.reading w) (lower P e) w.trace)
      fun v w' => readArg w' arg = some v

/-- What holds after the translation of the arguments of a call. -/
structure ArgsPost (es : List Expr) (A : Layout) (args : List Arg) (B : Layout) : Prop where
  extends' : A.Extends B
  shaped : B.Shaped
  pend : B.pend = A.pend
  code : ∃ δ, B.code = A.code ++ δ ∧ Layout.FreshTargets A B δ
  opens : Layout.Opens A B (startsArgs es)
  arg_lt : ∀ v, .var v ∈ args → v < B.vars.length
  meaning : ∀ n w, n ≤ A.code.length → w.params = [] →
    Delivers M n A B w (evalArgs M (A.reading w) (lowerArgs P es) w.trace)
      fun vs w' => List.Forall₂ (fun a v => readArg w' a = some v) args vs

/-- What holds after the translation of a condition that jumps to `dest` on the truth value
`sense`. -/
structure JumpPost (e : Expr) (dest : ℕ) (sense : Bool) (A B : Layout) : Prop where
  extends' : A.Extends B
  shaped : B.Shaped
  code : ∃ δ, B.code = A.code ++ δ ∧ Layout.Referred A B dest (refs e sense) δ
  opens : Layout.Opens A B (startsCond e sense)
  meaning : ∀ n w, n ≤ A.code.length → w.params = [] →
    Decides M n A B dest sense w (evalBool M (A.reading w) (lowerCond P e sense) w.trace)

/-- An expression is translated, unless it is ill-typed or has an element of an array for a
condition. -/
def ExprSpec (e : Expr) : Prop :=
  ∀ A : Layout, A.Shaped →
    Runs (genQuadrExpr P e) A (¬∃ t, WellTyped (A.types sig) e t ∧ jumpsOk e = true)
      (ExprPost P M e A)

/-- The same for the arguments of a call. -/
def ArgsSpec (es : List Expr) : Prop :=
  ∀ A : Layout, A.Shaped →
    Runs (genArgs P es) A (¬∃ ts, ArgsTyped (A.types sig) es ts ∧ argsOk es = true)
      (ArgsPost P M es A)

/-- The same for a condition. -/
def CondSpec (e : Expr) : Prop :=
  ∀ (A : Layout) (dest : ℕ) (sense : Bool), A.Shaped → A.DestOk dest →
    Runs (genQuadrBoolExpr P e dest sense) A
      (¬(WellTyped (A.types sig) e .boolean ∧ condOk e = true))
      (fun _ => JumpPost P M e dest sense A)

end Specs

end Javalette.Front
