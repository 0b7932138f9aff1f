import Javalette.Quadr.Correct
import Javalette.Tree.Generate

/-!
# Increments of array elements

`check_lvalue` has put the type of the element into `type` of the node when `gen_quadr` comes to
`a[e]++`; `gen_quadr` takes it for the type of the array and reads its `basic_type`.  A `type_t`
has no such field, so the read goes past the end of `struct_type_int` or `struct_type_double`.

What it finds there is a parameter here (`genIncDecElem`), so that the rest of the case can be
looked at as well.  It adds to the variable of the array in place of the temporary one, and writes
back what it has read.
-/

namespace Javalette.Front

open SyntaxTree Layout

variable {P : Platform} {M : Meaning} {A B : Layout} {s : GenState}

/-- The constant that is added or subtracted. -/
def quadrOne (P : Platform) (type : Ty) : Gen Arg :=
  if type = .double then quadrArg P .double (.double 0x3FF0000000000000)
  else quadrArg P .int (.int 1)

/-- `NODE_INC` and `NODE_DEC` of `gen_quadr` for an element of an array, where the read of
`((array_type_t*)lnode->type)->basic_type` yields `basicType`. -/
def genIncDecElem (P : Platform) (op : QuadrOp) (basicType : Option Ty) (ident : String)
    (index : Expr) : Gen Unit :=
  match basicType with
  | some type =>
      if type = .double ∨ type = .int then do
        let tmp ← declareVar type
        let expr ← genQuadrExpr P index
        let var ← declOf ident
        let base ← genGetAddr var
        genReadPtr tmp base expr
        let one ← quadrOne P type
        genBinop op var (.var var) one
        let base ← genGetAddr var
        genWritePtr base expr (.var tmp)
      else throw .abort
  | none => throw .abort

/-- A read of a field that the type does not have is an error. -/
lemma genIncDec_array (P : Platform) (op : QuadrOp) (ident : String) (index : Expr) :
    genIncDec P op (.array ident index) = genIncDecElem P op none ident index := rfl

/-! ## Straight-line code -/

/-- To run quadruples one after the other. -/
def execAll (M : Meaning) (qs : List Quad) (w : World) : Option World :=
  qs.foldlM (fun w q => execPlain M q w) w

/-- A run through quadruples that do not jump executes all of them. -/
lemma Run.execAll {lab : ℕ → ℕ → Prop} {w' : World} : ∀ {qs : List Quad} (pre : List Quad)
    {w : World}, (∀ q ∈ qs, isBlockEnd q.op = false) →
    Run M (pre ++ qs) lab (.at pre.length, w) (.at (pre ++ qs).length, w') →
    execAll M qs w = some w'
  | [], pre, w, _, h => by
    rw [List.append_nil] at h
    exact congrArg some (congrArg Prod.snd (h.eq_of_final final_end))
  | q :: qs, pre, w, hplain, h => by
    rcases Relation.ReflTransGen.cases_head h with heq | ⟨c, hstep, hrest⟩
    · have hpos : pre.length = (pre ++ q :: qs).length := Point.at.inj (congrArg Prod.fst heq)
      simp at hpos
    · cases hstep with
      | quad hq hexec =>
        obtain rfl : q = _ := by simpa using hq
        rw [execQuad_plain (hplain q List.mem_cons_self)] at hexec
        obtain ⟨w₁, hw₁, rfl⟩ := Option.map_eq_some_iff.mp hexec
        have hcode : pre ++ q :: qs = (pre ++ [q]) ++ qs := by simp
        rw [hcode, ← List.length_singleton (a := q), ← List.length_append] at hrest
        have ih := Run.execAll (pre ++ [q]) (fun r hr => hplain r (List.mem_cons_of_mem q hr)) hrest
        show (execPlain M q w).bind _ = _
        rw [hw₁]
        exact ih

/-- What follows a run that has to be taken is the rest of every run to the end. -/
lemma Goes.rest {n : ℕ} {C : Layout} {w w₁ w' : World} (hgo : Goes M n A C w (.at C.code.length) w₁)
    (hext : C.Extends B) (hB : B.Sound)
    (hrun : Run M B.code B.At (.at A.code.length, w) (.at B.code.length, w')) :
    Run M B.code B.At (.at C.code.length, w₁) (.at B.code.length, w') :=
  (hgo.leads B hext hB).rest onePosition_at hrun final_end

/-! ## The code for an element -/

/-- The quadruples after those of the index, with new variables from `n` on. -/
def elemQuads (op : QuadrOp) (tmp var n : ℕ) (expr one : Arg) : List Quad :=
  [⟨.getAddr, .var n, .var var, .none⟩, ⟨.readPtr, .var tmp, .var n, expr⟩,
    ⟨.copy, .var (n + 1), one, .none⟩, ⟨op, .var var, .var var, .var (n + 1)⟩,
    ⟨.getAddr, .var (n + 2), .var var, .none⟩, ⟨.writePtr, .var (n + 2), expr, .var tmp⟩]

/-- A type has the constant one, unless the translation aborts. -/
lemma runs_quadrOne_bind {α : Type} {Q : α → Layout → Prop} {type : Ty} {f : Arg → Gen α}
    (h : ∀ d c, Runs (f (.var A.vars.length)) (A.withConst d c) True Q) :
    Runs (quadrOne P type >>= f) A True Q := by
  unfold quadrOne
  split
  · exact runs_quadrArg_bind (fun d c _ => h d c) fun _ => trivial
  · exact runs_quadrArg_bind (fun d c _ => h d c) fun _ => trivial

/-- Either there is no code, or it is that of the index and `elemQuads`. -/
lemma runs_genIncDecElem (P : Platform) (M : Meaning) (op : QuadrOp) (basicType : Option Ty)
    {x : String} (index : Expr) {a : ℕ} (hA : A.Shaped) (ha : A.decls x = some a) :
    Runs (genIncDecElem P op basicType x index) A True fun _ B =>
      ∃ d C expr one, ExprPost P M index (A.declare d) expr C ∧ C.Extends B ∧
        B.code = C.code ++ elemQuads op A.vars.length a C.vars.length expr one := by
  unfold genIncDecElem
  cases basicType with
  | none => exact runs_abort trivial
  | some type =>
    dsimp only
    split
    · refine runs_declareVar_bind (fun q _ => ?_) fun _ => trivial
      have hspec : ExprSpec P M (fun _ => none) index := expr_spec index
      refine (runs_expr hspec (hA.declare _) (fun _ _ h => h) fun _ => trivial).bind
        fun expr C hC => ?_
      refine runs_declOf_bind (fun a' ha' => ?_) fun _ => trivial
      obtain rfl : a' = a :=
        Option.some.inj (ha'.symm.trans ((congrFun hC.extends'.decls x).trans ha))
      -- the array was declared before the index was computed
      have hlen : a' < C.vars.length := by
        have hdeclared := hC.extends'.vars.length_le
        have hscope := hA.inScope x a' ha
        simp only [Layout.declare, List.length_append, List.length_singleton] at hdeclared
        omega
      refine runs_genGetAddr_bind hlen fun d₁ =>
        runs_emit_bind (runs_quadrOne_bind fun d₂ one => ?_)
      refine runs_emit_bind (runs_genGetAddr_bind ?_ fun d₃ => runs_emit ?_)
      · show a' < (List.length ((C.vars ++ [d₁]) ++ [d₂]))
        simp only [List.length_append]
        omega
      · refine ⟨⟨type, q⟩, C, expr, one, hC, ?_, ?_⟩
        · exact (extends_declare d₁).trans ((extends_emit _).trans ((extends_emit _).trans
            ((extends_withConst d₂ one).trans ((extends_emit _).trans ((extends_declare d₃).trans
              ((extends_emit _).trans (extends_emit _)))))))
        · simp [elemQuads, withAddr, withConst, Layout.declare, Layout.emit, Layout.code,
            Layout.all]
    · exact runs_abort trivial

lemma elemQuads_plain {op : QuadrOp} (hop : op = .add ∨ op = .sub) (tmp var n : ℕ)
    (expr one : Arg) : ∀ q ∈ elemQuads op tmp var n expr one, isBlockEnd q.op = false := by
  simp only [elemQuads, List.forall_mem_cons, List.not_mem_nil, false_imp_iff, implies_true,
    and_true, isBlockEnd, true_and]
  rcases hop with rfl | rfl <;> rfl

/-- An arithmetic quadruple stores a value, or does not run. -/
lemma execPlain_arith {op : QuadrOp} (hop : op = .add ∨ op = .sub) {result : ℕ} {a b : Arg}
    {w w' : World} (h : execPlain M ⟨op, .var result, a, b⟩ w = some w') :
    ∃ z, w' = w.set result z := by
  rcases hop with rfl | rfl
  all_goals
    simp only [execPlain, binopOf, Option.bind_eq_bind, Option.bind_some,
      Option.bind_eq_some_iff, setResult, Option.some.injEq] at h
    obtain ⟨_, -, _, -, z, -, rfl⟩ := h
    exact ⟨z, rfl⟩

lemma readArg_set_self (w : World) (u : ℕ) (x : Value) : readArg (w.set u x) (.var u) = some x :=
  congrArg some (Function.update_self _ _ _)

lemma readArg_set_ne {u u' : ℕ} (h : u ≠ u') {w : World} {x : Value} :
    readArg (w.set u' x) (.var u) = readArg w (.var u) :=
  congrArg some (Function.update_of_ne h _ _)

/-- An element of the array is read. -/
lemma execPlain_readPtr_some {result : ℕ} {a b : Arg} {w w' : World} {var : ℕ}
    (ha : readArg w a = some (.ptr var))
    (h : execPlain M ⟨.readPtr, .var result, a, b⟩ w = some w') :
    ∃ j v, readArg w b = some (.int j) ∧ w.mem var j = some v ∧ w' = w.set result v := by
  simp only [execPlain, ha, Option.bind_eq_bind, Option.bind_some, Option.bind_eq_some_iff,
    setResult, Option.some.injEq] at h
  obtain ⟨y, hy, v, hv, rfl⟩ := h
  cases y with
  | int j => exact ⟨j, v, hy, hv, rfl⟩
  | _ => cases hv

/-- A value is written to one element of the array. -/
lemma execPlain_writePtr {base b c : Arg} {w w' : World} {var : ℕ} {v : Value}
    (ha : readArg w base = some (.ptr var)) (hc : readArg w c = some v)
    (h : execPlain M ⟨.writePtr, base, b, c⟩ w = some w') :
    ∃ j, readArg w b = some (.int j) ∧
      w'.mem = Function.update w.mem var (Function.update (w.mem var) j (some v)) := by
  simp only [execPlain, ha, hc, Option.bind_eq_bind, Option.bind_some,
    Option.bind_eq_some_iff] at h
  obtain ⟨x, hx, h⟩ := h
  cases x with
  | int j =>
    obtain ⟨_, -, rfl⟩ := Option.map_eq_some_iff.mp h
    exact ⟨j, hx, rfl⟩
  | _ => cases h

/-- What has been read from an element is written back to it, unless the operation changes the
index. -/
lemma mem_elemQuads {op : QuadrOp} (hop : op = .add ∨ op = .sub) {tmp var n : ℕ}
    {expr one : Arg} {w w' : World} (htmp : tmp < n) (hne : tmp ≠ var)
    (hexpr : ∀ u, expr = .var u → u < n ∧ u ≠ tmp)
    (h : execAll M (elemQuads op tmp var n expr one) w = some w') :
    ∃ j v j', readArg w expr = some (.int j) ∧ w.mem var j = some v ∧
      (expr ≠ .var var → j' = j) ∧
      w'.mem = Function.update w.mem var (Function.update (w.mem var) j' (some v)) := by
  simp only [execAll, elemQuads, List.foldlM_cons, List.foldlM_nil, Option.bind_eq_bind,
    Option.bind_eq_some_iff] at h
  obtain ⟨w₁, h₁, w₂, h₂, w₃, h₃, w₄, h₄, w₅, h₅, w₆, h₆, hw'⟩ := h
  obtain rfl : w₆ = w' := Option.some.inj hw'
  -- the address is in its variable, and then the element in the temporary one
  obtain rfl : w.set n (.ptr var) = w₁ := Option.some.inj h₁
  obtain ⟨j, v, hj, hv, rfl⟩ := execPlain_readPtr_some (readArg_set_self w n (.ptr var)) h₂
  have hread : readArg w expr = some (.int j) :=
    readArg_congr hj fun u hu => (Function.update_of_ne (Nat.ne_of_lt (hexpr u hu).1) _ _).symm
  -- the operation is on the variable of the array
  have hone : ∃ k, w₃ = ((w.set n (.ptr var)).set tmp v).set (n + 1) k := by
    simp only [execPlain, Option.bind_eq_bind, Option.bind_eq_some_iff, setResult,
      Option.some.injEq] at h₃
    obtain ⟨k, -, rfl⟩ := h₃
    exact ⟨k, rfl⟩
  obtain ⟨k, rfl⟩ := hone
  obtain ⟨z, rfl⟩ := execPlain_arith hop h₄
  obtain rfl := Option.some.inj h₅
  have hvalue : readArg (((((w.set n (.ptr var)).set tmp v).set (n + 1) k).set var z).set (n + 2)
      (.ptr var)) (.var tmp) = some v := by
    rw [readArg_set_ne (by omega), readArg_set_ne hne, readArg_set_ne (by omega)]
    exact readArg_set_self _ _ _
  obtain ⟨j', hj', hmem⟩ := execPlain_writePtr (readArg_set_self _ _ _) hvalue h₆
  refine ⟨j, v, j', hread, hv, fun hvar => ?_, hmem⟩
  have hsame : readArg (((((w.set n (.ptr var)).set tmp v).set (n + 1) k).set var z).set (n + 2)
      (.ptr var)) expr = some (.int j) := by
    refine readArg_congr hread fun u hu => ?_
    obtain ⟨hlt, htmp'⟩ := hexpr u hu
    have hvar' : u ≠ var := fun heq => hvar (heq ▸ hu)
    simp only [World.set, Function.update_apply]
    rw [if_neg (by omega), if_neg hvar', if_neg (by omega), if_neg htmp', if_neg (by omega)]
  exact Value.int.inj (Option.some.inj (hj'.symm.trans hsame))

/-- An identifier is computed as it stands. -/
lemma evalExpr_lower_of_identOf {R : Reading} {x : String} {tr : List Call} :
    ∀ {e : Expr}, identOf e = some x → evalExpr M R (lower P e) tr = evalExpr M R e tr
  | .ident _, _ => by rw [lower]
  | .plus _ e, h => by
    rw [identOf] at h
    simp only [lower, evalExpr]
    exact evalExpr_lower_of_identOf h

/-! ## What the increment does -/

/-- The element `i` of the array `a` has been changed by `d` and nothing else that a program can
see, with the calls `tr` made by now. -/
structure ElemChanged (A : Layout) (a : ℕ) (i d : BitVec 32) (v : BitVec 32) (tr : List Call)
    (w w' : World) : Prop where
  mem : w'.mem = Function.update w.mem a (Function.update (w.mem a) i (some (.int (v + d))))
  env : ∀ x < A.vars.length, w'.env x = w.env x
  trace : w'.trace = tr

/-- What `x[index]++` or `x[index]--` is to do from a world in which the index is `i`, the element
is `v`, and the calls of the index lead to `tr`. -/
def ElemStep (P : Platform) (M : Meaning) (op : QuadrOp) (basicType : Option Ty) (x : String)
    (index : Expr) (A : Layout) (s : GenState) (a : ℕ) (i v : BitVec 32) (tr : List Call)
    (w : World) : Prop :=
  ∃ s' B w', genIncDecElem P op basicType x index s = .ok ((), s') ∧ Rep s' B ∧
    Leads M A B w (.at B.code.length) w' ∧
    ElemChanged A a i (if op = .add then 1 else -1) v tr w w'

/-- The element is what it was wherever the code runs to its end. -/
lemma elem_unchanged {op : QuadrOp} (hop : op = .add ∨ op = .sub) {basicType : Option Ty}
    {x : String} {index : Expr} {a : ℕ} (hs : Rep s A) (hA : A.Shaped) (ha : A.decls x = some a)
    {w w' : World} {i : BitVec 32} {v : Value} {tr : List Call} (hw : w.params = [])
    (hindex : evalExpr M (A.reading w) index w.trace = some (.int i, tr))
    (helem : w.mem a i = some v) {s' : GenState} (hB : Rep s' B)
    (hrun : genIncDecElem P op basicType x index s = .ok ((), s'))
    (hleads : Leads M A B w (.at B.code.length) w') : w'.mem a i = some v := by
  have hspec := runs_genIncDecElem P M op basicType index hA ha s hs
  rw [hrun] at hspec
  obtain ⟨B', hB', d, C, expr, one, hC, hext, hcode⟩ := hspec
  obtain rfl := hB.unique hB'
  have hto := hleads B (Extends.refl B) hB.sound
  have hdelivers := hC.meaning 0 w (Nat.zero_le _) hw
  rcases ho : evalExpr M ((A.declare d).reading w) (lower P index) w.trace with _ | ⟨y, tr'⟩
  · -- code that gets stuck does not run to the end
    rw [ho] at hdelivers
    refine (Stuck.not_run (A := A.declare d) (Stuck.extend hdelivers hext) hB.sound
      (hto.mono List.prefix_rfl fun _ _ hl => ⟨hl, Nat.zero_le _⟩) final_end
        fun pos hpos heq => ?_).elim
    exact Nat.ne_of_gt hpos (Point.at.inj heq)
  rw [ho] at hdelivers
  obtain ⟨w₁, hafter, hgo, hread⟩ := hdelivers
  -- what follows the index runs to the end
  have hrest := Goes.rest (A := A.declare d) hgo hext hB.sound hto
  rw [hcode] at hrest
  have hexec := Run.execAll C.code (elemQuads_plain hop _ _ _ _ _) hrest
  have hscope := hA.inScope x a ha
  have hlen : A.vars.length < C.vars.length := by
    have hdeclared := hC.extends'.vars.length_le
    simp only [Layout.declare, List.length_append, List.length_singleton] at hdeclared
    omega
  have hnew : ∀ u, expr = .var u → A.vars.length < u ∨ ∃ y, identOf index = some y ∧
      A.decls y = some u := fun u hu => by
    have hnew := hC.arg_new u hu
    simp only [Layout.declare, List.length_append, List.length_singleton] at hnew
    exact hnew
  obtain ⟨j, v', j', hj, hv', hsame, hmem⟩ := mem_elemQuads hop hlen (Nat.ne_of_gt hscope)
    (fun u hu => ⟨hC.arg_lt u hu, fun heq => by
      rcases hnew u hu with hlt | ⟨y, -, hy⟩
      · omega
      · have := hA.inScope y u hy
        omega⟩) hexec
  have hmem₁ : w₁.mem = w.mem := hafter.mem
  rw [hmem₁] at hmem hv'
  rw [hmem, Function.update_self]
  by_cases hvar : expr = .var a
  · -- the index is an identifier, which has been computed as it should be
    obtain ⟨y', hy', -⟩ := (hnew a hvar).resolve_left (by omega)
    rw [evalExpr_lower_of_identOf hy'] at ho
    obtain ⟨rfl, -⟩ : Value.int i = y ∧ tr = tr' := by
      simpa using hindex.symm.trans ho
    obtain rfl : i = j := by simpa using hread.symm.trans hj
    rw [Function.update_apply]
    split
    · exact hv'.symm.trans helem
    · exact helem
  · obtain rfl := hsame hvar
    rw [← hv', Function.update_eq_self]
    exact helem

/-- A step changes the value. -/
lemma ElemChanged.ne {op : QuadrOp} {a : ℕ} {i v : BitVec 32} {tr : List Call} {w w' : World}
    (h : ElemChanged A a i (if op = .add then 1 else -1) v tr w w') :
    w'.mem a i ≠ some (.int v) := by
  rw [h.mem, Function.update_self, Function.update_self, Ne, Option.some.injEq, Value.int.injEq]
  split <;> simp

/-- No increment and no decrement of an element does what it says, for whatever the read past the
end of the type may yield. -/
theorem genIncDec_elem_never {op : QuadrOp} (hop : op = .add ∨ op = .sub) (basicType : Option Ty)
    {x : String} {index : Expr} {a : ℕ} (hs : Rep s A) (hA : A.Shaped) (ha : A.decls x = some a)
    {w : World} {i v : BitVec 32} {tr : List Call} (hw : w.params = [])
    (hindex : evalExpr M (A.reading w) index w.trace = some (.int i, tr))
    (helem : w.mem a i = some (.int v)) :
    ¬ElemStep P M op basicType x index A s a i v tr w := by
  rintro ⟨s', B, w', hrun, hB, hleads, hchanged⟩
  exact hchanged.ne (elem_unchanged hop hs hA ha hw hindex helem hB hrun hleads)

/-- A function with the array `x` of one `int`. -/
abbrev oneElement : GenState := oneVariable (.array .int 1) .array

/-- The layout of a function with the array `x`. -/
abbrev oneElementLayout : Layout := oneVariableLayout (.array .int 1) .array

/-- The element of the array is `5`. -/
def fiveAtZero : World :=
  ⟨fun _ => .int 0, fun a i => if a = 0 ∧ i = 0 then some (.int 5) else none, [], []⟩

/-- Not even if the type of the element is found does `x[0]--` do what it says. -/
theorem genIncDec_elem_never_first :
    ¬ElemStep zeroPlatform zeroMeaning .sub (some .int) "x" (.int 0) oneElementLayout
      oneElement 0 0 5 [] fiveAtZero :=
  genIncDec_elem_never (Or.inr rfl) (some .int) (rep_oneVariable _ _) (shaped_oneVariable _ _) rfl
    rfl (by simp [evalExpr, fiveAtZero]) (by simp [fiveAtZero])

/-- For `x[0]++` there is no code at all, and if the type of the element is found, then the code
leaves the element as it is. -/
theorem genIncDec_elem_fails :
    genIncDec zeroPlatform .add (.array "x" (.int 0)) oneElement = .error .abort ∧
    (genIncDecElem zeroPlatform .add (some .int) "x" (.int 0) oneElement).toBool ∧
    ¬ElemStep zeroPlatform zeroMeaning .add none "x" (.int 0) oneElementLayout
      oneElement 0 0 5 [] fiveAtZero ∧
    ¬ElemStep zeroPlatform zeroMeaning .add (some .int) "x" (.int 0) oneElementLayout
      oneElement 0 0 5 [] fiveAtZero := by
  have hnever : ∀ type, ¬ElemStep zeroPlatform zeroMeaning .add type "x" (.int 0)
      oneElementLayout oneElement 0 0 5 [] fiveAtZero := by
    rintro type ⟨s', B, w', hrun, hB, hleads, hchanged⟩
    have hindex : evalExpr zeroMeaning (oneElementLayout.reading fiveAtZero) (.int 0) [] =
        some (.int 0, []) := by simp [evalExpr]
    exact hchanged.ne (elem_unchanged (Or.inl rfl) (rep_oneVariable _ _) (shaped_oneVariable _ _)
      rfl rfl hindex (by simp [fiveAtZero]) hB hrun hleads)
  exact ⟨rfl, by decide +kernel, hnever none, hnever (some .int)⟩

end Javalette.Front
