import Javalette.Quadr.Correct
import Javalette.Tree.Generate

/-!
# The block structure of functions

What the code generator assumes of the blocks of a function: only the last quadruple of a block is
a jump or a return, a block that ends in a conditional jump is followed by another one, and no
block is the target of two jumps.

The first two always hold.  The third fails for loops: their condition jumps back to the first
block of the body, which is in the list by then and is referred to as often as the condition has
jumps there.  And if the body does not begin with a quadruple, that block has been freed, so that
the condition follows a dangling pointer.
-/

namespace Javalette.Front

open SyntaxTree Layout

variable {P : Platform} {A B C D : Layout} {α β : Type}

/-! ## What is asked of a function -/

/-- The block structure of the function in memory. -/
def BlockStructure (s : GenState) : Prop :=
  ∃ bs, Chain s.heap (some s.blocks) bs none ∧
    (∀ b ∈ bs, ∀ q ∈ b.lst.dropLast, isBlockEnd q.op = false) ∧
    (∀ xs b ys, bs = xs ++ b :: ys → endsInIf b.lst = true → ys ≠ []) ∧
    ∀ l, (targets (codeOf bs)).count l ≤ 1

mutual

/-- How a block fares that is current and empty when an instruction is translated. -/
def startsInstr : Instr → Start
  | .empty => .nothing
  | .expr expr => startsExpr expr
  | .block instrs => startsInstrs instrs
  | .declaration _ decls => startsDecls decls
  | .assign (.ident _) expr => (startsExpr expr).then .quad
  | .assign (.array _ index) expr => ((startsExpr expr).then (startsExpr index)).then .quad
  | .inc _ | .dec _ => .quad
  | .ifThen cond _ | .ifElse cond _ _ => (startsCond cond false).then .block
  | .whileDo _ _ => .quad
  | .forDo instr1 _ _ _ => (startsInstr instr1).then .quad
  | .ret none => .quad
  | .ret (some expr) => (startsExpr expr).then .quad

/-- The same for the instructions of a block. -/
def startsInstrs : List Instr → Start
  | [] => .nothing
  | instr :: instrs => (startsInstr instr).then (startsInstrs instrs)

/-- The same for declarators. -/
def startsDecls : List Declarator → Start
  | [] => .nothing
  | .var _ (some init) :: decls => ((startsExpr init).then .quad).then (startsDecls decls)
  | _ :: decls => startsDecls decls

end

mutual

/-- A condition refers to the body of its loop only if that begins with a quadruple. -/
def entersOk : Instr → Bool
  | .block instrs => entersAllOk instrs
  | .ifThen _ thenInstr => entersOk thenInstr
  | .ifElse _ thenInstr elseInstr => entersOk thenInstr && entersOk elseInstr
  | .whileDo cond body => entersOk body && (refs cond true = 0 || startsInstr body = .quad)
  | .forDo instr1 cond instr3 body =>
      entersOk instr1 && entersOk body && entersOk instr3 &&
        (refs cond true = 0 || (startsInstr body).then (startsInstr instr3) = .quad)
  | _ => true

/-- The same for the instructions of a block. -/
def entersAllOk : List Instr → Bool
  | [] => true
  | instr :: instrs => entersOk instr && entersAllOk instrs

end

mutual

/-- The condition of each loop has at most one jump back. -/
def targetsOk : Instr → Bool
  | .block instrs => targetsAllOk instrs
  | .ifThen _ thenInstr => targetsOk thenInstr
  | .ifElse _ thenInstr elseInstr => targetsOk thenInstr && targetsOk elseInstr
  | .whileDo cond body => targetsOk body && refs cond true ≤ 1
  | .forDo instr1 cond instr3 body =>
      targetsOk instr1 && targetsOk body && targetsOk instr3 && refs cond true ≤ 1
  | _ => true

/-- The same for the instructions of a block. -/
def targetsAllOk : List Instr → Bool
  | [] => true
  | instr :: instrs => targetsOk instr && targetsAllOk instrs

end

/-! ## Triples with dangling pointers -/

/-- From any state with the layout `A`, the computation ends with a result and a layout that
satisfy `Q`, unless it aborts, or follows a dangling pointer, which it does only if `dangles`
holds. -/
def Emits (m : Gen α) (A : Layout) (dangles : Prop) (Q : α → Layout → Prop) : Prop :=
  ∀ s, Rep s A →
    match m s with
    | .ok (a, s') => ∃ A', Rep s' A' ∧ Q a A'
    | .error .abort => True
    | .error .dangling => dangles
    | .error .diverges => False

section Triples

variable {dangles : Prop} {Q : α → Layout → Prop}

lemma emits_pure {a : α} (h : Q a A) : Emits (pure a : Gen α) A dangles Q :=
  fun _ hs => ⟨A, hs, h⟩

lemma emits_abort : Emits (throw .abort : Gen α) A dangles Q := fun _ _ => trivial

lemma Runs.emits {m : Gen α} {abort : Prop} (h : Runs m A abort Q) : Emits m A dangles Q := by
  intro s hs
  have h := h s hs
  cases hr : m s with
  | ok p =>
    rw [hr] at h
    exact h
  | error err =>
    rw [hr] at h
    cases err with
    | abort => trivial
    | _ => exact h.elim

lemma Emits.bind {m : Gen β} {f : β → Gen α} {R : β → Layout → Prop}
    (hm : Emits m A dangles R) (hf : ∀ b A', R b A' → Emits (f b) A' dangles Q) :
    Emits (m >>= f) A dangles Q := by
  intro s hs
  have h := hm s hs
  show match (m s).bind (fun p => f p.1 p.2) with
    | .ok (a, s') => ∃ A', Rep s' A' ∧ Q a A'
    | .error .abort => True
    | .error .dangling => dangles
    | .error .diverges => False
  cases hr : m s with
  | ok p =>
    rw [hr] at h
    obtain ⟨A', hA', hR⟩ := h
    exact hf _ _ hR _ hA'
  | error e =>
    rw [hr] at h
    cases e <;> exact h

lemma Emits.mono {m : Gen α} {dangles' : Prop} {Q' : α → Layout → Prop}
    (h : Emits m A dangles Q) (hd : dangles → dangles') (hQ : ∀ a A', Q a A' → Q' a A') :
    Emits m A dangles' Q' := by
  intro s hs
  have h := h s hs
  cases hr : m s with
  | ok p =>
    rw [hr] at h
    obtain ⟨A', hA', hR⟩ := h
    exact ⟨A', hA', hQ _ _ hR⟩
  | error e =>
    rw [hr] at h
    cases e <;> first | exact hd h | exact h

lemma emits_of_sound {m : Gen α} (h : A.Sound → Emits m A dangles Q) : Emits m A dangles Q :=
  fun s hs => h hs.sound s hs

/-- A freed block cannot be referred to. -/
lemma emits_dangling {dest : ℕ} {f : Arg → Gen α} (h : A.Gone dest) :
    Emits (quadrArgLabel dest >>= f) A True (fun _ _ => False) := by
  intro s hs
  show match (quadrArgLabel dest s).bind (fun p => f p.1 p.2) with
    | .ok (a, s') => ∃ A', Rep s' A' ∧ False
    | .error .abort => True
    | .error .dangling => True
    | .error .diverges => False
  rw [quadrArgLabel_dangling hs h.2]
  trivial

end Triples

/-! ## Conditions whose destination has been freed -/

/-- A condition that does not refer to its destination emits nothing. -/
lemma genQuadrBoolExpr_of_refs_eq_zero {dest : ℕ} : ∀ (e : Expr) {sense : Bool},
    refs e sense = 0 →
      genQuadrBoolExpr P e dest sense = pure () ∨ genQuadrBoolExpr P e dest sense = throw .abort
  | .cmp _ _ _, _, h | .ident _, _, h | .call _ _ _, _, h => by simp [refs] at h
  | .bool value, sense, h => by
    -- a literal that does not hold emits nothing at all
    have hne : value ≠ sense := fun heq => by simp [refs, heq] at h
    rw [genQuadrBoolExpr, if_neg hne]
    exact Or.inl rfl
  | .not e, sense, h => by
    rw [genQuadrBoolExpr]
    exact genQuadrBoolExpr_of_refs_eq_zero e (by simpa only [refs] using h)
  | .and l r, sense, h => by
    cases sense with
    | true => simp [refs] at h
    | false =>
      simp only [refs, Bool.false_eq_true, if_false, Nat.add_eq_zero_iff] at h
      rw [genQuadrBoolExpr, if_neg (by simp)]
      rcases genQuadrBoolExpr_of_refs_eq_zero l h.1 with hl | hl <;> rw [hl]
      · rw [pure_bind]
        exact genQuadrBoolExpr_of_refs_eq_zero r h.2
      · exact Or.inr rfl
  | .or l r, sense, h => by
    cases sense with
    | false => simp [refs] at h
    | true =>
      simp only [refs, if_true, Nat.add_eq_zero_iff] at h
      rw [genQuadrBoolExpr, if_pos rfl]
      rcases genQuadrBoolExpr_of_refs_eq_zero l h.1 with hl | hl <;> rw [hl]
      · rw [pure_bind]
        exact genQuadrBoolExpr_of_refs_eq_zero r h.2
      · exact Or.inr rfl
  | .int _, _, _ | .double _, _, _ | .str _, _, _ | .array _ _, _, _ | .binop _ _ _ _, _, _
  | .neg _ _, _, _ | .plus _ _, _, _ => by
    unfold genQuadrBoolExpr
    exact Or.inr rfl

lemma emits_cond {e : Expr} {dest : ℕ} {sense : Bool} {dangles : Prop} (hA : A.Shaped)
    (hdest : A.DestOk dest) :
    Emits (genQuadrBoolExpr P e dest sense) A dangles
      (fun _ => JumpPost P zeroMeaning e dest sense A) := by
  have h : CondSpec P zeroMeaning (fun _ => none) e := cond_spec e
  exact (h A dest sense hA hdest).emits

/-- A condition that leads to a jump to its destination. -/
lemma emits_over {l r : Expr} {dest : ℕ} (sense : Bool) (hA : A.Shaped) (hdest : A.Gone dest) :
    Emits (newBasicBlock >>= fun last => genQuadrBoolExpr P l last sense >>= fun _ =>
        genQuadrBoolExpr P r last sense >>= fun _ => genGoto dest >>= fun _ => addBasicBlocks last)
      A True (fun _ _ => False) := by
  have hnew : Runs newBasicBlock A False (fun last B => B = A.newLabel ∧ last = A.next) :=
    runs_newBasicBlock ⟨rfl, rfl⟩
  refine hnew.emits.bind ?_
  rintro _ _ ⟨rfl, rfl⟩
  have hlast : A.newLabel.pend A.next = some A.newChain := pend_newLabel
  refine (emits_cond hA.newLabel (Or.inl ⟨_, hlast⟩)).bind fun _ B hl => ?_
  obtain ⟨δ, -, href⟩ := hl.code
  obtain ⟨ch, hch, -⟩ := href.pending _ hlast
  refine (emits_cond hl.shaped (Or.inl ⟨_, hch⟩)).bind fun _ C hr => ?_
  have hgone : C.Gone dest :=
    hr.extends'.gone _ (hl.extends'.gone _ (extends_newLabel.gone _ hdest))
  exact Emits.bind (emits_dangling hgone) fun _ _ h => h.elim

/-- A condition that refers to its destination cannot do so when that has been freed. -/
lemma emits_cond_dangling {dest : ℕ} : ∀ (e : Expr) {sense : Bool} {A : Layout},
    refs e sense ≠ 0 → A.Shaped → A.Gone dest →
      Emits (genQuadrBoolExpr P e dest sense) A True (fun _ _ => False)
  | .cmp op l r, _, _, _, _, hdest => by
    rw [genQuadrBoolExpr]
    exact emits_dangling hdest
  | .call type func es, _, _, _, _, hdest => by
    rw [genQuadrBoolExpr]
    exact emits_dangling hdest
  | .ident x, _, A, _, _, hdest => by
    have hdecl : Runs (declOf x) A True (fun _ B => B = A) :=
      runs_declOf (fun _ _ => rfl) fun _ => trivial
    rw [genQuadrBoolExpr]
    refine hdecl.emits.bind ?_
    rintro _ _ rfl
    exact emits_dangling hdest
  | .bool value, sense, _, h, _, hdest => by
    -- a literal of the other value emits no jump, and then the label is not referred to
    have hvalue : value = sense := by
      by_contra hne
      exact h (by simp [refs, hne])
    rw [genQuadrBoolExpr, if_pos hvalue]
    exact emits_dangling hdest
  | .not e, sense, _, h, hA, hdest => by
    rw [genQuadrBoolExpr]
    exact emits_cond_dangling e (by simpa only [refs] using h) hA hdest
  | .and l r, sense, A, h, hA, hdest => by
    rw [genQuadrBoolExpr]
    cases sense with
    | true =>
      rw [if_pos rfl]
      exact emits_over false hA hdest
    | false =>
      rw [if_neg (by simp)]
      -- the first jump to the freed label stops the run; it is in `l` unless `l` has none
      by_cases hl : refs l false = 0
      · have hr : refs r false ≠ 0 := by simpa [refs, hl] using h
        rcases genQuadrBoolExpr_of_refs_eq_zero l hl with hgen | hgen <;> rw [hgen]
        · rw [pure_bind]
          exact emits_cond_dangling r hr hA hdest
        · exact emits_abort
      · exact Emits.bind (emits_cond_dangling l hl hA hdest) fun _ _ h => h.elim
  | .or l r, sense, A, h, hA, hdest => by
    rw [genQuadrBoolExpr]
    cases sense with
    | false =>
      rw [if_neg (by simp)]
      exact emits_over true hA hdest
    | true =>
      rw [if_pos rfl]
      by_cases hl : refs l true = 0
      · have hr : refs r true ≠ 0 := by simpa [refs, hl] using h
        rcases genQuadrBoolExpr_of_refs_eq_zero l hl with hgen | hgen <;> rw [hgen]
        · rw [pure_bind]
          exact emits_cond_dangling r hr hA hdest
        · exact emits_abort
      · exact Emits.bind (emits_cond_dangling l hl hA hdest) fun _ _ h => h.elim
  | .int _, _, _, h, _, _ | .double _, _, _, h, _, _ | .str _, _, _, h, _, _
  | .array _ _, _, _, h, _, _ | .binop _ _ _ _, _, _, h, _, _ | .neg _ _, _, _, h, _, _
  | .plus _ _, _, _, h, _, _ => absurd (by simp only [refs]) h

/-! ## What an instruction does to the block list -/

namespace Layout

/-- The layout with other identifiers in scope. -/
def bound (A : Layout) (decls : String → Option ℕ) : Layout := { A with decls := decls }

/-- What has been emitted stays; the identifiers in scope may change. -/
def Prolongs (A B : Layout) : Prop := A.Extends (B.bound A.decls)

lemma Extends.bound (h : A.Extends B) (decls : String → Option ℕ) :
    (A.bound decls).Extends (B.bound decls) :=
  ⟨h.code, h.settled, h.holds, h.gone, h.next, h.vars, rfl⟩

lemma Extends.prolongs (h : A.Extends B) : A.Prolongs B :=
  ⟨h.code, h.settled, h.holds, h.gone, h.next, h.vars, rfl⟩

lemma Prolongs.trans (h₁ : A.Prolongs B) (h₂ : B.Prolongs C) : A.Prolongs C :=
  Extends.trans h₁ (Extends.bound h₂ A.decls)

lemma prolongs_bound (decls : String → Option ℕ) : A.Prolongs (A.bound decls) := Extends.refl A

lemma Opens.thenProlongs {x y : Start} (h₁ : Opens A B x) (h₂ : Opens B C y) (h : B.Prolongs C) :
    Opens A C (x.then y) :=
  Opens.then (C := C.bound B.decls) h₁ h₂ h

/-- The new code refers to new blocks only, and to none of them twice exactly if `ok` holds. -/
structure NewTargets (ok : Prop) (A B : Layout) (δ : List Quad) : Prop where
  fresh : ∀ t ∈ targets δ, A.next ≤ t ∧ t < B.next
  nodup : (targets δ).Nodup ↔ ok

lemma FreshTargets.newTargets {δ : List Quad} (h : FreshTargets A B δ) : NewTargets True A B δ :=
  ⟨h.fresh, iff_true_intro h.nodup⟩

lemma NewTargets.trans {p q : Prop} {δ ε : List Quad} (h₁ : NewTargets p A B δ)
    (h₂ : NewTargets q B C ε) (hAB : A.next ≤ B.next) (hBC : B.next ≤ C.next) :
    NewTargets (p ∧ q) A C (δ ++ ε) := by
  refine ⟨fun t ht => ?_, ?_⟩
  · rw [targets_append] at ht
    rcases List.mem_append.mp ht with ht | ht
    · have := h₁.fresh t ht
      omega
    · have := h₂.fresh t ht
      omega
  · rw [targets_append, List.nodup_append, h₁.nodup, h₂.nodup]
    refine ⟨fun h => ⟨h.1, h.2.1⟩, fun h => ⟨h.1, h.2, fun t ht t' ht' htt => ?_⟩⟩
    have := h₁.fresh t ht
    have := h₂.fresh t' ht'
    omega

lemma NewTargets.mono {p q : Prop} {δ : List Quad} (h : NewTargets p A B δ) (hpq : p ↔ q)
    {A' B' : Layout} (hA : A'.next ≤ A.next) (hB : B.next ≤ B'.next) : NewTargets q A' B' δ := by
  refine ⟨fun t ht => ?_, h.nodup.trans hpq⟩
  have := h.fresh t ht
  omega

end Layout

/-- What holds after the translation of an instruction, or of several. -/
structure Grown (ok : Prop) (x : Start) (A B : Layout) : Prop where
  prolongs : A.Prolongs B
  shaped : B.Shaped
  pend : B.pend = A.pend
  code : ∃ δ, B.code = A.code ++ δ ∧ NewTargets ok A B δ
  opens : Opens A B x

namespace Grown

variable {p q : Prop} {x y : Start}

lemma refl (hA : A.Shaped) : Grown True .nothing A A :=
  ⟨(Extends.refl A).prolongs, hA, rfl,
    ⟨[], (List.append_nil _).symm, FreshTargets.nil.newTargets⟩, rfl⟩

lemma trans (h₁ : Grown p x A B) (h₂ : Grown q y B C) : Grown (p ∧ q) (x.then y) A C := by
  obtain ⟨δ, hδ, ht⟩ := h₁.code
  obtain ⟨ε, hε, ht'⟩ := h₂.code
  exact ⟨h₁.prolongs.trans h₂.prolongs, h₂.shaped, h₂.pend.trans h₁.pend,
    ⟨δ ++ ε, by rw [hε, hδ, List.append_assoc], ht.trans ht' h₁.prolongs.next h₂.prolongs.next⟩,
    h₁.opens.thenProlongs h₂.opens h₂.prolongs⟩

lemma mono (h : Grown p x A B) (hpq : p ↔ q) (hxy : x = y) : Grown q y A B := by
  obtain ⟨δ, hδ, ht⟩ := h.code
  exact ⟨h.prolongs, h.shaped, h.pend, ⟨δ, hδ, ht.mono hpq (Nat.le_refl _) (Nat.le_refl _)⟩,
    hxy ▸ h.opens⟩

/-- Other identifiers in scope make no difference. -/
lemma bound (h : Grown p x A B) {decls : String → Option ℕ}
    (hdecls : ∀ ident v, decls ident = some v → v < B.vars.length) :
    Grown p x A (B.bound decls) := by
  obtain ⟨δ, hδ, ht⟩ := h.code
  exact ⟨h.prolongs, ⟨⟨h.shaped.closed, h.shaped.params, hdecls⟩, h.shaped.plain⟩, h.pend,
    ⟨δ, hδ, ht.fresh, ht.nodup⟩, h.opens⟩

end Grown

lemma Computes.grown {x : Start} (h : Computes A B x) : Grown True x A B := by
  obtain ⟨δ, hδ, hfresh⟩ := h.code
  exact ⟨h.extends'.prolongs, h.shaped, h.pend, ⟨δ, hδ, hfresh.newTargets⟩, h.opens⟩

lemma grown_declare (hA : A.Shaped) (d : VarDecl) : Grown True .nothing A (A.declare d) :=
  Computes.grown ⟨extends_declare d, hA.declare d, rfl,
    ⟨[], (List.append_nil _).symm, FreshTargets.nil⟩, rfl⟩

lemma grown_emit (hA : A.Shaped) {q : Quad} (hq : isBlockEnd q.op = false)
    (hparam : q.op ≠ .param) : Grown True .quad A (A.emit q) :=
  Computes.grown ⟨extends_emit q, hA.emit hq hparam, rfl,
    ⟨[q], code_emit q, FreshTargets.single hq⟩, opens_emit q⟩

section Steps

variable {dangles : Prop} {p q : Prop} {x y : Start}

/-- One after the other. -/
lemma grow_bind {m : Gen β} {f : β → Gen α} (hm : Emits m A dangles (fun _ B => Grown p x A B))
    (hf : ∀ b B, Grown p x A B → Emits (f b) B dangles (fun _ C => Grown q y B C)) :
    Emits (m >>= f) A dangles (fun _ C => Grown (p ∧ q) (x.then y) A C) :=
  hm.bind fun b B h => (hf b B h).mono id fun _ _ h' => h.trans h'

/-- What is translated first emits nothing and has no loops. -/
lemma grow_after {m : Gen β} {f : β → Gen α}
    (hm : Emits m A dangles (fun _ B => Grown True .nothing A B))
    (hf : ∀ b B, Grown True .nothing A B → Emits (f b) B dangles (fun _ C => Grown q y B C)) :
    Emits (m >>= f) A dangles (fun _ C => Grown q y A C) :=
  (grow_bind hm hf).mono id fun _ _ h => h.mono (by simp) rfl

lemma grow_expr (hA : A.Shaped) (e : Expr) :
    Emits (genQuadrExpr P e) A dangles (fun _ B => Grown True (startsExpr e) A B) := by
  have h : ExprSpec P zeroMeaning (fun _ => none) e := expr_spec e
  refine (h A hA).emits.mono id fun a B h => ?_
  exact Computes.grown ⟨h.extends', h.shaped, h.pend, h.code, h.opens⟩

lemma grow_emit (hA : A.Shaped) {q : Quad} (hq : isBlockEnd q.op = false)
    (hparam : q.op ≠ .param) : Emits (emit q) A dangles (fun _ B => Grown True .quad A B) := by
  have h : Runs (emit q) A False (fun _ B => Grown True .quad A B) :=
    runs_emit (grown_emit hA hq hparam)
  exact h.emits

lemma emits_declareVar (hA : A.Shaped) (type : Ty) :
    Emits (declareVar type) A dangles
      (fun v B => Grown True .nothing A B ∧ v < B.vars.length) := by
  have h : Runs (declareVar type) A True (fun v B => Grown True .nothing A B ∧ v < B.vars.length) :=
    runs_declareVar (fun q _ => ⟨grown_declare hA _, by simp [Layout.declare]⟩) fun _ => trivial
  exact h.emits

lemma grow_declareVar (hA : A.Shaped) (type : Ty) :
    Emits (declareVar type) A dangles (fun _ B => Grown True .nothing A B) :=
  (emits_declareVar hA type).mono id fun _ _ h => h.1

/-- An identifier for a variable of the function. -/
lemma grow_bindIdent (hA : A.Shaped) {ident : String} {v : ℕ} (hv : v < A.vars.length) :
    Emits (bindIdent ident v) A dangles (fun _ B => Grown True .nothing A B) := by
  intro s hs
  have hdecls := hs.decls
  refine ⟨A.bound (Function.update A.decls ident (some v)), ?_, ?_⟩
  · rw [← hdecls]
    exact ⟨⟨hs.list, hs.cur, hs.prev, hs.label, hs.next, hs.vars, rfl, hs.sound.of_ids rfl rfl rfl⟩,
      hs.tight⟩
  · refine (Grown.refl hA).bound fun y u hu => ?_
    rcases eq_or_ne y ident with rfl | hne
    · obtain rfl : v = u := by simpa using hu
      exact hv
    · exact hA.inScope y u (by simpa [hne] using hu)

/-- The end of a block restores the identifiers. -/
lemma emits_inScope {m : Gen α} {Q : α → Prop} (hA : A.Shaped)
    (hm : Emits m A dangles (fun a B => Q a ∧ Grown p x A B)) :
    Emits (inScope m) A dangles (fun a B => Q a ∧ Grown p x A B) := by
  intro s hs
  have h := hm s hs
  have hrun : inScope m s =
      (m s).bind fun r => .ok (r.1, { r.2 with decls := s.decls }) := rfl
  rw [hrun]
  cases hr : m s with
  | ok r =>
    rw [hr] at h
    obtain ⟨B, hB, hQ, hgrown⟩ := h
    refine ⟨B.bound A.decls, ?_, hQ, hgrown.bound fun y u hu => ?_⟩
    · rw [hs.decls]
      exact ⟨⟨hB.list, hB.cur, hB.prev, hB.label, hB.next, hB.vars, rfl,
        hB.sound.of_ids rfl rfl rfl⟩, hB.tight⟩
    · exact Nat.lt_of_lt_of_le (hA.inScope y u hu) hgrown.prolongs.vars.length_le
  | error err =>
    rw [hr] at h
    exact h

end Steps

/-! ## Instructions without conditions -/

section Plain

variable {dangles : Prop}

lemma grow_genDeclarator (hA : A.Shaped) (type : Ty) (decl : Declarator) :
    Emits (genDeclarator P type decl) A dangles
      (fun _ B => Grown True (startsDecls [decl]) A B) := by
  cases decl with
  | array ident n =>
    refine (emits_declareVar hA _).bind fun v B h => ?_
    refine (grow_bindIdent h.1.shaped h.2).mono id fun _ C h' => ?_
    exact (h.1.trans h').mono (by simp) (by simp only [startsDecls]; rfl)
  | var ident init =>
    cases init with
    | none =>
      refine (emits_declareVar hA _).bind fun v B h => ?_
      refine (grow_bindIdent h.1.shaped h.2).mono id fun _ C h' => ?_
      exact (h.1.trans h').mono (by simp) (by simp only [startsDecls]; rfl)
    | some e =>
      have hcopy : ∀ (v₀ : ℕ) (B : Layout), B.Shaped →
          Emits (declareVar type >>= fun var => bindIdent ident var >>= fun _ =>
            genCopy var (.var v₀)) B dangles (fun _ C => Grown True .quad B C) := by
        intro v₀ B hB
        refine (emits_declareVar hB type).bind fun v C h => ?_
        refine (grow_bindIdent h.1.shaped h.2).bind fun _ D h' => ?_
        refine (grow_emit h'.shaped rfl (by simp)).mono id fun _ E h'' => ?_
        exact ((h.1.trans h').trans h'').mono (by simp) rfl
      refine (grow_after (grow_declareVar hA type) fun v₀ B h₀ => grow_bind
        (grow_expr h₀.shaped e) fun value C h₁ => grow_bind (grow_emit h₁.shaped rfl (by simp))
          fun _ D h₂ => hcopy v₀ D h₂.shaped).mono id fun _ D h => ?_
      refine h.mono (by simp) ?_
      simp only [startsDecls]
      cases startsExpr e <;> rfl

lemma grow_genDeclarators (type : Ty) : ∀ (decls : List Declarator) {A : Layout}, A.Shaped →
    Emits (genDeclarators P type decls) A dangles
      (fun _ B => Grown True (startsDecls decls) A B)
  | [], A, hA => emits_pure (by simpa only [startsDecls] using Grown.refl hA)
  | decl :: decls, A, hA => by
    refine (grow_bind (grow_genDeclarator hA type decl) fun _ B h =>
      grow_genDeclarators type decls h.shaped).mono id fun _ C h => h.mono (by simp) ?_
    cases decl with
    | array ident n => simp only [startsDecls]; rfl
    | var ident init =>
      cases init with
      | none => simp only [startsDecls]; rfl
      | some e =>
        simp only [startsDecls]
        cases startsExpr e <;> rfl

lemma grow_declOf (hA : A.Shaped) (ident : String) :
    Emits (declOf ident) A dangles (fun _ B => Grown True .nothing A B) := by
  have h : Runs (declOf ident) A True (fun _ B => Grown True .nothing A B) :=
    runs_declOf (fun _ _ => Grown.refl hA) fun _ => trivial
  exact h.emits

lemma grow_varType (hA : A.Shaped) (var : ℕ) :
    Emits (varType var) A dangles (fun _ B => Grown True .nothing A B) := by
  have h : Runs (varType var) A True (fun _ B => Grown True .nothing A B) :=
    runs_varType (fun _ _ => Grown.refl hA) fun _ => trivial
  exact h.emits

lemma grow_genGetAddr (hA : A.Shaped) (var : ℕ) :
    Emits (genGetAddr var) A dangles (fun _ B => Grown True .quad A B) := by
  refine grow_after (grow_varType hA var) fun type B hB => ?_
  have h : Runs (newVarDecl ⟨type, .ptr⟩) B False (fun _ C => Grown True .nothing B C) :=
    runs_newVarDecl (grown_declare hB.shaped _)
  refine grow_after h.emits fun ptr C hC => ?_
  refine (grow_emit hC.shaped rfl (by simp)).bind fun _ D hD => emits_pure hD

lemma grow_quadrArg (hA : A.Shaped) (type : Ty) (value : VarArg) :
    Emits (quadrArg P type value) A dangles (fun _ B => Grown True .quad A B) := by
  have h : Runs (quadrArg P type value) A True (fun _ B => Grown True .quad A B) :=
    runs_quadrArg (fun d c _ => (computes_withConst hA d c).grown) fun _ => trivial
  exact h.emits

lemma grow_genAssign (hA : A.Shaped) (lvalue : Lvalue) (e : Expr) :
    Emits (genAssign P lvalue e) A dangles
      (fun _ B => Grown True (startsInstr (.assign lvalue e)) A B) := by
  cases lvalue with
  | ident x =>
    refine (grow_after (grow_declOf hA x) fun var B h => grow_bind (grow_expr h.shaped e)
      fun value C h' => grow_emit h'.shaped rfl (by simp)).mono id fun _ D h => h.mono (by simp) ?_
    simp only [startsInstr]
  | array x i =>
    refine (grow_bind (grow_expr hA e) fun value B h => grow_bind (grow_expr h.shaped i)
      fun off C h' => grow_after (grow_declOf h'.shaped x) fun var D h₂ =>
        grow_bind (grow_genGetAddr h₂.shaped var) fun ptr E h₃ =>
          grow_emit h₃.shaped rfl (by simp)).mono id fun _ F h => h.mono (by simp) ?_
    simp only [startsInstr]
    cases startsExpr e <;> cases startsExpr i <;> rfl

lemma grow_genIncDec (hA : A.Shaped) (op : QuadrOp) (hop : isBlockEnd op = false)
    (hparam : op ≠ .param) (lvalue : Lvalue) :
    Emits (genIncDec P op lvalue) A dangles (fun _ B => Grown True .quad A B) := by
  cases lvalue with
  | array x i => exact emits_abort
  | ident x =>
    refine grow_after (grow_declOf hA x) fun var B h => grow_after (grow_varType h.shaped var)
      fun type C h' => ?_
    have hone : ∀ (t : Ty) (value : VarArg),
        Emits (quadrArg P t value >>= fun one => genBinop op var (.var var) one) C dangles
          (fun _ D => Grown True .quad C D) := fun t value =>
      (grow_bind (grow_quadrArg h'.shaped t value) fun one D h'' =>
        grow_emit (q := ⟨op, .var var, .var var, one⟩) h''.shaped hop hparam).mono id
          fun _ E h => h.mono (by simp) rfl
    show Emits (if type = .double then _ else _) _ _ _
    split
    · exact hone _ _
    · exact hone _ _

/-- A new block after a quadruple that ends one. -/
lemma grown_emit_begin {q : Quad} (hA : A.Shaped) (hsound : A.Sound) (hq : targetOf q = none)
    (hparam : q.op ≠ .param) : Grown True .quad A (A.emit q).begin := by
  refine ⟨((extends_emit q).trans extends_begin).prolongs, (hA.emit_ended hparam).begin,
    pend_begin (hsound.emit q), ⟨[q], by rw [code_begin, code_emit], ?_⟩, ?_⟩
  · have hnil : targets [q] = [] := by simp [targets, hq]
    refine FreshTargets.newTargets ⟨hnil ▸ List.nodup_nil, fun t ht => ?_⟩
    rw [hnil] at ht
    cases ht
  · exact (opens_emit q).then (opens_begin (hsound.emit q)) extends_begin

lemma grow_genReturn (hA : A.Shaped) (e : Option Expr) :
    Emits (genReturn P e) A dangles (fun _ B => Grown True (startsInstr (.ret e)) A B) := by
  have hret : ∀ (a : Arg) (B : Layout), B.Shaped →
      Emits (emit ⟨.ret, .none, a, .none⟩ >>= fun _ => addNewBlock) B dangles
        (fun _ C => Grown True .quad B C) := by
    intro a B hB
    have h : Runs (emit ⟨.ret, .none, a, .none⟩ >>= fun _ => addNewBlock) B False
        (fun _ C => Grown True .quad B C) :=
      runs_of_sound fun hsound => runs_emit_bind (runs_addNewBlock
        (grown_emit_begin hB hsound rfl (by simp)))
    exact h.emits
  cases e with
  | none =>
    simp only [startsInstr]
    exact hret .none A hA
  | some e =>
    simp only [startsInstr]
    exact (grow_bind (grow_expr hA e) fun a B h => hret a B h.shaped).mono id
      fun _ C h => h.mono (by simp) rfl

end Plain

/-! ## Branches -/

namespace Layout

lemma cur_begin : A.begin.cur = ⟨A.next, [], false⟩ := by
  unfold Layout.begin Layout.add newChain
  split <;> rfl

lemma done_begin : A.begin.done ≠ [] := by
  have hkept : ∀ B : Layout, B.kept ≠ [] := by
    intro B
    unfold kept
    split
    · exact all_ne_nil
    · rename_i h
      exact fun hnil => h (Or.inl hnil)
  unfold Layout.begin Layout.add
  split <;> exact List.append_ne_nil_of_left_ne_nil (hkept _) _

/-- A freed block is not a label. -/
lemma Gone.pend_none {l : ℕ} (h : A.Gone l) (hsound : A.Sound) : A.pend l = none := by
  cases hp : A.pend l with
  | none => rfl
  | some ch =>
    obtain ⟨b, rest, rfl, hid⟩ := hsound.labelHead l ch hp
    exact absurd (Or.inr ⟨l, _, hp, b, List.mem_cons_self, hid⟩) h.2

lemma begin_next_le : A.next < A.begin.next :=
  Nat.lt_of_lt_of_le (Nat.lt_succ_self A.next)
    (show A.newLabel.next ≤ A.begin.next from add_next_le)

end Layout

/-- What holds while a label that has been made since is not yet in the list. -/
structure Opened (ok : Prop) (x : Start) (label : ℕ) (A B : Layout) : Prop where
  prolongs : A.Prolongs B
  shaped : B.Shaped
  before : A.pend label = none
  chain : ∃ ch, B.pend label = some ch
  pend : ∀ k ≠ label, B.pend k = A.pend k
  code : ∃ δ, B.code = A.code ++ δ ∧ NewTargets ok A B δ
  opens : Opens A B x

section Branches

variable {dangles : Prop} {p q : Prop} {x y : Start} {label : ℕ}

lemma Opened.trans (h : Opened p x label A B) (h' : Grown q y B C) :
    Opened (p ∧ q) (x.then y) label A C := by
  obtain ⟨δ, hδ, ht⟩ := h.code
  obtain ⟨ε, hε, ht'⟩ := h'.code
  refine ⟨h.prolongs.trans h'.prolongs, h'.shaped, h.before, h'.pend ▸ h.chain,
    fun k hk => by rw [h'.pend, h.pend k hk], ⟨δ ++ ε, by rw [hε, hδ, List.append_assoc],
      ht.trans ht' h.prolongs.next h'.prolongs.next⟩, h.opens.thenProlongs h'.opens h'.prolongs⟩

/-- The label gets into the list. -/
lemma Opened.close {ch : List Blk} (h : Opened p x label A B) (hB : B.Sound)
    (hch : B.pend label = some ch) : Grown p (x.then .block) A (B.add label ch) := by
  obtain ⟨δ, hδ, ht⟩ := h.code
  have hext : B.Extends (B.add label ch) := hB.extends_add hch
  refine ⟨h.prolongs.trans hext.prolongs, hB.shaped_add hch h.shaped.toEnded, ?_,
    ⟨δ, by rw [hB.code_add hch, hδ], ht.mono Iff.rfl (Nat.le_refl _) hext.next⟩,
    h.opens.thenProlongs (opens_add hB hch (hB.label_ne_nil hch)) hext.prolongs⟩
  funext k
  rw [pend_add]
  rcases eq_or_ne k label with rfl | hk
  · rw [Function.update_self]
    exact h.before.symm
  · rw [Function.update_of_ne hk, h.pend k hk]

lemma grow_close (h : Opened p x label A B) :
    Emits (addBasicBlocks label) B dangles (fun _ C => Grown p (x.then .block) A C) := by
  obtain ⟨ch, hch⟩ := h.chain
  have hadd : Runs (addBasicBlocks label) B False (fun _ C => Grown p (x.then .block) A C) :=
    runs_of_sound fun hB => runs_addBasicBlocks hch (h.close hB hch)
  exact hadd.emits

/-- The condition of an `if`, which jumps over what follows. -/
lemma emits_genBranch (hA : A.Shaped) (e : Expr) :
    Emits (genBranch P e) A dangles
      (fun label B => Opened True ((startsCond e false).then .block) label A B) := by
  refine emits_of_sound fun hsound => ?_
  have hnew : Runs newBasicBlock A False (fun label B => label = A.next ∧ B = A.newLabel) :=
    runs_newBasicBlock ⟨rfl, rfl⟩
  refine hnew.emits.bind ?_
  rintro _ _ ⟨rfl, rfl⟩
  have hlabel : A.newLabel.pend A.next = some A.newChain := pend_newLabel
  refine (emits_cond hA.newLabel (Or.inl ⟨_, hlabel⟩)).bind fun _ B h => ?_
  obtain ⟨δ, hδ, href⟩ := h.code
  obtain ⟨ch, hch, -⟩ := href.pending _ hlabel
  have hbegin : Runs (addNewBlock >>= fun _ => pure A.next) B False
      (fun label C => Opened True ((startsCond e false).then .block) label A C) := by
    refine runs_of_sound fun hB => runs_addNewBlock_bind (runs_pure ?_)
    refine ⟨((extends_newLabel.trans h.extends').trans extends_begin).prolongs,
      h.shaped.toEnded.begin, hsound.pend_next, ⟨ch, by rw [pend_begin hB, hch]⟩, fun k hk => ?_,
      ⟨δ, ?_, ?_⟩, ?_⟩
    · rw [pend_begin hB, href.other k hk]
      exact Function.update_of_ne hk _ _
    · rw [code_begin, hδ, code_newLabel]
    · have hfresh : FreshTargets A B δ :=
        href.freshTargets ⟨_, hlabel⟩ (Nat.le_refl _) (Nat.lt_succ_self _) h.extends'.next
      exact hfresh.newTargets.mono Iff.rfl (Nat.le_refl _) extends_begin.next
    · have hopens : Opens A B (startsCond e false) :=
        Opens.then (x := .nothing) (B := A.newLabel) rfl h.opens h.extends'
      exact hopens.then (opens_begin hB) extends_begin
  exact hbegin.emits

/-- A jump to a label that is made for it. -/
lemma emits_goto {f : ℕ → Gen α} {Q : α → Layout → Prop} (hA : A.Shaped)
    (h : A.Sound → ∀ B, Opened True .quad A.next A B → B.Sound → Emits (f A.next) B dangles Q) :
    Emits (newBasicBlock >>= fun label => genGoto label >>= fun _ => f label) A dangles Q := by
  refine emits_of_sound fun hsound => ?_
  have hnew : Runs newBasicBlock A False (fun label B => label = A.next ∧ B = A.newLabel) :=
    runs_newBasicBlock ⟨rfl, rfl⟩
  refine hnew.emits.bind ?_
  rintro _ _ ⟨rfl, rfl⟩
  have hlabel : A.newLabel.pend A.next = some A.newChain := pend_newLabel
  have hgoto : Runs (genGoto A.next) A.newLabel False
      (fun _ B => JumpPost zeroPlatform zeroMeaning (.bool true) A.next true
        A.newLabel B) :=
    runs_genGoto true hA.newLabel (Or.inl ⟨_, hlabel⟩)
  refine hgoto.emits.bind fun _ B hjump => emits_of_sound fun hB => h hsound B ?_ hB
  obtain ⟨δ, hδ, href⟩ := hjump.code
  obtain ⟨ch, hch, -⟩ := href.pending _ hlabel
  have hfresh : FreshTargets A B δ :=
    href.freshTargets ⟨_, hlabel⟩ (Nat.le_refl _) (Nat.lt_succ_self _) hjump.extends'.next
  refine ⟨(extends_newLabel.trans hjump.extends').prolongs, hjump.shaped, hsound.pend_next,
    ⟨ch, hch⟩, fun k hk => (href.other k hk).trans (Function.update_of_ne hk _ _),
    ⟨δ, by rw [hδ, code_newLabel], hfresh.newTargets⟩, ?_⟩
  have hopens := hjump.opens
  simp only [startsCond, if_true] at hopens
  exact Opens.then (x := .nothing) (B := A.newLabel) rfl hopens hjump.extends'

/-- From the end of `then_instr` to `else_instr`: the label `if_end` takes the place of
`if_false`. -/
lemma emits_genElse (h : Opened p x label A B) :
    Emits (genElse label) B dangles (fun ifEnd C => Opened p (x.then .quad) ifEnd A C) := by
  refine emits_goto h.shaped fun hB C hgoto hC => ?_
  obtain ⟨ch, hch⟩ := h.chain
  -- the label behind the branch is new, the other one has been waiting since the test
  have hne : label ≠ B.next := Nat.ne_of_lt (hB.label_lt hch)
  have hchC : C.pend label = some ch := (hgoto.pend label hne).trans hch
  obtain ⟨ch', hch'⟩ := hgoto.chain
  obtain ⟨δ, hδ, ht⟩ := h.code
  obtain ⟨ε, hε, ht'⟩ := hgoto.code
  have hext : C.Extends (C.add label ch) := hC.extends_add hchC
  have hend : Runs (addBasicBlocks label >>= fun _ => pure B.next) C False
      (fun ifEnd D => Opened p (x.then .quad) ifEnd A D) := by
    refine runs_addBasicBlocks_bind hchC (runs_pure ?_)
    refine ⟨(h.prolongs.trans hgoto.prolongs).trans hext.prolongs,
      hC.shaped_add hchC hgoto.shaped.toEnded, ?_, ⟨ch', ?_⟩, fun k hk => ?_, ⟨δ ++ ε, ?_, ?_⟩, ?_⟩
    · rw [← h.pend B.next hne.symm]
      exact hgoto.before
    · rw [pend_add, Function.update_of_ne hne.symm, hch']
    · rw [pend_add]
      rcases eq_or_ne k label with rfl | hkl
      · rw [Function.update_self]
        exact h.before.symm
      · rw [Function.update_of_ne hkl, hgoto.pend k hk, h.pend k hkl]
    · rw [hC.code_add hchC, hε, hδ, List.append_assoc]
    · exact (ht.trans ht' h.prolongs.next hgoto.prolongs.next).mono (by simp) (Nat.le_refl _)
        hext.next
    · have hopens := (h.opens.thenProlongs hgoto.opens hgoto.prolongs).thenProlongs
        (opens_add hC hchC (hC.label_ne_nil hchC)) hext.prolongs
      cases x <;> exact hopens
  exact hend.emits

/-! ## Loops -/

/-- The head of a loop: the label of the condition waits, and the body begins with an empty
block. -/
lemma emits_genLoopHead (hA : A.Shaped) :
    Emits genLoopHead A dangles (fun r B => ∃ D, Opened True .quad r.1 A D ∧ D.Sound ∧
      r.2 = D.next ∧ B = D.begin) := by
  refine emits_goto hA fun _ D hgoto hD => ?_
  have hbody : Runs (newBasicBlock >>= fun body => addBasicBlocks body >>= fun _ =>
      pure (A.next, body)) D False (fun r B => ∃ D, Opened True .quad r.1 A D ∧ D.Sound ∧
        r.2 = D.next ∧ B = D.begin) :=
    runs_newBasicBlock_bind (runs_addBasicBlocks_bind pend_newLabel
      (runs_pure ⟨D, hgoto, hD, rfl, rfl⟩))
  exact hbody.emits

/-- A block in the list is referred to as often as the condition has jumps to its destination. -/
lemma Layout.Referred.nodup_iff {dest n : ℕ} {δ : List Quad} (h : Referred A B dest n δ)
    (hlisted : A.pend dest = none) : (targets δ).Nodup ↔ n ≤ 1 := by
  obtain ⟨-, hcount⟩ := h.listed hlisted
  rw [List.nodup_iff_count_le_one]
  refine ⟨fun hle => hcount ▸ hle dest, fun hn t => ?_⟩
  rcases eq_or_ne t dest with rfl | hne
  · omega
  · have := List.nodup_iff_count_le_one.mp h.nodup t
    rwa [List.count_filter (by simpa using hne)] at this

/-- What a condition does to the block list. -/
structure Jumped (dest n : ℕ) (z : Start) (A B : Layout) : Prop where
  extends' : A.Extends B
  shaped : B.Shaped
  code : ∃ δ, B.code = A.code ++ δ ∧ Referred A B dest n δ
  opens : Opens A B z

/-- The condition of a loop after its body, with `n` jumps to the first block of the body. -/
lemma grown_loop {n : ℕ} {z : Start} {ch : List Blk} {E : Layout}
    (h : Opened True .quad label A D) (hbody : Grown p y D.begin C) (hD : D.Sound) (hC : C.Sound)
    (hE : E.Sound) (hch : C.pend label = some ch)
    (hlisted : (C.add label ch).pend D.next = none) (hjump : Jumped D.next n z (C.add label ch) E) :
    Grown (p ∧ n ≤ 1) .quad A E.begin := by
  obtain ⟨δ, hδ, ht⟩ := h.code
  obtain ⟨ε, hε, ht'⟩ := hbody.code
  obtain ⟨ζ, hζ, href⟩ := hjump.code
  have hadd : C.Extends (C.add label ch) := hC.extends_add hch
  have hbegin : D.Extends D.begin := extends_begin
  have hext : C.Extends E.begin := (hadd.trans hjump.extends').trans extends_begin
  have hDC : D.next ≤ C.next := (hbegin.prolongs.trans hbody.prolongs).next
  have hbodyNext : D.begin.next ≤ C.next := hbody.prolongs.next
  refine ⟨((h.prolongs.trans hbegin.prolongs).trans hbody.prolongs).trans hext.prolongs,
    hjump.shaped.toEnded.begin, ?_, ⟨δ ++ (ε ++ ζ), ?_, ?_⟩, ?_⟩
  · funext k
    rw [pend_begin hE]
    have hk : E.pend k = (C.add label ch).pend k := by
      rcases eq_or_ne k D.next with rfl | hk
      · rw [(href.listed hlisted).1, hlisted]
      · exact href.other k hk
    rw [hk, pend_add]
    rcases eq_or_ne k label with rfl | hkl
    · rw [Function.update_self]
      exact h.before.symm
    · rw [Function.update_of_ne hkl, hbody.pend, pend_begin hD, h.pend k hkl]
  · rw [code_begin, hζ, hC.code_add hch, hε, code_begin, hδ]
    simp only [List.append_assoc]
  · -- the targets in the loop are the first block of the body and newer ones
    have hloop : NewTargets (p ∧ n ≤ 1) D E.begin (ε ++ ζ) := by
      have hlt := begin_next_le (A := D)
      have hnext := hadd.next
      have hle := extends_begin (A := E).next
      refine ⟨fun t ht => ?_, ?_⟩
      · rw [targets_append] at ht
        rcases List.mem_append.mp ht with ht | ht
        · have := ht'.fresh t ht
          have := hext.next
          omega
        · have hEn := hjump.extends'.next
          rcases eq_or_ne t D.next with rfl | hne
          · omega
          · have := href.fresh t ht hne
            omega
      · rw [targets_append, List.nodup_append, ht'.nodup, href.nodup_iff hlisted]
        refine ⟨fun h => ⟨h.1, h.2.1⟩, fun h => ⟨h.1, h.2, fun t ht u hu htu => ?_⟩⟩
        have := ht'.fresh t ht
        rcases eq_or_ne u D.next with rfl | hne
        · omega
        · have := href.fresh u hu hne
          omega
    have hall := ht.trans hloop h.prolongs.next ((Nat.le_trans hDC hext.next))
    exact hall.mono (by simp) (Nat.le_refl _) (Nat.le_refl _)
  · exact h.opens.thenProlongs (opens_begin hD) (hbegin.prolongs) |>.thenProlongs hbody.opens
      hbody.prolongs |>.thenProlongs (Opens.thenProlongs (opens_add hC hch (hC.label_ne_nil hch))
        hjump.opens hjump.extends'.prolongs) (hadd.trans hjump.extends').prolongs |>.thenProlongs
        (opens_begin hE) extends_begin.prolongs

/-- The tail of a loop: its condition jumps back, unless the first block of the body has been
freed. -/
lemma emits_genLoopTail {e : Expr} (h : Opened True .quad label A D) (hD : D.Sound)
    (hbody : Grown p y D.begin C) :
    Emits (genLoopTail P e label D.next) C (¬(refs e true = 0 ∨ y = .quad))
      (fun _ E => (refs e true = 0 ∨ y = .quad) ∧ Grown (p ∧ refs e true ≤ 1) .quad A E) := by
  obtain ⟨ch, hchD⟩ := h.chain
  refine emits_of_sound fun hC => ?_
  have hch : C.pend label = some ch := by rw [hbody.pend, pend_begin hD, hchD]
  have hadd : Runs (addBasicBlocks label) C False (fun _ B => B = C.add label ch) :=
    runs_addBasicBlocks hch rfl
  refine hadd.emits.bind ?_
  rintro _ _ rfl
  have hext : C.Extends (C.add label ch) := hC.extends_add hch
  have hshaped : (C.add label ch).Shaped := hC.shaped_add hch hbody.shaped.toEnded
  have hopens : Opens D.begin (C.add label ch) (y.then .block) :=
    hbody.opens.thenProlongs (opens_add hC hch (hC.label_ne_nil hch)) hext.prolongs
  -- the block after the condition
  have hend : ∀ E z, (C.add label ch).pend D.next = none →
      Jumped D.next (refs e true) z (C.add label ch) E → Emits addNewBlock E
        (¬(refs e true = 0 ∨ y = .quad)) (fun _ E => Grown (p ∧ refs e true ≤ 1) .quad A E) := by
    intro E z hlisted hjump
    have hnew : Runs addNewBlock E False (fun _ F => Grown (p ∧ refs e true ≤ 1) .quad A F) :=
      runs_of_sound fun hE => runs_addNewBlock (grown_loop h hbody hD hC hE hch hlisted hjump)
    exact hnew.emits
  by_cases hy : y = .quad
  · -- the first block of the body holds a quadruple
    rw [hy] at hopens
    obtain ⟨b, hb, hid, hne⟩ := hopens
    rw [cur_begin] at hid
    refine emits_of_sound fun hsound =>
      (emits_cond hshaped (Or.inr ⟨b, hb, hid, hne⟩)).bind fun _ E hjump => ?_
    have hlisted : (C.add label ch).pend D.next = none := by
      rw [← show b.id = D.next from hid]
      exact hsound.pend_none hb
    exact (hend E _ hlisted ⟨hjump.extends', hjump.shaped, hjump.code, hjump.opens⟩).mono id
      fun _ F hF => ⟨Or.inr hy, hF⟩
  · -- it has been freed
    have hgone : (C.add label ch).Gone D.next := by
      have hblock : y.then .block = .block := by cases y <;> first | rfl | exact absurd rfl hy
      rw [hblock, Opens, cur_begin] at hopens
      exact hopens rfl rfl done_begin
    by_cases hrefs : refs e true = 0
    · have hgen : genQuadrBoolExpr P e D.next true = pure () ∨
          genQuadrBoolExpr P e D.next true = throw .abort :=
        genQuadrBoolExpr_of_refs_eq_zero e hrefs
      rcases hgen with hgen | hgen <;> rw [hgen]
      · rw [pure_bind]
        have hlisted : (C.add label ch).pend D.next = none := hgone.pend_none (hC.add hch)
        refine (hend (C.add label ch) .nothing hlisted ⟨Extends.refl _, hshaped, ?_, rfl⟩).mono id
          fun _ F hF => ⟨Or.inl hrefs, hF⟩
        refine ⟨[], (List.append_nil _).symm, ?_⟩
        rw [hrefs]
        exact FreshTargets.nil.referred rfl hgone.1
      · exact emits_abort
    · refine Emits.bind ((emits_cond_dangling e hrefs hshaped hgone).mono (fun _ => ?_)
        fun _ _ h => h) fun _ _ h => h.elim
      exact fun hor => hor.elim hrefs hy

end Branches

/-! ## Instructions -/

/-- The translation of an instruction keeps the block structure, and no target is reached twice
exactly if the conditions of its loops have one jump each; it follows a dangling pointer exactly
if a condition refers to a body that does not begin with a quadruple. -/
def InstrSpec (P : Platform) (i : Instr) : Prop :=
  ∀ A : Layout, A.Shaped → Emits (genInstr P i) A (entersOk i = false)
    (fun _ B => entersOk i = true ∧ Grown (targetsOk i = true) (startsInstr i) A B)

/-- The same for the instructions of a block. -/
def InstrsSpec (P : Platform) (is : List Instr) : Prop :=
  ∀ A : Layout, A.Shaped → Emits (genInstrs P is) A (entersAllOk is = false)
    (fun _ B => entersAllOk is = true ∧ Grown (targetsAllOk is = true) (startsInstrs is) A B)

section Instructions

variable {dangles : Prop} {p : Prop} {x : Start} {i i₁ i₂ i₃ : Instr} {e : Expr}

/-- An instruction without loops. -/
lemma instr_plain {m : Gen Unit} {wr : Bool} (henters : entersOk i = true)
    (htargets : targetsOk i = true) (hgen : genInstr P i = m >>= fun _ => pure wr)
    (h : ∀ A : Layout, A.Shaped → Emits m A (entersOk i = false)
      (fun _ B => Grown True (startsInstr i) A B)) : InstrSpec P i := by
  intro A hA
  rw [hgen]
  refine (h A hA).bind fun _ B hB => emits_pure ⟨henters, hB.mono ?_ rfl⟩
  simp [htargets]

/-- A body is translated, and its loops are entered. -/
lemma InstrSpec.bind {f : Bool → Gen α} {Q : α → Layout → Prop} (h : InstrSpec P i)
    (hA : A.Shaped) (hd : entersOk i = false → dangles)
    (hf : entersOk i = true → ∀ wr B, Grown (targetsOk i = true) (startsInstr i) A B →
      Emits (f wr) B dangles Q) : Emits (genInstr P i >>= f) A dangles Q :=
  ((h A hA).mono hd fun _ _ h => h).bind fun wr B hB => hf hB.1 wr B hB.2

lemma ifThen_spec (h : InstrSpec P i) : InstrSpec P (.ifThen e i) := by
  intro A hA
  rw [genInstr]
  refine (emits_genBranch hA e).bind fun label B hB => ?_
  refine h.bind hB.shaped (fun hd => by simpa only [entersOk] using hd) fun henters _ C hC => ?_
  refine (grow_close (hB.trans hC)).bind fun _ D hD => emits_pure ⟨?_, hD.mono ?_ ?_⟩
  · simpa only [entersOk] using henters
  · simp [targetsOk]
  · simp only [startsInstr]
    cases startsCond e false <;> rfl

lemma ifElse_spec (h₁ : InstrSpec P i₁) (h₂ : InstrSpec P i₂) :
    InstrSpec P (.ifElse e i₁ i₂) := by
  intro A hA
  rw [genInstr]
  refine (emits_genBranch hA e).bind fun label B hB => ?_
  refine h₁.bind hB.shaped (fun hd => by simp [entersOk, hd]) fun henters₁ _ C hC => ?_
  refine (emits_genElse (hB.trans hC)).bind fun label' D hD => ?_
  refine h₂.bind hD.shaped (fun hd => by simp [entersOk, hd]) fun henters₂ _ E hE => ?_
  refine (grow_close (hD.trans hE)).bind fun _ F hF => emits_pure ⟨?_, hF.mono ?_ ?_⟩
  · simp [entersOk, henters₁, henters₂]
  · simp [targetsOk]
  · simp only [startsInstr]
    cases startsCond e false <;> rfl

lemma while_spec (h : InstrSpec P i) : InstrSpec P (.whileDo e i) := by
  intro A hA
  rw [genInstr]
  refine (emits_genLoopHead hA).bind ?_
  rintro ⟨label, body⟩ _ ⟨D, hopened, hD, rfl, rfl⟩
  refine h.bind hopened.shaped.toEnded.begin (fun hd => by simp [entersOk, hd])
    fun henters _ C hC => ?_
  refine ((emits_genLoopTail (P := P) (e := e) hopened hD hC).mono (fun hd => ?_)
    fun _ _ h => h).bind fun _ E hE => emits_pure ⟨?_, hE.2.mono ?_ ?_⟩
  · simp only [not_or] at hd
    simp [entersOk, hd]
  · simpa [entersOk, henters] using hE.1
  · simp [targetsOk]
  · simp only [startsInstr]

lemma for_spec (h₁ : InstrSpec P i₁) (h₃ : InstrSpec P i₃) (h : InstrSpec P i) :
    InstrSpec P (.forDo i₁ e i₃ i) := by
  intro A hA
  rw [genInstr]
  refine h₁.bind hA (fun hd => by simp [entersOk, hd]) fun henters₁ _ B hB => ?_
  refine (emits_genLoopHead hB.shaped).bind ?_
  rintro ⟨label, body⟩ _ ⟨D, hopened, hD, rfl, rfl⟩
  refine h.bind hopened.shaped.toEnded.begin (fun hd => by simp [entersOk, hd])
    fun henters _ C hC => ?_
  refine h₃.bind hC.shaped (fun hd => by simp [entersOk, hd]) fun henters₃ _ C' hC' => ?_
  refine ((emits_genLoopTail (P := P) (e := e) hopened hD (hC.trans hC')).mono (fun hd => ?_)
    fun _ _ h => h).bind fun _ E hE => emits_pure ⟨?_, (hB.trans hE.2).mono ?_ ?_⟩
  · simp only [not_or] at hd
    simp [entersOk, hd]
  · simpa [entersOk, henters, henters₁, henters₃] using hE.1
  · simp [targetsOk, and_assoc]
  · simp only [startsInstr]

lemma block_spec {is : List Instr} (h : InstrsSpec P is) : InstrSpec P (.block is) := by
  intro A hA
  rw [genInstr]
  have := emits_inScope (Q := fun _ => entersAllOk is = true) hA (h A hA)
  simpa only [entersOk, targetsOk, startsInstr] using this

mutual

/-- Every instruction is translated as it should be. -/
theorem instr_spec : ∀ i : Instr, InstrSpec P i
  | .empty => fun A hA => by
      rw [genInstr]
      refine emits_pure ⟨by simp only [entersOk], (Grown.refl hA).mono ?_ ?_⟩
      · simp only [targetsOk]
      · simp only [startsInstr]
  | .expr e => fun A hA => by
      rw [genInstr]
      refine (grow_expr hA e).bind fun _ B hB => emits_pure ⟨by simp only [entersOk], hB.mono ?_ ?_⟩
      · simp only [targetsOk]
      · simp only [startsInstr]
  | .block is => block_spec (instrs_spec is)
  | .declaration type decls => by
      refine instr_plain (by simp only [entersOk]) (by simp only [targetsOk]) (by rw [genInstr])
        fun A hA => ?_
      simpa only [startsInstr] using grow_genDeclarators type decls hA
  | .assign lvalue e => by
      refine instr_plain (by simp only [entersOk]) (by simp only [targetsOk]) (by rw [genInstr])
        fun A hA => grow_genAssign hA lvalue e
  | .inc lvalue => by
      refine instr_plain (by simp only [entersOk]) (by simp only [targetsOk]) (by rw [genInstr])
        fun A hA => ?_
      simpa only [startsInstr] using grow_genIncDec hA .add rfl (by simp) lvalue
  | .dec lvalue => by
      refine instr_plain (by simp only [entersOk]) (by simp only [targetsOk]) (by rw [genInstr])
        fun A hA => ?_
      simpa only [startsInstr] using grow_genIncDec hA .sub rfl (by simp) lvalue
  | .ifThen _ i => ifThen_spec (instr_spec i)
  | .ifElse _ i₁ i₂ => ifElse_spec (instr_spec i₁) (instr_spec i₂)
  | .whileDo _ i => while_spec (instr_spec i)
  | .forDo i₁ _ i₃ i => for_spec (instr_spec i₁) (instr_spec i₃) (instr_spec i)
  | .ret e => by
      refine instr_plain (by simp only [entersOk]) (by simp only [targetsOk]) (by rw [genInstr])
        fun A hA => grow_genReturn hA e

/-- The instructions of every block are translated as they should be. -/
theorem instrs_spec : ∀ is : List Instr, InstrsSpec P is
  | [] => fun A hA => by
      rw [genInstrs]
      refine emits_pure ⟨by simp only [entersAllOk], (Grown.refl hA).mono ?_ ?_⟩
      · simp only [targetsAllOk]
      · simp only [startsInstrs]
  | i :: is => fun A hA => by
      rw [genInstrs]
      refine (instr_spec i).bind hA (fun hd => by simp [entersAllOk, hd]) fun henters _ B hB => ?_
      refine ((instrs_spec is B hB.shaped).mono (fun hd => by simp [entersAllOk, hd])
        fun _ _ h => h).bind fun _ C hC => emits_pure ⟨?_, (hB.trans hC.2).mono ?_ ?_⟩
      · simp [entersAllOk, henters, hC.1]
      · simp [targetsAllOk]
      · simp only [startsInstrs]

end

end Instructions

/-! ## Functions -/

lemma grow_genArgDecls {dangles : Prop} : ∀ (args : List (Ty × String)) {A : Layout}, A.Shaped →
    Emits (genArgDecls args) A dangles (fun _ B => Grown True .nothing A B)
  | [], A, hA => emits_pure (Grown.refl hA)
  | (type, ident) :: args, A, hA => by
    refine (emits_declareVar hA type).bind fun v B hB => ?_
    refine (grow_bindIdent hB.1.shaped hB.2).bind fun _ C hC => ?_
    refine (grow_genArgDecls args hC.shaped).mono id fun _ D hD => ?_
    exact ((hB.1.trans hC).trans hD).mono (by simp) rfl

/-- The block structure of a layout, less the uniqueness of targets. -/
structure Closed (A B : Layout) (ok : Prop) : Prop where
  ended : B.Ended
  last : endsInIf B.cur.lst = false
  code : ∃ δ, B.code = A.code ++ δ ∧ NewTargets ok A B δ

lemma endsInIf_of_plain {lst : List Quad} (h : ∀ q ∈ lst, isBlockEnd q.op = false) :
    endsInIf lst = false := by
  unfold endsInIf
  cases hl : lst.getLast? with
  | none => rfl
  | some q =>
    have hplain := h q (List.mem_of_getLast? hl)
    by_contra hif
    have hend := isBlockEnd_of_isIfOp q.op (by simpa using hif)
    rw [hplain] at hend
    cases hend

lemma Grown.closed {p : Prop} {x : Start} (h : Grown p x A B) : Closed A B p :=
  ⟨h.shaped.toEnded, endsInIf_of_plain h.shaped.plain, h.code⟩

/-- The blocks of a function that has been translated. -/
lemma emits_genFunction (node : FuncNode) (hA : A.Shaped) :
    Emits (genFunction P node) A (entersAllOk node.body = false)
      (fun _ B => entersAllOk node.body = true ∧ Closed A B (targetsAllOk node.body = true)) := by
  unfold genFunction
  refine (grow_genArgDecls node.args hA).bind fun _ B hB => ?_
  refine (emits_inScope hB.shaped (instrs_spec node.body B hB.shaped)).bind fun wr C hC => ?_
  have hbody : Grown (targetsAllOk node.body = true) (startsInstrs node.body) A C :=
    (hB.trans hC.2).mono (by simp) rfl
  split
  · exact emits_pure ⟨hC.1, hbody.closed⟩
  · split
    · -- a function without a result that can run off its end gets a return of its own
      have hret : Runs (addNewBlock >>= fun _ => emit ⟨.ret, .none, .none, .none⟩) C False
          (fun _ D => Closed A D (targetsAllOk node.body = true)) := by
        refine runs_addNewBlock_bind (runs_emit ⟨?_, ?_, ?_⟩)
        · exact hC.2.shaped.toEnded.begin.emit_ended (by simp)
        · show endsInIf (C.begin.cur.lst ++ _) = false
          rw [cur_begin]
          rfl
        · obtain ⟨δ, hδ, ht⟩ := hbody.code
          refine ⟨δ ++ [⟨.ret, .none, .none, .none⟩], ?_, ?_⟩
          · rw [code_emit, code_begin, hδ, List.append_assoc]
          · have hnone : targets [⟨.ret, .none, .none, .none⟩] = [] := rfl
            refine ⟨fun t h => ?_, ?_⟩
            · rw [targets_append, hnone, List.append_nil] at h
              exact ⟨(ht.fresh t h).1,
                Nat.lt_of_lt_of_le (ht.fresh t h).2 (extends_begin (A := C)).next⟩
            · rw [targets_append, hnone, List.append_nil]
              exact ht.nodup
      exact hret.emits.mono id fun _ D hD => ⟨hC.1, hD⟩
    · exact emits_abort

/-- The blocks of a layout have the structure if no block is the target of two jumps. -/
lemma blockStructure_iff {s : GenState} {id : ℕ} {ok : Prop} (hs : Rep s B)
    (h : Closed (Layout.start id) B ok) : BlockStructure s ↔ ok := by
  obtain ⟨δ, hδ, ht⟩ := h.code
  have hcode : codeOf B.all = δ := hδ
  rw [← ht.nodup, List.nodup_iff_count_le_one]
  constructor
  · rintro ⟨bs, hbs, -, -, hcount⟩
    obtain rfl : bs = B.all := hbs.unique hs.list
    rwa [hcode] at hcount
  · intro hcount
    refine ⟨B.all, hs.list, h.ended.closed, ?_, by rwa [hcode]⟩
    rintro xs b ys hall hif rfl
    obtain ⟨-, hb⟩ := List.append_inj' (show B.done ++ [B.cur] = xs ++ [b] from hall) rfl
    obtain rfl : B.cur = b := by simpa using hb
    rw [h.last] at hif
    cases hif

/-- The block structure of a function that has been emitted. -/
lemma blockStructure_of_ok {node : FuncNode} {id : ℕ} {r : Unit × GenState}
    (hrun : genFunction P node (startFunction id) = .ok r) :
    entersAllOk node.body = true ∧
      (BlockStructure r.2 ↔ targetsAllOk node.body = true) := by
  have h := emits_genFunction (P := P) node (shaped_start id) (startFunction id) (rep_start id)
  rw [hrun] at h
  obtain ⟨B, hB, henters, hclosed⟩ := h
  exact ⟨henters, blockStructure_iff hB hclosed⟩

/-- A function that is emitted has the block structure that the code generator assumes exactly if
the condition of each loop jumps back at most once, and not at all if the body of the loop does not
begin with a quadruple. -/
theorem block_structure_iff (P : Platform) (node : FuncNode) (id : ℕ)
    (hemit : genFunction P node (startFunction id) ≠ .error .abort) :
    (∃ s, genFunction P node (startFunction id) = .ok ((), s) ∧ BlockStructure s) ↔
      entersAllOk node.body = true ∧ targetsAllOk node.body = true := by
  have h := emits_genFunction (P := P) node (shaped_start id) (startFunction id) (rep_start id)
  cases hrun : genFunction P node (startFunction id) with
  | ok r =>
    obtain ⟨henters, hiff⟩ := blockStructure_of_ok hrun
    constructor
    · rintro ⟨s, hs, hstructure⟩
      obtain rfl : r.2 = s := by
        cases hs
        rfl
      exact ⟨henters, hiff.mp hstructure⟩
    · exact fun hok => ⟨r.2, rfl, hiff.mpr hok.2⟩
  | error err =>
    rw [hrun] at h
    cases err with
    | abort => exact absurd hrun hemit
    | dangling =>
      constructor
      · rintro ⟨s, hs, -⟩
        cases hs
      · intro hok
        rw [hok.1] at h
        cases h
    | diverges => exact h.elim

/-- `void f(boolean a, boolean b, int i) { while (cond) { i++; } }`. -/
def countLoop (cond : Expr) : FuncNode where
  returnType := .void
  args := [(.boolean, "a"), (.boolean, "b"), (.int, "i")]
  body := [.whileDo cond (.block [.inc (.ident "i")])]

/-- A loop on one variable is emitted as it should be. -/
theorem block_structure_iff_ident :
    ∃ s, genFunction zeroPlatform (countLoop (.ident "a")) (startFunction 0) =
      .ok ((), s) ∧ BlockStructure s := by
  refine (block_structure_iff _ (countLoop (.ident "a")) 0 fun habort => ?_).mpr ⟨?_, ?_⟩
  · have hok : (genFunction zeroPlatform (countLoop (.ident "a"))
        (startFunction 0)).isOk = true := by decide +kernel
    rw [habort] at hok
    cases hok
  · decide +kernel
  · decide +kernel

/-- The condition `a || b` jumps back to the body of its loop twice. -/
theorem block_structure_fails :
    ∃ s, genFunction zeroPlatform (countLoop (.or (.ident "a") (.ident "b")))
      (startFunction 0) = .ok ((), s) ∧ ¬BlockStructure s := by
  have hok : (genFunction zeroPlatform (countLoop (.or (.ident "a") (.ident "b")))
      (startFunction 0)).isOk = true := by decide +kernel
  cases hrun : genFunction zeroPlatform (countLoop (.or (.ident "a") (.ident "b")))
    (startFunction 0) with
  | ok r =>
    refine ⟨r.2, rfl, fun hstructure => ?_⟩
    have htargets := (blockStructure_of_ok hrun).2.mp hstructure
    simp [countLoop, targetsAllOk, targetsOk, refs] at htargets
  | error err =>
    rw [hrun] at hok
    cases hok

end Javalette.Front
