import Javalette.Tree.Simulation

/-!
# Branches and loops are translated correctly

The translation of an instruction does what the instruction does (`InstrSim`), if that holds of
the instructions that it consists of: the cases of conditions, jumps and loops.

A declaration that is not in a block is not in a scope of its own, so the generator lets it be in
force after a branch or a loop that is not executed; the semantics does not.  `scopesOk` excludes
such declarations.
-/

namespace Javalette.Front

open SyntaxTree LinkedList Layout

variable {P : Platform} {M : Meaning} {A B C D : Layout} {α β : Type} {s s' : Store}
variable {w w' : World} {place place' : ℕ → Option ℕ} {e : Expr} {dangles : Prop}

/-! ## What is asked of an instruction -/

/-- The instruction is a declaration. -/
def declares : Instr → Bool
  | .declaration _ _ => true
  | _ => false

mutual

/-- No branch and no body of a loop is a declaration. -/
def scopesOk : Instr → Bool
  | .block instrs => scopesAllOk instrs
  | .ifThen _ thenInstr => !declares thenInstr && scopesOk thenInstr
  | .ifElse _ thenInstr elseInstr =>
      !declares thenInstr && scopesOk thenInstr && (!declares elseInstr && scopesOk elseInstr)
  | .whileDo _ body => !declares body && scopesOk body
  | .forDo instr1 _ instr3 body =>
      !declares instr1 && scopesOk instr1 && (!declares instr3 && scopesOk instr3) &&
        (!declares body && scopesOk body)
  | _ => true

/-- The same for the instructions of a block. -/
def scopesAllOk : List Instr → Bool
  | [] => true
  | instr :: instrs => scopesOk instr && scopesAllOk instrs

end

mutual

/-- The expressions of an instruction. -/
def exprsOf : Instr → List Expr
  | .empty | .inc _ | .dec _ | .ret none => []
  | .expr expr => [expr]
  | .block instrs => exprsOfAll instrs
  | .declaration _ decls => initsOf decls
  | .assign (.ident _) expr => [expr]
  | .assign (.array _ index) expr => [expr, index]
  | .ifThen cond thenInstr => cond :: exprsOf thenInstr
  | .ifElse cond thenInstr elseInstr => cond :: (exprsOf thenInstr ++ exprsOf elseInstr)
  | .whileDo cond body => cond :: exprsOf body
  | .forDo instr1 cond instr3 body =>
      exprsOf instr1 ++ cond :: (exprsOf body ++ exprsOf instr3)
  | .ret (some expr) => [expr]

/-- The expressions of the instructions of a block. -/
def exprsOfAll : List Instr → List Expr
  | [] => []
  | instr :: instrs => exprsOf instr ++ exprsOfAll instrs

end

/-- Unary minus subtracts from zero in all the expressions. -/
def ZerosOk (P : Platform) (es : List Expr) : Prop := ∀ e ∈ es, ZeroOk P (noIntNeg e)

lemma ZerosOk.append {es es' : List Expr} (h : ZerosOk P (es ++ es')) :
    ZerosOk P es ∧ ZerosOk P es' :=
  ⟨fun e he => h e (List.mem_append_left _ he), fun e he => h e (List.mem_append_right _ he)⟩

lemma ZerosOk.cons {es : List Expr} (h : ZerosOk P (e :: es)) :
    ZeroOk P (noIntNeg e) ∧ ZerosOk P es :=
  ⟨h e List.mem_cons_self, fun e' he => h e' (List.mem_cons_of_mem _ he)⟩

/-- What is known of a translated instruction. -/
structure InstrPost (M : Meaning) (i : Instr) (A B : Layout) : Prop where
  grown : Grown (targetsOk i = true) (startsInstr i) A B
  decls : declares i = false → B.decls = A.decls
  sim : Simulates M (declares i = false) (Exec (storeSteps M.tame) i) A B

/-- An instruction is translated into code that does what it does. -/
def InstrSim (P : Platform) (M : Meaning) (i : Instr) : Prop :=
  ∀ A : Layout, A.Shaped → ZerosOk P (exprsOf i) → scopesOk i = true →
    Emits (genInstr P i) A True fun _ B => (declares i = false → B.decls = A.decls) ∧
      Simulates M (declares i = false) (Exec (storeSteps M.tame) i) A B

lemma InstrSim.post {i : Instr} (h : InstrSim P M i) (hA : A.Shaped)
    (hz : ZerosOk P (exprsOf i)) (hs : scopesOk i = true) :
    Emits (genInstr P i) A True fun _ B => InstrPost M i A B := by
  have hshape := (instr_spec (P := P) i A hA).mono (fun _ => trivial) fun _ _ h => h
  exact (hshape.and (h A hA hz hs)).mono id fun _ _ h => ⟨h.1.2, h.2.1, h.2.2⟩

/-! ## Branches -/

section Branches

variable {label k : ℕ} {ch : List Blk} {tr : List Call}

/-- A condition has been translated: the run goes on behind it, or jumps to the label. -/
def Branches (M : Meaning) (e : Expr) (label : ℕ) (A B : Layout) : Prop :=
  ∀ w t tr, w.params = [] → evalBool M.tame (A.reading w) e w.trace = some (t, tr) →
    ∃ w', After A w w' tr ∧ if t then Goes M 0 A B w (.at B.code.length) w'
      else ∃ k, B.JumpTarget label k ∧ Goes M 0 A B w (.label k) w'

lemma JumpTarget.begin {dest : ℕ} (h : A.JumpTarget dest k) (hA : A.Sound) :
    A.begin.JumpTarget dest k :=
  h.congr (by rw [pend_begin hA])

lemma sim_genBranch (hA : A.Shaped) (e : Expr) (hz : ZeroOk P (noIntNeg e)) :
    Emits (genBranch P e) A dangles fun label B =>
      Opened True ((startsCond e false).then .block) label A B ∧ B.decls = A.decls ∧
        Branches M e label A B := by
  have hrun : Emits (genBranch P e) A dangles fun label B =>
      B.decls = A.decls ∧ Branches M e label A B := by
    have hnew : Runs newBasicBlock A False fun label B => label = A.next ∧ B = A.newLabel :=
      runs_newBasicBlock ⟨rfl, rfl⟩
    refine hnew.emits.bind ?_
    rintro _ _ ⟨rfl, rfl⟩
    have hcond : CondSpec P M (fun _ => none) e := cond_spec e
    refine (hcond _ A.next false hA.newLabel (Or.inl ⟨_, pend_newLabel⟩)).emits.bind fun _ B h => ?_
    have hbegin : Runs (addNewBlock >>= fun _ => pure A.next) B False fun label C =>
        C.decls = A.decls ∧ Branches M e label A C := by
      refine runs_of_sound fun hB => runs_addNewBlock_bind (runs_pure ⟨?_, ?_⟩)
      · exact extends_begin.decls.trans h.extends'.decls
      · intro w t tr hw heval
        obtain ⟨w', hafter, hgo⟩ := h.decides hz hw heval
        refine ⟨w', ⟨hafter.env, hafter.mem, hafter.trace, hafter.params⟩, ?_⟩
        cases t with
        | true =>
          rw [if_neg (by simp)] at hgo
          exact Goes.extend_end (A := A) hgo extends_begin code_begin
        | false =>
          rw [if_pos rfl] at hgo
          obtain ⟨k, hk, hgo⟩ := hgo
          exact ⟨k, JumpTarget.begin hk hB, Goes.extend (A := A) hgo extends_begin⟩
    exact hbegin.emits
  exact (emits_genBranch hA e).and hrun

/-- A condition is tested. -/
lemma Branches.run {t : Bool} (h : Branches M e label A B) (hM : Matches place A s w)
    (ht : HasTruth M.tame s e t tr) :
    ∃ w', Matches place A (s.called tr) w' ∧ Kept w w' ∧
      if t then Goes M 0 A B w (.at B.code.length) w'
      else ∃ k, B.JumpTarget label k ∧ Goes M 0 A B w (.label k) w' := by
  obtain ⟨w', hafter, hgo⟩ := h w t tr hM.params (hM.truth ht)
  exact ⟨w', hM.after hafter, hafter.kept, hgo⟩

lemma bound_add (decls : String → Option ℕ) :
    (C.bound decls).add label ch = (C.add label ch).bound decls := by
  unfold Layout.add
  show (if endsInIf C.cur.lst = true then _ else _ : Layout) = Layout.bound (if _ then _ else _) _
  split <;> rfl

/-- A jump to a label goes on at the end of the code once the label is in the list. -/
lemma Goes.arrive (h : Goes M 0 A B w (.label k) w') (htarget : B.JumpTarget label k)
    (hch : C.pend label = some ch) (hpend : C.pend label = B.pend label) (hext : B.Prolongs C)
    (hC : C.Sound) :
    Goes M 0 A (C.add label ch) w (.at (C.add label ch).code.length) w' := by
  have hgo := Goes.enter_add (C := C.bound B.decls) h htarget hch hpend hext
    (hC.of_ids rfl rfl rfl) (Nat.zero_le _)
  rw [bound_add] at hgo
  exact hgo

/-- A label has been made, and the run jumps to it. -/
def Jumps (M : Meaning) (label : ℕ) (A B : Layout) : Prop :=
  ∀ w, w.params = [] → ∃ k w', B.JumpTarget label k ∧ After A w w' w.trace ∧
    Goes M 0 A B w (.label k) w'

/-- A jump to a label that is made for it. -/
lemma sim_goto {f : ℕ → Gen α} {Q : α → Layout → Prop} (hA : A.Shaped)
    (h : A.Sound → ∀ B, Opened True .quad A.next A B → B.Sound → B.decls = A.decls →
      Jumps M A.next A B → Emits (f A.next) B dangles Q) :
    Emits (newBasicBlock >>= fun label => genGoto label >>= fun _ => f label) A dangles Q := by
  have hopened : Emits (newBasicBlock >>= fun label => genGoto label >>= fun _ => pure label) A
      dangles fun label B =>
        label = A.next ∧ A.Sound ∧ Opened True .quad A.next A B ∧ B.Sound :=
    emits_goto hA fun hsound B hB hBsound => emits_pure ⟨rfl, hsound, hB, hBsound⟩
  have hrun : Emits (newBasicBlock >>= fun label => genGoto label >>= fun _ => pure label) A
      dangles fun _ B => B.decls = A.decls ∧ Jumps M A.next A B := by
    have hgoto : Runs (genGoto A.next) A.newLabel False fun _ B =>
        JumpPost zeroPlatform M (.bool true) A.next true A.newLabel B :=
      runs_genGoto true hA.newLabel (Or.inl ⟨_, pend_newLabel⟩)
    have hall : Runs (newBasicBlock >>= fun label => genGoto label >>= fun _ => pure label) A
        False fun _ B => B.decls = A.decls ∧ Jumps M A.next A B := by
      refine runs_newBasicBlock_bind (hgoto.bind fun _ B hjump =>
        runs_pure ⟨hjump.extends'.decls, fun w hw => ?_⟩)
      obtain ⟨w', hafter, hgo⟩ := hjump.decides (Or.inl rfl) hw (evalBool_bool true)
      rw [if_pos rfl] at hgo
      obtain ⟨k, hk, hgo⟩ := hgo
      exact ⟨k, w', hk, ⟨hafter.env, hafter.mem, hafter.trace, hafter.params⟩, hgo⟩
    exact hall.emits
  have hbind : Emits ((newBasicBlock >>= fun label => genGoto label >>= fun _ => pure label) >>= f)
      A dangles Q := by
    refine (hopened.and hrun).bind ?_
    rintro _ B ⟨⟨rfl, hsound, hB, hBsound⟩, hdecls, hjumps⟩
    exact h hsound B hB hBsound hdecls hjumps
  simpa only [bind_assoc, pure_bind] using hbind

/-- A label that an instruction does not refer to. -/
lemma Opened.waits {p : Prop} {x : Start} (h : Opened p x label A B) (hpend : C.pend = B.pend) :
    ∃ ch, C.pend label = some ch := by
  obtain ⟨ch, hch⟩ := h.chain
  exact ⟨ch, hpend ▸ hch⟩

lemma ifThen_sim {i : Instr} (h : InstrSim P M i) : InstrSim P M (.ifThen e i) := by
  intro A hA hz hs
  simp only [exprsOf] at hz
  simp only [scopesOk, Bool.and_eq_true, Bool.not_eq_true'] at hs
  rw [genInstr]
  refine (sim_genBranch (M := M) hA e hz.cons.1).bind fun label B hB => ?_
  obtain ⟨hopened, hdeclsB, hbranch⟩ := hB
  refine (h.post hopened.shaped hz.cons.2 hs.2).bind fun _ C hC => emits_of_sound fun hsound => ?_
  obtain ⟨ch, hch⟩ := hopened.waits hC.grown.pend
  have hadd : Runs (addBasicBlocks label) C False fun _ E => E = C.add label ch :=
    runs_addBasicBlocks hch rfl
  refine hadd.emits.bind ?_
  rintro _ _ rfl
  have hext : C.Extends (C.add label ch) := hsound.extends_add hch
  have hcode : (C.add label ch).code = C.code := hsound.code_add hch
  have hdecls : (C.add label ch).decls = A.decls := by
    rw [decls_add, hC.decls hs.1, hdeclsB]
  refine emits_pure ⟨fun _ => hdecls, fun place s w o hM hback hexec => ?_⟩
  -- the test holds and the branch runs, or the run jumps to the label behind it
  cases hexec with
  | thenTrue htest hi =>
    obtain ⟨tr, ht, rfl⟩ := htest
    obtain ⟨w₁, hM₁, hkept, hgo⟩ := hbranch.run hM ht
    have hM₂ : Matches place B (s.called tr) w₁ := hM₁.mono hopened.prolongs.vars hdeclsB
    have hends := hC.sim place _ w₁ o hM₂ ((hback.mono hext.vars).kept hkept) hi
    exact ((hends.before hgo hC.grown.prolongs hkept (s := s) rfl fun _ => rfl).extend hext
      hcode).mono fun _ => hs.1
  | thenFalse htest =>
    obtain ⟨tr, ht, rfl⟩ := htest
    obtain ⟨w₁, hM₁, hkept, k, hk, hgo⟩ := hbranch.run hM ht
    exact ⟨place, w₁, hgo.arrive hk hch (congrFun hC.grown.pend label) hC.grown.prolongs hsound,
      hM₁.mono ((hopened.prolongs.trans hC.grown.prolongs).trans hext.prolongs).vars hdecls,
      Places.refl place, hkept, rfl, fun _ => rfl⟩

/-- The step from one branch to the other: from its end, the first one jumps to the end of both,
and a jump to the second one gets there. -/
lemma sim_genElse {p : Prop} {x : Start} (h : Opened p x label A C) :
    Emits (genElse label) C dangles fun ifEnd D =>
      (Opened p (x.then .quad) ifEnd A D ∧ C.Prolongs D) ∧ D.decls = C.decls ∧
        Jumps M ifEnd C D ∧ ∀ {A' B' : Layout} {w w' : World} {k : ℕ},
          Goes M 0 A' B' w (.label k) w' → B'.JumpTarget label k → C.pend label = B'.pend label →
            B'.Prolongs C → Goes M 0 A' D w (.at D.code.length) w' := by
  have hrun : Emits (genElse label) C dangles fun ifEnd D =>
      C.Prolongs D ∧ D.decls = C.decls ∧
        Jumps M ifEnd C D ∧ ∀ {A' B' : Layout} {w w' : World} {k : ℕ},
          Goes M 0 A' B' w (.label k) w' → B'.JumpTarget label k → C.pend label = B'.pend label →
            B'.Prolongs C → Goes M 0 A' D w (.at D.code.length) w' := by
    refine sim_goto (M := M) h.shaped fun hC D hgoto hD hdecls hjumps => ?_
    obtain ⟨ch, hch⟩ := h.chain
    -- the label behind the branch is new, the other one has been waiting since the test
    have hne : label ≠ C.next := Nat.ne_of_lt (hC.label_lt hch)
    have hchD : D.pend label = some ch := (hgoto.pend label hne).trans hch
    have hext : D.Extends (D.add label ch) := hD.extends_add hchD
    have hend : Runs (addBasicBlocks label >>= fun _ => pure C.next) D False fun ifEnd E =>
        C.Prolongs E ∧ E.decls = C.decls ∧
          Jumps M ifEnd C E ∧ ∀ {A' B' : Layout} {w w' : World} {k : ℕ},
            Goes M 0 A' B' w (.label k) w' → B'.JumpTarget label k → C.pend label = B'.pend label →
              B'.Prolongs C → Goes M 0 A' E w (.at E.code.length) w' := by
      refine runs_addBasicBlocks_bind hchD (runs_pure ⟨hgoto.prolongs.trans hext.prolongs,
        by rw [decls_add, hdecls], fun w hw => ?_, fun hgo hk hpend hprolongs => ?_⟩)
      · obtain ⟨k, w', hk, hafter, hgo⟩ := hjumps w hw
        exact ⟨k, w', hk.congr (by rw [pend_add, Function.update_of_ne hne.symm]), hafter,
          hgo.extend hext⟩
      · exact hgo.arrive hk hchD ((hgoto.pend label hne).trans hpend)
          (hprolongs.trans hgoto.prolongs) hD
    exact hend.emits
  exact ((emits_genElse h).and hrun).mono id fun _ _ h => ⟨⟨h.1, h.2.1⟩, h.2.2⟩

lemma ifElse_sim {i₁ i₂ : Instr} (h₁ : InstrSim P M i₁) (h₂ : InstrSim P M i₂) :
    InstrSim P M (.ifElse e i₁ i₂) := by
  intro A hA hz hs
  simp only [exprsOf] at hz
  simp only [scopesOk, Bool.and_eq_true, Bool.not_eq_true'] at hs
  obtain ⟨⟨hdecl₁, hs₁⟩, hdecl₂, hs₂⟩ := hs
  obtain ⟨hz₁, hz₂⟩ := hz.cons.2.append
  rw [genInstr]
  refine (sim_genBranch (M := M) hA e hz.cons.1).bind fun label B hB => ?_
  obtain ⟨hopened, hdeclsB, hbranch⟩ := hB
  refine (h₁.post hopened.shaped hz₁ hs₁).bind fun _ C hC => ?_
  refine (sim_genElse (M := M) (hopened.trans hC.grown)).bind fun ifEnd D hD => ?_
  obtain ⟨⟨hopenedD, hCD⟩, hdeclsD, hjumps, harrive⟩ := hD
  refine (h₂.post hopenedD.shaped hz₂ hs₂).bind fun _ E hE => emits_of_sound fun hsound => ?_
  obtain ⟨ch, hch⟩ := hopenedD.waits hE.grown.pend
  have hadd : Runs (addBasicBlocks ifEnd) E False fun _ F => F = E.add ifEnd ch :=
    runs_addBasicBlocks hch rfl
  refine hadd.emits.bind ?_
  rintro _ _ rfl
  have hext : E.Extends (E.add ifEnd ch) := hsound.extends_add hch
  have hcode : (E.add ifEnd ch).code = E.code := hsound.code_add hch
  have hdeclsCA : C.decls = A.decls := by rw [hC.decls hdecl₁, hdeclsB]
  have hdeclsDA : D.decls = A.decls := by rw [hdeclsD, hdeclsCA]
  have hdecls : (E.add ifEnd ch).decls = A.decls := by rw [decls_add, hE.decls hdecl₂, hdeclsDA]
  have hDE : D.Prolongs E := hE.grown.prolongs
  have hCF : C.Prolongs (E.add ifEnd ch) := (hCD.trans hDE).trans hext.prolongs
  refine emits_pure ⟨fun _ => hdecls, fun place s w o hM hback hexec => ?_⟩
  cases hexec with
  | elseTrue htest hi =>
    obtain ⟨tr, ht, rfl⟩ := htest
    obtain ⟨w₁, hM₁, hkept, hgo⟩ := hbranch.run hM ht
    have hM₂ : Matches place B (s.called tr) w₁ := hM₁.mono hopened.prolongs.vars hdeclsB
    have hends := (hC.sim place _ w₁ o hM₂ ((hback.mono hCF.vars).kept hkept) hi).before hgo
      hC.grown.prolongs hkept (s := s) rfl fun _ => rfl
    cases o with
    | falls s' =>
      -- the first branch jumps over the second one
      obtain ⟨place', w₂, h⟩ := hends
      obtain ⟨k, w₃, hk, hafter, hgo'⟩ := hjumps w₂ h.isMatch.params
      have hgo₃ : Goes M 0 A D w (.label k) w₃ := h.goes.append hCD hgo'
      have hM₃ : Matches place' C s' w₃ := by
        have := h.isMatch.after hafter
        rwa [h.isMatch.trace] at this
      exact ⟨place', w₃, hgo₃.arrive hk hch (congrFun hE.grown.pend ifEnd) hDE hsound,
        hM₃.mono hCF.vars (hdecls.trans hdeclsCA.symm), h.places, h.kept.trans hafter.kept,
        h.saved, fun _ => h.scope hdecl₁⟩
    | returned v s' =>
      obtain ⟨p, arg, w', h⟩ := hends
      exact ⟨p, arg, w', h.prolong hCF⟩
  | elseFalse htest hi =>
    obtain ⟨tr, ht, rfl⟩ := htest
    obtain ⟨w₁, hM₁, hkept, k, hk, hgo⟩ := hbranch.run hM ht
    have hgo' : Goes M 0 A D w (.at D.code.length) w₁ :=
      harrive hgo hk (congrFun hC.grown.pend label) hC.grown.prolongs
    have hM₂ : Matches place D (s.called tr) w₁ := hM₁.mono hopenedD.prolongs.vars hdeclsDA
    have hends := hE.sim place _ w₁ o hM₂ ((hback.mono hext.vars).kept hkept) hi
    exact ((hends.before hgo' hDE hkept (s := s) rfl fun _ => rfl).extend hext hcode).mono
      fun _ => hdecl₂

end Branches

/-! ## Loops -/

section Loops

variable {label : ℕ} {is : List Instr} {F : Layout}

/-- A condition that does not refer to its destination never has the value to jump on. -/
lemma evalBool_of_refs_eq_zero {R : Reading} : ∀ (e : Expr) {sense t : Bool} {tr tr' : List Call},
    condOk e = true → refs e sense = 0 → evalBool M R e tr = some (t, tr') → t ≠ sense ∧ tr' = tr
  | .cmp _ _ _, _, _, _, _, _, h, _ | .ident _, _, _, _, _, _, h, _
  | .call _ _ _, _, _, _, _, _, h, _ => by simp [refs] at h
  | .bool value, sense, t, _, _, _, h, heval => by
    rw [evalBool_bool] at heval
    cases heval
    exact ⟨fun heq => by simp [refs, heq] at h, rfl⟩
  | .not e, sense, t, _, _, hok, h, heval => by
    rw [evalBool_not, Option.map_eq_some_iff] at heval
    obtain ⟨p, hp, heq⟩ := heval
    cases heq
    obtain ⟨hne, htr⟩ := evalBool_of_refs_eq_zero e (by simpa only [condOk] using hok)
      (by simpa only [refs] using h) hp
    exact ⟨fun heq => hne (by simp [← heq]), htr⟩
  | .and l r, sense, t, _, _, hok, h, heval => by
    cases sense with
    | true => simp [refs] at h
    | false =>
      simp only [condOk, Bool.and_eq_true] at hok
      simp only [refs, Bool.false_eq_true, if_false, Nat.add_eq_zero_iff] at h
      rw [evalBool_and, Option.bind_eq_some_iff] at heval
      obtain ⟨p, hl, hr⟩ := heval
      -- the left operand never jumps either, so the value is that of the right one
      obtain ⟨hne, htr⟩ := evalBool_of_refs_eq_zero l hok.1 h.1 hl
      rw [if_neg hne, htr] at hr
      exact evalBool_of_refs_eq_zero r hok.2 h.2 hr
  | .or l r, sense, t, _, _, hok, h, heval => by
    cases sense with
    | false => simp [refs] at h
    | true =>
      simp only [condOk, Bool.and_eq_true] at hok
      simp only [refs, if_true, Nat.add_eq_zero_iff] at h
      rw [evalBool_or, Option.bind_eq_some_iff] at heval
      obtain ⟨p, hl, hr⟩ := heval
      obtain ⟨hne, htr⟩ := evalBool_of_refs_eq_zero l hok.1 h.1 hl
      rw [if_neg hne, htr] at hr
      exact evalBool_of_refs_eq_zero r hok.2 h.2 hr
  | .int _, _, _, _, _, hok, _, _ | .double _, _, _, _, _, hok, _, _
  | .str _, _, _, _, _, hok, _, _ | .array _ _, _, _, _, _, hok, _, _
  | .binop _ _ _ _, _, _, _, _, hok, _, _ | .neg _ _, _, _, _, _, hok, _, _
  | .plus _ _, _, _, _, _, hok, _, _ => by simp [condOk] at hok

/-- The condition of a loop has been translated after the body, which begins at the end of the code
of `D`: the run goes back to the body, or on behind the condition. -/
def LoopsBack (M : Meaning) (e : Expr) (D C F : Layout) : Prop :=
  ∀ w t tr, w.params = [] → evalBool M.tame (C.reading w) e w.trace = some (t, tr) →
    ∃ w', After C w w' tr ∧
      Goes M 0 C F w (.at (if t then D.code.length else F.code.length)) w'

/-- The condition of a loop, whose first block stands where the body begins if the condition
refers to it. -/
lemma sim_loopCond (hC : C.Shaped) (hz : ZeroOk P (noIntNeg e))
    (hbody : refs e true = 0 ∨ (∃ b ∈ C.all, b.id = D.next ∧ b.lst ≠ []) ∧
      C.Settled D.next D.code.length) :
    Emits (genQuadrBoolExpr P e D.next true >>= fun _ => addNewBlock) C dangles fun _ F =>
      C.Extends F ∧ LoopsBack M e D C F := by
  have hbegin : ∀ E, C.Extends E → (∀ w t tr, w.params = [] →
      evalBool M.tame (C.reading w) e w.trace = some (t, tr) → ∃ w', After C w w' tr ∧
        Goes M 0 C E w (.at (if t then D.code.length else E.code.length)) w') →
      Emits addNewBlock E dangles fun _ F => C.Extends F ∧ LoopsBack M e D C F := by
    intro E hE hrun
    have hnew : Runs addNewBlock E False fun _ F => C.Extends F ∧ LoopsBack M e D C F := by
      refine runs_addNewBlock ⟨hE.trans extends_begin, fun w t tr hw heval => ?_⟩
      obtain ⟨w', hafter, hgo⟩ := hrun w t tr hw heval
      refine ⟨w', hafter, ?_⟩
      rw [code_begin]
      exact hgo.extend extends_begin
    exact hnew.emits
  rcases hbody with hrefs | ⟨hblock, hsettled⟩
  · have hgen : genQuadrBoolExpr P e D.next true = pure () ∨
        genQuadrBoolExpr P e D.next true = throw .abort := genQuadrBoolExpr_of_refs_eq_zero e hrefs
    rcases hgen with hgen | hgen
    · have hnothing : genQuadrBoolExpr P e D.next true (startFunction 0) =
          .ok ((), startFunction 0) := by
        rw [hgen]
        rfl
      have hok : condOk e = true := condOk_of_ok e hnothing
      rw [hgen, pure_bind]
      refine hbegin C (Extends.refl C) fun w t tr hw heval => ?_
      obtain ⟨hne, rfl⟩ := evalBool_of_refs_eq_zero e hok hrefs heval
      rw [if_neg (by simpa using hne)]
      exact ⟨w, After.refl C hw, goes_refl rfl⟩
    · rw [hgen]
      exact emits_abort
  · have hcond : CondSpec P M (fun _ => none) e := cond_spec e
    refine emits_of_sound fun hsound =>
      (hcond C D.next true hC (Or.inr hblock)).emits.bind fun _ E h => ?_
    refine hbegin E h.extends' fun w t tr hw heval => ?_
    obtain ⟨w', hafter, hgo⟩ := h.decides hz hw heval
    refine ⟨w', hafter, ?_⟩
    cases t with
    | false => simpa using hgo
    | true =>
      rw [if_pos rfl] at hgo ⊢
      obtain ⟨l, hl, hgo⟩ := hgo
      -- the first block of the body is in the list
      obtain ⟨δ, -, href⟩ := h.code
      have hlisted : E.pend D.next = none := by
        obtain ⟨b, hb, hid, -⟩ := hblock
        exact (href.listed (hid ▸ hsound.pend_none hb)).1
      obtain rfl : l = D.next := by
        rcases hl with ⟨ch, hch, -⟩ | ⟨-, hl⟩
        · rw [hlisted] at hch
          cases hch
        · exact hl
      exact Relation.ReflTransGen.tail hgo
        (Step.enter ⟨h.extends'.settled _ _ hsettled, Nat.zero_le _⟩)

/-- What is known of a loop that has been translated: the label of its condition, the layouts
before and after the body, and the layouts around the condition. -/
structure LoopPost (M : Meaning) (e : Expr) (is : List Instr) (A D C C' F : Layout) : Prop where
  before : A.Prolongs D
  body : D.begin.Prolongs C
  cond : C'.Extends F
  rest : C.Prolongs F
  code : C'.code = C.code
  vars : C.vars <+: C'.vars
  declsD : D.decls = A.decls
  declsC : C'.decls = A.decls
  sim : Simulates M True (ExecAll (storeSteps M.tame) is) D.begin C
  back : LoopsBack M e D C' F

lemma LoopPost.enter (h : LoopPost M e is A D C C' F) : A.vars <+: D.begin.vars :=
  List.IsPrefix.trans (show A.vars <+: D.vars from h.before.vars) extends_begin.vars

lemma LoopPost.leave (h : LoopPost M e is A D C C' F) : A.vars <+: C.vars :=
  h.enter.trans h.body.vars

/-- The condition of a loop is tested. -/
lemma LoopPost.test {t : Bool} {tr : List Call} (h : LoopPost M e is A D C C' F)
    (hM : Matches place A s w) (ht : HasTruth M.tame s e t tr) :
    ∃ w', Matches place A (s.called tr) w' ∧ Kept w w' ∧
      Goes M 0 C F w (.at (if t then D.code.length else F.code.length)) w' := by
  have hvars : A.vars <+: C'.vars := h.leave.trans h.vars
  obtain ⟨w', hafter, hgo⟩ := h.back w t tr hM.params ((hM.mono hvars h.declsC).truth ht)
  refine ⟨w', hM.after ⟨fun v hv => hafter.env v (Nat.lt_of_lt_of_le hv hvars.length_le),
    hafter.mem, hafter.trace, hafter.params⟩, hafter.kept, ?_⟩
  rw [Goes, ← h.code]
  exact hgo

/-- The body of a loop is executed. -/
lemma LoopPost.round {o : Outcome Store Value} (h : LoopPost M e is A D C C' F)
    (hM : Matches place A s w) (hback : Backed F w) (hbody : ExecAll (storeSteps M.tame) is s o) :
    Ends M True place D.begin C s w o :=
  h.sim place s w o (hM.mono h.enter (extends_begin.decls.trans h.declsD))
    (hback.mono h.rest.vars) hbody

/-- The rounds of a loop. -/
lemma LoopPost.ends (h : LoopPost M e is A D C C' F) : ∀ {s : Store} {w : World}
    {o : Outcome Store Value}, ExecLoop (storeSteps M.tame) e is s o → Matches place A s w →
      Backed F w → Ends M True place C F s w o
  | s, w, _, .done htest, hM, _ => by
    obtain ⟨tr, ht, rfl⟩ := htest
    obtain ⟨w', hM', hkept, hgo⟩ := h.test hM ht
    refine ⟨place, w', hgo, hM'.mono ?_ ?_, Places.refl place, hkept, rfl, fun _ => rfl⟩
    · exact h.leave.trans h.rest.vars
    · exact h.cond.decls.trans h.declsC
  | s, w, o, .round htest hbody hloop, hM, hback => by
    obtain ⟨tr, ht, rfl⟩ := htest
    obtain ⟨w₁, hM₁, hkept, hgo⟩ := h.test hM ht
    obtain ⟨place', w₂, hfell⟩ := h.round hM₁ (hback.kept hkept) hbody
    -- the objects of this round are forgotten
    have hM₂ : Matches place A _ w₂ := hM₁.forget hfell.isMatch hfell.places
      (hfell.scope trivial) h.leave
    have hkept₂ : Kept w w₂ := hkept.trans hfell.kept
    have hgo₂ : Goes M 0 C F w (.at C.code.length) w₂ :=
      Relation.ReflTransGen.trans hgo (code_begin (A := D) ▸ hfell.goes.prolong h.rest)
    exact (h.ends hloop hM₂ (hback.kept hkept₂)).reached hgo₂ hkept₂ hfell.saved hfell.scope
  | s, w, _, .returned htest hbody, hM, hback => by
    obtain ⟨tr, ht, rfl⟩ := htest
    obtain ⟨w₁, hM₁, hkept, hgo⟩ := h.test hM ht
    obtain ⟨p, arg, w₂, hcame⟩ := h.round hM₁ (hback.kept hkept) hbody
    have hcame' := hcame.prolong h.rest
    exact ⟨p, arg, w₂, Relation.ReflTransGen.trans hgo (code_begin (A := D) ▸ hcame'.goes),
      hcame'.ret, hcame'.value, hcame'.trace⟩

/-- The condition of a loop is put behind its body. -/
lemma sim_genLoopTail {p : Prop} {y : Start} (h : Opened True .quad label A D)
    (hjumps : Jumps M label A D) (hD : D.Sound) (hdeclsD : D.decls = A.decls)
    (hbody : Grown p y D.begin C) (hdeclsC : C.decls = D.begin.decls)
    (hsettled : (∃ b ∈ C.all, b.id = D.next ∧ b.lst ≠ []) → C.Settled D.next D.code.length)
    (hsim : Simulates M True (ExecAll (storeSteps M.tame) is) D.begin C)
    (hz : ZeroOk P (noIntNeg e)) :
    Emits (genLoopTail P e label D.next) C True fun _ F => F.decls = A.decls ∧
      Simulates M True (ExecLoop (storeSteps M.tame) e is) A F := by
  by_cases hok : refs e true = 0 ∨ y = .quad
  · refine emits_of_sound fun hC => ?_
    obtain ⟨ch, hchD⟩ := h.chain
    have hpend : C.pend label = D.pend label := by rw [hbody.pend, pend_begin hD]
    have hch : C.pend label = some ch := hpend.trans hchD
    have hadd : Runs (addBasicBlocks label) C False fun _ B => B = C.add label ch :=
      runs_addBasicBlocks hch rfl
    refine hadd.emits.bind ?_
    rintro _ _ rfl
    have hext : C.Extends (C.add label ch) := hC.extends_add hch
    have hcode : (C.add label ch).code = C.code := hC.code_add hch
    have hdecls : (C.add label ch).decls = A.decls := by
      rw [decls_add, hdeclsC, extends_begin.decls, hdeclsD]
    have hDC : D.Prolongs C := extends_begin.prolongs.trans hbody.prolongs
    refine (sim_loopCond (M := M) (D := D) (hC.shaped_add hch hbody.shaped.toEnded) hz
      (hok.imp_right fun hy => ?_)).mono id fun _ F hF => ?_
    · have hopens := hbody.opens
      rw [hy] at hopens
      obtain ⟨b, hb, hid, hne⟩ := hopens
      rw [cur_begin] at hid
      obtain ⟨b', hb', hid', hne'⟩ := hext.holds b hb hne
      exact ⟨⟨b', hb', hid'.trans hid, hne'⟩, hext.settled _ _ (hsettled ⟨b, hb, hid, hne⟩)⟩
    · have hCF : C.Prolongs F := hext.prolongs.trans hF.1.prolongs
      have hloop : LoopPost M e is A D C (C.add label ch) F :=
        ⟨h.prolongs, hbody.prolongs, hF.1, hCF, hcode, hext.vars, hdeclsD, hdecls, hsim, hF.2⟩
      refine ⟨hF.1.decls.trans hdecls, fun place s w o hM hback hexec => ?_⟩
      -- the first thing to be executed is the condition
      obtain ⟨k, w₁, hk, hafter, hgo⟩ := hjumps w hM.params
      have hM₁ : Matches place A s w₁ := by
        have := hM.after hafter
        rwa [hM.trace] at this
      have hgo₁ : Goes M 0 A F w (.at C.code.length) w₁ := by
        rw [← hcode]
        exact (hgo.arrive hk hch hpend hDC hC).extend hF.1
      exact (hloop.ends hexec hM₁ (hback.kept hafter.kept)).reached hgo₁ hafter.kept rfl
        fun _ => rfl
  · refine (emits_genLoopTail (P := P) (e := e) h hD hbody).mono (fun _ => trivial) fun _ _ hF => ?_
    exact absurd hF.1 hok

lemma sim_genLoopHead (hA : A.Shaped) :
    Emits genLoopHead A dangles fun r B => ∃ D, Opened True .quad r.1 A D ∧ Jumps M r.1 A D ∧
      D.Sound ∧ D.decls = A.decls ∧ r.2 = D.next ∧ B = D.begin := by
  refine sim_goto (M := M) hA fun _ D hgoto hD hdecls hjumps => ?_
  have hbody : Runs (newBasicBlock >>= fun body => addBasicBlocks body >>= fun _ =>
      pure (A.next, body)) D False (fun r B => ∃ D, Opened True .quad r.1 A D ∧ Jumps M r.1 A D ∧
        D.Sound ∧ D.decls = A.decls ∧ r.2 = D.next ∧ B = D.begin) :=
    runs_newBasicBlock_bind (runs_addBasicBlocks_bind pend_newLabel
      (runs_pure ⟨D, hgoto, hjumps, hD, hdecls, rfl, rfl⟩))
  exact hbody.emits

/-- Instructions one after the other. -/
lemma Simulates.cons {keep keep' : Prop} {i : Instr}
    (h : Simulates M keep (Exec (storeSteps M.tame) i) A B)
    (h' : Simulates M keep' (ExecAll (storeSteps M.tame) is) B C) (hBC : B.Prolongs C) :
    Simulates M (keep ∧ keep') (ExecAll (storeSteps M.tame) (i :: is)) A C := by
  intro place s w o hM hback hexec
  cases hexec with
  | cons hi his =>
    obtain ⟨place', w₁, hfell⟩ := h place s w _ hM (hback.mono hBC.vars) hi
    exact hfell.then hBC (h' place' _ w₁ o hfell.isMatch (hback.kept hfell.kept) his)
  | returned hi =>
    obtain ⟨p, arg, w', hcame⟩ := h place s w _ hM (hback.mono hBC.vars) hi
    exact ⟨p, arg, w', hcame.prolong hBC⟩

lemma simulates_nil : Simulates M True (ExecAll (storeSteps M.tame) []) A A := by
  intro place s w o hM _ hexec
  cases hexec
  exact Ends.refl hM

lemma Simulates.mono {keep keep' : Prop} {exec : Store → Outcome Store Value → Prop}
    (h : Simulates M keep exec A B) (hkeep : keep' → keep) : Simulates M keep' exec A B :=
  fun place s w o hM hback hexec => (h place s w o hM hback hexec).mono hkeep

lemma while_sim {i : Instr} (h : InstrSim P M i) : InstrSim P M (.whileDo e i) := by
  intro A hA hz hs
  simp only [exprsOf] at hz
  simp only [scopesOk, Bool.and_eq_true, Bool.not_eq_true'] at hs
  rw [genInstr]
  refine (sim_genLoopHead (M := M) hA).bind ?_
  rintro ⟨label, body⟩ _ ⟨D, hopened, hjumps, hD, hdeclsD, rfl, rfl⟩
  refine ((h.post hopened.shaped.toEnded.begin hz.cons.2 hs.2).entered (stays_genInstr i)).bind
    fun _ C hC => ?_
  have hsim : Simulates M True (ExecAll (storeSteps M.tame) [i]) D.begin C :=
    (hC.1.sim.cons simulates_nil (Extends.refl C).prolongs).mono fun _ => ⟨hs.1, trivial⟩
  refine (sim_genLoopTail hopened hjumps hD hdeclsD hC.1.grown (hC.1.decls hs.1) hC.2 hsim
    hz.cons.1).bind fun _ F hF => emits_pure ⟨fun _ => hF.1, fun place s w o hM hback hexec => ?_⟩
  cases hexec with
  | whileDo hloop => exact (hF.2 place s w o hM hback hloop).mono fun _ => trivial

lemma for_sim {i₁ i₃ i : Instr} (h₁ : InstrSim P M i₁) (h₃ : InstrSim P M i₃)
    (h : InstrSim P M i) : InstrSim P M (.forDo i₁ e i₃ i) := by
  intro A hA hz hs
  simp only [exprsOf] at hz
  simp only [scopesOk, Bool.and_eq_true, Bool.not_eq_true'] at hs
  obtain ⟨⟨⟨hdecl₁, hs₁⟩, hdecl₃, hs₃⟩, hdecl, hs⟩ := hs
  obtain ⟨hzbody, hz₃⟩ := hz.append.2.cons.2.append
  rw [genInstr]
  refine (h₁.post hA hz.append.1 hs₁).bind fun _ B hB => ?_
  refine (sim_genLoopHead (M := M) hB.grown.shaped).bind ?_
  rintro ⟨label, body⟩ _ ⟨D, hopened, hjumps, hD, hdeclsD, rfl, rfl⟩
  -- the body and the third instruction run as one list
  have hbody : Emits (genInstr P i >>= fun _ => genInstr P i₃) D.begin True fun _ C =>
      Grown (targetsOk i = true ∧ targetsOk i₃ = true) ((startsInstr i).then (startsInstr i₃))
        D.begin C ∧ C.decls = D.begin.decls ∧
          Simulates M True (ExecAll (storeSteps M.tame) [i, i₃]) D.begin C := by
    refine (h.post hopened.shaped.toEnded.begin hzbody hs).bind fun _ C hC => ?_
    refine (h₃.post hC.grown.shaped hz₃ hs₃).mono id fun _ C' hC' => ?_
    have hlast : Simulates M True (ExecAll (storeSteps M.tame) [i₃]) C C' :=
      (hC'.sim.cons simulates_nil (Extends.refl C').prolongs).mono fun _ => ⟨hdecl₃, trivial⟩
    exact ⟨hC.grown.trans hC'.grown, (hC'.decls hdecl₃).trans (hC.decls hdecl),
      (hC.sim.cons hlast hC'.grown.prolongs).mono fun _ => ⟨hdecl, trivial⟩⟩
  have hall := (hbody.entered ((stays_genInstr i).seq fun _ => stays_genInstr i₃)).bind
    (f := fun _ => genLoopTail P e label D.next >>= fun _ => pure false)
    (Q := fun _ F => (declares (.forDo i₁ e i₃ i) = false → F.decls = A.decls) ∧
      Simulates M (declares (.forDo i₁ e i₃ i) = false)
        (Exec (storeSteps M.tame) (.forDo i₁ e i₃ i))
        A F) fun _ C hC => ?_
  · rwa [bind_assoc] at hall
  · obtain ⟨⟨hgrown, hdeclsC, hsim⟩, hsettled⟩ := hC
    have htail := (sim_genLoopTail (P := P) (e := e) hopened hjumps hD hdeclsD hgrown hdeclsC
      hsettled hsim hz.append.2.cons.1).and ((emits_genLoopTail (P := P) (e := e) hopened hD
        hgrown).mono (fun _ => trivial) fun _ _ h => h)
    refine htail.bind fun _ F hF => emits_pure ?_
    obtain ⟨⟨hdeclsF, hloop⟩, -, hgrownF⟩ := hF
    refine ⟨fun _ => hdeclsF.trans (hB.decls hdecl₁), fun place s w o hM hback hexec => ?_⟩
    -- the first instruction falls through into the loop, or returns before it
    cases hexec with
    | forDo hi hexec =>
      obtain ⟨place', w₁, hfell⟩ := hB.sim place s w _ hM (hback.mono hgrownF.prolongs.vars) hi
      exact (hfell.then hgrownF.prolongs (hloop place' _ w₁ o hfell.isMatch
        (hback.kept hfell.kept) hexec)).mono fun _ => ⟨hdecl₁, trivial⟩
    | forReturned hi =>
      obtain ⟨p, arg, w', hcame⟩ := hB.sim place s w _ hM (hback.mono hgrownF.prolongs.vars) hi
      exact ⟨p, arg, w', hcame.prolong hgrownF.prolongs⟩

end Loops

end Javalette.Front
