import Javalette.Quadr.Conditions

/-!
# Where expressions are translated correctly

The theorems about translated expressions, for the state of the front end itself: the list of
blocks linked in memory, the current block, and any function that the code becomes part of.

The code computes the rewritten expression (`lower`), and gets stuck where that has no value.
Quadruples run in one way only, so the code computes the expression itself exactly where rewriting
makes no difference.  It does on doubles that are not numbers, on the negation of `0.0`, and on
negated integers if the platform does not read zero for the double `0.0`; and an element of an
array is not known to `gen_quadr_bool_expr`.
-/

namespace Javalette.Front

open SyntaxTree Layout

variable {P : Platform} {M : Meaning} {sig : ℕ → Option (List Ty × Ty)}
variable {A B C : Layout} {e : Expr} {s : GenState} {w w' : World} {p : Point} {n : ℕ}

/-! ## Runs of a finished function -/

namespace Layout

/-- The blocks of the function are where the list has them. -/
def At (A : Layout) (l pos : ℕ) : Prop := labelPos A.all l = some pos

/-- The same for the blocks from the position `n` on. -/
def AtFrom (A : Layout) (n l pos : ℕ) : Prop := A.At l pos ∧ n ≤ pos

lemma onePosition_at : OnePosition A.At :=
  fun _ _ _ h h' => Option.some.inj (h.symm.trans h')

lemma onePosition_atFrom : OnePosition (A.AtFrom n) :=
  fun _ _ _ h h' => onePosition_at _ _ _ h.1 h'.1

end Layout

/-- From the end of the code of `A`, control gets to the point `p`, in the function as `B` has it
and in every function that it becomes. -/
def Leads (M : Meaning) (A B : Layout) (w : World) (p : Point) (w' : World) : Prop :=
  ∀ C : Layout, B.Extends C → C.Sound → Run M C.code C.At (.at A.code.length, w) (p, w')

/-- The same without entering a block that lies before the end of the code of `A`. -/
def Arrives (M : Meaning) (A B : Layout) (w : World) (p : Point) (w' : World) : Prop :=
  ∀ C : Layout, B.Extends C → C.Sound →
    Run M C.code (C.AtFrom A.code.length) (.at A.code.length, w) (p, w')

lemma Goes.leads (h : Goes M n A B w p w') : Leads M A B w p w' :=
  fun _ hext hsound => (hext.run h).mono List.prefix_rfl fun _ _ hl => hsound.labelPos hl.1

/-- In a run of a finished function the blocks of a restricted one are where they are to be. -/
lemma Goes.run (h : Goes M n A B w p w') (hB : B.Sound) :
    Run M B.code (B.AtFrom n) (.at A.code.length, w) (p, w') :=
  h.mono List.prefix_rfl fun _ _ hl => ⟨hB.labelPos hl.1, hl.2⟩

lemma Goes.arrives (h : Goes M A.code.length A B w p w') : Arrives M A B w p w' :=
  fun _ hext hsound => Goes.run (hext.run h) hsound

/-- Code that gets stuck does not get anywhere else. -/
lemma Stuck.not_run (h : Stuck M n A B w) (hB : B.Sound) {c : Point × World}
    (hrun : Run M B.code (B.AtFrom n) (.at A.code.length, w) c)
    (hc : Final M B.code (B.AtFrom n) c) (hne : ∀ pos, pos < B.code.length → c.1 ≠ .at pos) :
    False := by
  obtain ⟨pos, w₁, q, hgo, hq, hexec⟩ := h
  have heq := (hgo.run hB).final_unique onePosition_atFrom hrun (final_stuck hq hexec) hc
  exact hne pos (List.getElem?_eq_some_iff.mp hq).1 (congrArg Prod.fst heq).symm

/-- What is computed in a run to the end is the outcome. -/
lemma Delivers.of_run {α : Type} {o : Option (α × List Call)} {R : α → World → Prop}
    (h : Delivers M n A B w o R) (hB : B.Sound)
    (hrun : Run M B.code (B.AtFrom n) (.at A.code.length, w) (.at B.code.length, w')) :
    ∃ x tr, o = some (x, tr) ∧ After A w w' tr ∧ R x w' := by
  rcases o with _ | ⟨x, tr⟩
  · refine (Stuck.not_run h hB hrun final_end fun pos hpos heq => ?_).elim
    exact Nat.ne_of_gt hpos (Point.at.inj heq)
  · obtain ⟨w₁, hafter, hgo, hx⟩ := h
    have heq := (hgo.run hB).final_unique onePosition_atFrom hrun final_end final_end
    obtain rfl : w₁ = w' := congrArg Prod.snd heq
    exact ⟨x, tr, rfl, hafter, hx⟩

/-! ## Conditions -/

/-- A computation with the triple that does not abort ends in a layout with the postcondition. -/
lemma Runs.result {α : Type} {m : Gen α} {abort : Prop} {Q : α → Layout → Prop}
    (h : Runs m A abort Q) (hs : Rep s A) (habort : ¬abort) :
    ∃ a s' B, m s = .ok (a, s') ∧ Rep s' B ∧ Q a B := by
  have h := h s hs
  cases hr : m s with
  | ok p =>
    rw [hr] at h
    obtain ⟨B, hB, hQ⟩ := h
    exact ⟨p.1, p.2, B, rfl, hB, hQ⟩
  | error err =>
    rw [hr] at h
    cases err with
    | abort => exact absurd h habort
    | _ => exact h.elim

/-- The code of a condition does what the truth value `t` asks for, when the calls `tr` have been
made: control gets to `dest`, or to a block that hangs on it, if `t` is the value to jump on, and
else to the block that is then the current one. -/
def Controls (M : Meaning) (A B : Layout) (dest : ℕ) (sense : Bool) (w : World) (t : Bool)
    (tr : List Call) : Prop :=
  ∃ w', After A w w' tr ∧
    if t = sense then ∃ l, B.JumpTarget dest l ∧ Arrives M A B w (.label l) w'
    else Arrives M A B w (.at B.code.length) w'

/-- The destination is a way out: it is not in the list, or it lies before the code. -/
lemma final_dest {dest l : ℕ} {sense : Bool} (hdest : A.DestOk dest)
    (h : JumpPost P M e dest sense A B) (hB : B.Sound) (hl : B.JumpTarget dest l) :
    Final M B.code (B.AtFrom A.code.length) (.label l, w) := by
  refine final_label fun pos hpos => ?_
  obtain ⟨δ, -, href⟩ := h.code
  rcases hl with ⟨ch, hch, b, hb, rfl, -⟩ | ⟨hnone, rfl⟩
  · obtain ⟨c, hc, hid⟩ := mem_of_labelPos hpos.1
    exact hB.labelApart _ _ hch b hb c hc hid.symm
  · rcases hdest with ⟨ch, hch⟩ | ⟨b, hb, rfl, hne⟩
    · obtain ⟨ch', hch', -⟩ := href.pending ch hch
      rw [hnone] at hch'
      cases hch'
    · obtain ⟨xs, ys, hall⟩ := List.append_of_mem hb
      have hsettled : A.Settled b.id (codeOf xs).length :=
        ⟨xs, b, ys, hall, rfl, rfl, Or.inr (Or.inr hne)⟩
      have hat := hB.labelPos (h.extends'.settled _ _ hsettled)
      obtain rfl := onePosition_at _ _ _ hat hpos.1
      have hlen : A.code.length = (codeOf xs).length + (b.lst.length + (codeOf ys).length) := by
        simp [Layout.code, hall]
      have := List.length_pos_of_ne_nil hne
      have := hpos.2
      omega

/-- The run through a condition has ended as the truth value `t` asks for. -/
structure EndsFor (M : Meaning) (A B : Layout) (sense : Bool) (w : World) (t : Bool) (p : Point)
    (w' : World) : Prop where
  run : Run M B.code (B.AtFrom A.code.length) (.at A.code.length, w) (p, w')
  isFinal : Final M B.code (B.AtFrom A.code.length) (p, w')
  left : t = sense → ∃ l, p = .label l
  fell : t ≠ sense → p = .at B.code.length

lemma EndsFor.unique {sense t t' : Bool} {p' : Point} {w₁ w₂ : World}
    (h : EndsFor M A B sense w t p w₁) (h' : EndsFor M A B sense w t' p' w₂) :
    t = t' ∧ w₁ = w₂ := by
  obtain ⟨rfl, rfl⟩ :=
    Prod.mk.inj (h.run.final_unique onePosition_atFrom h'.run h.isFinal h'.isFinal)
  refine ⟨?_, rfl⟩
  by_cases ht : t = sense <;> by_cases ht' : t' = sense
  · rw [ht, ht']
  · obtain ⟨l, hl⟩ := h.left ht
    rw [hl] at h'
    cases h'.fell ht'
  · obtain ⟨l, hl⟩ := h'.left ht'
    rw [hl] at h
    cases h.fell ht
  · rw [Bool.eq_not.mpr ht, Bool.eq_not.mpr ht']

lemma EndsFor.not_stuck {sense t : Bool} (h : EndsFor M A B sense w t p w') (hB : B.Sound) :
    ¬Stuck M A.code.length A B w := by
  intro hstuck
  refine Stuck.not_run hstuck hB h.run h.isFinal fun pos hpos heq => ?_
  by_cases ht : t = sense
  · obtain ⟨l, hl⟩ := h.left ht
    rw [hl] at heq
    cases heq
  · rw [h.fell ht] at heq
    exact Nat.ne_of_gt hpos (Point.at.inj heq)

lemma Controls.endsFor {dest : ℕ} {sense t : Bool} {tr : List Call} (hdest : A.DestOk dest)
    (hjump : JumpPost P M e dest sense A B) (hB : B.Sound) (h : Controls M A B dest sense w t tr) :
    ∃ p w', After A w w' tr ∧ EndsFor M A B sense w t p w' := by
  obtain ⟨w', hafter, hgo⟩ := h
  by_cases ht : t = sense
  · rw [if_pos ht] at hgo
    obtain ⟨l, hl, hgo⟩ := hgo
    exact ⟨_, w', hafter, hgo B (Extends.refl B) hB, final_dest hdest hjump hB hl,
      fun _ => ⟨l, rfl⟩, fun hne => absurd ht hne⟩
  · rw [if_neg ht] at hgo
    exact ⟨_, w', hafter, hgo B (Extends.refl B) hB, final_end, fun heq => absurd heq ht,
      fun _ => rfl⟩

/-- The code of a condition does what the truth value and the calls of the rewritten condition ask
for, and nothing else. -/
lemma JumpPost.controls_iff {dest : ℕ} {sense t : Bool} {tr : List Call}
    (h : JumpPost P M e dest sense A B) (hdest : A.DestOk dest) (hB : B.Sound)
    (hw : w.params = []) :
    Controls M A B dest sense w t tr ↔
      evalBool M (A.reading w) (lowerCond P e sense) w.trace = some (t, tr) := by
  have hmeaning := h.meaning _ w (Nat.le_refl _) hw
  have hcontrols : ∀ t' tr', evalBool M (A.reading w) (lowerCond P e sense) w.trace =
      some (t', tr') → Controls M A B dest sense w t' tr' := by
    intro t' tr' ho
    rw [ho] at hmeaning
    obtain ⟨w', hafter, hgo⟩ := hmeaning
    refine ⟨w', hafter, ?_⟩
    by_cases ht : t' = sense
    · rw [if_pos ht] at hgo ⊢
      obtain ⟨l, hl, hgo⟩ := hgo
      exact ⟨l, hl, hgo.arrives⟩
    · rw [if_neg ht] at hgo ⊢
      exact hgo.arrives
  refine ⟨fun hc => ?_, hcontrols t tr⟩
  obtain ⟨p, w', hafter, hends⟩ := hc.endsFor hdest h hB
  -- the run that is asked for has ended, so it is the run of the code
  rcases ho : evalBool M (A.reading w) (lowerCond P e sense) w.trace with _ | ⟨t', tr'⟩
  · rw [ho] at hmeaning
    exact absurd hmeaning (hends.not_stuck hB)
  · obtain ⟨p₁, w₁, hafter₁, hends₁⟩ := (hcontrols t' tr' ho).endsFor hdest h hB
    obtain ⟨rfl, rfl⟩ := hends.unique hends₁
    rw [← hafter.trace, hafter₁.trace]

/-- The code leaves the value in the operand, when the calls `tr` have been made, and changes no
variable that was there before. -/
def LeavesValue (M : Meaning) (A B : Layout) (arg : Arg) (w : World) (v : Value)
    (tr : List Call) : Prop :=
  ∃ w', After A w w' tr ∧ readArg w' arg = some v ∧ Leads M A B w (.at B.code.length) w'

/-- The code leaves the value of the rewritten expression, and no other. -/
lemma ExprPost.leavesValue_iff {arg : Arg} {v : Value} {tr : List Call}
    (h : ExprPost P M e A arg B) (hB : B.Sound) (hw : w.params = []) :
    LeavesValue M A B arg w v tr ↔
      evalExpr M (A.reading w) (lower P e) w.trace = some (v, tr) := by
  have hmeaning := h.meaning 0 w (Nat.zero_le _) hw
  constructor
  · rintro ⟨w', hafter, hread, hgo⟩
    have hrun : Run M B.code (B.AtFrom 0) (.at A.code.length, w) (.at B.code.length, w') :=
      (hgo B (Extends.refl B) hB).mono List.prefix_rfl fun _ _ hl => ⟨hl, Nat.zero_le _⟩
    obtain ⟨v', tr', ho, hafter', hread'⟩ := hmeaning.of_run hB hrun
    rw [ho, Option.some.inj (hread'.symm.trans hread), ← hafter'.trace, hafter.trace]
  · intro ho
    rw [ho] at hmeaning
    obtain ⟨w', hafter, hgo, hread⟩ := hmeaning
    exact ⟨w', hafter, hread, hgo.leads⟩

lemma boolValue_inj {t t' : Bool} (h : boolValue t = boolValue t') : t = t' := by
  cases t <;> cases t' <;> first | rfl | cases h

/-- A condition as a value is `0` or `1`. -/
lemma evalExpr_condition_iff {R : Reading} {tr tr' : List Call} {t : Bool}
    (h : isCondition e = true) :
    evalExpr M R e tr = some (boolValue t, tr') ↔ evalBool M R e tr = some (t, tr') := by
  rw [evalExpr_condition h, Option.map_eq_some_iff]
  constructor
  · rintro ⟨⟨t', tr''⟩, ho, heq⟩
    obtain ⟨ht, rfl⟩ := Prod.mk.inj heq
    obtain rfl : t' = t := boolValue_inj ht
    exact ho
  · exact fun ho => ⟨_, ho, rfl⟩

/-- A function with the variable `x` of the type. -/
def oneVariable (type : Ty) (qtype : VarType) : GenState :=
  { startFunction 0 with
    vars := [⟨type, qtype⟩], decls := fun y => if y = "x" then some 0 else none }

/-- The layout of a function with the variable `x`. -/
def oneVariableLayout (type : Ty) (qtype : VarType) : Layout :=
  { Layout.start 0 with
    vars := [⟨type, qtype⟩], decls := fun y => if y = "x" then some 0 else none }

lemma rep_oneVariable (type : Ty) (qtype : VarType) :
    Rep (oneVariable type qtype) (oneVariableLayout type qtype) :=
  (rep_start 0).withDecls _ _

lemma shaped_oneVariable (type : Ty) (qtype : VarType) : (oneVariableLayout type qtype).Shaped := by
  refine ⟨⟨(shaped_start 0).closed, (shaped_start 0).params, fun y v hv => ?_⟩,
    (shaped_start 0).plain⟩
  simp only [oneVariableLayout] at hv ⊢
  split at hv <;> simp_all

/-- A new label can be jumped to. -/
lemma newBasicBlock_oneVariable (type : Ty) (qtype : VarType) :
    ∃ g, newBasicBlock (oneVariable type qtype) = .ok ((oneVariableLayout type qtype).next, g) ∧
      Rep g (oneVariableLayout type qtype).newLabel := by
  have hlabel : Runs newBasicBlock (oneVariableLayout type qtype) False fun l B =>
      l = (oneVariableLayout type qtype).next ∧ B = (oneVariableLayout type qtype).newLabel :=
    runs_newBasicBlock ⟨rfl, rfl⟩
  obtain ⟨dest, g, A, hnew, hg, rfl, rfl⟩ := hlabel.result (rep_oneVariable type qtype) id
  exact ⟨g, hnew, hg⟩

/-- A platform that reads zero for an argument of the other type. -/
def zeroPlatform : Platform := ⟨fun _ => 0, fun _ => 0⟩

/-- Arithmetic yields zero, and so does every call; doubles are compared and negated as on the
machine. -/
def zeroMeaning : Meaning := .ieee (fun _ _ _ => 0) fun _ _ _ => some (.int 0)

/-- The variables have the value and there are no arrays. -/
def worldOf (v : Value) : World := ⟨fun _ => v, fun _ _ => none, [], []⟩

/-- A double that is not a number. -/
def nan : BitVec 64 := 0x7FF8000000000000

lemma ok_of_bind {α β : Type} {m : Gen α} {f : α → Gen β} {r : β × GenState}
    (h : (m >>= f) s = .ok r) : ∃ a s', m s = .ok (a, s') ∧ f a s' = .ok r := by
  change (m s).bind (fun p => f p.1 p.2) = .ok r at h
  cases hm : m s with
  | ok p =>
    rw [hm] at h
    exact ⟨p.1, p.2, rfl, h⟩
  | error err =>
    rw [hm] at h
    cases h

lemma jumpsOk_of_condOk (h : condOk e = true) : jumpsOk e = true := by
  cases e <;> simp_all [condOk, jumpsOk]

/-- The boolean case of `gen_quadr_expr` translates a condition. -/
lemma cond_of_jumping {r : Arg × GenState} (hjump : isJumping e = true)
    (h : genQuadrExpr P e s = .ok r) :
    ∃ dest s' r', genQuadrBoolExpr P e dest true s' = .ok r' := by
  rw [genQuadrExpr_jumping hjump] at h
  obtain ⟨_, _, -, h⟩ := ok_of_bind h
  obtain ⟨dest, s', -, h⟩ := ok_of_bind h
  obtain ⟨_, _, h, -⟩ := ok_of_bind h
  exact ⟨dest, s', _, h⟩

/-- An operation is translated operand by operand, unless its type is boolean. -/
lemma not_jumping {r : Arg × GenState} (h : genQuadrExpr P e s = .ok r)
    (hgen : ∀ dest sense, genQuadrBoolExpr P e dest sense = throw .abort) :
    isJumping e = false := by
  by_contra hjump
  obtain ⟨dest, s', r', h'⟩ := cond_of_jumping (by simpa using hjump) h
  rw [hgen] at h'
  cases h'

mutual

/-- An expression that is translated has no element of an array for a condition. -/
lemma jumpsOk_of_ok : ∀ (e : Expr) {s : GenState} {r : Arg × GenState},
    genQuadrExpr P e s = .ok r → jumpsOk e = true
  | .int _, _, _, _ | .double _, _, _, _ | .str _, _, _, _ | .ident _, _, _, _
  | .bool _, _, _, _ => by
    simp only [jumpsOk]
  | .array x i, s, r, h => by
    rw [genQuadrExpr] at h
    obtain ⟨_, _, -, h⟩ := ok_of_bind h
    obtain ⟨_, _, -, h⟩ := ok_of_bind h
    obtain ⟨_, _, -, h⟩ := ok_of_bind h
    obtain ⟨_, _, hi, -⟩ := ok_of_bind h
    simp only [jumpsOk, jumpsOk_of_ok i hi]
  | .cmp op l r, s, _, h => by
    obtain ⟨_, _, _, h⟩ := cond_of_jumping rfl h
    exact jumpsOk_of_condOk (condOk_of_ok _ h)
  | .and l r, s, _, h => by
    obtain ⟨_, _, _, h⟩ := cond_of_jumping rfl h
    exact jumpsOk_of_condOk (condOk_of_ok _ h)
  | .or l r, s, _, h => by
    obtain ⟨_, _, _, h⟩ := cond_of_jumping rfl h
    exact jumpsOk_of_condOk (condOk_of_ok _ h)
  | .not e, s, _, h => by
    obtain ⟨_, _, _, h⟩ := cond_of_jumping rfl h
    exact jumpsOk_of_condOk (condOk_of_ok _ h)
  | .binop op type l r, s, _, h => by
    -- no condition to generate here, so the branch with the two labels is not taken
    have hjump := not_jumping h fun _ _ => by unfold genQuadrBoolExpr; rfl
    rw [genQuadrExpr, if_neg (by simp [hjump])] at h
    obtain ⟨_, _, -, h⟩ := ok_of_bind h
    obtain ⟨_, _, hl, h⟩ := ok_of_bind h
    obtain ⟨_, _, hr, -⟩ := ok_of_bind h
    simp only [jumpsOk, jumpsOk_of_ok l hl, jumpsOk_of_ok r hr, Bool.and_self]
  | .neg type e, s, _, h => by
    have hjump := not_jumping h fun _ _ => by unfold genQuadrBoolExpr; rfl
    rw [genQuadrExpr, if_neg (by simp [hjump])] at h
    obtain ⟨_, _, -, h⟩ := ok_of_bind h
    obtain ⟨_, _, -, h⟩ := ok_of_bind h
    obtain ⟨_, _, he, -⟩ := ok_of_bind h
    simp only [jumpsOk, jumpsOk_of_ok e he]
  | .plus type e, s, _, h => by
    have hjump := not_jumping h fun _ _ => by unfold genQuadrBoolExpr; rfl
    rw [genQuadrExpr, if_neg (by simp [hjump])] at h
    simp only [jumpsOk, jumpsOk_of_ok e h]
  | .call type func es, s, _, h => by
    by_cases hjump : isJumping (.call type func es) = true
    · obtain ⟨_, _, _, h⟩ := cond_of_jumping hjump h
      exact jumpsOk_of_condOk (condOk_of_ok _ h)
    · rw [genQuadrExpr, if_neg hjump] at h
      obtain ⟨_, _, hes, -⟩ := ok_of_bind h
      simp only [jumpsOk, argsOk_of_ok es hes]
termination_by e => 2 * sizeOf e + 1

lemma condOk_of_ok : ∀ (e : Expr) {dest : ℕ} {sense : Bool} {s : GenState} {r : Unit × GenState},
    genQuadrBoolExpr P e dest sense s = .ok r → condOk e = true
  | .bool _, _, _, _, _, _ | .ident _, _, _, _, _, _ => by simp only [condOk]
  | .cmp op l r, _, _, _, _, h => by
    rw [genQuadrBoolExpr] at h
    obtain ⟨_, _, -, h⟩ := ok_of_bind h
    obtain ⟨_, _, hl, h⟩ := ok_of_bind h
    obtain ⟨_, _, hr, -⟩ := ok_of_bind h
    simp only [condOk, jumpsOk_of_ok l hl, jumpsOk_of_ok r hr, Bool.and_self]
  | .and l r, _, sense, _, _, h => by
    rw [genQuadrBoolExpr] at h
    cases sense with
    | true =>
      rw [if_pos rfl] at h
      obtain ⟨_, _, -, h⟩ := ok_of_bind h
      obtain ⟨_, _, hl, h⟩ := ok_of_bind h
      obtain ⟨_, _, hr, -⟩ := ok_of_bind h
      simp only [condOk, condOk_of_ok l hl, condOk_of_ok r hr, Bool.and_self]
    | false =>
      rw [if_neg (by simp)] at h
      obtain ⟨_, _, hl, hr⟩ := ok_of_bind h
      simp only [condOk, condOk_of_ok l hl, condOk_of_ok r hr, Bool.and_self]
  | .or l r, _, sense, _, _, h => by
    rw [genQuadrBoolExpr] at h
    cases sense with
    | false =>
      rw [if_neg (by simp)] at h
      obtain ⟨_, _, -, h⟩ := ok_of_bind h
      obtain ⟨_, _, hl, h⟩ := ok_of_bind h
      obtain ⟨_, _, hr, -⟩ := ok_of_bind h
      simp only [condOk, condOk_of_ok l hl, condOk_of_ok r hr, Bool.and_self]
    | true =>
      rw [if_pos rfl] at h
      obtain ⟨_, _, hl, hr⟩ := ok_of_bind h
      simp only [condOk, condOk_of_ok l hl, condOk_of_ok r hr, Bool.and_self]
  | .not e, _, _, _, _, h => by
    rw [genQuadrBoolExpr] at h
    simp only [condOk, condOk_of_ok e h]
  | .call type func es, _, _, _, _, h => by
    rw [genQuadrBoolExpr] at h
    obtain ⟨_, _, -, h⟩ := ok_of_bind h
    obtain ⟨_, _, hes, -⟩ := ok_of_bind h
    simp only [condOk, argsOk_of_ok es hes]
  | .int _, _, _, _, _, h | .double _, _, _, _, _, h | .str _, _, _, _, _, h
  | .array _ _, _, _, _, _, h | .binop _ _ _ _, _, _, _, _, h | .neg _ _, _, _, _, _, h
  | .plus _ _, _, _, _, _, h => by
    unfold genQuadrBoolExpr at h
    cases h
termination_by e => 2 * sizeOf e

lemma argsOk_of_ok : ∀ (es : List Expr) {s : GenState} {r : List Arg × GenState},
    genArgs P es s = .ok r → argsOk es = true
  | [], _, _, _ => by simp only [argsOk]
  | e :: es, s, r, h => by
    rw [genArgs] at h
    obtain ⟨_, _, he, h⟩ := ok_of_bind h
    obtain ⟨_, _, hes, -⟩ := ok_of_bind h
    simp only [argsOk, jumpsOk_of_ok e he, argsOk_of_ok es hes, Bool.and_self]
termination_by es => 2 * sizeOf es

end

/-! ## Values -/

/-- The translation of the expression computes its value from the world `w`: it leaves the value in
the operand that it returns, makes the same calls, and changes no variable that was there before;
parameters stand immediately before their call. -/
def ExprCorrect (P : Platform) (M : Meaning) (e : Expr) (A : Layout) (s : GenState) (w : World) :
    Prop :=
  ∃ arg s' B, genQuadrExpr P e s = .ok (arg, s') ∧ Rep s' B ∧ A.Extends B ∧
    (∀ b ∈ B.all, paramsAdjacent b.lst = true) ∧
    ∀ v tr, evalExpr M (A.reading w) e w.trace = some (v, tr) → LeavesValue M A B arg w v tr

lemma exprCorrect_of_agrees {t : Ty} (hs : Rep s A) (hA : A.Shaped)
    (htyped : WellTyped (A.types sig) e t) (hok : jumpsOk e = true) (hw : w.params = [])
    (h : Agrees (evalExpr M (A.reading w) e w.trace)
      (evalExpr M (A.reading w) (lower P e) w.trace)) : ExprCorrect P M e A s w := by
  obtain ⟨arg, s', B, hrun, hB, hpost⟩ := (expr_spec (P := P) (M := M) e A hA).result hs
    fun hno => hno ⟨t, htyped, hok⟩
  refine ⟨arg, s', B, hrun, hB, hpost.extends', hpost.shaped.params, fun v tr heval => ?_⟩
  exact (hpost.leavesValue_iff hB.sound hw).mpr (h _ heval)

lemma agrees_of_exprCorrect (hs : Rep s A) (hA : A.Shaped) (hw : w.params = [])
    (h : ExprCorrect P M e A s w) :
    Agrees (evalExpr M (A.reading w) e w.trace)
      (evalExpr M (A.reading w) (lower P e) w.trace) := by
  obtain ⟨arg, s', B, hrun, hB, -, -, hleaves⟩ := h
  have hspec : ExprSpec P M (fun _ => none) e := expr_spec e
  have hruns := hspec A hA s hs
  rw [hrun] at hruns
  obtain ⟨B', hB', hpost⟩ := hruns
  obtain rfl := hB.unique hB'
  intro p hp
  exact (hpost.leavesValue_iff hB.sound hw).mp (hleaves p.1 p.2 hp)

/-- An expression is translated correctly exactly if no element of an array stands for a condition
in it and it has the same value and the same calls when each unary minus is taken for the
difference from the zero that `quadr_arg` passes, and each comparison that is tested for a jump on
false for the negation of the opposite one. -/
theorem expr_correct_iff {t : Ty} (hs : Rep s A) (hA : A.Shaped)
    (htyped : WellTyped (A.types sig) e t) (hw : w.params = []) :
    ExprCorrect P M e A s w ↔
      jumpsOk e = true ∧ ∀ v tr, evalExpr M (A.reading w) e w.trace = some (v, tr) →
        evalExpr M (A.reading w) (lower P e) w.trace = some (v, tr) := by
  constructor
  · intro h
    obtain ⟨arg, s', B, hrun, -⟩ := id h
    exact ⟨jumpsOk_of_ok e hrun, fun v tr heval => agrees_of_exprCorrect hs hA hw h _ heval⟩
  · rintro ⟨hok, h⟩
    exact exprCorrect_of_agrees hs hA htyped hok hw fun p hp => h p.1 p.2 hp

/-- `-f(-x, !(x > 0)) - x`, for the integer `x`. -/
def negCall : Expr :=
  .binop .sub .int (.neg .int (.call .int 0 [.neg .int (.ident "x"),
    .not (.cmp .gt (.ident "x") (.int 0))])) (.ident "x")

/-- It is translated correctly on a platform that reads zero. -/
theorem expr_correct_iff_negCall :
    ExprCorrect zeroPlatform zeroMeaning negCall (oneVariableLayout .int .int)
      (oneVariable .int .int) (worldOf (.int 5)) := by
  have htyped : WellTyped ((oneVariableLayout .int .int).types
      fun _ => some ([.int, .boolean], .int)) negCall .int := by
    simp [negCall, WellTyped, ArgsTyped, Scalar, comparable, Layout.types, oneVariableLayout]
  refine (expr_correct_iff (rep_oneVariable .int .int) (shaped_oneVariable .int .int) htyped
    rfl).mpr ⟨by simp [negCall, jumpsOk, argsOk, condOk], fun v tr heval => ?_⟩
  have hx : (oneVariableLayout .int .int).decls "x" = some 0 := rfl
  simp [negCall, lower, lowerArgs, lowerCond, sensedCmp, opposite, negZero, evalExpr, evalArgs,
    negValue, binValue, intOp, testValue, worldOf, Layout.reading, hx, zeroMeaning, Meaning.ieee,
    zeroPlatform, truth, boolValue, callValue] at heval ⊢
  exact heval

/-- Not translated correctly are: `-0` on a platform that reads something else for `0.0`; the call
`f(!x[0])` for an array `x` of truth values; `-x` for the double `x` if it is `0.0`; and
`f(!(x < 1.0))` if `x` is not a number. -/
theorem expr_not_correct :
    (WellTyped ((oneVariableLayout .int .int).types fun _ => none) (.neg .int (.int 0)) .int ∧
      ¬ExprCorrect ⟨fun _ => 1, fun _ => 0⟩ zeroMeaning (.neg .int (.int 0))
        (oneVariableLayout .int .int) (oneVariable .int .int) (worldOf (.int 0))) ∧
    (WellTyped ((oneVariableLayout (.array .boolean 1) .array).types
        fun _ => some ([.boolean], .int)) (.call .int 0 [.not (.array "x" (.int 0))]) .int ∧
      ¬ExprCorrect zeroPlatform zeroMeaning (.call .int 0 [.not (.array "x" (.int 0))])
        (oneVariableLayout (.array .boolean 1) .array) (oneVariable (.array .boolean 1) .array)
        (worldOf (.int 0))) ∧
    (WellTyped ((oneVariableLayout .double .double).types fun _ => none)
        (.neg .double (.ident "x")) .double ∧
      ¬ExprCorrect zeroPlatform zeroMeaning (.neg .double (.ident "x"))
        (oneVariableLayout .double .double) (oneVariable .double .double)
        (worldOf (.double 0))) ∧
    (WellTyped ((oneVariableLayout .double .double).types fun _ => some ([.boolean], .int))
        (.call .int 0 [.not (.cmp .lt (.ident "x") (.double 0x3FF0000000000000))]) .int ∧
      ¬ExprCorrect zeroPlatform zeroMeaning
        (.call .int 0 [.not (.cmp .lt (.ident "x") (.double 0x3FF0000000000000))])
        (oneVariableLayout .double .double) (oneVariable .double .double)
        (worldOf (.double nan))) := by
  refine ⟨⟨by simp [WellTyped], fun h => ?_⟩, ⟨?_, ?_⟩, ⟨?_, fun h => ?_⟩, ⟨?_, fun h => ?_⟩⟩
  · have hagree := agrees_of_exprCorrect (rep_oneVariable .int .int) (shaped_oneVariable .int .int)
      rfl h (.int 0, []) (by simp [evalExpr, negValue, worldOf])
    simp [lower, negZero, evalExpr, binValue, intOp, worldOf] at hagree
  · simp [WellTyped, ArgsTyped, Scalar, Layout.types, oneVariableLayout]
  · rintro ⟨arg, s', B, hrun, -⟩
    have hok := jumpsOk_of_ok _ hrun
    simp [jumpsOk, argsOk, condOk] at hok
  · simp [WellTyped, Layout.types, oneVariableLayout, Scalar]
  · -- the negation of `0.0` is not `0.0`
    have hagree := agrees_of_exprCorrect (rep_oneVariable .double .double)
      (shaped_oneVariable .double .double) rfl h (.double 0x8000000000000000, [])
      (by simp [evalExpr, negValue, worldOf, Layout.reading, oneVariableLayout, zeroMeaning,
        Meaning.ieee, ieeeNeg])
    simp [lower, negZero, evalExpr, binValue, worldOf, Layout.reading, oneVariableLayout,
      zeroMeaning, Meaning.ieee] at hagree
  · simp [WellTyped, ArgsTyped, Scalar, comparable, Layout.types, oneVariableLayout]
  · -- the function is called with `0`
    have hagree := agrees_of_exprCorrect (rep_oneVariable .double .double)
      (shaped_oneVariable .double .double) rfl h (.int 0, [⟨0, [.int 1], .int 0⟩])
      (by simp [evalExpr, evalArgs, testValue, worldOf, Layout.reading, oneVariableLayout,
        zeroMeaning, Meaning.ieee, ieeeTest, isNaN, nan, truth, boolValue, callValue])
    simp [lower, lowerArgs, lowerCond, sensedCmp, opposite, evalExpr, evalArgs, testValue, worldOf,
      Layout.reading, oneVariableLayout, zeroMeaning, Meaning.ieee, ieeeTest, isNaN, nan, truth,
      boolValue, callValue] at hagree

end Javalette.Front
