import Javalette.Tree.Entries
import Javalette.Tree.Store

/-!
# What a translated instruction does

`Matches` connects a store with the world in which quadruples are run: each object of the store
that can still be reached has a place among the variables of the function, and where the object
has a value the variable has it too.  `Simulates` is that whatever an execution of an instruction
does to the store, a run of the code does to the world.

Which variable stands for an object is not fixed: each round of a loop makes new objects, which
get the variables of those of the round before.
-/

namespace Javalette.Front

open SyntaxTree LinkedList Layout

variable {P : Platform} {M : Meaning} {A B C D : Layout} {α β : Type} {s s' : Store}
variable {w w' : World} {place place' : ℕ → Option ℕ} {e : Expr} {dangles : Prop}

/-! ## Triples -/

section Triples

variable {g : GenState}

/-- What is known from two triples. -/
lemma Emits.and {m : Gen α} {Q Q' : α → Layout → Prop} (h : Emits m A dangles Q)
    (h' : Emits m A dangles Q') : Emits m A dangles fun a B => Q a B ∧ Q' a B := by
  intro g hg
  have h := h g hg
  have h' := h' g hg
  cases hr : m g with
  | ok p =>
    rw [hr] at h h'
    obtain ⟨B, hB, hQ⟩ := h
    obtain ⟨B', hB', hQ'⟩ := h'
    obtain rfl := hB.unique hB'
    exact ⟨B, hB, hQ, hQ'⟩
  | error err =>
    rw [hr] at h
    cases err <;> exact h

/-- The end of a block restores the identifiers. -/
lemma emits_inScope_bound {m : Gen α} {Q : α → Layout → Prop} (h : Emits m A dangles Q) :
    Emits (inScope m) A dangles fun a C => ∃ B, Q a B ∧ C = B.bound A.decls := by
  intro g hg
  have h := h g hg
  have hrun : inScope m g = (m g).bind fun r => .ok (r.1, { r.2 with decls := g.decls }) := rfl
  rw [hrun]
  cases hr : m g with
  | ok r =>
    rw [hr] at h
    obtain ⟨B, hB, hQ⟩ := h
    refine ⟨B.bound A.decls, ?_, B, hQ, rfl⟩
    rw [hg.decls]
    exact ⟨⟨hB.list, hB.cur, hB.prev, hB.label, hB.next, hB.vars, rfl,
      hB.sound.of_ids rfl rfl rfl⟩, hB.tight⟩
  | error err =>
    rw [hr] at h
    cases err <;> exact h

end Triples

/-! ## Stores and worlds -/

/-- The objects that have a place are in the variables of the function, and those in scope are
where the front end has the identifiers. -/
structure Matches (place : ℕ → Option ℕ) (A : Layout) (s : Store) (w : World) : Prop where
  scope : ∀ x l, s.scope x = some l → ∃ v, place l = some v ∧ A.decls x = some v
  object : ∀ l v, place l = some v → l < s.next ∧ ∃ d, A.vars[v]? = some d ∧ d.type = s.type l
  inj : ∀ l l' v, place l = some v → place l' = some v → l = l'
  env : ∀ l v a, place l = some v → s.env l = some a → w.env v = a
  mem : ∀ l v k a, place l = some v → s.mem l k = some a → w.mem v k = some a
  trace : w.trace = s.trace
  params : w.params = []

/-- There is memory for the arrays. -/
def Backed (A : Layout) (w : World) : Prop :=
  ∀ v d t n k, A.vars[v]? = some d → d.type = .array t n → k.toNat < n → w.mem v k ≠ none

/-- Memory stays memory. -/
def Kept (w w' : World) : Prop := ∀ v k, w.mem v k ≠ none → w'.mem v k ≠ none

/-- The places are those from before, and perhaps others. -/
def Places (place place' : ℕ → Option ℕ) : Prop := ∀ l v, place l = some v → place' l = some v

lemma Places.refl (place : ℕ → Option ℕ) : Places place place := fun _ _ h => h

lemma Places.trans {place'' : ℕ → Option ℕ} (h : Places place place') (h' : Places place' place'') :
    Places place place'' :=
  fun l v hl => h' l v (h l v hl)

lemma Kept.refl (w : World) : Kept w w := fun _ _ h => h

lemma Kept.trans {w'' : World} (h : Kept w w') (h' : Kept w' w'') : Kept w w'' :=
  fun v k hv => h' v k (h v k hv)

lemma Backed.kept (h : Backed A w) (hkept : Kept w w') : Backed A w' :=
  fun v d t n k hd ht hk => hkept v k (h v d t n k hd ht hk)

lemma getElem?_of_isPrefix {l l' : List VarDecl} (h : l <+: l') {v : ℕ} {d : VarDecl}
    (hd : l[v]? = some d) : l'[v]? = some d := by
  obtain ⟨rest, rfl⟩ := h
  rw [List.getElem?_append_left (List.getElem?_eq_some_iff.mp hd).1, hd]

lemma Backed.mono (h : Backed B w) (hvars : A.vars <+: B.vars) : Backed A w :=
  fun v d t n k hd ht hk => h v d t n k (getElem?_of_isPrefix hvars hd) ht hk

namespace Matches

/-- Only variables and identifiers of the layout matter. -/
lemma mono (h : Matches place A s w) (hvars : A.vars <+: B.vars) (hdecls : B.decls = A.decls) :
    Matches place B s w := by
  refine ⟨fun x l hl => ?_, fun l v hl => ?_, h.inj, h.env, h.mem, h.trace, h.params⟩
  · rw [hdecls]
    exact h.scope x l hl
  · obtain ⟨hlt, d, hd, ht⟩ := h.object l v hl
    exact ⟨hlt, d, getElem?_of_isPrefix hvars hd, ht⟩

lemma lt (h : Matches place A s w) {l v : ℕ} (hl : place l = some v) : v < A.vars.length := by
  obtain ⟨-, d, hd, -⟩ := h.object l v hl
  exact (List.getElem?_eq_some_iff.mp hd).1

/-- The variables of the layout hold what they held. -/
lemma after (h : Matches place A s w) {tr : List Call} (hafter : After A w w' tr) :
    Matches place A (s.called tr) w' :=
  ⟨h.scope, h.object, h.inj,
    fun l v a hl ha => (hafter.env v (h.lt hl)).trans (h.env l v a hl ha),
    fun l v k a hl ha => by rw [hafter.mem]; exact h.mem l v k a hl ha, hafter.trace,
    hafter.params⟩

/-- What the objects hold, as far as the world knows. -/
def found (place : ℕ → Option ℕ) (s : Store) (w : World) (l : ℕ) : Value :=
  match place l with
  | some v => w.env v
  | none => (s.env l).getD (.int 0)

lemma holds (h : Matches place A s w) : s.Holds (found place s w) := by
  intro l a ha
  unfold found
  cases hl : place l with
  | some v => exact h.env l v a hl ha
  | none => simp [ha]

lemma within (h : Matches place A s w) : (s.reading (found place s w)).Within (A.reading w) := by
  intro x l hl
  obtain ⟨v, hv, hdecl⟩ := h.scope x l hl
  refine ⟨v, hdecl, ?_, fun k a ha => h.mem l v k a hv ha⟩
  show w.env v = found place s w l
  rw [found, hv]

lemma value (h : Matches place A s w) {v : Value} {tr : List Call} (hv : HasValue M s e v tr) :
    evalExpr M (A.reading w) e w.trace = some (v, tr) := by
  rw [h.trace]
  exact h.within.evalExpr e s.trace _ (hv _ h.holds)

lemma truth (h : Matches place A s w) {t : Bool} {tr : List Call} (ht : HasTruth M s e t tr) :
    evalBool M (A.reading w) e w.trace = some (t, tr) := by
  rw [h.trace]
  exact h.within.evalBool e s.trace _ (ht _ h.holds)

/-- A new value of an object and of its variable. -/
lemma set (h : Matches place A s w) {l v : ℕ} (hl : place l = some v) (a : Value) :
    Matches place A (s.set l a) (w.set v a) := by
  refine ⟨h.scope, h.object, h.inj, fun l' v' b hl' hb => ?_, h.mem, h.trace, h.params⟩
  simp only [Store.set, World.set, Function.update_apply] at hb ⊢
  split at hb
  · rename_i heq
    obtain rfl : v' = v := Option.some.inj (hl'.symm.trans (heq ▸ hl))
    rw [if_pos rfl]
    exact Option.some.inj hb
  · rename_i hne
    rw [if_neg fun heq : v' = v => hne (h.inj l' l v' hl' (heq ▸ hl))]
    exact h.env l' v' b hl' hb

/-- A variable without an object gets a value. -/
lemma setFree (h : Matches place A s w) {v : ℕ} (hv : ∀ l, place l ≠ some v) (a : Value) :
    Matches place A s (w.set v a) := by
  refine ⟨h.scope, h.object, h.inj, fun l u b hl hb => ?_, h.mem, h.trace, h.params⟩
  have hne : u ≠ v := fun heq => hv l (heq ▸ hl)
  exact (Function.update_of_ne hne _ _).trans (h.env l u b hl hb)

/-- A new value of an element. -/
lemma put (h : Matches place A s w) {l v : ℕ} (hl : place l = some v) (k : BitVec 32) (a : Value) :
    Matches place A (s.put l k a) { w with
      mem := Function.update w.mem v (Function.update (w.mem v) k (some a)) } := by
  refine ⟨h.scope, h.object, h.inj, h.env, fun l' v' k' b hl' hb => ?_, h.trace, h.params⟩
  simp only [Store.put, Function.update_apply] at hb ⊢
  split at hb
  · rename_i heq
    obtain rfl : v' = v := Option.some.inj (hl'.symm.trans (heq ▸ hl))
    rw [if_pos rfl]
    simp only [Function.update_apply] at hb ⊢
    split at hb
    · rename_i hk
      rw [if_pos hk]
      exact hb
    · rename_i hk
      rw [if_neg hk]
      exact h.mem l v' k' b hl hb
  · rename_i hne
    rw [if_neg fun heq : v' = v => hne (h.inj l' l v' hl' (heq ▸ hl))]
    exact h.mem l' v' k' b hl' hb

/-- A new object gets a new variable. -/
lemma declare (h : Matches place A s w) (x : String) (d : VarDecl) :
    Matches (Function.update place s.next (some A.vars.length))
      ((A.declare d).bound (Function.update A.decls x (some A.vars.length)))
      (s.declare x d.type) w := by
  have hfree : ∀ l v, place l = some v → l ≠ s.next := fun l v hl =>
    Nat.ne_of_lt (h.object l v hl).1
  -- an object is the one just declared or was there before
  have hcases : ∀ l v, Function.update place s.next (some A.vars.length) l = some v →
      l = s.next ∧ v = A.vars.length ∨ l ≠ s.next ∧ place l = some v := by
    intro l v hl
    rcases eq_or_ne l s.next with rfl | hne
    · exact Or.inl ⟨rfl, by simpa using hl.symm⟩
    · exact Or.inr ⟨hne, by simpa [hne] using hl⟩
  refine ⟨fun y l hl => ?_, fun l v hl => ?_, fun l l' v hl hl' => ?_, fun l v a hl ha => ?_,
    fun l v k a hl ha => ?_, h.trace, h.params⟩
  · simp only [Store.declare, Layout.bound, Function.update_apply] at hl ⊢
    split at hl
    · rename_i hy
      obtain rfl := Option.some.inj hl
      exact ⟨A.vars.length, if_pos rfl, if_pos hy⟩
    · rename_i hy
      obtain ⟨v, hv, hdecl⟩ := h.scope y l hl
      exact ⟨v, by rw [if_neg (hfree l v hv), hv], by rw [if_neg hy, hdecl]⟩
  · show l < s.next + 1 ∧ ∃ d', (A.vars ++ [d])[v]? = some d' ∧
      d'.type = Function.update s.type s.next d.type l
    rcases hcases l v hl with ⟨rfl, rfl⟩ | ⟨hne, hl⟩
    · exact ⟨Nat.lt_succ_self _, d, by simp, by simp⟩
    · obtain ⟨hlt, d', hd', ht⟩ := h.object l v hl
      refine ⟨Nat.lt_succ_of_lt hlt, d', getElem?_of_isPrefix (List.prefix_append _ _) hd', ?_⟩
      rw [Function.update_of_ne hne, ht]
  · rcases hcases l v hl with ⟨rfl, rfl⟩ | ⟨hne, hl⟩
    · rcases hcases l' _ hl' with ⟨rfl, -⟩ | ⟨-, hl'⟩
      · rfl
      · exact absurd (h.lt hl') (Nat.lt_irrefl _)
    · rcases hcases l' v hl' with ⟨rfl, rfl⟩ | ⟨-, hl'⟩
      · exact absurd (h.lt hl) (Nat.lt_irrefl _)
      · exact h.inj l l' v hl hl'
  · rcases hcases l v hl with ⟨rfl, rfl⟩ | ⟨hne, hl⟩
    · simp [Store.declare] at ha
    · exact h.env l v a hl (by simpa [Store.declare, hne] using ha)
  · rcases hcases l v hl with ⟨rfl, rfl⟩ | ⟨hne, hl⟩
    · simp [Store.declare] at ha
    · exact h.mem l v k a hl (by simpa [Store.declare, hne] using ha)

/-- Objects that have been made since are forgotten. -/
lemma forget (h : Matches place A s w) (h' : Matches place' B s' w')
    (hplace : Places place place') (hscope : s'.scope = s.scope) (hvars : A.vars <+: B.vars) :
    Matches place A s' w' := by
  refine ⟨fun x l hl => h.scope x l (hscope ▸ hl), fun l v hl => ?_, h.inj,
    fun l v a hl => h'.env l v a (hplace l v hl), fun l v k a hl => h'.mem l v k a (hplace l v hl),
    h'.trace, h'.params⟩
  obtain ⟨-, d, hd, -⟩ := h.object l v hl
  obtain ⟨hlt, d', hd', ht⟩ := h'.object l v (hplace l v hl)
  obtain rfl := Option.some.inj ((getElem?_of_isPrefix hvars hd).symm.trans hd')
  exact ⟨hlt, d, hd, ht⟩

/-- A block is entered or left. -/
lemma leave (h : Matches place A s w) (h' : Matches place' B s' w') (hplace : Places place place')
    (saved : List (String → Option ℕ)) :
    Matches place' (B.bound A.decls) { s' with scope := s.scope, saved := saved } w' :=
  ⟨fun x l hl => have ⟨v, hv, hdecl⟩ := h.scope x l hl
    ⟨v, hplace l v hv, hdecl⟩, h'.object, h'.inj, h'.env, h'.mem, h'.trace, h'.params⟩

end Matches

/-! ## Runs -/

/-- A run through the code of `B` ends where the execution does. -/
structure Fell (M : Meaning) (keep : Prop) (place : ℕ → Option ℕ) (A B : Layout) (s : Store)
    (w : World) (s' : Store) (place' : ℕ → Option ℕ) (w' : World) : Prop where
  goes : Goes M 0 A B w (.at B.code.length) w'
  isMatch : Matches place' B s' w'
  places : Places place place'
  kept : Kept w w'
  saved : s'.saved = s.saved
  scope : keep → s'.scope = s.scope

/-- The run leads to a return with the value. -/
structure CameBack (M : Meaning) (A B : Layout) (w : World) (v : Value) (s' : Store)
    (p : ℕ) (arg : Arg) (w' : World) : Prop where
  goes : Goes M 0 A B w (.at p) w'
  ret : B.code[p]? = some ⟨.ret, .none, arg, .none⟩
  value : readArg w' arg = some v
  trace : w'.trace = s'.trace

/-- From the end of the code of `A`, the code of `B` does what the execution has done; identifiers
stand for the same objects afterwards if `keep` holds. -/
def Ends (M : Meaning) (keep : Prop) (place : ℕ → Option ℕ) (A B : Layout) (s : Store)
    (w : World) : Outcome Store Value → Prop
  | .falls s' => ∃ place' w', Fell M keep place A B s w s' place' w'
  | .returned v s' => ∃ p arg w', CameBack M A B w (v.getD .void) s' p arg w'

/-- The code of `B` after that of `A` does what the executions do. -/
def Simulates (M : Meaning) (keep : Prop) (exec : Store → Outcome Store Value → Prop)
    (A B : Layout) : Prop :=
  ∀ place s w o, Matches place A s w → Backed B w → exec s o → Ends M keep place A B s w o

section Ends

variable {keep keep' : Prop} {s₁ : Store} {w₁ : World} {o : Outcome Store Value}
variable {exec : Store → Outcome Store Value → Prop} {tr : List Call}

lemma Goes.prolong {p : Point} (h : Goes M 0 A B w p w') (hext : B.Prolongs C) :
    Goes M 0 A C w p w' :=
  Goes.extend (C := C.bound B.decls) h hext

lemma Goes.append {p : Point} (h : Goes M 0 A B w (.at B.code.length) w₁) (hext : B.Prolongs C)
    (h' : Goes M 0 B C w₁ p w') : Goes M 0 A C w p w' :=
  Goes.trans (C := C.bound B.decls) h hext h'

/-- The run gets from the end of the code of `A` to the end of that of `B` first. -/
lemma Ends.reached (h : Ends M keep place B C s₁ w₁ o)
    (hgo : Goes M 0 A C w (.at B.code.length) w₁) (hkept : Kept w w₁)
    (hsaved : s₁.saved = s.saved) (hscope : keep → s₁.scope = s.scope) :
    Ends M keep place A C s w o := by
  cases o with
  | falls s' =>
    obtain ⟨place', w', h⟩ := h
    exact ⟨place', w', Relation.ReflTransGen.trans hgo h.goes, h.isMatch, h.places,
      hkept.trans h.kept, h.saved.trans hsaved, fun hk => (h.scope hk).trans (hscope hk)⟩
  | returned v s' =>
    obtain ⟨p, arg, w', h⟩ := h
    exact ⟨p, arg, w', Relation.ReflTransGen.trans hgo h.goes, h.ret, h.value, h.trace⟩

/-- Code that comes before. -/
lemma Ends.before (h : Ends M keep place B C s₁ w₁ o)
    (hgo : Goes M 0 A B w (.at B.code.length) w₁) (hext : B.Prolongs C) (hkept : Kept w w₁)
    (hsaved : s₁.saved = s.saved) (hscope : keep → s₁.scope = s.scope) :
    Ends M keep place A C s w o :=
  h.reached (hgo.prolong hext) hkept hsaved hscope

/-- The layout grows without more code. -/
lemma Ends.extend (h : Ends M keep place A B s w o) (hext : B.Extends C)
    (hcode : C.code = B.code) : Ends M keep place A C s w o := by
  cases o with
  | falls s' =>
    obtain ⟨place', w', h⟩ := h
    exact ⟨place', w', h.goes.extend_end hext hcode, h.isMatch.mono hext.vars hext.decls, h.places,
      h.kept, h.saved, h.scope⟩
  | returned v s' =>
    obtain ⟨p, arg, w', h⟩ := h
    exact ⟨p, arg, w', h.goes.extend hext, by rw [hcode, h.ret], h.value, h.trace⟩

/-- A return is one in all the code that follows. -/
lemma CameBack.prolong {v : Value} {p : ℕ} {arg : Arg} (h : CameBack M A B w v s' p arg w')
    (hext : B.Prolongs C) : CameBack M A C w v s' p arg w' := by
  obtain ⟨rest, hrest⟩ : B.code <+: C.code := hext.code
  refine ⟨h.goes.prolong hext, ?_, h.value, h.trace⟩
  rw [← hrest, List.getElem?_append_left (List.getElem?_eq_some_iff.mp h.ret).1, h.ret]

/-- Another execution follows one that has fallen through. -/
lemma Fell.then (h : Fell M keep place A B s w s₁ place' w₁) (hext : B.Prolongs C)
    (h' : Ends M keep' place' B C s₁ w₁ o) : Ends M (keep ∧ keep') place A C s w o := by
  cases o with
  | falls s' =>
    obtain ⟨place'', w', h'⟩ := h'
    exact ⟨place'', w', h.goes.append hext h'.goes, h'.isMatch, h.places.trans h'.places,
      h.kept.trans h'.kept, h'.saved.trans h.saved,
      fun hk => (h'.scope hk.2).trans (h.scope hk.1)⟩
  | returned v s' =>
    obtain ⟨p, arg, w', h'⟩ := h'
    exact ⟨p, arg, w', h.goes.append hext h'.goes, h'.ret, h'.value, h'.trace⟩

lemma Ends.mono (h : Ends M keep place A B s w o) (hkeep : keep' → keep) :
    Ends M keep' place A B s w o := by
  cases o with
  | falls s' =>
    obtain ⟨place', w', h⟩ := h
    exact ⟨place', w', h.goes, h.isMatch, h.places, h.kept, h.saved, fun hk => h.scope (hkeep hk)⟩
  | returned v s' => exact h

lemma After.kept (h : After A w w' tr) : Kept w w' := by
  intro v k hv
  rw [h.mem]
  exact hv

lemma Ends.refl (hM : Matches place A s w) : Ends M keep place A A s w (.falls s) :=
  ⟨place, w, goes_refl rfl, hM, Places.refl place, Kept.refl w, rfl, fun _ => rfl⟩

end Ends

/-! ## Expressions -/

section Expressions

lemma emits_expr (hA : A.Shaped) (e : Expr) :
    Emits (genQuadrExpr P e) A dangles (ExprPost P M e A) :=
  have h : ExprSpec P M (fun _ => none) e := expr_spec e
  (h A hA).emits

/-- The code of an expression computes the value that the execution gives it. -/
lemma ExprPost.value {arg : Arg} (h : ExprPost P M e A arg B) (hz : ZeroOk P (noIntNeg e))
    (hM : Matches place A s w) {v : Value} {tr : List Call} (hv : HasValue M.tame s e v tr) :
    ∃ w', After A w w' tr ∧ Goes M 0 A B w (.at B.code.length) w' ∧ readArg w' arg = some v ∧
      Matches place B (s.called tr) w' := by
  have hdelivers := h.meaning 0 w (Nat.zero_le _) hM.params
  rw [lower_of_tame e w.trace hz _ (hM.value hv)] at hdelivers
  obtain ⟨w', hafter, hgo, hread⟩ := hdelivers
  exact ⟨w', hafter, hgo, hread, (hM.after hafter).mono h.extends'.vars h.extends'.decls⟩

/-- The code of a condition is decided as the execution decides it. -/
lemma JumpPost.decides {dest : ℕ} {sense t : Bool} {tr : List Call}
    (h : JumpPost P M e dest sense A B) (hz : ZeroOk P (noIntNeg e)) (hw : w.params = [])
    (heval : evalBool M.tame (A.reading w) e w.trace = some (t, tr)) :
    ∃ w', After A w w' tr ∧
      if t = sense then ∃ l, B.JumpTarget dest l ∧ Goes M 0 A B w (.label l) w'
      else Goes M 0 A B w (.at B.code.length) w' := by
  have hdecides := h.meaning 0 w (Nat.zero_le _) hw
  rw [lowerCond_of_tame e sense w.trace hz _ heval] at hdecides
  exact hdecides

end Expressions

/-! ## Instructions without conditions -/

section Plain

lemma runs_bindIdent {abort : Prop} (x : String) (v : ℕ) :
    Runs (bindIdent x v) A abort fun _ B => B = A.bound (Function.update A.decls x (some v)) := by
  intro g hg
  refine ⟨_, ?_, rfl⟩
  rw [← hg.decls]
  exact ⟨⟨hg.list, hg.cur, hg.prev, hg.label, hg.next, hg.vars, rfl, hg.sound.of_ids rfl rfl rfl⟩,
    hg.tight⟩

/-- A new variable that an identifier stands for. -/
lemma runs_declareIdent {abort : Prop} (type : Ty) (x : String) {f : ℕ → Gen α}
    {Q : α → Layout → Prop}
    (h : ∀ d : VarDecl, d.type = type → Runs (f A.vars.length)
      ((A.declare d).bound (Function.update A.decls x (some A.vars.length))) abort Q)
    (habort : abort) :
    Runs (declareVar type >>= fun var => bindIdent x var >>= fun _ => f var) A abort Q := by
  refine runs_declareVar_bind (fun q _ => (runs_bindIdent x _).bind fun _ B hB => ?_)
    fun _ => habort
  rw [hB]
  exact h ⟨type, q⟩ rfl

/-- An execution that takes one step. -/
def Falls (step : Store → Store → Prop) (s : Store) (o : Outcome Store Value) : Prop :=
  ∃ s', o = .falls s' ∧ step s s'

/-- A declarator without an initializer. -/
lemma sim_declareIdent (type : Ty) (x : String) :
    Emits (declareVar type >>= fun var => bindIdent x var) A dangles fun _ B =>
      Simulates M False (Falls fun s s' => s' = s.declare x type) A B := by
  have h : Runs (declareVar type >>= fun var => bindIdent x var >>= fun _ => pure ()) A True
      fun _ B => Simulates M False (Falls fun s s' => s' = s.declare x type) A B := by
    refine runs_declareIdent type x (fun d hd => runs_pure ?_) trivial
    rintro place s w _ hM - ⟨s', rfl, rfl⟩
    exact ⟨_, w, goes_refl rfl, hd ▸ hM.declare x d, fun l v hl =>
      (Function.update_of_ne (Nat.ne_of_lt (hM.object l v hl).1) _ _).trans hl, Kept.refl w, rfl,
      False.elim⟩
  exact h.emits

/-- A declarator with an initializer, whose value is kept in another variable first. -/
lemma sim_initializer (hA : A.Shaped) (type : Ty) (x : String) (hz : ZeroOk P (noIntNeg e)) :
    Emits (genDeclarator P type (.var x (some e))) A dangles fun _ B =>
      Simulates M False (Falls (Declares M.tame type (.var x (some e)))) A B := by
  have hvar : Runs (declareVar type) A True fun v B => v = A.vars.length ∧ ∃ d, B = A.declare d :=
    runs_declareVar (fun q _ => ⟨rfl, _, rfl⟩) fun _ => trivial
  refine hvar.emits.bind ?_
  rintro _ _ ⟨rfl, d, rfl⟩
  refine (emits_expr (M := M) (hA.declare d) e).bind fun value B h => ?_
  have hcopy : Runs (emit ⟨.copy, .var A.vars.length, value, .none⟩ >>= fun _ =>
      declareVar type >>= fun var => bindIdent x var >>= fun _ =>
        emit ⟨.copy, .var var, .var A.vars.length, .none⟩) B True fun _ E =>
      Simulates M False (Falls (Declares M.tame type (.var x (some e)))) A E := by
    refine runs_emit_bind (runs_declareIdent type x (fun d' hd' => runs_emit ?_) trivial)
    rintro place s w _ hM - ⟨s', rfl, v, tr, hv, rfl⟩
    -- a temporary takes the value first, the variable is declared only behind it
    have hA₁ : Matches place (A.declare d) s w := hM.mono (List.prefix_append _ _) rfl
    obtain ⟨w₁, hafter, hgo, hread, hM₁⟩ := h.value hz hA₁ hv
    let C := B.emit ⟨.copy, .var A.vars.length, value, .none⟩
    let D := (C.declare d').bound (Function.update C.decls x (some C.vars.length))
    have hgo₁ : Goes M 0 B C w₁ (.at C.code.length) (w₁.set A.vars.length v) :=
      goes_plain rfl (by simp [execPlain, hread, setResult])
    have hM₂ : Matches place C (s.called tr) (w₁.set A.vars.length v) :=
      (hM₁.setFree (fun l hl => Nat.lt_irrefl _ (hM.lt hl)) v).mono List.prefix_rfl rfl
    have hM₃ := hM₂.declare x d'
    have hgo₂ : Goes M 0 D (D.emit ⟨.copy, .var C.vars.length, .var A.vars.length, .none⟩)
        (w₁.set A.vars.length v) (.at _) ((w₁.set A.vars.length v).set C.vars.length v) :=
      goes_plain rfl (by simp [execPlain, readArg, setResult, World.set])
    have hD : C.Prolongs D := (extends_declare d').prolongs.trans (prolongs_bound _)
    have hE : D.Prolongs (D.emit ⟨.copy, .var C.vars.length, .var A.vars.length, .none⟩) :=
      (extends_emit _).prolongs
    refine ⟨Function.update place s.next (some C.vars.length),
      (w₁.set A.vars.length v).set C.vars.length v, ?_, ?_, ?_, ?_, rfl, False.elim⟩
    · exact (hgo.append (extends_emit _).prolongs hgo₁).append (hD.trans hE) hgo₂
    · rw [← hd']
      exact (hM₃.set (Function.update_self _ _ _) v).mono List.prefix_rfl rfl
    · exact fun l u hl => (Function.update_of_ne (Nat.ne_of_lt (hM.object l u hl).1) _ _).trans hl
    · exact hafter.kept
  exact hcopy.emits

/-- The initializers of declarators. -/
def initsOf : List Declarator → List Expr
  | [] => []
  | .var _ (some init) :: decls => init :: initsOf decls
  | _ :: decls => initsOf decls

lemma sim_genDeclarator (hA : A.Shaped) (type : Ty) (decl : Declarator)
    (hz : ∀ e ∈ initsOf [decl], ZeroOk P (noIntNeg e)) :
    Emits (genDeclarator P type decl) A dangles fun _ B =>
      Simulates M False (Falls (Declares M.tame type decl)) A B := by
  cases decl with
  | array x n => exact sim_declareIdent (.array type n) x
  | var x init =>
    cases init with
    | none => exact sim_declareIdent type x
    | some e => exact sim_initializer hA type x (hz e List.mem_cons_self)

lemma mem_initsOf {decl : Declarator} {decls : List Declarator} :
    e ∈ initsOf (decl :: decls) ↔ e ∈ initsOf [decl] ∨ e ∈ initsOf decls := by
  cases decl with
  | array x n => simp [initsOf]
  | var x init => cases init <;> simp [initsOf]

/-- One after the other. -/
lemma Simulates.then {keep keep' : Prop} {step : Store → Store → Prop}
    {exec exec' : Store → Outcome Store Value → Prop}
    (h : Simulates M keep (Falls step) A B) (h' : Simulates M keep' exec B C)
    (hBC : B.Prolongs C)
    (hexec : ∀ s o, exec' s o → ∃ s₁, step s s₁ ∧ exec s₁ o) :
    Simulates M (keep ∧ keep') exec' A C := by
  intro place s w o hM hback ho
  obtain ⟨s₁, hstep, ho⟩ := hexec s o ho
  obtain ⟨place', w₁, hfell⟩ :=
    h place s w (.falls s₁) hM (hback.mono hBC.vars) ⟨s₁, rfl, hstep⟩
  exact hfell.then hBC (h' place' s₁ w₁ o hfell.isMatch (hback.kept hfell.kept) ho)

lemma sim_genDeclarators (type : Ty) : ∀ (decls : List Declarator) {A : Layout}, A.Shaped →
    (∀ e ∈ initsOf decls, ZeroOk P (noIntNeg e)) →
    Emits (genDeclarators P type decls) A True fun _ B =>
      Simulates M False (Falls (Declared (storeSteps M.tame) type decls)) A B
  | [], A, _, _ => by
    refine emits_pure ?_
    rintro place s w _ hM - ⟨s', rfl, ⟨⟩⟩
    exact Ends.refl hM
  | decl :: decls, A, hA, hz => by
    refine ((sim_genDeclarator (M := M) hA type decl fun e he =>
      hz e (mem_initsOf.mpr (Or.inl he))).and
        (grow_genDeclarator (P := P) hA type decl)).bind fun _ B hB => ?_
    refine ((sim_genDeclarators type decls hB.2.shaped fun e he =>
      hz e (mem_initsOf.mpr (Or.inr he))).and
        (grow_genDeclarators (P := P) type decls hB.2.shaped)).mono id
          fun _ C hC => ?_
    intro place s w o hM hback ho
    refine (hB.1.then hC.1 hC.2.prolongs ?_ place s w o hM hback ho).mono
      False.elim
    rintro s o ⟨s', rfl, hdecls⟩
    cases hdecls with
    | cons hdecl hrest => exact ⟨_, hdecl, _, rfl, hrest⟩

/-- An assignment to a variable. -/
lemma sim_assignIdent (hA : A.Shaped) (x : String) (hz : ZeroOk P (noIntNeg e)) :
    Emits (genAssign P (.ident x) e) A dangles fun _ B => B.decls = A.decls ∧
      Simulates M True (Falls (Assigns M.tame (.ident x) e)) A B := by
  have hvar : Runs (declOf x) A True fun v B => A.decls x = some v ∧ A = B :=
    runs_declOf (fun v hv => ⟨hv, rfl⟩) fun _ => trivial
  refine hvar.emits.bind ?_
  rintro v _ ⟨hdecl, rfl⟩
  refine (emits_expr (M := M) hA e).bind fun value B h => ?_
  have hemit : Runs (emit ⟨.copy, .var v, value, .none⟩) B False fun _ C => C.decls = A.decls ∧
      Simulates M True (Falls (Assigns M.tame (.ident x) e)) A C := by
    refine runs_emit ⟨h.extends'.decls, ?_⟩
    rintro place s w _ hM - ⟨s', rfl, l, a, tr, hl, ha, rfl⟩
    obtain ⟨v', hv', hdecl'⟩ := hM.scope x l hl
    obtain rfl : v' = v := Option.some.inj (hdecl'.symm.trans hdecl)
    obtain ⟨w₁, hafter, hgo, hread, hM₁⟩ := h.value hz hM ha
    have hcopy : Goes M 0 B (B.emit ⟨.copy, .var v', value, .none⟩) w₁ (.at _) (w₁.set v' a) :=
      goes_plain rfl (by simp [execPlain, hread, setResult])
    exact ⟨place, w₁.set v' a, hgo.append (extends_emit _).prolongs hcopy,
      (hM₁.set hv' a).mono List.prefix_rfl rfl, Places.refl place, hafter.kept, rfl, fun _ => rfl⟩
  exact hemit.emits

/-- The element at the address in a variable gets a value. -/
lemma goes_write {v : ℕ} {off value : Arg} {k : BitVec 32} {a : Value} {d : VarDecl}
    (hoff : readArg w off = some (.int k)) (hvalue : readArg w value = some a)
    (hlt : ∀ u, off = .var u ∨ value = .var u → u < A.vars.length) (hmem : w.mem v k ≠ none) :
    Goes M 0 A ((A.withAddr d v).emit ⟨.writePtr, .var A.vars.length, off, value⟩) w
      (.at ((A.withAddr d v).emit ⟨.writePtr, .var A.vars.length, off, value⟩).code.length)
      { w.set A.vars.length (.ptr v) with
        mem := Function.update w.mem v (Function.update (w.mem v) k (some a)) } := by
  let w₁ := w.set A.vars.length (.ptr v)
  have hother : ∀ {b : Arg} {y : Value}, readArg w b = some y →
      (∀ u, b = .var u → u < A.vars.length) → readArg w₁ b = some y := fun hb hu =>
    readArg_congr hb fun u hbu => Function.update_of_ne (Nat.ne_of_lt (hu u hbu)) _ _
  have haddr : Goes M 0 A (A.withAddr d v) w (.at (A.withAddr d v).code.length) w₁ :=
    goes_plain (A := A.declare d) rfl (by simp [execPlain, varOf, setResult, w₁])
  refine haddr.append (extends_emit _).prolongs (goes_plain rfl ?_)
  obtain ⟨old, hold⟩ := Option.ne_none_iff_exists'.mp hmem
  have hptr : readArg w₁ (.var A.vars.length) = some (.ptr v) :=
    congrArg some (Function.update_self _ _ _)
  simp only [execPlain, hptr, hother hoff fun u hu => hlt u (Or.inl hu),
    hother hvalue fun u hu => hlt u (Or.inr hu), Option.bind_eq_bind, Option.bind_some, writePtr]
  show (w.mem v k).map _ = _
  rw [hold]
  rfl

/-- An assignment to an element of an array. -/
lemma sim_assignArray (hA : A.Shaped) (x : String) {i : Expr} (hz : ZeroOk P (noIntNeg e))
    (hzi : ZeroOk P (noIntNeg i)) :
    Emits (genAssign P (.array x i) e) A dangles fun _ B => B.decls = A.decls ∧
      Simulates M True (Falls (Assigns M.tame (.array x i) e)) A B := by
  refine (emits_expr (M := M) hA e).bind fun value B h => ?_
  refine (emits_expr (M := M) h.shaped i).bind fun off C h' => ?_
  have hwrite : Runs (declOf x >>= fun var => genGetAddr var >>= fun ptr =>
      genWritePtr ptr off value) C True fun _ D => D.decls = A.decls ∧
        Simulates M True (Falls (Assigns M.tame (.array x i) e)) A D := by
    refine runs_declOf_bind (fun v hdecl => ?_) fun _ => trivial
    refine runs_genGetAddr_bind (h'.shaped.inScope x v hdecl) fun d => ?_
    refine runs_emit ⟨h'.extends'.decls.trans h.extends'.decls, ?_⟩
    rintro place s w _ hM hback ⟨s', rfl, l, t, n, a, tr, k, tr', hl, ht, ha, hk, hkn, rfl⟩
    obtain ⟨w₁, hafter, hgo, hread, hM₁⟩ := h.value hz hM ha
    obtain ⟨w₂, hafter', hgo', hread', hM₂⟩ := h'.value hzi hM₁ hk
    obtain ⟨v', hv', hdecl'⟩ := hM₂.scope x l hl
    obtain rfl : v' = v := Option.some.inj (hdecl'.symm.trans hdecl)
    obtain ⟨-, d', hd', ht'⟩ := hM₂.object l v' hv'
    have hext : C.Extends ((C.withAddr d v').emit ⟨.writePtr, .var C.vars.length, off, value⟩) :=
      ((extends_declare d).trans (extends_emit _)).trans (extends_emit _)
    have hmem : w₂.mem v' k ≠ none := by
      rw [hafter'.mem, hafter.mem]
      exact hback v' d' t n k (getElem?_of_isPrefix hext.vars hd') (ht'.trans ht) hkn
    -- the index is computed after the value and leaves its argument as it was
    have hvalue : readArg w₂ value = some a :=
      readArg_congr hread fun u hu => hafter'.env u (h.arg_lt u hu)
    have hlt : ∀ u, off = .var u ∨ value = .var u → u < C.vars.length := by
      rintro u (hu | hu)
      · exact h'.arg_lt u hu
      · exact Nat.lt_of_lt_of_le (h.arg_lt u hu) h'.extends'.vars.length_le
    have hM₃ := (hM₂.setFree (fun l' hl' => Nat.lt_irrefl _ (hM₂.lt hl')) (.ptr v')).put hv' k a
    refine ⟨place, _, (hgo.append h'.extends'.prolongs hgo').append hext.prolongs
      (goes_write hread' hvalue hlt hmem), hM₃.mono hext.vars hext.decls, Places.refl place, ?_,
      rfl, fun _ => rfl⟩
    intro u j hu
    have hu' : w₂.mem u j ≠ none := by
      rw [hafter'.mem, hafter.mem]
      exact hu
    show Function.update w₂.mem v' _ u j ≠ none
    rcases eq_or_ne u v' with rfl | hne
    · rw [Function.update_self, Function.update_apply]
      split
      · exact Option.some_ne_none a
      · exact hu'
    · rw [Function.update_of_ne hne]
      exact hu'
  exact hwrite.emits

/-- The one that is added or subtracted is in a variable of its own. -/
lemma sim_genIncDec (op : Binop) (lvalue : Lvalue) :
    Emits (genIncDec P (quadrBinop op) lvalue) A dangles fun _ B => B.decls = A.decls ∧
      Simulates M True (Falls (Changes M.tame op lvalue)) A B := by
  cases lvalue with
  | array x i => exact emits_abort
  | ident x =>
    -- the variable changed by `one`, whichever constant of the two stands for it
    have hone : ∀ (v : ℕ) (d : VarDecl) (t : Ty) (value : VarArg), A.decls x = some v →
        A.vars[v]? = some d → (∀ c, constArg P t value = some c → ∀ w, readArg w c =
          some (oneOf d.type)) →
        Runs (quadrArg P t value >>= fun one => genBinop (quadrBinop op) v (.var v) one) A True
          fun _ B => B.decls = A.decls ∧
            Simulates M True (Falls (Changes M.tame op (.ident x))) A B := by
      intro v d t value hdecl hd hc
      refine runs_quadrArg_bind (fun d' c hc' => runs_emit ⟨rfl, ?_⟩) fun _ => trivial
      rintro place s w _ hM - ⟨s', rfl, l, a, b, hl, ha, hb, rfl⟩
      obtain ⟨v', hv', hdecl'⟩ := hM.scope x l hl
      obtain rfl : v' = v := Option.some.inj (hdecl'.symm.trans hdecl)
      obtain ⟨-, d'', hd'', ht⟩ := hM.object l v' hv'
      obtain rfl : d'' = d := Option.some.inj (hd''.symm.trans hd)
      have hconst := goes_withConst (M := M) (n := 0) (A := A) (d := d') (hc c hc' w)
      let w₁ := w.set A.vars.length (oneOf d''.type)
      have hread : readArg w₁ (.var v') = some a :=
        congrArg some ((Function.update_of_ne (Nat.ne_of_lt (hM.lt hv')) _ _).trans
          (hM.env l v' a hv' ha))
      have hread' : readArg w₁ (.var A.vars.length) = some (oneOf (s.type l)) :=
        congrArg some ((Function.update_self _ _ _).trans (congrArg oneOf ht))
      have hM₁ : Matches place A s w₁ :=
        hM.setFree (fun l' hl' => Nat.lt_irrefl _ (hM.lt hl')) _
      refine ⟨place, w₁.set v' b, hconst.append (extends_emit _).prolongs
        (goes_plain (quadrBinop_plain op).1
          (by rw [execPlain_binop op hread hread', binValue_tame.symm.trans hb]; rfl)),
        (hM₁.set hv' b).mono (List.prefix_append _ _) rfl, Places.refl place, Kept.refl w, rfl,
        fun _ => rfl⟩
    have h : Runs (declOf x >>= fun var => varType var >>= fun type =>
        if type = .double then quadrArg P .double (.double 0x3FF0000000000000) >>= fun one =>
          genBinop (quadrBinop op) var (.var var) one
        else quadrArg P .int (.int 1) >>= fun one => genBinop (quadrBinop op) var (.var var) one)
        A True fun _ B => B.decls = A.decls ∧
          Simulates M True (Falls (Changes M.tame op (.ident x))) A B := by
      refine runs_declOf_bind (fun v hdecl => ?_) fun _ => trivial
      refine runs_varType_bind (fun d hd => ?_) fun _ => trivial
      by_cases ht : d.type = .double
      · rw [if_pos ht]
        refine hone v d _ _ hdecl hd ?_
        rintro c ⟨⟩ w
        rw [oneOf, if_pos ht]
        rfl
      · rw [if_neg ht]
        refine hone v d _ _ hdecl hd ?_
        rintro c ⟨⟩ w
        rw [oneOf, if_neg ht]
        rfl
    exact h.emits

/-- A return. -/
lemma sim_genReturn (hA : A.Shaped) (e : Option Expr)
    (hz : ∀ e' ∈ e, ZeroOk P (noIntNeg e')) :
    Emits (genReturn P e) A dangles fun _ B => B.decls = A.decls ∧
      Simulates M True (Exec (storeSteps M.tame) (.ret e)) A B := by
  have hret : ∀ (arg : Arg) (B : Layout), Runs (emit ⟨.ret, .none, arg, .none⟩ >>= fun _ =>
      addNewBlock) B False fun _ C => C = (B.emit ⟨.ret, .none, arg, .none⟩).begin :=
    fun arg B => runs_emit_bind (runs_addNewBlock rfl)
  -- the return quadruple is the last one, so the run stands on it with its argument read
  have hback : ∀ (arg : Arg) (B : Layout) {v : Value} {w w' : World} {s' : Store},
      Goes M 0 A B w (.at B.code.length) w' → readArg w' arg = some v → w'.trace = s'.trace →
      CameBack M A (B.emit ⟨.ret, .none, arg, .none⟩).begin w v s' B.code.length arg w' := by
    intro arg B v w w' s' hgo hread htrace
    refine ⟨hgo.extend ((extends_emit _).trans extends_begin), ?_, hread, htrace⟩
    rw [code_begin, code_emit]
    simp
  cases e with
  | none =>
    refine (hret .none A).emits.mono id ?_
    rintro _ _ rfl
    refine ⟨extends_begin.decls, ?_⟩
    intro place s w o hM _ hexec
    cases hexec
    exact ⟨_, .none, w, hback .none A (goes_refl rfl) rfl hM.trace⟩
  | some e =>
    refine (emits_expr (M := M) hA e).bind fun arg B h => (hret arg B).emits.mono id ?_
    rintro _ _ rfl
    refine ⟨extends_begin.decls.trans h.extends'.decls, ?_⟩
    intro place s w o hM _ hexec
    cases hexec with
    | retValue hev =>
      obtain ⟨tr, hv, rfl⟩ := hev
      obtain ⟨w', hafter, hgo, hread, -⟩ := h.value (hz e rfl) hM hv
      exact ⟨_, arg, w', hback arg B hgo hread hafter.trace⟩

end Plain

end Javalette.Front
