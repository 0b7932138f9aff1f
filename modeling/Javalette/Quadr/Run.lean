import Mathlib.Logic.Relation
import Javalette.Quadr.Layout
import Javalette.Tree.Eval

/-!
# The meaning of quadruples

Control passes from quadruple to quadruple of a block, from the end of a block to the next one
in the list, and along jumps.  The list of blocks is therefore run as one list of quadruples, in
which each block is a position (`labelPos`); an empty block is the position of the one after it.

A function is run while it is being built.  A jump leads to the point `label b` first, and on
from there if `b` is a block of the list; a label that is not yet in the list is a way out.
What has been emitted stays where it is (`Extends`), so a run through the code emitted so far is
a run through the finished function.
-/

namespace Javalette.Front

open SyntaxTree

/-! ## Code and positions -/

/-- The quadruples of a list of blocks. -/
def codeOf (bs : List Blk) : List Quad := bs.flatMap Blk.lst

@[simp] lemma codeOf_nil : codeOf [] = [] := rfl

@[simp] lemma codeOf_cons (b : Blk) (bs : List Blk) : codeOf (b :: bs) = b.lst ++ codeOf bs := rfl

@[simp] lemma codeOf_append (bs bs' : List Blk) : codeOf (bs ++ bs') = codeOf bs ++ codeOf bs' :=
  List.flatMap_append

lemma codeOf_eq_nil {bs : List Blk} (h : ∀ b ∈ bs, b.lst = []) : codeOf bs = [] :=
  List.flatMap_eq_nil_iff.mpr h

/-- The position of a block. -/
def labelPos : List Blk → ℕ → Option ℕ
  | [], _ => none
  | b :: bs, l => if b.id = l then some 0 else (labelPos bs l).map (b.lst.length + ·)

namespace Layout

/-- The quadruples of the function. -/
def code (A : Layout) : List Quad := codeOf A.all

/-- The block `l` is at the position `p`, and it will stay there: it is not the current block,
or it cannot be freed. -/
def Settled (A : Layout) (l p : ℕ) : Prop :=
  ∃ xs b ys, A.all = xs ++ b :: ys ∧ b.id = l ∧ (codeOf xs).length = p ∧
    (ys ≠ [] ∨ b.referenced = true ∨ b.lst ≠ [])

/-- The same for the blocks from the position `n` on. -/
def SettledFrom (A : Layout) (n l p : ℕ) : Prop := A.Settled l p ∧ n ≤ p

end Layout

lemma labelPos_append {xs ys : List Blk} {b : Blk} (h : ((xs ++ b :: ys).map Blk.id).Nodup) :
    labelPos (xs ++ b :: ys) b.id = some (codeOf xs).length := by
  induction xs with
  | nil => simp [labelPos]
  | cons c xs ih =>
    simp only [List.cons_append, List.map_cons, List.nodup_cons] at h
    have hne : c.id ≠ b.id := fun he => h.1 (by simp [he])
    simp [labelPos, hne, ih h.2]

lemma mem_of_labelPos {bs : List Blk} {l p : ℕ} (h : labelPos bs l = some p) :
    ∃ b ∈ bs, b.id = l := by
  induction bs generalizing p with
  | nil => cases h
  | cons b bs ih =>
    rw [labelPos] at h
    split at h
    · rename_i hid
      exact ⟨b, List.mem_cons_self, hid⟩
    · obtain ⟨p', hp', -⟩ := Option.map_eq_some_iff.mp h
      obtain ⟨b', hb', hid⟩ := ih hp'
      exact ⟨b', List.mem_cons_of_mem b hb', hid⟩

lemma Layout.Sound.labelPos {A : Layout} (h : A.Sound) {l p : ℕ} (hl : A.Settled l p) :
    labelPos A.all l = some p := by
  obtain ⟨xs, b, ys, hall, rfl, rfl, -⟩ := hl
  have hnodup := h.nodup
  rw [hall] at hnodup ⊢
  exact labelPos_append hnodup

/-! ## Running quadruples -/

/-- What a run changes. -/
structure World where
  env : ℕ → Value
  mem : ℕ → BitVec 32 → Option Value
  trace : List Call
  /-- the values of the parameters declared for the next call, the last declared first -/
  params : List Value

/-- Where control is: at a position of the code, or on its way to a block. -/
inductive Point
  | at (pos : ℕ)
  | label (block : ℕ)
  deriving DecidableEq, Repr

/-- The value of an argument; what is not there stands for a value that is not there either. -/
def readArg (w : World) : Arg → Option Value
  | .var v => some (w.env v)
  | .int i => some (.int i)
  | .double d => some (.double d)
  | .str s => some (.str s)
  | .none => some .void
  | .label _ | .func _ => none

/-- A new value of a variable. -/
def World.set (w : World) (v : ℕ) (x : Value) : World :=
  { w with env := Function.update w.env v x }

/-- The result of a quadruple is stored, if there is one. -/
def setResult (w : World) (result : Arg) (x : Value) : Option World :=
  match result with
  | .var v => some (w.set v x)
  | .none => some w
  | _ => none

/-- The operation of an arithmetic quadruple. -/
def binopOf : QuadrOp → Option Binop
  | .add => some .add
  | .sub => some .sub
  | .mul => some .mul
  | .div => some .div
  | .mod => some .mod
  | _ => none

/-- The comparison of a conditional jump. -/
def cmpOf : QuadrOp → Option CmpOp
  | .ifEq => some .eq
  | .ifNe => some .neq
  | .ifLt => some .lt
  | .ifGt => some .gt
  | .ifLe => some .leq
  | .ifGe => some .geq
  | _ => none

/-- The element that a pointer and an offset select. -/
def readPtr (w : World) (base offset : Value) : Option Value :=
  match base, offset with
  | .ptr array, .int i => w.mem array i
  | _, _ => none

/-- The element that a pointer and an offset select gets a new value. -/
def writePtr (w : World) (base offset value : Value) : Option World :=
  match base, offset with
  | .ptr array, .int i => (w.mem array i).map fun _ =>
      { w with mem := Function.update w.mem array
                (Function.update (w.mem array) i (some value)) }
  | _, _ => none

/-- The variable of an argument. -/
def varOf : Arg → Option ℕ
  | .var v => some v
  | _ => none

/-- The block of an argument. -/
def blockOf : Arg → Option ℕ
  | .label b => some b
  | _ => none

/-- The function of an argument. -/
def funcOf : Arg → Option ℕ
  | .func f => some f
  | _ => none

variable (M : Meaning)

/-- What a quadruple that is not a jump does. -/
def execPlain (q : Quad) (w : World) : Option World :=
  match q.op with
  | .add | .sub | .mul | .div | .mod => do
      let op ← binopOf q.op
      let a ← readArg w q.arg1
      let b ← readArg w q.arg2
      let v ← binValue M op a b
      setResult w q.result v
  | .copy => do
      let v ← readArg w q.arg1
      setResult w q.result v
  | .getAddr => do
      let a ← varOf q.arg1
      setResult w q.result (.ptr a)
  | .readPtr => do
      let a ← readArg w q.arg1
      let i ← readArg w q.arg2
      let v ← readPtr w a i
      setResult w q.result v
  | .writePtr => do
      let a ← readArg w q.result
      let i ← readArg w q.arg1
      let v ← readArg w q.arg2
      writePtr w a i v
  | .param => do
      let v ← readArg w q.arg1
      return { w with params := v :: w.params }
  | .call => do
      let f ← funcOf q.arg1
      let v ← M.call w.trace f w.params
      setResult { w with trace := w.trace ++ [⟨f, w.params, v⟩], params := [] } q.result v
  | _ => none

/-- One quadruple. -/
def execQuad (q : Quad) (pos : ℕ) (w : World) : Option (Point × World) :=
  match q.op with
  | .goto => (blockOf q.result).map fun b => (.label b, w)
  | .ifEq | .ifNe | .ifLt | .ifGt | .ifLe | .ifGe => do
      let op ← cmpOf q.op
      let a ← readArg w q.arg1
      let b ← readArg w q.arg2
      let t ← testValue M op a b
      let l ← blockOf q.result
      return (if t then .label l else .at (pos + 1), w)
  | _ => (execPlain M q w).map fun w' => (.at (pos + 1), w')

/-- One step through the code, in which blocks are found by `lab`. -/
inductive Step (code : List Quad) (lab : ℕ → ℕ → Prop) : Point × World → Point × World → Prop
  | quad {pos : ℕ} {w : World} {q : Quad} {c : Point × World} :
      code[pos]? = some q → execQuad M q pos w = some c → Step code lab (.at pos, w) c
  | enter {l pos : ℕ} {w : World} : lab l pos → Step code lab (.label l, w) (.at pos, w)

/-- Any number of steps. -/
abbrev Run (code : List Quad) (lab : ℕ → ℕ → Prop) : Point × World → Point × World → Prop :=
  Relation.ReflTransGen (Step M code lab)

variable {M}

lemma Run.mono {code code' : List Quad} {lab lab' : ℕ → ℕ → Prop} {c c' : Point × World}
    (h : Run M code lab c c') (hcode : code <+: code')
    (hlab : ∀ l p, lab l p → lab' l p) : Run M code' lab' c c' := by
  refine Relation.ReflTransGen.mono ?_ _ _ h
  intro c c' hstep
  cases hstep with
  | @quad pos w q c hq hexec =>
    obtain ⟨rest, rfl⟩ := hcode
    refine Step.quad ?_ hexec
    rw [List.getElem?_append_left (List.getElem?_eq_some_iff.mp hq).1, hq]
  | enter hl => exact Step.enter (hlab _ _ hl)

/-! ## Where runs end -/

section Final

variable {code : List Quad} {lab : ℕ → ℕ → Prop} {c c₁ c₂ : Point × World} {w : World}

/-- Each block is found at one position. -/
def OnePosition (lab : ℕ → ℕ → Prop) : Prop := ∀ l p p', lab l p → lab l p' → p = p'

/-- A run can go on in one way only. -/
lemma step_unique (hlab : OnePosition lab) (h₁ : Step M code lab c c₁) (h₂ : Step M code lab c c₂) :
    c₁ = c₂ := by
  cases h₁ with
  | quad hq hexec =>
    cases h₂ with
    | quad hq' hexec' =>
      obtain rfl := Option.some.inj (hq.symm.trans hq')
      exact Option.some.inj (hexec.symm.trans hexec')
  | enter hl =>
    cases h₂ with
    | enter hl' =>
      rw [hlab _ _ _ hl hl']

variable (M code lab) in
/-- A run does not go on from here. -/
def Final (c : Point × World) : Prop := ∀ c', ¬Step M code lab c c'

/-- At the end of the code there is nothing to run. -/
lemma final_end : Final M code lab (.at code.length, w) := by
  intro c' hstep
  cases hstep with
  | quad hq _ =>
    rw [List.getElem?_eq_none (Nat.le_refl _)] at hq
    cases hq

lemma final_stuck {pos : ℕ} {q : Quad} (hq : code[pos]? = some q)
    (hexec : execQuad M q pos w = none) : Final M code lab (.at pos, w) := by
  intro c' hstep
  cases hstep with
  | quad hq' hexec' =>
    obtain rfl := Option.some.inj (hq.symm.trans hq')
    rw [hexec] at hexec'
    cases hexec'

/-- A label that cannot be entered is a way out. -/
lemma final_label {l : ℕ} (h : ∀ pos, ¬lab l pos) : Final M code lab (.label l, w) := by
  intro c' hstep
  cases hstep with
  | enter hl => exact h _ hl

lemma Run.eq_of_final (h : Run M code lab c c₁) (hc : Final M code lab c) : c = c₁ := by
  rcases Relation.ReflTransGen.cases_head h with heq | ⟨c', hstep, -⟩
  · exact heq
  · exact absurd hstep (hc c')

/-- What follows a run that has to be taken is the rest of every run that has ended. -/
lemma Run.rest (hlab : OnePosition lab) (h₁ : Run M code lab c c₁) (h₂ : Run M code lab c c₂)
    (hc₂ : Final M code lab c₂) : Run M code lab c₁ c₂ := by
  have hunique : Relator.RightUnique (Step M code lab) := fun _ _ _ h h' => step_unique hlab h h'
  rcases Relation.ReflTransGen.total_of_right_unique hunique h₁ h₂ with h | h
  · exact h
  · rw [Run.eq_of_final h hc₂]

/-- All runs from one configuration that have ended have ended in the same one. -/
lemma Run.final_unique (hlab : OnePosition lab) (h₁ : Run M code lab c c₁)
    (h₂ : Run M code lab c c₂) (hc₁ : Final M code lab c₁) (hc₂ : Final M code lab c₂) :
    c₁ = c₂ :=
  (h₁.rest hlab h₂ hc₂).eq_of_final hc₁

end Final

/-! ## Layouts that grow -/

namespace Layout

variable {A B C : Layout} {l : ℕ} {ch : List Blk}

/-- The block is nowhere and its number has been given out. -/
def Gone (A : Layout) (l : ℕ) : Prop := l < A.next ∧ ¬A.Has l

/-- What has been emitted stays: the code is longer, no settled block moves, no block that holds
quadruples goes, and no block comes back. -/
structure Extends (A B : Layout) : Prop where
  code : A.code <+: B.code
  settled : ∀ l p, A.Settled l p → B.Settled l p
  holds : ∀ b ∈ A.all, b.lst ≠ [] → ∃ b' ∈ B.all, b'.id = b.id ∧ b'.lst ≠ []
  gone : ∀ l, A.Gone l → B.Gone l
  next : A.next ≤ B.next
  vars : A.vars <+: B.vars
  decls : B.decls = A.decls

lemma Extends.refl (A : Layout) : A.Extends A :=
  ⟨List.prefix_rfl, fun _ _ h => h, fun b hb h => ⟨b, hb, rfl, h⟩, fun _ h => h, Nat.le_refl _,
    List.prefix_rfl, rfl⟩

lemma Extends.trans (h₁ : A.Extends B) (h₂ : B.Extends C) : A.Extends C := by
  refine ⟨h₁.code.trans h₂.code, fun l p h => h₂.settled l p (h₁.settled l p h),
    fun b hb hne => ?_, fun l h => h₂.gone l (h₁.gone l h), Nat.le_trans h₁.next h₂.next,
    h₁.vars.trans h₂.vars, h₂.decls.trans h₁.decls⟩
  obtain ⟨b', hb', hid, hne'⟩ := h₁.holds b hb hne
  obtain ⟨b'', hb'', hid', hne''⟩ := h₂.holds b' hb' hne'
  exact ⟨b'', hb'', hid'.trans hid, hne''⟩

lemma Extends.run {M : Meaning} (h : A.Extends B) {n : ℕ} {c c' : Point × World}
    (hrun : Run M A.code (A.SettledFrom n) c c') : Run M B.code (B.SettledFrom n) c c' :=
  hrun.mono h.code fun l p hl => ⟨h.settled l p hl.1, hl.2⟩

/-- Nothing but labels, numbers and variables changes. -/
lemma extends_of_all (hall : B.all = A.all) (hnext : A.next ≤ B.next) (hvars : A.vars <+: B.vars)
    (hdecls : B.decls = A.decls)
    (hgone : ∀ l < A.next, B.Has l → A.Has l) : A.Extends B := by
  have hcode : B.code = A.code := by rw [code, code, hall]
  refine ⟨hcode ▸ List.prefix_rfl, ?_, ?_, ?_, hnext, hvars, hdecls⟩
  · intro l p h
    rwa [Settled, hall]
  · intro b hb hne
    exact ⟨b, hall ▸ hb, rfl, hne⟩
  · exact fun l h => ⟨Nat.lt_of_lt_of_le h.1 hnext, fun hB => h.2 (hgone l h.1 hB)⟩

lemma extends_newLabel : A.Extends A.newLabel := by
  refine extends_of_all rfl (Nat.le_succ _) List.prefix_rfl rfl fun l hl hB => ?_
  rcases hB with hB | ⟨k, ch, hk, b, hb, hid⟩
  · exact Or.inl hB
  · rcases eq_or_ne k A.next with rfl | hne
    · obtain rfl : [⟨A.next, [], false⟩] = ch := by simpa [newLabel] using hk
      rw [List.mem_singleton.mp hb] at hid
      exact absurd hl (hid ▸ Nat.lt_irrefl _)
    · exact Or.inr ⟨k, ch, by simpa [newLabel, hne] using hk, b, hb, hid⟩

lemma extends_declare (d : VarDecl) : A.Extends (A.declare d) :=
  extends_of_all rfl (Nat.le_refl _) (List.prefix_append _ _) rfl fun _ _ h => h

lemma mem_referChain {n : ℕ} {b : Blk} (hb : b ∈ referChain n ch) :
    (∃ b' ∈ ch, b'.id = b.id) ∨ (b.id = n ∧ referNext n ch = n + 1) := by
  cases ch with
  | nil => cases hb
  | cons c rest =>
    simp only [referChain, referNext] at hb ⊢
    split at hb
    · rename_i hc
      rw [if_pos hc]
      rcases List.mem_cons.mp hb with rfl | hb
      · exact Or.inl ⟨b, List.mem_cons_self, rfl⟩
      · rcases List.mem_cons.mp hb with rfl | hb
        · exact Or.inr ⟨rfl, rfl⟩
        · exact Or.inl ⟨b, List.mem_cons_of_mem _ hb, rfl⟩
    · rcases List.mem_cons.mp hb with rfl | hb
      · exact Or.inl ⟨c, List.mem_cons_self, rfl⟩
      · exact Or.inl ⟨b, List.mem_cons_of_mem _ hb, rfl⟩

lemma le_referNext (n : ℕ) : n ≤ referNext n ch := by
  cases ch with
  | nil => exact Nat.le_refl _
  | cons c rest =>
    simp only [referNext]
    split
    · exact Nat.le_succ _
    · exact Nat.le_refl _

lemma extends_refer (hl : A.pend l = some ch) : A.Extends (A.refer l ch) := by
  refine extends_of_all rfl (le_referNext _) List.prefix_rfl rfl fun a ha hB => ?_
  rcases hB with hB | ⟨k, ch', hk, b, hb, hid⟩
  · exact Or.inl hB
  · rcases eq_or_ne k l with rfl | hne
    · obtain rfl : referChain A.next ch = ch' := by simpa [refer] using hk
      rcases mem_referChain hb with ⟨b', hb', hid'⟩ | ⟨hid', -⟩
      · exact Or.inr ⟨k, ch, hl, b', hb', hid'.trans hid⟩
      · omega
    · exact Or.inr ⟨k, ch', by simpa [refer, hne] using hk, b, hb, hid⟩

@[simp] lemma code_emit (q : Quad) : (A.emit q).code = A.code ++ [q] := by
  simp [code, all, emit]

@[simp] lemma code_newLabel : A.newLabel.code = A.code := rfl

@[simp] lemma code_declare (d : VarDecl) : (A.declare d).code = A.code := rfl

@[simp] lemma code_refer : (A.refer l ch).code = A.code := rfl

lemma extends_emit (q : Quad) : A.Extends (A.emit q) := by
  refine ⟨?_, ?_, ?_, ?_, Nat.le_refl _, List.prefix_rfl, rfl⟩
  · rw [code_emit]
    exact List.prefix_append _ _
  · rintro l p ⟨xs, b, ys, hall, hid, hp, hb⟩
    -- the block is the current one, which is the last, or it lies before it
    rcases List.eq_nil_or_concat ys with rfl | ⟨ys, c, rfl⟩
    · obtain ⟨rfl, hcur⟩ := List.append_inj' (show A.done ++ [A.cur] = xs ++ [b] from hall) rfl
      obtain rfl : A.cur = b := by simpa using hcur
      exact ⟨A.done, _, [], rfl, hid, hp, Or.inr (Or.inr (by simp [emit]))⟩
    · rw [List.concat_eq_append, ← List.cons_append, ← List.append_assoc] at hall
      have hdone : A.done = xs ++ b :: ys :=
          (List.append_inj' (show A.done ++ [A.cur] = xs ++ b :: ys ++ [c] from hall) rfl).1
      refine ⟨xs, b, ys ++ [{ A.cur with lst := A.cur.lst ++ [q] }], ?_, hid, hp,
        Or.inl (by simp)⟩
      rw [all_emit, hdone]
      simp
  · intro b hb hne
    rcases List.mem_append.mp hb with hb | hb
    · exact ⟨b, List.mem_append_left _ hb, rfl, hne⟩
    · rw [List.mem_singleton.mp hb]
      exact ⟨_, cur_mem_all, rfl, by simp [emit]⟩
  · rintro l ⟨hl, hgone⟩
    refine ⟨hl, fun hB => hgone (hB.imp_left fun ⟨b, hb, hid⟩ => ?_)⟩
    have hmem : b.id ∈ A.all.map Blk.id := by
      rw [← emit_ids q]
      exact List.mem_map.mpr ⟨b, hb, rfl⟩
    obtain ⟨b', hb', hid'⟩ := List.mem_map.mp hmem
    exact ⟨b', hb', hid'.trans hid⟩

lemma codeOf_kept : codeOf A.kept = A.code := by
  unfold kept
  split
  · rfl
  · rename_i h
    have hempty : A.cur.lst = [] := not_not.mp fun hne => h (Or.inr (Or.inl hne))
    simp [code, all, hempty]

lemma codeOf_added (hempty : ∀ b ∈ ch, b.lst = []) : codeOf (A.added ch) = [] := by
  unfold added
  split
  · simp [codeOf_eq_nil hempty]
  · exact codeOf_eq_nil hempty

/-- A block that holds quadruples, or is referred to, stays when others are appended. -/
lemma mem_kept {b : Blk} (hb : b ∈ A.all) (h : b.referenced = true ∨ b.lst ≠ []) :
    b ∈ A.kept := by
  unfold kept
  split
  · exact hb
  · rename_i hcur
    rcases List.mem_append.mp hb with hb | hb
    · exact hb
    · rw [List.mem_singleton.mp hb] at h
      exact absurd (Or.inr h.symm) hcur

lemma code_add (hch : ch ≠ []) (hempty : ∀ b ∈ ch, b.lst = []) : (A.add l ch).code = A.code := by
  rw [code, all_add hch, codeOf_append, codeOf_kept, codeOf_added hempty, List.append_nil]

/-- A block of a label's chain has a fixed position once it is in the list, unless it is the
current block and could still be freed. -/
lemma settled_add {xs ys : List Blk} {b : Blk} (hempty : ∀ c ∈ xs ++ b :: ys, c.lst = [])
    (h : ys ≠ [] ∨ b.referenced = true) :
    (A.add l (xs ++ b :: ys)).Settled b.id A.code.length := by
  have hch : xs ++ b :: ys ≠ [] := by simp
  have hxs : codeOf xs = [] := codeOf_eq_nil fun c hc => hempty c (List.mem_append_left _ hc)
  have hb : ys ≠ [] ∨ b.referenced = true ∨ b.lst ≠ [] := h.imp_right Or.inl
  unfold Settled
  rw [all_add hch, added]
  split
  · refine ⟨A.kept ++ ⟨A.next, [], true⟩ :: xs, b, ys, by simp, rfl, ?_, hb⟩
    simp [codeOf_kept, hxs]
  · refine ⟨A.kept ++ xs, b, ys, by simp, rfl, ?_, hb⟩
    simp [codeOf_kept, hxs]

lemma vars_add : (A.add l ch).vars = A.vars := by
  unfold add
  split <;> rfl

lemma decls_add : (A.add l ch).decls = A.decls := by
  unfold add
  split <;> rfl

lemma extends_add (hl : A.pend l = some ch) (hch : ch ≠ []) (hempty : ∀ b ∈ ch, b.lst = []) :
    A.Extends (A.add l ch) := by
  have hadded : A.added ch ≠ [] := by
    unfold added
    split
    · exact List.cons_ne_nil _ _
    · exact hch
  refine ⟨(code_add (A := A) (l := l) hch hempty).symm ▸ List.prefix_rfl, ?_, ?_, ?_, add_next_le,
    vars_add ▸ List.prefix_rfl, decls_add⟩
  · rintro k p ⟨xs, b, ys, hall, hid, hp, hb⟩
    unfold Settled
    rw [all_add hch]
    unfold kept
    split
    · exact ⟨xs, b, ys ++ A.added ch, by simp [hall], hid, hp, Or.inl (by simp [hadded])⟩
    · rename_i hcur
      -- only the current block can be dropped, and then it was empty and not settled
      rcases List.eq_nil_or_concat ys with rfl | ⟨ys, c, rfl⟩
      · obtain ⟨-, hc⟩ := List.append_inj' (show A.done ++ [A.cur] = xs ++ [b] from hall) rfl
        obtain rfl : A.cur = b := by simpa using hc
        refine absurd (Or.inr ?_) hcur
        exact (hb.resolve_left fun h => h rfl).symm
      · rw [List.concat_eq_append, ← List.cons_append, ← List.append_assoc] at hall
        have hdone : A.done = xs ++ b :: ys :=
          (List.append_inj' (show A.done ++ [A.cur] = xs ++ b :: ys ++ [c] from hall) rfl).1
        exact ⟨xs, b, ys ++ A.added ch, by simp [hdone], hid, hp, Or.inl (by simp [hadded])⟩
  · intro b hb hne
    refine ⟨b, ?_, rfl, hne⟩
    rw [all_add hch]
    exact List.mem_append_left _ (mem_kept hb (Or.inr hne))
  · rintro k ⟨hk, hgone⟩
    refine ⟨Nat.lt_of_lt_of_le hk add_next_le, ?_⟩
    rw [Has, all_add hch, pend_add]
    rintro (⟨b, hb, hid⟩ | ⟨j, ch', hj, hb⟩)
    · rcases List.mem_append.mp hb with hb | hb
      · exact hgone (Or.inl ⟨b, kept_sublist.subset hb, hid⟩)
      · unfold added at hb
        split at hb
        · rcases List.mem_cons.mp hb with rfl | hb
          · exact Nat.ne_of_lt hk hid.symm
          · exact hgone (Or.inr ⟨l, ch, hl, b, hb, hid⟩)
        · exact hgone (Or.inr ⟨l, ch, hl, b, hb, hid⟩)
    · rcases eq_or_ne j l with rfl | hjl
      · simp at hj
      · exact hgone (Or.inr ⟨j, ch', by simpa [hjl] using hj, hb⟩)

end Layout

end Javalette.Front
