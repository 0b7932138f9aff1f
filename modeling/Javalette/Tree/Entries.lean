import Javalette.Tree.Blocks

/-!
# Where the bodies of loops begin

The condition of a loop jumps back to the first block of the body.  That block is empty and current
when the translation of the body begins, and it is freed if the next block is begun before it gets
a quadruple.  Here it is shown that, as long as it is not freed, it stays where it is: the blocks
before it, `X`, are not touched, and nothing is put between them and the block.
-/

namespace Javalette.Front

open SyntaxTree LinkedList Layout

variable {P : Platform} {X : List Blk} {d : ℕ} {α β : Type} {s s' : GenState}

/-- A block that is neither one of `X` nor `d`. -/
def Outside (X : List Blk) (d a : ℕ) : Prop := a ∉ X.map Blk.id ∧ a ≠ d

/-- A block leads to blocks outside only. -/
def LeadsOut (X : List Blk) (d : ℕ) (b : BasicBlock) : Prop := ∀ n, b.next = some n → Outside X d n

/-- The list of blocks begins with `X`, and the block `d` follows, if it has not been freed. -/
structure Entry (X : List Blk) (d : ℕ) (s : GenState) : Prop where
  nodup : (X.map Blk.id).Nodup
  apart : d ∉ X.map Blk.id
  path : ∃ e, Chain s.heap (some s.blocks) X (some e) ∧ (s.heap d ≠ none → e = d)
  below : ∀ a, ¬Outside X d a → a < s.nextBlockId
  leadsOut : ∀ a b, s.heap a = some b → a ∉ X.map Blk.id → LeadsOut X d b
  cur : s.curBlock ∉ X.map Blk.id
  prev : ∀ p, s.prevBlock = some p → p ∈ X.map Blk.id →
    X.getLast?.map Blk.id = some p ∧ (s.heap d ≠ none → s.curBlock = d)

/-! ## Triples -/

/-- The computation leaves the blocks `X` and the place of `d` alone. -/
def Stays (X : List Blk) (d : ℕ) (m : Gen α) (Q : α → Prop) : Prop :=
  ∀ s, Entry X d s → ∀ a s', m s = .ok (a, s') → Entry X d s' ∧ Q a

section Triples

variable {m : Gen α} {f : α → Gen β} {Q : α → Prop} {R : β → Prop}

lemma stays_pure {a : α} (h : Q a) : Stays X d (pure a) Q := by
  rintro s hs _ _ ⟨⟩
  exact ⟨hs, h⟩

lemma Stays.bind (hm : Stays X d m Q) (hf : ∀ a, Q a → Stays X d (f a) R) :
    Stays X d (m >>= f) R := by
  intro s hs b s' hrun
  obtain ⟨a, s₁, hm', hf'⟩ := ok_of_bind hrun
  obtain ⟨hs₁, ha⟩ := hm s hs a s₁ hm'
  exact hf a ha s₁ hs₁ b s' hf'

lemma Stays.seq (hm : Stays X d m Q) (hf : ∀ a, Stays X d (f a) R) : Stays X d (m >>= f) R :=
  hm.bind fun a _ => hf a

lemma stays_throw {err : GenError} : Stays X d (throw err : Gen α) Q := by
  rintro s _ _ _ ⟨⟩

lemma Entry.withVars (h : Entry X d s) (vars : List VarDecl) (decls : String → Option ℕ) :
    Entry X d { s with vars := vars, decls := decls } :=
  ⟨h.nodup, h.apart, h.path, h.below, h.leadsOut, h.cur, h.prev⟩

end Triples

/-! ## Blocks -/

section Blocks

variable {a l : ℕ} {b : BasicBlock}

/-- A block outside of `X` is changed, and leads to blocks outside as before. -/
lemma Entry.store (h : Entry X d s) (ha : a ∉ X.map Blk.id) (hget : s.heap a ≠ none)
    (hb : LeadsOut X d b) : Entry X d { s with heap := Function.update s.heap a (some b) } := by
  have hd : Function.update s.heap a (some b) d ≠ none → s.heap d ≠ none := by
    rcases eq_or_ne d a with rfl | hne
    · exact fun _ => hget
    · rw [Function.update_of_ne hne]
      exact id
  obtain ⟨e, hchain, he⟩ := h.path
  refine ⟨h.nodup, h.apart, ⟨e, hchain.update ha, fun hne => he (hd hne)⟩, h.below,
    fun k c hk hkX => ?_, h.cur,
    fun p hp hpX => (h.prev p hp hpX).imp_right fun hcur hne => hcur (hd hne)⟩
  rcases eq_or_ne k a with rfl | hne
  · obtain rfl : b = c := by simpa using hk
    exact hb
  · exact h.leadsOut k c (by simpa [hne] using hk) hkX

/-- A block that can be read is in memory. -/
lemma getBlock_ok {s s₁ : GenState} (h : getBlock l s = .ok (b, s₁)) :
    s.heap l = some b ∧ s₁ = s := by
  unfold getBlock at h
  split at h <;> cases h
  exact ⟨by assumption, rfl⟩

lemma stays_getBlock (hl : l ∉ X.map Blk.id) : Stays X d (getBlock l) (LeadsOut X d) := by
  intro s hs b s' hrun
  obtain ⟨hb, rfl⟩ := getBlock_ok hrun
  exact ⟨hs, hs.leadsOut l b hb hl⟩

/-- A block is read and written. -/
lemma stays_modify {f : BasicBlock → BasicBlock} (hl : l ∉ X.map Blk.id)
    (hf : ∀ b, LeadsOut X d b → LeadsOut X d (f b)) :
    Stays X d (getBlock l >>= fun b => setBlock l (f b)) fun _ => True := by
  intro s hs _ s' hrun
  obtain ⟨b, s₁, hget, hset⟩ := ok_of_bind hrun
  obtain ⟨hb, rfl⟩ := getBlock_ok hget
  cases hset
  exact ⟨hs.store hl (by simp [hb]) (hf b (hs.leadsOut l b hb hl)), trivial⟩

lemma stays_markReferenced (hl : l ∉ X.map Blk.id) :
    Stays X d (markReferenced l) fun _ => True :=
  stays_modify hl fun _ hb => hb

lemma stays_setNext {y : Option ℕ} (hl : l ∉ X.map Blk.id) (hy : ∀ n, y = some n → Outside X d n) :
    Stays X d (setNext l y) fun _ => True :=
  stays_modify hl fun _ _ => hy

lemma stays_newBasicBlock : Stays X d newBasicBlock (Outside X d) := by
  rintro s hs _ _ ⟨⟩
  have hnew : Outside X d s.nextBlockId := by
    by_contra hno
    exact Nat.lt_irrefl _ (hs.below _ hno)
  have hd : Function.update s.heap s.nextBlockId (some ⟨[], none, false⟩) d = s.heap d :=
    Function.update_of_ne hnew.2.symm _ _
  obtain ⟨e, hchain, he⟩ := hs.path
  refine ⟨⟨hs.nodup, hs.apart, ⟨e, hchain.update hnew.1, fun hne => he (hd ▸ hne)⟩,
    fun a ha => Nat.lt_succ_of_lt (hs.below a ha), fun k c hk hkX => ?_, hs.cur,
    fun p hp hpX => (hs.prev p hp hpX).imp_right fun hcur hne => hcur (hd ▸ hne)⟩, hnew⟩
  rcases eq_or_ne k s.nextBlockId with rfl | hne
  · obtain rfl : ⟨[], none, false⟩ = c := by simpa using hk
    exact fun _ h => nomatch h
  · exact hs.leadsOut k c (by simpa [hne] using hk) hkX

lemma stays_emit (q : Quad) : Stays X d (emit q) fun _ => True := by
  intro s hs
  have h : Stays X d (addQuadr s.curBlock q) fun _ => True := stays_modify hs.cur fun _ hb => hb
  exact h s hs

lemma stays_splitLabel (hl : Outside X d l) : Stays X d (splitLabel l) (Outside X d) := by
  refine stays_newBasicBlock.bind fun n hn => (stays_getBlock hl.1).bind fun b hb => ?_
  refine (stays_setNext hn.1 hb).seq fun _ => ?_
  refine (stays_setNext hl.1 fun k hk => ?_).seq fun _ => stays_pure hn
  obtain rfl : n = k := by simpa using hk
  exact hn

lemma stays_quadrArgLabel (hl : Outside X d l) : Stays X d (quadrArgLabel l) fun _ => True := by
  refine (stays_getBlock hl.1).seq fun b => ?_
  split
  · split
    · exact (stays_splitLabel hl).bind fun n hn =>
        (stays_markReferenced hn.1).seq fun _ => stays_pure trivial
    · exact (stays_markReferenced hl.1).seq fun _ => stays_pure trivial
  · exact stays_pure trivial

/-- If `d` has become unreachable, it has been freed. -/
def Left (X : List Blk) (d : ℕ) (s : GenState) : Prop :=
  ∀ p, s.prevBlock = some p → p ∈ X.map Blk.id → s.heap d = none

/-- The current block stays in the list. -/
lemma Entry.keep (h : Entry X d s) {u : Unit} (hl : Outside X d l)
    (hrun : (setNext s.curBlock (some l) >>= fun _ =>
      modify fun s : GenState => { s with prevBlock := some s.curBlock } : Gen Unit) s =
        .ok (u, s')) : Entry X d s' ∧ Left X d s' := by
  obtain ⟨_, s₁, hset, hmod⟩ := ok_of_bind hrun
  have hs₁ := (stays_setNext h.cur (fun n hn => Option.some.inj hn ▸ hl) s h _ s₁ hset).1
  cases hmod
  have hout : ∀ p, some s₁.curBlock = some p → p ∉ X.map Blk.id := by
    intro p hp
    rw [← Option.some.inj hp]
    exact hs₁.cur
  exact ⟨⟨hs₁.nodup, hs₁.apart, hs₁.path, hs₁.below, hs₁.leadsOut, hs₁.cur,
    fun p hp hpX => absurd hpX (hout p hp)⟩, fun p hp hpX => absurd hpX (hout p hp)⟩

/-- The last block of `X` leads to another block. -/
lemma chain_relink {heap : ℕ → Option BasicBlock} {p : ℕ} {start e : Option ℕ}
    (h : Chain heap start X e) (hnodup : (X.map Blk.id).Nodup)
    (hp : X.getLast?.map Blk.id = some p) (hb : heap p = some b) (l : ℕ) :
    Chain (Function.update heap p (some { b with next := some l })) start X (some l) := by
  obtain ⟨x, hx, rfl⟩ := Option.map_eq_some_iff.mp hp
  obtain ⟨xs, rfl⟩ := List.getLast?_eq_some_iff.mp hx
  obtain ⟨r, h₁, hr, next, hcell, -⟩ := segment_append.mp h
  obtain rfl : b = x.cell next := Option.some.inj (hb.symm.trans hcell)
  rw [List.map_append] at hnodup
  have hxs : x.id ∉ xs.map Blk.id := fun hmem =>
    (List.nodup_append.mp hnodup).2.2 _ hmem _ List.mem_cons_self rfl
  exact segment_append.mpr ⟨r, h₁.update hxs, hr, some l, Function.update_self _ _ _, rfl⟩

/-- The current block is freed, and the one before it leads to the blocks that follow. -/
lemma Entry.drop (h : Entry X d s) {p : ℕ} {u : Unit} (hprev : s.prevBlock = some p)
    (hl : Outside X d l)
    (hrun : (freeBasicBlock s.curBlock >>= fun _ => setNext p (some l) : Gen Unit) s =
      .ok (u, s')) : Entry X d s' ∧ Left X d s' := by
  obtain ⟨_, s₁, hfree, hset⟩ := ok_of_bind hrun
  cases hfree
  obtain ⟨c, s₂, hget, hset⟩ := ok_of_bind hset
  obtain ⟨hc, rfl⟩ := getBlock_ok hget
  have hc : Function.update s.heap s.curBlock none p = some c := hc
  cases hset
  -- a block that is in memory now has been there before
  have hold : ∀ a b, a ≠ p → Function.update (Function.update s.heap s.curBlock none) p
      (some { c with next := some l }) a = some b → s.heap a = some b := by
    intro a b hap hab
    rw [Function.update_of_ne hap] at hab
    rcases eq_or_ne a s.curBlock with rfl | hac
    · rw [Function.update_self] at hab
      cases hab
    · rwa [Function.update_of_ne hac] at hab
  have hpc : p ≠ s.curBlock := by
    rintro rfl
    rw [Function.update_self] at hc
    cases hc
  have hc' : s.heap p = some c := by rwa [Function.update_of_ne hpc] at hc
  obtain ⟨e, hchain, he⟩ := h.path
  have hfreed : Chain (Function.update s.heap s.curBlock none) (some s.blocks) X (some e) :=
    hchain.update h.cur
  have hleads : ∀ a b, Function.update (Function.update s.heap s.curBlock none) p
      (some { c with next := some l }) a = some b → a ∉ X.map Blk.id → LeadsOut X d b := by
    intro a b hab haX
    rcases eq_or_ne a p with rfl | hap
    · rw [Function.update_self] at hab
      obtain rfl := Option.some.inj hab
      rintro n ⟨⟩
      exact hl
    · exact h.leadsOut a b (hold a b hap hab) haX
  by_cases hpX : p ∈ X.map Blk.id
  · -- the block `d` is the current one, if it is there at all
    obtain ⟨hlast, hcur⟩ := h.prev p hprev hpX
    have hdp : d ≠ p := fun heq => h.apart (heq ▸ hpX)
    have hd : Function.update (Function.update s.heap s.curBlock none) p
        (some { c with next := some l }) d = none := by
      by_contra hne
      obtain ⟨b, hb⟩ := Option.ne_none_iff_exists'.mp hne
      have hdcur : s.curBlock = d := hcur (by simp [hold d b hdp hb])
      rw [Function.update_of_ne hdp, hdcur, Function.update_self] at hne
      exact hne rfl
    exact ⟨⟨h.nodup, h.apart, ⟨l, chain_relink hfreed h.nodup hlast hc l,
      fun hne => absurd hd hne⟩, h.below, hleads, h.cur,
      fun q hq hqX => ⟨(h.prev q hq hqX).1, fun hne => absurd hd hne⟩⟩, fun _ _ _ => hd⟩
  · have hd : Function.update (Function.update s.heap s.curBlock none) p
        (some { c with next := some l }) d ≠ none → s.heap d ≠ none := by
      intro hne
      rcases eq_or_ne d p with rfl | hdp
      · simp [hc']
      · obtain ⟨b, hb⟩ := Option.ne_none_iff_exists'.mp hne
        simp [hold d b hdp hb]
    have hno : ∀ q, s.prevBlock = some q → q ∉ X.map Blk.id := by
      intro q hq
      rw [hprev] at hq
      exact Option.some.inj hq ▸ hpX
    exact ⟨⟨h.nodup, h.apart, ⟨e, hfreed.update hpX, fun hne => he (hd hne)⟩, h.below, hleads,
      h.cur, fun q hq hqX => absurd hqX (hno q hq)⟩, fun q hq hqX => absurd hqX (hno q hq)⟩

lemma entry_linkBlocks (h : Entry X d s) (hl : Outside X d l) {u : Unit}
    (hrun : linkBlocks l s = .ok (u, s')) : Entry X d s' ∧ Left X d s' := by
  obtain ⟨_, s₁, hget, hrun⟩ := ok_of_bind hrun
  cases hget
  obtain ⟨cur, s₂, hcur, hrun⟩ := ok_of_bind hrun
  obtain ⟨-, rfl⟩ := getBlock_ok hcur
  cases hp : s₂.prevBlock with
  | none =>
    rw [hp] at hrun
    exact h.keep hl hrun
  | some p =>
    rw [hp] at hrun
    by_cases hkeep : cur.lst ≠ [] ∨ cur.referenced = true
    · simp only [if_pos hkeep] at hrun
      exact h.keep hl hrun
    · simp only [if_neg hkeep] at hrun
      exact h.drop hp hl hrun

lemma entry_advanceBlocks {u : Unit} : ∀ {fuel l : ℕ} {s : GenState}, Entry X d s → Left X d s →
    Outside X d l → advanceBlocks fuel l s = .ok (u, s') → Entry X d s'
  | 0, _, _, _, _, _, hrun => by cases hrun
  | fuel + 1, l, s, h, hleft, hl, hrun => by
    obtain ⟨b, s₁, hget, htail⟩ := ok_of_bind hrun
    obtain ⟨hb, rfl⟩ := getBlock_ok hget
    cases hnext : b.next with
    | none =>
      rw [hnext] at htail
      cases htail
      exact ⟨h.nodup, h.apart, h.path, h.below, h.leadsOut, hl.1,
        fun p hp hpX => ⟨(h.prev p hp hpX).1, fun hne => absurd (hleft p hp hpX) hne⟩⟩
    | some n =>
      rw [hnext] at htail
      obtain ⟨_, s₂, hmod, htail⟩ := ok_of_bind htail
      cases hmod
      have hout : ∀ p, some l = some p → p ∉ X.map Blk.id := by
        rintro _ ⟨⟩
        exact hl.1
      have hs₂ : Entry X d { s₁ with prevBlock := some l } :=
        ⟨h.nodup, h.apart, h.path, h.below, h.leadsOut, h.cur,
          fun p hp hpX => absurd hpX (hout p hp)⟩
      exact entry_advanceBlocks hs₂ (fun p hp hpX => absurd hpX (hout p hp))
        (h.leadsOut l b hb hl.1 n hnext) htail

lemma stays_appendBlocks (hl : Outside X d l) : Stays X d (appendBlocks l) fun _ => True := by
  intro s hs _ s' hrun
  obtain ⟨_, s₁, hlink, hrun⟩ := ok_of_bind hrun
  obtain ⟨_, s₂, hget, hrun⟩ := ok_of_bind hrun
  cases hget
  obtain ⟨hs₁, hleft⟩ := entry_linkBlocks hs hl hlink
  exact ⟨entry_advanceBlocks hs₁ hleft hl hrun, trivial⟩

lemma stays_addDummy (hl : Outside X d l) : Stays X d (addDummy l) (Outside X d) := by
  refine stays_newBasicBlock.bind fun n hn => ?_
  refine (stays_setNext hn.1 fun k hk => ?_).seq fun _ =>
    (stays_markReferenced hn.1).seq fun _ => stays_pure hn
  exact Option.some.inj hk ▸ hl

lemma stays_addBasicBlocks (hl : Outside X d l) : Stays X d (addBasicBlocks l) fun _ => True := by
  intro s hs _ s' hrun
  obtain ⟨_, s₁, hget, hrun⟩ := ok_of_bind hrun
  cases hget
  have h : Stays X d (getBlock s.curBlock >>= fun cur =>
      if endsInIf cur.lst = true then addDummy l >>= fun dummy => appendBlocks dummy
      else appendBlocks l) fun _ => True := by
    refine (stays_getBlock hs.cur).seq fun cur => ?_
    split
    · exact (stays_addDummy hl).bind fun _ hn => stays_appendBlocks hn
    · exact stays_appendBlocks hl
  exact h s hs _ s' hrun

lemma stays_addNewBlock : Stays X d addNewBlock fun _ => True :=
  stays_newBasicBlock.bind fun _ hn => stays_addBasicBlocks hn

lemma stays_genGoto (hl : Outside X d l) : Stays X d (genGoto l) fun _ => True :=
  (stays_quadrArgLabel hl).seq fun _ => (stays_emit _).seq fun _ => stays_addNewBlock

end Blocks

/-! ## Variables -/

lemma stays_newVarDecl (v : VarDecl) : Stays X d (newVarDecl v) fun _ => True := by
  rintro s hs _ _ ⟨⟩
  exact ⟨hs.withVars _ _, trivial⟩

lemma stays_declareVar (type : Ty) : Stays X d (declareVar type) fun _ => True := by
  unfold declareVar
  split
  · exact stays_newVarDecl _
  · exact stays_throw

lemma stays_declOf (ident : String) : Stays X d (declOf ident) fun _ => True := by
  intro s hs v s' hrun
  unfold declOf at hrun
  split at hrun <;> cases hrun
  exact ⟨hs, trivial⟩

lemma stays_varType (var : ℕ) : Stays X d (varType var) fun _ => True := by
  intro s hs v s' hrun
  unfold varType at hrun
  split at hrun <;> cases hrun
  exact ⟨hs, trivial⟩

lemma stays_basicTypeOf (var : ℕ) : Stays X d (basicTypeOf var) fun _ => True := by
  refine (stays_varType var).seq fun type => ?_
  split
  · exact stays_pure trivial
  · exact stays_throw

lemma stays_bindIdent (ident : String) (var : ℕ) :
    Stays X d (bindIdent ident var) fun _ => True := by
  rintro s hs _ _ ⟨⟩
  exact ⟨hs.withVars s.vars _, trivial⟩

lemma stays_inScope {m : Gen α} (hm : Stays X d m fun _ => True) :
    Stays X d (inScope m) fun _ => True := by
  intro s hs a s' hrun
  obtain ⟨_, s₁, hget, hrun⟩ := ok_of_bind hrun
  cases hget
  obtain ⟨_, s₂, hbody, hrun⟩ := ok_of_bind hrun
  cases hrun
  exact ⟨(hm _ hs _ _ hbody).1.withVars s₂.vars _, trivial⟩

lemma stays_genGetAddr (var : ℕ) : Stays X d (genGetAddr var) fun _ => True :=
  (stays_varType var).seq fun _ => (stays_newVarDecl _).seq fun _ =>
    (stays_emit _).seq fun _ => stays_pure trivial

lemma stays_quadrArg0 (type : Ty) (value : VarArg) :
    Stays X d (quadrArg0 P type value) fun _ => True := by
  unfold quadrArg0
  split
  · exact stays_pure trivial
  · exact stays_pure trivial
  · exact stays_pure trivial
  · exact stays_throw

lemma stays_quadrArg (type : Ty) (value : VarArg) :
    Stays X d (quadrArg P type value) fun _ => True :=
  (stays_declareVar type).seq fun _ => (stays_quadrArg0 _ _).seq fun _ =>
    (stays_emit _).seq fun _ => stays_pure trivial

/-! ## Expressions -/

lemma stays_genTruthValue {var ifTrue : ℕ} (h : Outside X d ifTrue) :
    Stays X d (genTruthValue P var ifTrue) fun _ => True := by
  refine stays_addNewBlock.seq fun _ => stays_newBasicBlock.bind fun last hlast => ?_
  refine (stays_quadrArg0 _ _).seq fun _ => (stays_emit _).seq fun _ => ?_
  refine (stays_genGoto hlast).seq fun _ => (stays_addBasicBlocks h).seq fun _ => ?_
  refine (stays_quadrArg0 _ _).seq fun _ => (stays_emit _).seq fun _ => ?_
  exact (stays_addBasicBlocks hlast).seq fun _ => stays_pure trivial

lemma stays_genParams : ∀ args : List Arg, Stays X d (genParams args) fun _ => True
  | [] => stays_pure trivial
  | _ :: args => (stays_genParams args).seq fun _ => stays_emit _

lemma stays_genCallQuadr (type : Ty) (func : ℕ) (args : List Arg) :
    Stays X d (genCallQuadr type func args) fun _ => True := by
  refine (stays_genParams args).seq fun _ => ?_
  split
  · exact (stays_emit _).seq fun _ => stays_pure trivial
  · exact (stays_declareVar type).seq fun _ => (stays_emit _).seq fun _ => stays_pure trivial

lemma stays_genBoolTest (label value : Arg) (sense : Bool) :
    Stays X d (genBoolTest P label value sense) fun _ => True :=
  (stays_quadrArg _ _).seq fun _ => (stays_emit _).seq fun _ => stays_addNewBlock

mutual

lemma stays_genQuadrExpr (e : Expr) : Stays X d (genQuadrExpr P e) fun _ => True := by
  by_cases hjump : isJumping e = true
  · rw [genQuadrExpr_jumping hjump]
    exact (stays_declareVar _).seq fun _ => stays_newBasicBlock.bind fun l hl =>
      (stays_genQuadrBoolExpr e true hl).seq fun _ => stays_genTruthValue hl
  · unfold genQuadrExpr
    rw [if_neg hjump]
    cases e with
    | int value => exact stays_quadrArg _ _
    | double value => exact stays_quadrArg _ _
    | str value => exact stays_pure trivial
    | ident x => exact (stays_declOf x).seq fun _ => stays_pure trivial
    | array x i =>
      refine (stays_declOf x).seq fun base => (stays_basicTypeOf base).seq fun type => ?_
      refine (stays_declareVar type).seq fun _ => (stays_genQuadrExpr i).seq fun _ => ?_
      exact (stays_genGetAddr base).seq fun _ => (stays_emit _).seq fun _ => stays_pure trivial
    | binop op type l r =>
      refine (stays_declareVar type).seq fun _ => (stays_genQuadrExpr l).seq fun _ => ?_
      exact (stays_genQuadrExpr r).seq fun _ => (stays_emit _).seq fun _ => stays_pure trivial
    | neg type e =>
      refine (stays_declareVar type).seq fun _ => (stays_quadrArg _ _).seq fun _ => ?_
      exact (stays_genQuadrExpr e).seq fun _ => (stays_emit _).seq fun _ => stays_pure trivial
    | plus type e => exact stays_genQuadrExpr e
    | call type func es => exact (stays_genArgs es).seq fun _ => stays_genCallQuadr type func _
    | _ => exact stays_throw
termination_by 2 * sizeOf e + 1

lemma stays_genQuadrBoolExpr (e : Expr) (sense : Bool) {l : ℕ} (hl : Outside X d l) :
    Stays X d (genQuadrBoolExpr P e l sense) fun _ => True := by
  unfold genQuadrBoolExpr
  cases e with
  | cmp op e₁ e₂ =>
    refine (stays_quadrArgLabel hl).seq fun _ => (stays_genQuadrExpr e₁).seq fun _ => ?_
    exact (stays_genQuadrExpr e₂).seq fun _ => (stays_emit _).seq fun _ => stays_addNewBlock
  | and e₁ e₂ =>
    dsimp only
    split
    · -- the label made here is new, so it is outside of what has to stay
      refine stays_newBasicBlock.bind fun last hlast => ?_
      refine (stays_genQuadrBoolExpr e₁ false hlast).seq fun _ =>
        (stays_genQuadrBoolExpr e₂ false hlast).seq fun _ => ?_
      exact (stays_genGoto hl).seq fun _ => stays_addBasicBlocks hlast
    · exact (stays_genQuadrBoolExpr e₁ false hl).seq fun _ => stays_genQuadrBoolExpr e₂ false hl
  | or e₁ e₂ =>
    dsimp only
    split
    · exact (stays_genQuadrBoolExpr e₁ true hl).seq fun _ => stays_genQuadrBoolExpr e₂ true hl
    · refine stays_newBasicBlock.bind fun last hlast => ?_
      refine (stays_genQuadrBoolExpr e₁ true hlast).seq fun _ =>
        (stays_genQuadrBoolExpr e₂ true hlast).seq fun _ => ?_
      exact (stays_genGoto hl).seq fun _ => stays_addBasicBlocks hlast
  | not e => exact stays_genQuadrBoolExpr e (!sense) hl
  | bool value =>
    dsimp only
    split
    · exact stays_genGoto hl
    · exact stays_pure trivial
  | ident x =>
    exact (stays_declOf x).seq fun _ => (stays_quadrArgLabel hl).seq fun _ =>
      stays_genBoolTest _ _ sense
  | call type func es =>
    refine (stays_quadrArgLabel hl).seq fun _ => (stays_genArgs es).seq fun _ => ?_
    exact (stays_genCallQuadr type func _).seq fun _ => stays_genBoolTest _ _ sense
  | _ => exact stays_throw
termination_by 2 * sizeOf e

lemma stays_genArgs : ∀ es : List Expr, Stays X d (genArgs P es) fun _ => True
  | [] => by
    rw [genArgs]
    exact stays_pure trivial
  | e :: es => by
    rw [genArgs]
    exact (stays_genQuadrExpr e).seq fun _ => (stays_genArgs es).seq fun _ => stays_pure trivial
termination_by es => 2 * sizeOf es

end

/-! ## Instructions -/

lemma stays_genDeclarators (type : Ty) : ∀ decls : List Declarator,
    Stays X d (genDeclarators P type decls) fun _ => True
  | [] => stays_pure trivial
  | decl :: decls => by
    have hdecl : Stays X d (genDeclarator P type decl) fun _ => True := by
      cases decl with
      | array x n => exact (stays_declareVar _).seq fun _ => stays_bindIdent x _
      | var x init =>
        cases init with
        | none => exact (stays_declareVar type).seq fun _ => stays_bindIdent x _
        | some e =>
          refine (stays_declareVar type).seq fun _ => (stays_genQuadrExpr e).seq fun _ => ?_
          refine (stays_emit _).seq fun _ => (stays_declareVar type).seq fun _ => ?_
          exact (stays_bindIdent x _).seq fun _ => stays_emit _
    exact hdecl.seq fun _ => stays_genDeclarators type decls

lemma stays_genAssign (lvalue : Lvalue) (e : Expr) :
    Stays X d (genAssign P lvalue e) fun _ => True := by
  cases lvalue with
  | ident x => exact (stays_declOf x).seq fun _ => (stays_genQuadrExpr e).seq fun _ => stays_emit _
  | array x i =>
    refine (stays_genQuadrExpr e).seq fun _ => (stays_genQuadrExpr i).seq fun _ => ?_
    exact (stays_declOf x).seq fun _ => (stays_genGetAddr _).seq fun _ => stays_emit _

lemma stays_genIncDec (op : QuadrOp) (lvalue : Lvalue) :
    Stays X d (genIncDec P op lvalue) fun _ => True := by
  cases lvalue with
  | array x i => exact stays_throw
  | ident x =>
    refine (stays_declOf x).seq fun var => (stays_varType var).seq fun type => ?_
    dsimp only
    split
    · exact (stays_quadrArg _ _).seq fun _ => stays_emit _
    · exact (stays_quadrArg _ _).seq fun _ => stays_emit _

lemma stays_genReturn (e : Option Expr) : Stays X d (genReturn P e) fun _ => True := by
  cases e with
  | none => exact (stays_emit _).seq fun _ => stays_addNewBlock
  | some e =>
      exact (stays_genQuadrExpr e).seq fun _ => (stays_emit _).seq fun _ => stays_addNewBlock

lemma stays_genBranch (e : Expr) : Stays X d (genBranch P e) (Outside X d) :=
  stays_newBasicBlock.bind fun _ hl => (stays_genQuadrBoolExpr e false hl).seq fun _ =>
    stays_addNewBlock.seq fun _ => stays_pure hl

lemma stays_genElse {l : ℕ} (hl : Outside X d l) : Stays X d (genElse l) (Outside X d) :=
  stays_newBasicBlock.bind fun _ hend => (stays_genGoto hend).seq fun _ =>
    (stays_addBasicBlocks hl).seq fun _ => stays_pure hend

lemma stays_genLoopHead :
    Stays X d genLoopHead fun r => Outside X d r.1 ∧ Outside X d r.2 :=
  stays_newBasicBlock.bind fun _ hcond => (stays_genGoto hcond).seq fun _ =>
    stays_newBasicBlock.bind fun _ hbody => (stays_addBasicBlocks hbody).seq fun _ =>
      stays_pure ⟨hcond, hbody⟩

lemma stays_genLoopTail {c b : ℕ} (e : Expr) (hc : Outside X d c) (hb : Outside X d b) :
    Stays X d (genLoopTail P e c b) fun _ => True :=
  (stays_addBasicBlocks hc).seq fun _ => (stays_genQuadrBoolExpr e true hb).seq fun _ =>
    stays_addNewBlock

mutual

lemma stays_genInstr : ∀ i : Instr, Stays X d (genInstr P i) fun _ => True
  | .empty => by
    rw [genInstr]
    exact stays_pure trivial
  | .expr e => by
    rw [genInstr]
    exact (stays_genQuadrExpr e).seq fun _ => stays_pure trivial
  | .block is => by
    rw [genInstr]
    exact stays_inScope (stays_genInstrs is)
  | .declaration type decls => by
    rw [genInstr]
    exact (stays_genDeclarators type decls).seq fun _ => stays_pure trivial
  | .assign lvalue e => by
    rw [genInstr]
    exact (stays_genAssign lvalue e).seq fun _ => stays_pure trivial
  | .inc lvalue | .dec lvalue => by
    rw [genInstr]
    exact (stays_genIncDec _ lvalue).seq fun _ => stays_pure trivial
  | .ifThen e i => by
    rw [genInstr]
    exact (stays_genBranch e).bind fun _ hl => (stays_genInstr i).seq fun _ =>
      (stays_addBasicBlocks hl).seq fun _ => stays_pure trivial
  | .ifElse e i₁ i₂ => by
    rw [genInstr]
    exact (stays_genBranch e).bind fun _ hl => (stays_genInstr i₁).seq fun _ =>
      (stays_genElse hl).bind fun _ hend => (stays_genInstr i₂).seq fun _ =>
        (stays_addBasicBlocks hend).seq fun _ => stays_pure trivial
  | .whileDo e i => by
    rw [genInstr]
    exact stays_genLoopHead.bind fun _ hl => (stays_genInstr i).seq fun _ =>
      (stays_genLoopTail e hl.1 hl.2).seq fun _ => stays_pure trivial
  | .forDo i₁ e i₃ i => by
    rw [genInstr]
    exact (stays_genInstr i₁).seq fun _ => stays_genLoopHead.bind fun _ hl =>
      (stays_genInstr i).seq fun _ => (stays_genInstr i₃).seq fun _ =>
        (stays_genLoopTail e hl.1 hl.2).seq fun _ => stays_pure trivial
  | .ret e => by
    rw [genInstr]
    exact (stays_genReturn e).seq fun _ => stays_pure trivial

lemma stays_genInstrs : ∀ is : List Instr, Stays X d (genInstrs P is) fun _ => True
  | [] => by
    rw [genInstrs]
    exact stays_pure trivial
  | i :: is => by
    rw [genInstrs]
    exact (stays_genInstr i).seq fun _ => (stays_genInstrs is).seq fun _ => stays_pure trivial

end

/-! ## The first block of a body -/

section Body

variable {C D : Layout}

/-- A body begins with an empty block after the others. -/
lemma entry_begin (hs : Rep s D.begin) : Entry D.begin.done D.next s := by
  have hcur : D.begin.cur = ⟨D.next, [], false⟩ := cur_begin
  have hnodup : ((D.begin.done ++ [D.begin.cur]).map Blk.id).Nodup := hs.sound.nodup
  rw [List.map_append, hcur] at hnodup
  obtain ⟨hdone, -, hdisj⟩ := List.nodup_append.mp hnodup
  have hapart : D.next ∉ D.begin.done.map Blk.id := fun hmem =>
    hdisj _ hmem _ List.mem_cons_self rfl
  have hcurId : s.curBlock = D.next := by rw [hs.cur, hcur]
  refine ⟨hdone, hapart, ?_, fun a ha => ?_, fun a b hb haX => ?_, hcurId ▸ hapart,
    fun p hp _ => ⟨?_, fun _ => hcurId⟩⟩
  · obtain ⟨r, hchain, hr, -⟩ := segment_append.mp (show Chain s.heap (some s.blocks)
      (D.begin.done ++ [D.begin.cur]) none from hs.list)
    refine ⟨D.next, ?_, fun _ => rfl⟩
    rw [hcur] at hr
    exact hr ▸ hchain
  · rw [hs.next]
    by_cases haX : a ∈ D.begin.done.map Blk.id
    · obtain ⟨b, hb, rfl⟩ := List.mem_map.mp haX
      exact hs.sound.below b (List.mem_append_left _ hb)
    · have had : a = D.next := by
        by_contra hne
        exact ha ⟨haX, hne⟩
      rw [had]
      exact begin_next_le
  · -- the block is the current one, or it hangs on a label
    rcases hs.tight a (by simp [hb]) with ⟨c, hc, rfl⟩ | ⟨l, ch, hl, c, hc, rfl⟩
    · rcases List.mem_append.mp hc with hc | hc
      · exact absurd (List.mem_map.mpr ⟨c, hc, rfl⟩) haX
      · obtain rfl : c = D.begin.cur := List.mem_singleton.mp hc
        have hget : s.heap D.begin.cur.id = some (D.begin.cur.cell none) := hs.cur ▸ hs.cur_get
        obtain rfl := Option.some.inj (hb.symm.trans hget)
        exact fun n hn => nomatch hn
    · obtain ⟨xs, ys, rfl⟩ := List.append_of_mem hc
      obtain rfl := Option.some.inj (hb.symm.trans (Segment.get (hs.label l _ hl)))
      intro n hn
      cases ys with
      | nil => cases hn
      | cons c' ys =>
        obtain rfl : c'.id = n := Option.some.inj hn
        have hne := hs.sound.labelApart l _ hl c' (by simp)
        refine ⟨fun hmem => ?_, fun heq => hne _ cur_mem_all (by rw [heq, hcur])⟩
        obtain ⟨x, hx, hid⟩ := List.mem_map.mp hmem
        exact hne x (List.mem_append_left _ hx) hid.symm
  · rw [← hp, hs.prev]

/-- A block is determined by its number and its memory. -/
lemma cell_inj {b b' : Blk} {n m : Option ℕ} (hid : b.id = b'.id) (hcell : b.cell n = b'.cell m) :
    b = b' ∧ n = m := by
  cases b
  cases b'
  simp only [Blk.cell, BasicBlock.mk.injEq] at hid hcell
  obtain ⟨rfl, rfl, rfl⟩ := hcell
  obtain rfl := hid
  exact ⟨rfl, rfl⟩

/-- If the first block of the body holds quadruples in the end, they stand after the code from
before the body. -/
lemma Entry.settled (h : Entry D.begin.done D.next s) (hs : Rep s C)
    (hd : ∃ b ∈ C.all, b.id = D.next ∧ b.lst ≠ []) : C.Settled D.next D.code.length := by
  obtain ⟨b, hb, hid, hlst⟩ := hd
  obtain ⟨xs, ys, hall⟩ := List.append_of_mem hb
  obtain ⟨e, hchain, he⟩ := h.path
  have hget : s.heap D.next ≠ none := by
    rw [← hid, hs.list_get hall]
    exact Option.some_ne_none _
  obtain rfl := he hget
  obtain ⟨zs, hzs, hrest⟩ := Segment.initial (fun _ _ _ _ => cell_inj) hchain hs.list (by simp)
  cases zs with
  | nil => cases hrest
  | cons c zs =>
    obtain ⟨hc, -⟩ := hrest
    -- the block occurs once
    have hcb : c = b := by
      refine List.inj_on_of_nodup_map hs.sound.nodup (hzs ▸ by simp) hb ?_
      rw [hid, Option.some.inj hc]
    have hcode : codeOf D.begin.done = D.code := by
      rw [← code_begin, code, all, codeOf_append, cur_begin]
      simp
    rw [← hcode]
    exact ⟨_, c, zs, hzs, (Option.some.inj hc).symm, rfl, Or.inr (Or.inr (hcb ▸ hlst))⟩

/-- What is translated in a body leaves the first block where it is. -/
lemma Emits.entered {m : Gen α} {dangles : Prop} {Q : α → Layout → Prop}
    (h : Emits m D.begin dangles Q) (hm : Stays D.begin.done D.next m fun _ => True) :
    Emits m D.begin dangles fun a C => Q a C ∧
      ((∃ b ∈ C.all, b.id = D.next ∧ b.lst ≠ []) → C.Settled D.next D.code.length) := by
  intro s hs
  have h := h s hs
  cases hr : m s with
  | ok p =>
    rw [hr] at h
    obtain ⟨C, hC, hQ⟩ := h
    exact ⟨C, hC, hQ, ((hm s (entry_begin hs) p.1 p.2 hr).1).settled hC⟩
  | error err =>
    rw [hr] at h
    cases err <;> exact h

end Body

end Javalette.Front
