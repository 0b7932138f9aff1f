import Javalette.Quadr.Run

/-!
# What a translation does to the block list

Three things are followed through the translation of an expression.  `Shaped`: jumps and returns
end blocks, and parameters stand before their call.  `Referred`: which labels the new jumps lead
to, and how often the destination is among them.  `Opens`: whether the block that was current at
the start gets a quadruple before the next block is begun, for otherwise it is freed.
-/

namespace Javalette.Front

open SyntaxTree

/-! ## Jumps -/

/-- The target of a jump. -/
def targetOf (q : Quad) : Option ℕ :=
  if q.op = .goto ∨ isIfOp q.op = true then blockOf q.result else none

/-- The targets of the jumps, in order. -/
def targets (code : List Quad) : List ℕ := code.filterMap targetOf

@[simp] lemma targets_nil : targets [] = [] := rfl

@[simp] lemma targets_append (c c' : List Quad) : targets (c ++ c') = targets c ++ targets c' :=
  List.filterMap_append

lemma isBlockEnd_of_isIfOp (op : QuadrOp) (h : isIfOp op = true) : isBlockEnd op = true := by
  revert h
  cases op <;> decide

/-- A quadruple that does not end a block is no jump. -/
lemma targetOf_plain {q : Quad} (h : isBlockEnd q.op = false) : targetOf q = none := by
  refine if_neg ?_
  rintro (hq | hq)
  · rw [hq] at h
    cases h
  · rw [isBlockEnd_of_isIfOp q.op hq] at h
    cases h

/-! ## The shape of blocks -/

/-- Each parameter is followed by another one or by the call. -/
def paramsAdjacent : List Quad → Bool
  | [] => true
  | q :: rest =>
      (!(q.op == .param) || (match rest with
        | [] => false
        | next :: _ => next.op == .param || next.op == .call)) && paramsAdjacent rest

lemma paramsAdjacent_append {lst lst' : List Quad} (h : paramsAdjacent lst = true)
    (h' : paramsAdjacent lst' = true) : paramsAdjacent (lst ++ lst') = true := by
  induction lst with
  | nil => exact h'
  | cons q rest ih =>
    simp only [paramsAdjacent, Bool.and_eq_true] at h
    simp only [List.cons_append, paramsAdjacent, Bool.and_eq_true]
    refine ⟨?_, ih h.2⟩
    cases rest with
    | nil =>
      have hq : (q.op == .param) = false := by simpa using h.1
      simp [hq]
    | cons next rest => exact h.1

lemma paramsAdjacent_single {q : Quad} (h : q.op ≠ .param) : paramsAdjacent [q] = true := by
  simp [paramsAdjacent, h]

/-- What happens to a block that is current and empty: nothing, it gets a quadruple, or the next
block is begun before. -/
inductive Start
  | nothing | quad | block
  deriving DecidableEq, Repr

/-- What happens first, of what is done one after the other. -/
def Start.then : Start → Start → Start
  | .nothing, x => x
  | .quad, _ => .quad
  | .block, _ => .block

namespace Layout

variable {A B C : Layout} {l dest : ℕ} {ch : List Blk}

/-- Only the last quadruple of a block is a jump or a return; parameters stand before their
call; identifiers stand for variables of the function. -/
structure Ended (A : Layout) : Prop where
  closed : ∀ b ∈ A.all, ∀ q ∈ b.lst.dropLast, isBlockEnd q.op = false
  params : ∀ b ∈ A.all, paramsAdjacent b.lst = true
  inScope : ∀ x v, A.decls x = some v → v < A.vars.length

/-- The current block has not ended yet. -/
structure Shaped (A : Layout) : Prop extends Ended A where
  plain : ∀ q ∈ A.cur.lst, isBlockEnd q.op = false

lemma Ended.of_all (h : A.Ended) (hall : B.all = A.all) (hdecls : B.decls = A.decls)
    (hvars : A.vars.length ≤ B.vars.length) : B.Ended :=
  ⟨hall ▸ h.closed, hall ▸ h.params,
    fun x v hv => Nat.lt_of_lt_of_le (h.inScope x v (hdecls ▸ hv)) hvars⟩

lemma Ended.newLabel (h : A.Ended) : A.newLabel.Ended := h.of_all rfl rfl (Nat.le_refl _)

lemma Shaped.newLabel (h : A.Shaped) : A.newLabel.Shaped := ⟨h.toEnded.newLabel, h.plain⟩

lemma Shaped.refer (h : A.Shaped) : (A.refer l ch).Shaped :=
  ⟨h.toEnded.of_all rfl rfl (Nat.le_refl _), h.plain⟩

lemma Shaped.declare (h : A.Shaped) (d : VarDecl) : (A.declare d).Shaped :=
  ⟨h.toEnded.of_all rfl rfl (by simp [Layout.declare]), h.plain⟩

/-- Quadruples for the current block, with their parameters complete. -/
lemma Shaped.emits_ended (h : A.Shaped) {qs : List Quad}
    (hqs : ∀ q ∈ qs.dropLast, isBlockEnd q.op = false) (hparams : paramsAdjacent qs = true) :
    Ended { A with cur := { A.cur with lst := A.cur.lst ++ qs } } := by
  refine ⟨fun b hb q hq => ?_, fun b hb => ?_, h.inScope⟩
  · rcases List.mem_append.mp hb with hb | hb
    · exact h.closed b (List.mem_append_left _ hb) q hq
    · rw [List.mem_singleton.mp hb] at hq
      rcases List.eq_nil_or_concat qs with rfl | ⟨qs, r, rfl⟩
      · exact h.plain q (List.dropLast_subset _ (by simpa using hq))
      · simp only [List.concat_eq_append, ← List.append_assoc, List.dropLast_concat,
          List.mem_append] at hq hqs
        exact hq.elim (h.plain q) (hqs q)
  · rcases List.mem_append.mp hb with hb | hb
    · exact h.params b (List.mem_append_left _ hb)
    · rw [List.mem_singleton.mp hb]
      exact paramsAdjacent_append (h.params A.cur cur_mem_all) hparams

lemma Shaped.emits (h : A.Shaped) {qs : List Quad} (hqs : ∀ q ∈ qs, isBlockEnd q.op = false)
    (hparams : paramsAdjacent qs = true) :
    Shaped { A with cur := { A.cur with lst := A.cur.lst ++ qs } } := by
  refine ⟨h.emits_ended (fun q hq => hqs q (List.dropLast_subset _ hq)) hparams, fun q hq => ?_⟩
  exact (List.mem_append.mp hq).elim (h.plain q) (hqs q)

lemma Shaped.emit (h : A.Shaped) {q : Quad} (hq : isBlockEnd q.op = false)
    (hparam : q.op ≠ .param) : (A.emit q).Shaped :=
  h.emits (by simpa using hq) (paramsAdjacent_single hparam)

lemma Shaped.emit_ended (h : A.Shaped) {q : Quad} (hparam : q.op ≠ .param) :
    (A.emit q).Ended :=
  h.emits_ended (by simp) (paramsAdjacent_single hparam)

/-- A new block is begun. -/
lemma Ended.add (h : A.Ended) (hch : ch ≠ []) (hempty : ∀ b ∈ ch, b.lst = []) :
    (A.add l ch).Shaped := by
  -- the blocks that are added are empty
  have hblk : ∀ b ∈ (A.add l ch).all, b ∈ A.all ∨ b.lst = [] := by
    intro b hb
    rw [all_add hch] at hb
    rcases List.mem_append.mp hb with hb | hb
    · exact Or.inl (kept_sublist.subset hb)
    · unfold added at hb
      split at hb
      · rcases List.mem_cons.mp hb with rfl | hb
        · exact Or.inr rfl
        · exact Or.inr (hempty b hb)
      · exact Or.inr (hempty b hb)
  have hcur : (A.add l ch).cur ∈ ch := by
    have hlast : ∀ x, (ch.getLastD x) ∈ ch := fun x => by
      rw [List.getLastD_eq_getLast?, List.getLast?_eq_some_getLast hch, Option.getD_some]
      exact List.getLast_mem hch
    unfold Layout.add
    split
    · show (List.getLastD (_ :: ch) A.cur) ∈ ch
      rw [List.getLastD_cons]
      exact hlast _
    · exact hlast _
  refine ⟨⟨fun b hb q hq => ?_, fun b hb => ?_, fun x v hv => ?_⟩, fun q hq => ?_⟩
  · rcases hblk b hb with hb | hb
    · exact h.closed b hb q hq
    · rw [hb] at hq
      cases hq
  · rcases hblk b hb with hb | hb
    · exact h.params b hb
    · rw [hb]
      rfl
  · rw [vars_add]
    exact h.inScope x v (decls_add ▸ hv)
  · rw [hempty _ hcur] at hq
    cases hq

lemma shaped_start (id : ℕ) : (start id).Shaped := by
  have hall : ∀ b ∈ (start id).all, b.lst = [] := fun b hb => by rw [List.mem_singleton.mp hb]; rfl
  refine ⟨⟨fun b hb q hq => ?_, fun b hb => ?_, fun _ _ h => nomatch h⟩, fun _ h => nomatch h⟩
  · rw [hall b hb] at hq
    cases hq
  · rw [hall b hb]
    rfl

/-! ## References to a label -/

/-- The first block of a chain has been given out. -/
def headReferenced : List Blk → Bool
  | [] => false
  | b :: _ => b.referenced

/-- A chain keeps its blocks and what is referred to. -/
def Grows (ch ch' : List Blk) : Prop :=
  ∀ b ∈ ch, ∃ b' ∈ ch', b'.id = b.id ∧ (b.referenced = true → b'.referenced = true)

lemma Grows.refl (ch : List Blk) : Grows ch ch := fun b hb => ⟨b, hb, rfl, id⟩

lemma Grows.trans {ch ch' ch'' : List Blk} (h₁ : Grows ch ch') (h₂ : Grows ch' ch'') :
    Grows ch ch'' := by
  intro b hb
  obtain ⟨b', hb', hid, href⟩ := h₁ b hb
  obtain ⟨b'', hb'', hid', href'⟩ := h₂ b' hb'
  exact ⟨b'', hb'', hid'.trans hid, fun h => href' (href h)⟩

/-- The new code `δ` refers `n` times to the destination, and otherwise only to new blocks, to
each at most once.  A destination that is not yet in the list gives out another block each
time. -/
structure Referred (A B : Layout) (dest n : ℕ) (δ : List Quad) : Prop where
  other : ∀ l ≠ dest, B.pend l = A.pend l
  listed : A.pend dest = none → B.pend dest = none ∧ (targets δ).count dest = n
  pending : ∀ ch, A.pend dest = some ch → ∃ ch', B.pend dest = some ch' ∧ Grows ch ch' ∧
    (targets δ).count dest ≤ 1 ∧
    (headReferenced ch = true → (targets δ).count dest = 0 ∧ headReferenced ch' = true) ∧
    ((targets δ).count dest = 1 → headReferenced ch' = true)
  nodup : ((targets δ).filter (· ≠ dest)).Nodup
  fresh : ∀ t ∈ targets δ, t ≠ dest → A.next ≤ t ∧ t < B.next

/-- The new code refers to new blocks only, to each at most once. -/
structure FreshTargets (A B : Layout) (δ : List Quad) : Prop where
  nodup : (targets δ).Nodup
  fresh : ∀ t ∈ targets δ, A.next ≤ t ∧ t < B.next

lemma FreshTargets.referred {δ : List Quad} (h : FreshTargets A B δ) (hpend : B.pend = A.pend)
    (hdest : dest < A.next) : Referred A B dest 0 δ := by
  have hcount : (targets δ).count dest = 0 := by
    refine List.count_eq_zero.mpr fun hmem => ?_
    have := (h.fresh dest hmem).1
    omega
  refine ⟨fun l _ => by rw [hpend], fun hnone => ⟨by rw [hpend, hnone], hcount⟩, fun ch hch => ?_,
    h.nodup.filter _, fun t ht _ => h.fresh t ht⟩
  exact ⟨ch, by rw [hpend, hch], Grows.refl ch, by omega, fun href => ⟨hcount, href⟩,
    fun h1 => by omega⟩

lemma Referred.trans {δ ε : List Quad} {m n : ℕ} (h₁ : Referred A B dest m δ)
    (h₂ : Referred B C dest n ε) (hAB : A.next ≤ B.next) (hBC : B.next ≤ C.next) :
    Referred A C dest (m + n) (δ ++ ε) := by
  refine ⟨fun l hl => (h₂.other l hl).trans (h₁.other l hl), fun hnone => ?_, fun ch hch => ?_, ?_,
    fun t ht hne => ?_⟩
  · obtain ⟨hB, hm⟩ := h₁.listed hnone
    obtain ⟨hC, hn⟩ := h₂.listed hB
    exact ⟨hC, by rw [targets_append, List.count_append, hm, hn]⟩
  · obtain ⟨ch', hch', hgrow, hle, href, hone⟩ := h₁.pending ch hch
    obtain ⟨ch'', hch'', hgrow', hle', href', hone'⟩ := h₂.pending ch' hch'
    refine ⟨ch'', hch'', hgrow.trans hgrow', ?_, fun h => ?_, fun h => ?_⟩ <;>
      rw [targets_append, List.count_append] at *
    · rcases Nat.lt_or_ge 0 ((targets δ).count dest) with hpos | hpos
      · have := (href' (hone (by omega))).1
        omega
      · omega
    · obtain ⟨h0, hr⟩ := href h
      obtain ⟨h0', hr'⟩ := href' hr
      exact ⟨by omega, hr'⟩
    · rcases Nat.lt_or_ge 0 ((targets δ).count dest) with hpos | hpos
      · exact (href' (hone (by omega))).2
      · exact hone' (by omega)
  · rw [targets_append, List.filter_append]
    refine List.nodup_append.mpr ⟨h₁.nodup, h₂.nodup, ?_⟩
    intro t ht t' ht' htt
    obtain ⟨ht, hne⟩ := List.mem_filter.mp ht
    obtain ⟨ht', hne'⟩ := List.mem_filter.mp ht'
    -- the targets of the first part were made before those of the second
    have h1 := h₁.fresh t ht (by simpa using hne)
    have h2 := h₂.fresh t' ht' (by simpa using hne')
    omega
  · rw [targets_append] at ht
    rcases List.mem_append.mp ht with ht | ht
    · have := h₁.fresh t ht hne
      omega
    · have := h₂.fresh t ht hne
      omega

/-- A label that was new at the start is in the list at the end. -/
lemma Referred.freshTargets {δ : List Quad} {n : ℕ} (h : Referred A B dest n δ)
    (hpend : ∃ ch, A.pend dest = some ch) (hC : C.next ≤ dest) (hdest : dest < A.next)
    (hB : A.next ≤ B.next) : FreshTargets C B δ := by
  obtain ⟨ch, hch⟩ := hpend
  obtain ⟨ch', -, -, hle, -, -⟩ := h.pending ch hch
  refine ⟨?_, fun t ht => ?_⟩
  · refine List.nodup_iff_count_le_one.mpr fun t => ?_
    rcases eq_or_ne t dest with rfl | hne
    · exact hle
    · have := List.nodup_iff_count_le_one.mp h.nodup t
      rwa [List.count_filter (by simpa using hne)] at this
  · rcases eq_or_ne t dest with rfl | hne
    · omega
    · have := h.fresh t ht hne
      omega

/-! ## The first quadruple -/

/-- What has happened to the block that was current. -/
def Opens (A B : Layout) : Start → Prop
  | .nothing => B.all = A.all
  | .quad => ∃ b ∈ B.all, b.id = A.cur.id ∧ b.lst ≠ []
  | .block => A.cur.lst = [] → A.cur.referenced = false → A.done ≠ [] → B.Gone A.cur.id

lemma cur_of_all (h : B.all = A.all) : B.cur = A.cur ∧ B.done = A.done := by
  obtain ⟨hdone, hcur⟩ := List.append_inj' (show B.done ++ [B.cur] = A.done ++ [A.cur] from h) rfl
  exact ⟨by simpa using hcur, hdone⟩

lemma Opens.then {x y : Start} (h₁ : Opens A B x) (h₂ : Opens B C y) (hext : B.Extends C) :
    Opens A C (x.then y) := by
  cases x with
  | nothing =>
    obtain ⟨hcur, hdone⟩ := cur_of_all h₁
    cases y with
    | nothing => exact Eq.trans h₂ h₁
    | quad =>
      have := h₂
      rw [Opens, hcur] at this
      exact this
    | block =>
      intro hlst href hne
      have := h₂
      rw [Opens, hcur, hdone] at this
      exact this hlst href hne
  | quad =>
    obtain ⟨b, hb, hid, hne⟩ := h₁
    obtain ⟨b', hb', hid', hne'⟩ := hext.holds b hb hne
    exact ⟨b', hb', hid'.trans hid, hne'⟩
  | block => exact fun hlst href hne => hext.gone _ (h₁ hlst href hne)

lemma opens_emit (q : Quad) : Opens A (A.emit q) .quad :=
  ⟨_, cur_mem_all, rfl, by simp [Layout.emit]⟩

/-- An empty current block that nothing refers to is freed. -/
lemma opens_add (hsound : A.Sound) (hl : A.pend l = some ch) (hch : ch ≠ []) :
    Opens A (A.add l ch) .block := by
  intro hlst href hne
  have hcur := hsound.below A.cur cur_mem_all
  refine ⟨Nat.lt_of_lt_of_le hcur add_next_le, ?_⟩
  have hkept : A.kept = A.done := if_neg (by simp [hlst, href, hne])
  rw [Has, all_add hch, pend_add, hkept]
  rintro (⟨b, hb, hid⟩ | ⟨k, ch', hk, b, hb, hid⟩)
  · rcases List.mem_append.mp hb with hb | hb
    · have hnodup := hsound.nodup
      rw [all, List.map_append] at hnodup
      exact (List.nodup_append.mp hnodup).2.2 _ (List.mem_map.mpr ⟨b, hb, rfl⟩) _
        (List.mem_map.mpr ⟨A.cur, List.mem_singleton.mpr rfl, rfl⟩) hid
    · unfold added at hb
      split at hb
      · rcases List.mem_cons.mp hb with rfl | hb
        · exact Nat.ne_of_gt hcur hid
        · exact hsound.labelApart l ch hl b hb A.cur cur_mem_all hid
      · exact hsound.labelApart l ch hl b hb A.cur cur_mem_all hid
  · rcases eq_or_ne k l with rfl | hkl
    · simp at hk
    · exact hsound.labelApart k ch' (by simpa [hkl] using hk) b hb A.cur cur_mem_all hid

end Layout

/-! ## The layout of a state -/

section Unique

open LinkedList Layout

variable {A B : Layout} {g : GenState}

/-- A label that waits in one layout of a state waits in all of them. -/
lemma Rep.pend_eq (hA : Rep g A) (hB : Rep g B) (hall : B.all = A.all) {l : ℕ} {ch : List Blk}
    (hl : A.pend l = some ch) : B.pend l = some ch := by
  obtain ⟨b, rest, rfl, rfl⟩ := hA.sound.labelHead l ch hl
  have hchain := hA.label _ _ hl
  obtain ⟨-, n, hcell, -⟩ := hchain
  rcases hB.tight b.id (by simp [hcell]) with ⟨c, hc, hid⟩ | ⟨l', ch', hl', c, hc, hid⟩
  · exact absurd hid.symm (hA.sound.labelApart _ _ hl b List.mem_cons_self c (hall ▸ hc))
  obtain ⟨c', rest', rfl, rfl⟩ := hB.sound.labelHead l' ch' hl'
  have hchain' := hB.label _ _ hl'
  obtain ⟨-, n', hcell', -⟩ := hchain'
  rcases hA.tight c'.id (by simp [hcell']) with ⟨a, ha, hid'⟩ | ⟨l'', ch'', hl'', a, ha, hid'⟩
  · exact absurd hid'.symm (hB.sound.labelApart _ _ hl' c' List.mem_cons_self a (hall ▸ ha))
  -- the list from `b` is a part of the list from `c'`, which is a part of a list that waits in `A`
  obtain ⟨xs, ys, hxs⟩ := List.append_of_mem hc
  obtain ⟨xs', ys', rfl⟩ := List.append_of_mem ha
  have hpart : c :: ys = b :: rest := by
    obtain ⟨r, -, h⟩ := segment_append.mp (hxs ▸ hB.label _ _ hl')
    have hr : r = some b.id := h.1.trans (congrArg some hid)
    exact Chain.unique (hr ▸ h) (hA.label _ _ hl)
  have hpart' : a :: ys' = c' :: rest' := by
    obtain ⟨r, -, h⟩ := segment_append.mp (hA.label _ _ hl'')
    have hr : r = some c'.id := h.1.trans (congrArg some hid')
    exact Chain.unique (hr ▸ h) (hB.label _ _ hl')
  have hmem : b ∈ xs' ++ a :: ys' := by
    rw [hpart', hxs, hpart]
    simp
  obtain rfl := hA.sound.labelsApart _ _ _ _ hl'' hl b hmem b List.mem_cons_self rfl
  have heq : xs' ++ (xs ++ b :: rest) = b :: rest := by
    have := Option.some.inj (hl''.symm.trans hl)
    rwa [hpart', hxs, hpart] at this
  obtain ⟨rfl, rfl⟩ : xs' = [] ∧ xs = [] := by
    have := congrArg List.length heq
    simp only [List.length_append, List.length_cons] at this
    exact ⟨List.eq_nil_of_length_eq_zero (by omega), List.eq_nil_of_length_eq_zero (by omega)⟩
  rw [List.nil_append, hpart] at hxs
  rw [hxs, (List.cons.inj hxs).1] at hl'
  exact hl'

/-- The state of the front end has one layout. -/
lemma Rep.unique (hA : Rep g A) (hB : Rep g B) : A = B := by
  have hall : B.all = A.all := hB.list.unique hA.list
  have hpend : A.pend = B.pend := by
    funext l
    cases hl : A.pend l with
    | some ch => exact (hA.pend_eq hB hall hl).symm
    | none =>
      cases hl' : B.pend l with
      | none => rfl
      | some ch =>
        rw [hB.pend_eq hA hall.symm hl'] at hl
        cases hl
  obtain ⟨hcur, hdone⟩ := cur_of_all hall
  have hnext : A.next = B.next := hA.next.symm.trans hB.next
  have hvars : A.vars = B.vars := hA.vars.symm.trans hB.vars
  have hdecls : A.decls = B.decls := hA.decls.symm.trans hB.decls
  cases A
  cases B
  simp only at hcur hdone hpend hnext hvars hdecls
  rw [hcur, hdone, hpend, hnext, hvars, hdecls]

end Unique

end Javalette.Front
