import Mathlib.Data.List.Nodup
import Mathlib.Data.List.Range
import Mathlib.Data.List.Perm.Subperm
import Javalette.Library.LinkedList
import Javalette.Quadr.Generate

/-!
# The block list behind the pointers

`Layout` is the front end's state as a list: the blocks of the function before the current one,
the current block, and the chain of blocks that hangs on each label which is not yet in the
list.  `Rep` connects it with the heap, and each operation of `quadr.c` on blocks is shown to be
a function on layouts.  What follows about translated expressions and instructions speaks of
layouts only, through the triples `Runs`.
-/

namespace Javalette.Front

open LinkedList SyntaxTree

/-- A block of a list of blocks. -/
structure Blk where
  id : ℕ
  lst : List Quad
  referenced : Bool

/-- The memory of a block. -/
def Blk.cell (b : Blk) (next : Option ℕ) : BasicBlock := ⟨b.lst, next, b.referenced⟩

/-- A list of blocks linked from `p` to `q`. -/
abbrev Chain (heap : ℕ → Option BasicBlock) (p : Option ℕ) (bs : List Blk) (q : Option ℕ) : Prop :=
  Segment Blk.id Blk.cell heap p bs q

/-- The state of the front end without pointers. -/
structure Layout where
  /-- the blocks of the function before the current one -/
  done : List Blk
  cur : Blk
  /-- the blocks linked from a label that is not yet in the list -/
  pend : ℕ → Option (List Blk)
  next : ℕ
  vars : List VarDecl
  decls : String → Option ℕ

namespace Layout

variable {A : Layout}

/-- The blocks of the function. -/
def all (A : Layout) : List Blk := A.done ++ [A.cur]

/-- The block is in the list, or on a label that is not. -/
def Has (A : Layout) (a : ℕ) : Prop :=
  (∃ b ∈ A.all, b.id = a) ∨ ∃ l ch, A.pend l = some ch ∧ ∃ b ∈ ch, b.id = a

/-- No block occurs twice, and labels that are not in the list have empty blocks only. -/
structure Sound (A : Layout) : Prop where
  nodup : (A.all.map Blk.id).Nodup
  below : ∀ b ∈ A.all, b.id < A.next
  labelHead : ∀ l ch, A.pend l = some ch → ∃ b rest, ch = b :: rest ∧ b.id = l
  labelNodup : ∀ l ch, A.pend l = some ch → (ch.map Blk.id).Nodup
  labelBelow : ∀ l ch, A.pend l = some ch → ∀ b ∈ ch, b.id < A.next
  labelEmpty : ∀ l ch, A.pend l = some ch → ∀ b ∈ ch, b.lst = []
  labelApart : ∀ l ch, A.pend l = some ch → ∀ b ∈ ch, ∀ b' ∈ A.all, b.id ≠ b'.id
  labelsApart : ∀ l ch l' ch', A.pend l = some ch → A.pend l' = some ch' →
    ∀ b ∈ ch, ∀ b' ∈ ch', b.id = b'.id → l = l'

lemma Sound.label_lt (h : A.Sound) {l : ℕ} {ch : List Blk} (hl : A.pend l = some ch) :
    l < A.next := by
  obtain ⟨b, rest, rfl, rfl⟩ := h.labelHead l ch hl
  exact h.labelBelow _ _ hl b List.mem_cons_self

lemma Sound.pend_next (h : A.Sound) : A.pend A.next = none := by
  cases hl : A.pend A.next with
  | none => rfl
  | some ch => exact absurd (h.label_lt hl) (Nat.lt_irrefl _)

/-! ## The operations on layouts -/

/-- `add_quadr(cur_block, quadr)`. -/
def emit (A : Layout) (q : Quad) : Layout :=
  { A with cur := { A.cur with lst := A.cur.lst ++ [q] } }

/-- `new_basic_block`. -/
def newLabel (A : Layout) : Layout :=
  { A with
    pend := Function.update A.pend A.next (some [⟨A.next, [], false⟩])
    next := A.next + 1 }

/-- The chain of a label after `quadr_arg_label`. -/
def referChain (n : ℕ) : List Blk → List Blk
  | [] => []
  | b :: rest =>
      if b.referenced then b :: ⟨n, [], true⟩ :: rest else { b with referenced := true } :: rest

/-- The label that `quadr_arg_label` gives out. -/
def referTarget (n : ℕ) : List Blk → ℕ
  | [] => n
  | b :: _ => if b.referenced then n else b.id

/-- The next number of a block after `quadr_arg_label`. -/
def referNext (n : ℕ) : List Blk → ℕ
  | [] => n
  | b :: _ => if b.referenced then n + 1 else n

/-- `quadr_arg_label` for a label that is not yet in the list. -/
def refer (A : Layout) (l : ℕ) (ch : List Blk) : Layout :=
  { A with
    pend := Function.update A.pend l (some (referChain A.next ch))
    next := referNext A.next ch }

/-- The blocks that stay when others are appended: an empty current block that nothing refers to
goes, unless it is the first. -/
def kept (A : Layout) : List Blk :=
  if A.done = [] ∨ A.cur.lst ≠ [] ∨ A.cur.referenced then A.all else A.done

/-- The blocks `ch`, not empty, are appended; the last of them becomes the current one. -/
def append (A : Layout) (ch : List Blk) : Layout :=
  { A with done := A.kept ++ ch.dropLast, cur := ch.getLastD A.cur }

/-- The label is in the list now. -/
def settle (A : Layout) (l : ℕ) : Layout := { A with pend := Function.update A.pend l none }

/-- The dummy block of `add_basic_blocks` takes a number. -/
def skip (A : Layout) : Layout := { A with next := A.next + 1 }

/-- `add_basic_blocks` for a label with its chain. -/
def add (A : Layout) (l : ℕ) (ch : List Blk) : Layout :=
  if endsInIf A.cur.lst then ((A.settle l).skip).append (⟨A.next, [], true⟩ :: ch)
  else (A.settle l).append ch

/-- A new variable. -/
def declare (A : Layout) (d : VarDecl) : Layout := { A with vars := A.vars ++ [d] }

end Layout

/-- The pointers of a state are those of the layout. -/
structure Links (s : GenState) (A : Layout) : Prop where
  list : Chain s.heap (some s.blocks) A.all none
  cur : s.curBlock = A.cur.id
  prev : s.prevBlock = A.done.getLast?.map Blk.id
  label : ∀ l ch, A.pend l = some ch → Chain s.heap (some l) ch none
  next : s.nextBlockId = A.next
  vars : s.vars = A.vars
  decls : s.decls = A.decls
  sound : A.Sound

/-- The layout of a state: there is no other block in memory. -/
structure Rep (s : GenState) (A : Layout) : Prop extends Links s A where
  tight : ∀ a, s.heap a ≠ none → A.Has a

/-- A list of blocks is determined by the memory. -/
lemma Chain.unique {heap : ℕ → Option BasicBlock} {p : Option ℕ} {bs bs' : List Blk}
    (h : Chain heap p bs none) (h' : Chain heap p bs' none) : bs = bs' := by
  refine Segment.unique (fun b b' n m hid hcell => ?_) h h'
  cases b
  cases b'
  simp only [Blk.cell, BasicBlock.mk.injEq] at hid hcell
  obtain ⟨rfl, rfl, rfl⟩ := hcell
  obtain rfl := hid
  exact ⟨rfl, rfl⟩

/-! ## Triples -/

/-- From any state with the layout `A`, the computation ends with a result and a layout that
satisfy `Q`, unless it aborts, which it does only if `abort` holds. -/
def Runs {α : Type} (m : Gen α) (A : Layout) (abort : Prop) (Q : α → Layout → Prop) : Prop :=
  ∀ s, Rep s A →
    match m s with
    | .ok (a, s') => ∃ A', Rep s' A' ∧ Q a A'
    | .error .abort => abort
    | .error _ => False

section Triples

variable {α β : Type} {A : Layout} {abort : Prop} {Q : α → Layout → Prop}

lemma runs_pure {a : α} (h : Q a A) : Runs (pure a : Gen α) A abort Q :=
  fun _ hs => ⟨A, hs, h⟩

lemma Runs.bind {m : Gen β} {f : β → Gen α} {R : β → Layout → Prop}
    (hm : Runs m A abort R) (hf : ∀ b A', R b A' → Runs (f b) A' abort Q) :
    Runs (m >>= f) A abort Q := by
  intro s hs
  have h := hm s hs
  show match (m s).bind (fun p => f p.1 p.2) with
    | .ok (a, s') => ∃ A', Rep s' A' ∧ Q a A'
    | .error .abort => abort
    | .error _ => False
  cases hr : m s with
  | ok p =>
    rw [hr] at h
    obtain ⟨A', hA', hR⟩ := h
    exact hf _ _ hR _ hA'
  | error e =>
    rw [hr] at h
    cases e <;> exact h

lemma Runs.mono {m : Gen α} {abort' : Prop} {Q' : α → Layout → Prop} (h : Runs m A abort Q)
    (habort : abort → abort') (hQ : ∀ a A', Q a A' → Q' a A') : Runs m A abort' Q' := by
  intro s hs
  have h := h s hs
  cases hr : m s with
  | ok p =>
    rw [hr] at h
    obtain ⟨A', hA', hR⟩ := h
    exact ⟨A', hA', hQ _ _ hR⟩
  | error e =>
    rw [hr] at h
    cases e <;> first | exact habort h | exact h

lemma runs_abort (h : abort) : Runs (throw .abort : Gen α) A abort Q := fun _ _ => h

/-- The layout is sound to start with. -/
lemma runs_of_sound {m : Gen α} (h : A.Sound → Runs m A abort Q) : Runs m A abort Q :=
  fun s hs => h hs.sound s hs

end Triples

/-! ## Soundness of the operations -/

namespace Layout

variable {A : Layout} {l : ℕ} {ch : List Blk}

@[simp] lemma all_ne_nil : A.all ≠ [] := by simp [all]

lemma cur_mem_all : A.cur ∈ A.all := List.mem_append_right _ (List.mem_singleton.mpr rfl)

lemma all_emit (q : Quad) :
    (A.emit q).all = A.done ++ [{ A.cur with lst := A.cur.lst ++ [q] }] := rfl

lemma emit_ids (q : Quad) : (A.emit q).all.map Blk.id = A.all.map Blk.id := by
  rw [all_emit, all, List.map_append, List.map_append]
  rfl

/-- The labels stay sound when the list keeps its blocks. -/
lemma Sound.of_ids {B : Layout} (h : A.Sound) (hids : B.all.map Blk.id = A.all.map Blk.id)
    (hpend : B.pend = A.pend) (hnext : B.next = A.next) : B.Sound := by
  have hmem : ∀ b ∈ B.all, ∃ a ∈ A.all, a.id = b.id := fun b hb =>
    List.mem_map.mp (hids ▸ List.mem_map.mpr ⟨b, hb, rfl⟩)
  refine ⟨hids ▸ h.nodup, fun b hb => ?_, ?_, ?_, ?_, ?_, ?_, ?_⟩
  · obtain ⟨a, ha, hid⟩ := hmem b hb
    rw [hnext, ← hid]
    exact h.below a ha
  · rw [hpend]
    exact h.labelHead
  · rw [hpend]
    exact h.labelNodup
  · rw [hpend, hnext]
    exact h.labelBelow
  · rw [hpend]
    exact h.labelEmpty
  · rw [hpend]
    intro l ch hl b hb b' hb'
    obtain ⟨a, ha, hid⟩ := hmem b' hb'
    rw [← hid]
    exact h.labelApart l ch hl b hb a ha
  · rw [hpend]
    exact h.labelsApart

lemma Sound.emit (h : A.Sound) (q : Quad) : (A.emit q).Sound :=
  h.of_ids (emit_ids q) rfl rfl

lemma Sound.declare (h : A.Sound) (d : VarDecl) : (A.declare d).Sound :=
  h.of_ids rfl rfl rfl

/-- One label gets a new chain, whose blocks are its old ones or new ones. -/
lemma Sound.update (h : A.Sound) {n : ℕ} (hn : A.next ≤ n) (hl : l < n)
    (hhead : ∃ b rest, ch = b :: rest ∧ b.id = l) (hnodup : (ch.map Blk.id).Nodup)
    (hempty : ∀ b ∈ ch, b.lst = [])
    (hold : ∀ b ∈ ch, (A.next ≤ b.id ∧ b.id < n) ∨
      ∃ old, A.pend l = some old ∧ ∃ b' ∈ old, b'.id = b.id) :
    Sound { A with pend := Function.update A.pend l (some ch), next := n } := by
  have hbelow : ∀ b ∈ ch, b.id < n := by
    intro b hb
    rcases hold b hb with hb | ⟨old, hold, b', hb', hid⟩
    · exact hb.2
    · rw [← hid]
      exact Nat.lt_of_lt_of_le (h.labelBelow l old hold b' hb') hn
  -- a block of the new chain is in no other chain
  have hother : ∀ k ch', A.pend k = some ch' → ∀ b ∈ ch, ∀ b' ∈ ch', b.id = b'.id → k = l := by
    intro k ch' hk b hb b' hb' hid
    rcases hold b hb with hb | ⟨old, hold, b'', hb'', hid'⟩
    · have := h.labelBelow k ch' hk b' hb'
      omega
    · exact h.labelsApart k ch' l old hk hold b' hb' b'' hb'' (by rw [hid', hid])
  refine ⟨h.nodup, fun b hb => Nat.lt_of_lt_of_le (h.below b hb) hn, ?_, ?_, ?_, ?_, ?_, ?_⟩
  · intro k ch' hk
    rcases eq_or_ne k l with rfl | hkl
    · obtain rfl : ch = ch' := by simpa using hk
      exact hhead
    · exact h.labelHead k ch' (by simpa [hkl] using hk)
  · intro k ch' hk
    rcases eq_or_ne k l with rfl | hkl
    · obtain rfl : ch = ch' := by simpa using hk
      exact hnodup
    · exact h.labelNodup k ch' (by simpa [hkl] using hk)
  · intro k ch' hk b hb
    rcases eq_or_ne k l with rfl | hkl
    · obtain rfl : ch = ch' := by simpa using hk
      exact hbelow b hb
    · exact Nat.lt_of_lt_of_le (h.labelBelow k ch' (by simpa [hkl] using hk) b hb) hn
  · intro k ch' hk
    rcases eq_or_ne k l with rfl | hkl
    · obtain rfl : ch = ch' := by simpa using hk
      exact hempty
    · exact h.labelEmpty k ch' (by simpa [hkl] using hk)
  · intro k ch' hk b hb b' hb'
    rcases eq_or_ne k l with rfl | hkl
    · obtain rfl : ch = ch' := by simpa using hk
      rcases hold b hb with hb | ⟨old, hold, b'', hb'', hid⟩
      · have := h.below b' hb'
        omega
      · rw [← hid]
        exact h.labelApart k old hold b'' hb'' b' hb'
    · exact h.labelApart k ch' (by simpa [hkl] using hk) b hb b' hb'
  · intro k ch' k' ch'' hk hk' b hb b' hb' hid
    rcases eq_or_ne k l with rfl | hkl
    · obtain rfl : ch = ch' := by simpa using hk
      rcases eq_or_ne k' k with rfl | hkl'
      · rfl
      · exact (hother k' ch'' (by simpa [hkl'] using hk') b hb b' hb' hid).symm
    · have hk₀ : A.pend k = some ch' := by simpa [hkl] using hk
      rcases eq_or_ne k' l with rfl | hkl'
      · obtain rfl : ch = ch'' := by simpa using hk'
        exact hother k ch' hk₀ b' hb' b hb hid.symm
      · exact h.labelsApart k ch' k' ch'' hk₀ (by simpa [hkl'] using hk') b hb b' hb' hid

lemma Sound.newLabel (h : A.Sound) : A.newLabel.Sound := by
  refine h.update (Nat.le_succ _) (Nat.lt_succ_self _) ⟨_, _, rfl, rfl⟩ (by simp) ?_ ?_
  · intro b hb
    rw [List.mem_singleton.mp hb]
  · intro b hb
    rw [List.mem_singleton.mp hb]
    exact Or.inl ⟨Nat.le_refl _, Nat.lt_succ_self _⟩

lemma Sound.refer (h : A.Sound) (hl : A.pend l = some ch) : (A.refer l ch).Sound := by
  obtain ⟨b, rest, rfl, rfl⟩ := h.labelHead l ch hl
  have hlt := h.label_lt hl
  have hnodup := h.labelNodup _ _ hl
  have hempty := h.labelEmpty _ _ hl
  have hbelow := h.labelBelow _ _ hl
  unfold Layout.refer
  -- a first reference only marks the block, a second one adds a block behind it
  cases href : b.referenced with
  | false =>
    simp only [referChain, referNext, href, Bool.false_eq_true, if_false]
    refine h.update (Nat.le_refl _) hlt ⟨_, _, rfl, rfl⟩ hnodup ?_ ?_
    · intro b' hb'
      rcases List.mem_cons.mp hb' with rfl | hb'
      · exact hempty b List.mem_cons_self
      · exact hempty b' (List.mem_cons_of_mem _ hb')
    · intro b' hb'
      refine Or.inr ⟨_, hl, ?_⟩
      rcases List.mem_cons.mp hb' with rfl | hb'
      · exact ⟨b, List.mem_cons_self, rfl⟩
      · exact ⟨b', List.mem_cons_of_mem _ hb', rfl⟩
  | true =>
    simp only [referChain, referNext, href, if_true]
    refine h.update (Nat.le_succ _) (Nat.lt_succ_of_lt hlt) ⟨_, _, rfl, rfl⟩ ?_ ?_ ?_
    · simp only [List.map_cons, List.nodup_cons, List.mem_cons, not_or] at hnodup ⊢
      refine ⟨⟨Nat.ne_of_lt hlt, hnodup.1⟩, fun hmem => ?_, hnodup.2⟩
      obtain ⟨b', hb', hid⟩ := List.mem_map.mp hmem
      exact absurd (hbelow b' (List.mem_cons_of_mem _ hb')) (by omega)
    · intro b' hb'
      rcases List.mem_cons.mp hb' with rfl | hb'
      · exact hempty _ List.mem_cons_self
      · rcases List.mem_cons.mp hb' with rfl | hb'
        · rfl
        · exact hempty b' (List.mem_cons_of_mem _ hb')
    · intro b' hb'
      rcases List.mem_cons.mp hb' with rfl | hb'
      · exact Or.inr ⟨_, hl, b', List.mem_cons_self, rfl⟩
      · rcases List.mem_cons.mp hb' with rfl | hb'
        · exact Or.inl ⟨Nat.le_refl _, Nat.lt_succ_self _⟩
        · exact Or.inr ⟨_, hl, b', List.mem_cons_of_mem _ hb', rfl⟩

lemma kept_sublist : A.kept.Sublist A.all := by
  unfold kept
  split
  · exact List.Sublist.refl _
  · exact List.sublist_append_left _ _

lemma all_append (hch : ch ≠ []) : (A.append ch).all = A.kept ++ ch := by
  show A.kept ++ ch.dropLast ++ [ch.getLastD A.cur] = _
  rw [List.append_assoc, List.getLastD_eq_getLast?, List.getLast?_eq_some_getLast hch,
    Option.getD_some, List.dropLast_append_getLast hch]

/-- The blocks that `add_basic_blocks` appends. -/
def added (A : Layout) (ch : List Blk) : List Blk :=
  if endsInIf A.cur.lst then ⟨A.next, [], true⟩ :: ch else ch

lemma all_add (hch : ch ≠ []) : (A.add l ch).all = A.kept ++ A.added ch := by
  unfold add added
  split
  · rw [all_append (by simp)]
    rfl
  · rw [all_append hch]
    rfl

lemma add_next_le : A.next ≤ (A.add l ch).next := by
  unfold add
  split
  · exact Nat.le_succ _
  · exact Nat.le_refl _

lemma pend_add : (A.add l ch).pend = Function.update A.pend l none := by
  unfold add
  split <;> rfl

lemma Sound.add (h : A.Sound) (hl : A.pend l = some ch) : (A.add l ch).Sound := by
  have hch : ch ≠ [] := by
    obtain ⟨b, rest, rfl, -⟩ := h.labelHead l ch hl
    exact List.cons_ne_nil _ _
  -- what is added is the chain, behind a new block if the last one ends in a conditional jump
  have hadded : ∀ b ∈ A.added ch, b ∈ ch ∨ (b.id = A.next ∧ A.next < (A.add l ch).next) := by
    intro b hb
    unfold added at hb
    unfold Layout.add
    split at hb
    · rcases List.mem_cons.mp hb with rfl | hb
      · refine Or.inr ⟨rfl, ?_⟩
        rw [if_pos (by assumption)]
        exact Nat.lt_succ_self _
      · exact Or.inl hb
    · exact Or.inl hb
  -- the other labels keep their chains
  have hpend : ∀ k ch', (A.add l ch).pend k = some ch' → k ≠ l ∧ A.pend k = some ch' := by
    intro k ch' hk
    rw [pend_add] at hk
    rcases eq_or_ne k l with rfl | hkl
    · simp at hk
    · exact ⟨hkl, by simpa [hkl] using hk⟩
  have hmem : ∀ b ∈ (A.add l ch).all, b ∈ A.all ∨ b ∈ A.added ch := by
    intro b hb
    rw [all_add hch] at hb
    exact (List.mem_append.mp hb).imp_left (kept_sublist.subset ·)
  refine ⟨?_, ?_, ?_, ?_, ?_, ?_, ?_, ?_⟩
  · -- no block is in the list twice
    rw [all_add hch, List.map_append]
    refine List.nodup_append.mpr ⟨h.nodup.sublist (kept_sublist.map _), ?_, ?_⟩
    · unfold added
      split
      · refine List.nodup_cons.mpr ⟨fun hmem => ?_, h.labelNodup l ch hl⟩
        obtain ⟨b, hb, hid⟩ := List.mem_map.mp hmem
        exact absurd (h.labelBelow l ch hl b hb) (by simp [hid])
      · exact h.labelNodup l ch hl
    · intro i hi j hj hij
      obtain ⟨b, hb, rfl⟩ := List.mem_map.mp hi
      obtain ⟨b', hb', rfl⟩ := List.mem_map.mp hj
      have hb := kept_sublist.subset hb
      rcases hadded b' hb' with hb' | ⟨hb', -⟩
      · exact h.labelApart l ch hl b' hb' b hb hij.symm
      · exact absurd (h.below b hb) (by omega)
  · intro b hb
    rcases hmem b hb with hb | hb
    · exact Nat.lt_of_lt_of_le (h.below b hb) add_next_le
    · rcases hadded b hb with hb | ⟨hid, hlt⟩
      · exact Nat.lt_of_lt_of_le (h.labelBelow l ch hl b hb) add_next_le
      · exact hid ▸ hlt
  · exact fun k ch' hk => h.labelHead k ch' (hpend k ch' hk).2
  · exact fun k ch' hk => h.labelNodup k ch' (hpend k ch' hk).2
  · exact fun k ch' hk b hb =>
      Nat.lt_of_lt_of_le (h.labelBelow k ch' (hpend k ch' hk).2 b hb) add_next_le
  · exact fun k ch' hk => h.labelEmpty k ch' (hpend k ch' hk).2
  · intro k ch' hk b hb b' hb' hid
    obtain ⟨hkl, hk⟩ := hpend k ch' hk
    rcases hmem b' hb' with hb' | hb'
    · exact h.labelApart k ch' hk b hb b' hb' hid
    · rcases hadded b' hb' with hb' | ⟨hid', -⟩
      · exact hkl (h.labelsApart k ch' l ch hk hl b hb b' hb' hid)
      · exact absurd (h.labelBelow k ch' hk b hb) (by omega)
  · exact fun k ch' k' ch'' hk hk' =>
      h.labelsApart k ch' k' ch'' (hpend k ch' hk).2 (hpend k' ch'' hk').2

end Layout

/-! ## The operations of `quadr.c` are the operations on layouts -/

section Operations

variable {A : Layout} {abort : Prop} {l : ℕ} {ch : List Blk}

lemma getBlock_eq {s : GenState} {block : ℕ} {b : BasicBlock} (h : s.heap block = some b) :
    getBlock block s = .ok (b, s) := by
  simp [getBlock, h]

lemma bind_eq {α β : Type} {m : Gen α} {f : α → Gen β} {s s' : GenState} {a : α}
    (h : m s = .ok (a, s')) : (m >>= f) s = f a s' := by
  show (m s).bind (fun p => f p.1 p.2) = f a s'
  rw [h]
  rfl

lemma get_eq (s : GenState) : (get : Gen GenState) s = .ok (s, s) := rfl

lemma setNext_eq {s : GenState} {x : ℕ} {y : Option ℕ} {b : BasicBlock} (h : s.heap x = some b) :
    setNext x y s =
      .ok ((), { s with heap := Function.update s.heap x (some { b with next := y }) }) := by
  rw [setNext, bind_eq (getBlock_eq h)]
  rfl

lemma markReferenced_eq {s : GenState} {x : ℕ} {b : BasicBlock} (h : s.heap x = some b) :
    markReferenced x s =
      .ok ((),
        { s with heap := Function.update s.heap x (some { b with referenced := true }) }) := by
  rw [markReferenced, bind_eq (getBlock_eq h)]
  rfl

lemma Links.list_get {s : GenState} (h : Links s A) {xs ys : List Blk} {b : Blk}
    (hall : A.all = xs ++ b :: ys) : s.heap b.id = some (b.cell (headAddr Blk.id ys none)) :=
  (hall ▸ h.list).get

lemma Links.label_get {s : GenState} (h : Links s A) {xs ys : List Blk} {b : Blk}
    (hl : A.pend l = some (xs ++ b :: ys)) :
    s.heap b.id = some (b.cell (headAddr Blk.id ys none)) :=
  (h.label l _ hl).get

lemma Links.cur_get {s : GenState} (h : Links s A) :
    s.heap s.curBlock = some (A.cur.cell none) := by
  rw [h.cur]
  exact h.list_get (show A.all = A.done ++ A.cur :: [] from rfl)

lemma Links.label_congr {s : GenState} (h : Links s A) {heap : ℕ → Option BasicBlock}
    (hl : A.pend l = some ch) (hheap : ∀ b ∈ ch, heap b.id = s.heap b.id) :
    Chain heap (some l) ch none :=
  (h.label l ch hl).congr hheap

lemma runs_newBasicBlock {Q : ℕ → Layout → Prop} (h : Q A.next A.newLabel) :
    Runs newBasicBlock A abort Q := by
  intro s hs
  have hid : s.nextBlockId = A.next := hs.next
  refine ⟨A.newLabel, ⟨⟨?_, hs.cur, hs.prev, ?_, ?_, hs.vars, hs.decls, hs.sound.newLabel⟩, ?_⟩, ?_⟩
  · refine hs.list.update fun hmem => ?_
    obtain ⟨b, hb, hb'⟩ := List.mem_map.mp hmem
    have := hs.sound.below b hb
    omega
  · intro l ch hl
    show Chain (Function.update s.heap s.nextBlockId _) (some l) ch none
    rw [hid]
    rcases eq_or_ne l A.next with rfl | hne
    · obtain rfl : [⟨A.next, [], false⟩] = ch := by simpa [Layout.newLabel] using hl
      exact ⟨rfl, none, by simp [Blk.cell], rfl⟩
    · have hl : A.pend l = some ch := by simpa [Layout.newLabel, hne] using hl
      refine (hs.label l ch hl).update fun hmem => ?_
      obtain ⟨b, hb, hb'⟩ := List.mem_map.mp hmem
      -- every block in use has a smaller id than the one handed out
      have := hs.sound.labelBelow l ch hl b hb
      omega
  · exact congrArg (· + 1) hid
  · intro a ha
    rcases eq_or_ne a A.next with rfl | hne
    · exact Or.inr ⟨A.next, _, Function.update_self _ _ _, _, List.mem_singleton.mpr rfl, rfl⟩
    · have hne' : a ≠ s.nextBlockId := fun he => hne (he.trans hid)
      have ha : s.heap a ≠ none := fun hnone => ha ((Function.update_of_ne hne' _ _).trans hnone)
      rcases hs.tight a ha with hall | ⟨l, ch, hl, hb⟩
      · exact Or.inl hall
      · refine Or.inr ⟨l, ch, ?_, hb⟩
        exact (Function.update_of_ne (Nat.ne_of_lt (hs.sound.label_lt hl)) _ _).trans hl
  · rw [hid]
    exact h

lemma runs_emit {q : Quad} {Q : Unit → Layout → Prop} (h : Q () (A.emit q)) :
    Runs (emit q) A abort Q := by
  intro s hs
  let heap := Function.update s.heap s.curBlock
    (some { A.cur.cell none with lst := A.cur.lst ++ [q] })
  have hemit : emit q s = .ok ((), { s with heap := heap }) := by
    show addQuadr s.curBlock q s = _
    rw [addQuadr, bind_eq (getBlock_eq hs.cur_get)]
    rfl
  rw [hemit]
  have hnodup := hs.sound.nodup
  simp only [Layout.all, List.map_append, List.map_singleton] at hnodup
  have hdone : ∀ b ∈ A.done, b.id ≠ A.cur.id := fun b hb =>
    (List.nodup_append.mp hnodup).2.2 _ (List.mem_map.mpr ⟨b, hb, rfl⟩) _ List.mem_cons_self
  -- only the cell of the current block is written, which no label's chain contains
  refine ⟨A.emit q,
    ⟨⟨?_, hs.cur, hs.prev, ?_, hs.next, hs.vars, hs.decls, hs.sound.emit q⟩, fun a ha => ?_⟩, h⟩
  · have hold : Chain s.heap (some s.blocks) (A.done ++ A.cur :: []) none := hs.list
    have hlist := hold.splice [{ A.cur with lst := A.cur.lst ++ [q] }]
      (show ∀ y ∈ A.done, heap y.id = s.heap y.id from fun b hb => ?_) ?_ ?_
    · simpa [Layout.all_emit] using hlist
    · refine Function.update_of_ne ?_ _ _
      rw [hs.cur]
      exact hdone b hb
    · intro b hb
      cases hb
    · refine ⟨rfl, none, ?_, rfl⟩
      show heap A.cur.id = _
      rw [← hs.cur]
      exact Function.update_self _ _ _
  · intro l ch hl
    refine hs.label_congr hl fun b hb => ?_
    show heap b.id = _
    refine Function.update_of_ne ?_ _ _
    rw [hs.cur]
    exact fun hid => hs.sound.labelApart l ch hl b hb A.cur Layout.cur_mem_all hid
  · rcases eq_or_ne a s.curBlock with rfl | hne
    · exact Or.inl ⟨_, Layout.cur_mem_all, hs.cur.symm⟩
    · refine (hs.tight a ?_).imp_left fun ⟨b, hb, hid⟩ => ?_
      · exact fun hnone => ha ((Function.update_of_ne hne _ _).trans hnone)
      · have hmem : b.id ∈ (A.emit q).all.map Blk.id := by
          rw [Layout.emit_ids]
          exact List.mem_map.mpr ⟨b, hb, rfl⟩
        obtain ⟨b', hb', hid'⟩ := List.mem_map.mp hmem
        exact ⟨b', hb', hid'.trans hid⟩

/-- A label gets a new chain; the store changes nothing but its blocks. -/
lemma Rep.relabel {s : GenState} (h : Rep s A) (hl : A.pend l = some ch) {ch' : List Blk} {n : ℕ}
    (n' : ℕ) (hn : n' = n) (heap : ℕ → Option BasicBlock)
    (hsound : Layout.Sound { A with pend := Function.update A.pend l (some ch'), next := n })
    (hheap : ∀ a < A.next, (∀ b ∈ ch, b.id ≠ a) → heap a = s.heap a)
    (hchain : Chain heap (some l) ch' none)
    (htight : ∀ a, heap a ≠ none → (∀ b ∈ ch', b.id ≠ a) →
      s.heap a ≠ none ∧ ∀ b ∈ ch, b.id ≠ a) :
    Rep { s with heap := heap, nextBlockId := n' }
      { A with pend := Function.update A.pend l (some ch'), next := n } := by
  refine ⟨⟨h.list.congr fun b hb => ?_, h.cur, h.prev, ?_, hn, h.vars, h.decls, hsound⟩,
    fun a ha => ?_⟩
  · exact hheap _ (h.sound.below b hb) fun b' hb' => h.sound.labelApart l ch hl b' hb' b hb
  · intro k ch'' hk
    rcases eq_or_ne k l with rfl | hkl
    · obtain rfl : ch' = ch'' := by simpa using hk
      exact hchain
    · have hk : A.pend k = some ch'' := by simpa [hkl] using hk
      refine h.label_congr hk fun b hb => hheap _ (h.sound.labelBelow k ch'' hk b hb) ?_
      exact fun b' hb' hid => hkl (h.sound.labelsApart k ch'' l ch hk hl b hb b' hb' hid.symm)
  · by_cases hmem : ∃ b ∈ ch', b.id = a
    · exact Or.inr ⟨l, ch', Function.update_self _ _ _, hmem⟩
    · obtain ⟨hold, hne⟩ := htight a ha fun b hb hid => hmem ⟨b, hb, hid⟩
      rcases h.tight a hold with hall | ⟨k, ch'', hk, b, hb, hid⟩
      · exact Or.inl hall
      · refine Or.inr ⟨k, ch'', (Function.update_of_ne ?_ _ _).trans hk, b, hb, hid⟩
        rintro rfl
        obtain rfl : ch'' = ch := Option.some.inj (hk.symm.trans hl)
        exact hne b hb hid

/-- The memory after `splitLabel`. -/
def splitHeap (heap : ℕ → Option BasicBlock) (n label : ℕ) (l : BasicBlock) :
    ℕ → Option BasicBlock :=
  Function.update (Function.update (Function.update heap n (some ⟨[], none, false⟩)) n
    (some ⟨[], l.next, false⟩)) label (some { l with next := some n })

lemma splitLabel_eq {s : GenState} {label : ℕ} {l : BasicBlock} (h : s.heap label = some l)
    (hne : label ≠ s.nextBlockId) :
    splitLabel label s = .ok (s.nextBlockId, { s with
      heap := splitHeap s.heap s.nextBlockId label l, nextBlockId := s.nextBlockId + 1 }) := by
  let new := Function.update s.heap s.nextBlockId (some (BasicBlock.mk [] none false))
  have hnew : newBasicBlock s =
      .ok (s.nextBlockId, { s with heap := new, nextBlockId := s.nextBlockId + 1 }) := rfl
  have hlabel : new label = some l := (Function.update_of_ne hne _ _).trans h
  have hlabel' : Function.update new s.nextBlockId (some ⟨[], l.next, false⟩) label = some l :=
    (Function.update_of_ne hne _ _).trans hlabel
  rw [splitLabel, bind_eq hnew, bind_eq (getBlock_eq hlabel),
    bind_eq (setNext_eq (b := ⟨[], none, false⟩) (Function.update_self _ _ _)),
    bind_eq (setNext_eq hlabel')]
  rfl

/-- A label that is not yet in the list is marked, or split if it is marked already. -/
lemma runs_quadrArgLabel {Q : Arg → Layout → Prop} (hl : A.pend l = some ch)
    (h : Q (.label (Layout.referTarget A.next ch)) (A.refer l ch)) :
    Runs (quadrArgLabel l) A abort Q := by
  intro s hs
  -- the label is the first block of its chain, and this block is empty
  obtain ⟨b, rest, rfl, rfl⟩ := hs.sound.labelHead l ch hl
  have hlt := hs.sound.label_lt hl
  have hempty := hs.sound.labelEmpty _ _ hl b List.mem_cons_self
  have hget := hs.label_get (show A.pend b.id = some ([] ++ b :: rest) from hl)
  have hsound := hs.sound.refer hl
  have hchain := hs.label _ _ hl
  have hnodup := hs.sound.labelNodup _ _ hl
  simp only [List.map_cons, List.nodup_cons] at hnodup
  have hrest : ∀ b' ∈ rest, b'.id ≠ b.id := fun b' hb' hid =>
    hnodup.1 (List.mem_map.mpr ⟨b', hb', hid⟩)
  unfold Layout.refer at h hsound
  rw [quadrArgLabel, bind_eq (getBlock_eq hget)]
  cases href : b.referenced with
  | false =>
    simp only [Layout.referChain, Layout.referNext, Layout.referTarget, href, Bool.false_eq_true,
      if_false] at h hsound
    -- the block has not been referred to and is given out itself
    simp only [Blk.cell, hempty, href, Bool.false_eq_true, if_true, if_false]
    rw [bind_eq (markReferenced_eq hget)]
    refine ⟨_, hs.relabel hl _ hs.next _ hsound (fun a _ ha => ?_) ?_ ?_, h⟩
    · exact Function.update_of_ne (fun he => ha b List.mem_cons_self he.symm) _ _
    · refine Segment.splice (show Chain s.heap (some b.id) ([] ++ b :: rest) none from hchain)
        [{ b with referenced := true }] (by simp) ?_ ?_
      · exact fun b' hb' => Function.update_of_ne (hrest b' hb') _ _
      · exact ⟨rfl, _, Function.update_self _ _ _, rfl⟩
    · intro a ha hne
      have hab : a ≠ b.id := fun he => hne _ List.mem_cons_self he.symm
      refine ⟨fun hnone => ha ((Function.update_of_ne hab _ _).trans hnone), fun b' hb' => ?_⟩
      rcases List.mem_cons.mp hb' with rfl | hb'
      · exact hab.symm
      · exact hne b' (List.mem_cons_of_mem _ hb')
  | true =>
    simp only [Layout.referChain, Layout.referNext, Layout.referTarget, href, if_true] at h hsound
    simp only [Blk.cell, hempty, href, if_true]
    -- a block behind it takes its successor and is given out
    have hne : b.id ≠ s.nextBlockId := by
      have := hs.next
      omega
    have hsplit : splitHeap s.heap s.nextBlockId b.id (b.cell (headAddr Blk.id rest none))
        s.nextBlockId = some ⟨[], headAddr Blk.id rest none, false⟩ := by
      rw [splitHeap, Function.update_of_ne hne.symm, Function.update_self]
      rfl
    rw [bind_eq (splitLabel_eq hget hne), bind_eq (markReferenced_eq hsplit)]
    have hn := hs.next
    have hrel := hs.relabel hl (s.nextBlockId + 1) (by rw [hn])
      (Function.update (splitHeap s.heap s.nextBlockId b.id
        (b.cell (headAddr Blk.id rest none))) s.nextBlockId
        (some ⟨[], headAddr Blk.id rest none, true⟩)) hsound ?_ ?_ ?_
    · rw [hn] at hrel ⊢
      exact ⟨_, hrel, h⟩
    · intro a ha hb
      have han : a ≠ s.nextBlockId := by omega
      rw [Function.update_of_ne han, splitHeap,
        Function.update_of_ne (fun he => hb b List.mem_cons_self he.symm),
        Function.update_of_ne han, Function.update_of_ne han]
    · have hold : Chain s.heap (some b.id) ([] ++ b :: rest) none := hchain
      have hlink := hold.splice [b, ⟨A.next, [], true⟩]
        (show ∀ y ∈ ([] : List Blk), Function.update (splitHeap s.heap s.nextBlockId b.id
          (b.cell (headAddr Blk.id rest none))) s.nextBlockId
          (some ⟨[], headAddr Blk.id rest none, true⟩) y.id = s.heap y.id from
            fun _ h => nomatch h) ?_ ?_
      · exact hlink
      · intro b' hb'
        have hlt' := hs.sound.labelBelow _ _ hl b' (List.mem_cons_of_mem _ hb')
        have han : b'.id ≠ s.nextBlockId := by omega
        rw [Function.update_of_ne han, splitHeap, Function.update_of_ne (hrest b' hb'),
          Function.update_of_ne han, Function.update_of_ne han]
      · refine ⟨rfl, some s.nextBlockId, ?_, by rw [hn], _, ?_, rfl⟩
        · rw [Function.update_of_ne hne, splitHeap, Function.update_self]
          rfl
        · show Function.update _ _ _ A.next = _
          rw [← hn, Function.update_self]
          rfl
    · intro a ha hne'
      have hab : a ≠ b.id := fun he => hne' _ List.mem_cons_self he.symm
      have han : a ≠ s.nextBlockId := fun he =>
        hne' ⟨A.next, [], true⟩ (List.mem_cons_of_mem _ List.mem_cons_self) (hn ▸ he.symm)
      rw [Function.update_of_ne han, splitHeap, Function.update_of_ne hab,
        Function.update_of_ne han, Function.update_of_ne han] at ha
      refine ⟨ha, fun b' hb' => ?_⟩
      rcases List.mem_cons.mp hb' with rfl | hb'
      · exact hab.symm
      · exact hne' b' (List.mem_cons_of_mem _ (List.mem_cons_of_mem _ hb'))

/-- A block in the list that is not empty can be referred to any number of times. -/
lemma runs_quadrArgLabel_settled {Q : Arg → Layout → Prop} {b : Blk} (hb : b ∈ A.all)
    (hne : b.lst ≠ []) (h : Q (.label b.id) A) : Runs (quadrArgLabel b.id) A abort Q := by
  intro s hs
  obtain ⟨xs, ys, hall⟩ := List.append_of_mem hb
  have hlabel : quadrArgLabel b.id s = .ok (.label b.id, s) := by
    rw [quadrArgLabel, bind_eq (getBlock_eq (hs.list_get hall)), if_neg (by exact hne)]
    rfl
  rw [hlabel]
  exact ⟨A, hs, h⟩

/-- The loop of `add_basic_blocks` goes to the last block of the chain. -/
lemma advanceBlocks_eq {fuel p : ℕ} (s : GenState) (hch : ch ≠ [])
    (hchain : Chain s.heap (some p) ch none) (hfuel : ch.length ≤ fuel) :
    advanceBlocks fuel p s = .ok ((), { s with
      curBlock := (ch.getLast hch).id,
      prevBlock := (ch.dropLast.getLast?.map Blk.id).or s.prevBlock }) := by
  induction fuel generalizing p ch s with
  | zero => exact absurd (List.length_eq_zero_iff.mp (Nat.le_zero.mp hfuel)) hch
  | succ fuel ih =>
    cases ch with
    | nil => exact absurd rfl hch
    | cons b rest =>
      obtain ⟨hp, next, hb, hrest⟩ := hchain
      obtain rfl : p = b.id := Option.some.inj hp
      rw [advanceBlocks, bind_eq (getBlock_eq hb)]
      cases rest with
      | nil =>
        obtain rfl : next = none := hrest
        rfl
      | cons b' rest =>
        obtain rfl : next = some b'.id := hrest.1
        show advanceBlocks fuel b'.id { s with prevBlock := some b.id } = _
        rw [ih { s with prevBlock := some b.id } (List.cons_ne_nil _ _) hrest
          (Nat.le_of_succ_le_succ hfuel)]
        simp only [List.getLast_cons (List.cons_ne_nil b' rest), List.dropLast_cons_cons]
        -- the previous block is the last but one of the chain, when there is one
        cases h : (b' :: rest).dropLast with
        | nil => rfl
        | cons c cs =>
          rw [List.getLast?_cons_cons]
          obtain ⟨d, hd⟩ := Option.isSome_iff_exists.mp
            (List.getLast?_isSome.mpr (List.cons_ne_nil c cs))
          rw [hd]
          rfl

/-- The current block leads to `p` from now on, or it is freed and the block before it does. -/
lemma linkBlocks_eq {s : GenState} (h : Links s A) {p : ℕ} (hchain : Chain s.heap (some p) ch none)
    (hapart : ∀ b ∈ ch, ∀ b' ∈ A.all, b.id ≠ b'.id) :
    ∃ heap, linkBlocks p s = .ok ((), { s with
        heap := heap, prevBlock := A.kept.getLast?.map Blk.id }) ∧
      Chain heap (some s.blocks) (A.kept ++ ch) none ∧
      (∀ a, (∀ b ∈ A.all, b.id ≠ a) → heap a = s.heap a) ∧
      ∀ b ∈ A.all, b ∉ A.kept → heap b.id = none := by
  have hnodup := h.sound.nodup
  simp only [Layout.all, List.map_append, List.map_singleton] at hnodup
  have hdone : ∀ b ∈ A.done, b.id ≠ A.cur.id := fun b hb =>
    (List.nodup_append.mp hnodup).2.2 _ (List.mem_map.mpr ⟨b, hb, rfl⟩) _ List.mem_cons_self
  have hcur := h.cur_get
  have hhead : headAddr Blk.id ch none = some p := hchain.head.symm
  -- the case in which the current block stays
  have hstay : ∃ heap, setNext s.curBlock (some p) s = .ok ((), { s with heap := heap }) ∧
      Chain heap (some s.blocks) (A.all ++ ch) none ∧
      ∀ a, (∀ b ∈ A.all, b.id ≠ a) → heap a = s.heap a := by
    refine ⟨_, setNext_eq hcur, segment_append.mpr ⟨some p, ?_, ?_⟩, ?_⟩
    · obtain ⟨r, h₁, hr, -⟩ := segment_append.mp h.list
      refine segment_append.mpr ⟨r, h₁.congr fun b hb => ?_, hr, some p, ?_, rfl⟩
      · rw [h.cur]
        exact Function.update_of_ne (hdone b hb) _ _
      · rw [← h.cur]
        exact Function.update_self _ _ _
    · refine hchain.congr fun b hb => Function.update_of_ne ?_ _ _
      rw [h.cur]
      exact hapart b hb A.cur Layout.cur_mem_all
    · intro a ha
      refine Function.update_of_ne ?_ _ _
      rw [h.cur]
      exact (ha A.cur Layout.cur_mem_all).symm
  have hlast : A.all.getLast?.map Blk.id = some s.curBlock := by
    simp [Layout.all, h.cur]
  obtain ⟨heap, hset, hlist, hframe⟩ := hstay
  have hprev := h.prev
  cases hp : s.prevBlock with
  | none =>
    have hnil : A.done = [] := by
      rw [hp] at hprev
      exact List.getLast?_eq_none_iff.mp (Option.map_eq_none_iff.mp hprev.symm)
    have hkept : A.kept = A.all := if_pos (Or.inl hnil)
    refine ⟨heap, ?_, hkept ▸ hlist, hframe, fun b hb hb' => absurd (hkept ▸ hb) hb'⟩
    rw [linkBlocks, bind_eq (get_eq s), bind_eq (getBlock_eq hcur), hp]
    show (setNext s.curBlock (some p) >>= _) s = _
    rw [bind_eq hset, hkept, hlast]
    rfl
  | some prev =>
    rw [linkBlocks, bind_eq (get_eq s), bind_eq (getBlock_eq hcur), hp]
    by_cases hstays : A.cur.lst ≠ [] ∨ A.cur.referenced = true
    · have hkept : A.kept = A.all := if_pos (Or.inr hstays)
      refine ⟨heap, ?_, hkept ▸ hlist, hframe, fun b hb hb' => absurd (hkept ▸ hb) hb'⟩
      show (if A.cur.lst ≠ [] ∨ A.cur.referenced = true then _ else _ : Gen Unit) s = _
      rw [if_pos hstays, bind_eq hset, hkept, hlast]
      rfl
    · have hdone' : A.done ≠ [] := by
        intro hnil
        rw [hp, hnil] at hprev
        cases hprev
      have hkept : A.kept = A.done := if_neg (not_or.mpr ⟨hdone', hstays⟩)
      obtain ⟨xs, b, hxs⟩ := (List.eq_nil_or_concat A.done).resolve_left hdone'
      have hall : A.all = xs ++ b :: [A.cur] := by simp [Layout.all, hxs]
      have hid : prev = b.id := by
        rw [hp, hxs] at hprev
        simpa using hprev
      have hb : b.id ≠ A.cur.id := hdone b (hxs ▸ by simp)
      have hget : (Function.update s.heap s.curBlock none) prev =
          some (b.cell (some A.cur.id)) := by
        rw [h.cur, hid, Function.update_of_ne hb]
        exact h.list_get hall
      -- the blocks before the last two keep their memory
      have hxsb : ∀ c ∈ xs, c.id ≠ b.id ∧ c.id ≠ A.cur.id := by
        intro c hc
        have hnd := h.sound.nodup
        rw [hall, List.map_append] at hnd
        have hc := (List.nodup_append.mp hnd).2.2 _ (List.mem_map.mpr ⟨c, hc, rfl⟩)
        exact ⟨hc _ (by simp), hc _ (by simp)⟩
      have hmem : b ∈ A.all := by simp [hall]
      refine ⟨Function.update (Function.update s.heap s.curBlock none) prev
        (some (b.cell (some p))), ?_, ?_, ?_, ?_⟩
      · show (if A.cur.lst ≠ [] ∨ A.cur.referenced = true then _ else _ : Gen Unit) s = _
        have hfree : freeBasicBlock s.curBlock s =
            .ok ((), { s with heap := Function.update s.heap s.curBlock none }) := rfl
        rw [if_neg hstays, bind_eq hfree, setNext_eq hget, hkept, hprev.symm, hp]
        rfl
      · rw [hkept, hxs, List.concat_eq_append, List.append_assoc]
        obtain ⟨r, h₁, hr, -⟩ := segment_append.mp (hall ▸ h.list)
        refine segment_append.mpr ⟨r, h₁.congr fun c hc => ?_, hr, some p, ?_, ?_⟩
        · rw [hid, h.cur, Function.update_of_ne (hxsb c hc).1, Function.update_of_ne (hxsb c hc).2]
        · rw [hid, Function.update_self]
        · refine hchain.congr fun c hc => ?_
          rw [hid, h.cur, Function.update_of_ne (hapart c hc b hmem),
            Function.update_of_ne (hapart c hc A.cur Layout.cur_mem_all)]
      · intro a ha
        rw [hid, h.cur, Function.update_of_ne (ha b hmem).symm,
          Function.update_of_ne (ha A.cur Layout.cur_mem_all).symm]
      · intro c hc hc'
        rw [hkept] at hc'
        obtain rfl : c = A.cur := List.mem_singleton.mp ((List.mem_append.mp hc).resolve_left hc')
        rw [hid, h.cur, Function.update_of_ne hb.symm, Function.update_self]

/-- There are no more blocks than numbers given out. -/
lemma Layout.Sound.length_le (h : A.Sound) : A.all.length ≤ A.next := by
  have hsub : (A.all.map Blk.id) ⊆ List.range A.next := by
    intro i hi
    obtain ⟨b, hb, rfl⟩ := List.mem_map.mp hi
    exact List.mem_range.mpr (h.below b hb)
  have := (h.nodup.subperm hsub).length_le
  rwa [List.length_map, List.length_range] at this

lemma appendBlocks_eq {s : GenState} (h : Links s A) {p : ℕ} (hch : ch ≠ [])
    (hchain : Chain s.heap (some p) ch none) (hapart : ∀ b ∈ ch, ∀ b' ∈ A.all, b.id ≠ b'.id)
    (hsound : (A.append ch).Sound) :
    ∃ s', appendBlocks p s = .ok ((), s') ∧ Links s' (A.append ch) ∧
      ∀ a, s'.heap a ≠ none → (∃ b ∈ A.kept ++ ch, b.id = a) ∨
        s.heap a ≠ none ∧ ∀ b ∈ A.all, b.id ≠ a := by
  obtain ⟨heap, hlink, hlist, hframe, hfreed⟩ := linkBlocks_eq h hchain hapart
  have hchain' : Chain heap (some p) ch none :=
    hchain.congr fun b hb => hframe _ fun b' hb' => (hapart b hb b' hb').symm
  have hfuel : ch.length ≤ s.nextBlockId := by
    have := hsound.length_le
    rw [Layout.all_append hch, List.length_append] at this
    rw [h.next]
    exact Nat.le_trans (Nat.le_add_left _ _) this
  have hadvance := advanceBlocks_eq
    { s with heap := heap, prevBlock := A.kept.getLast?.map Blk.id } hch hchain' hfuel
  have hrun : appendBlocks p s = advanceBlocks s.nextBlockId p
      { s with heap := heap, prevBlock := A.kept.getLast?.map Blk.id } := by
    rw [appendBlocks, bind_eq hlink, bind_eq (get_eq _)]
  refine ⟨_, hrun.trans hadvance,
    ⟨?_, ?_, ?_, fun l ch' hl => ?_, h.next, h.vars, h.decls, hsound⟩, fun a ha => ?_⟩
  · rw [Layout.all_append hch]
    exact hlist
  · show (ch.getLast hch).id = (ch.getLastD A.cur).id
    rw [List.getLastD_eq_getLast?, List.getLast?_eq_some_getLast hch, Option.getD_some]
  · show _ = (A.kept ++ ch.dropLast).getLast?.map Blk.id
    rw [List.getLast?_append]
    cases ch.dropLast.getLast? <;> rfl
  · exact (h.label l ch' hl).congr fun b hb =>
      hframe _ fun b' hb' => (h.sound.labelApart l ch' hl b hb b' hb').symm
  · by_cases hmem : ∃ b ∈ A.all, b.id = a
    · obtain ⟨b, hb, rfl⟩ := hmem
      -- an empty last block is the one that was freed
      by_cases hkept : b ∈ A.kept
      · exact Or.inl ⟨b, List.mem_append_left _ hkept, rfl⟩
      · exact absurd (hfreed b hb hkept) ha
    · have hne : ∀ b ∈ A.all, b.id ≠ a := fun b hb hid => hmem ⟨b, hb, hid⟩
      exact Or.inr ⟨fun hnone => ha ((hframe a hne).trans hnone), hne⟩

lemma Layout.Sound.settle (h : A.Sound) (l : ℕ) : (A.settle l).Sound := by
  have hpend : ∀ k ch, (A.settle l).pend k = some ch → A.pend k = some ch := by
    intro k ch hk
    rcases eq_or_ne k l with rfl | hkl
    · simp [Layout.settle] at hk
    · simpa [Layout.settle, hkl] using hk
  exact ⟨h.nodup, h.below, fun k ch hk => h.labelHead k ch (hpend k ch hk),
    fun k ch hk => h.labelNodup k ch (hpend k ch hk),
    fun k ch hk => h.labelBelow k ch (hpend k ch hk),
    fun k ch hk => h.labelEmpty k ch (hpend k ch hk),
    fun k ch hk => h.labelApart k ch (hpend k ch hk),
    fun k ch k' ch' hk hk' => h.labelsApart k ch k' ch' (hpend k ch hk) (hpend k' ch' hk')⟩

lemma Layout.Sound.skip (h : A.Sound) : A.skip.Sound :=
  ⟨h.nodup, fun b hb => Nat.lt_succ_of_lt (h.below b hb), h.labelHead, h.labelNodup,
    fun k ch hk b hb => Nat.lt_succ_of_lt (h.labelBelow k ch hk b hb), h.labelEmpty, h.labelApart,
    h.labelsApart⟩

lemma Links.settle {s : GenState} (h : Links s A) (l : ℕ) : Links s (A.settle l) := by
  refine ⟨h.list, h.cur, h.prev, fun k ch hk => ?_, h.next, h.vars, h.decls, h.sound.settle l⟩
  rcases eq_or_ne k l with rfl | hkl
  · simp [Layout.settle] at hk
  · exact h.label k ch (by simpa [Layout.settle, hkl] using hk)

lemma addDummy_eq {s : GenState} (h : Links s A) {p : ℕ} (hchain : Chain s.heap (some p) ch none)
    (hbelow : ∀ b ∈ ch, b.id < A.next) :
    ∃ s', addDummy p s = .ok (A.next, s') ∧ Links s' A.skip ∧
      Chain s'.heap (some A.next) (⟨A.next, [], true⟩ :: ch) none ∧
      ∀ a, s'.heap a ≠ none → a = A.next ∨ s.heap a ≠ none := by
  have hn := h.next
  let heap := Function.update (Function.update (Function.update s.heap A.next
    (some ⟨[], none, false⟩)) A.next (some ⟨[], some p, false⟩)) A.next (some ⟨[], some p, true⟩)
  -- all writes are to the new block
  have hold : ∀ a < A.next, heap a = s.heap a := fun a ha => by
    have hne := Nat.ne_of_lt ha
    simp only [heap, Function.update_of_ne hne]
  refine ⟨{ s with heap := heap, nextBlockId := s.nextBlockId + 1 }, ?_, ?_, ?_, ?_⟩
  · have hnew : newBasicBlock s = .ok (A.next, { s with
        heap := Function.update s.heap A.next (some ⟨[], none, false⟩),
        nextBlockId := s.nextBlockId + 1 }) := by
      rw [← hn]
      rfl
    rw [addDummy, bind_eq hnew,
      bind_eq (setNext_eq (b := ⟨[], none, false⟩) (Function.update_self _ _ _)),
      bind_eq (markReferenced_eq (b := ⟨[], some p, false⟩) (Function.update_self _ _ _))]
    rfl
  · exact ⟨h.list.congr fun b hb => hold _ (h.sound.below b hb), h.cur, h.prev,
      fun l ch hl => h.label_congr hl fun b hb => hold _ (h.sound.labelBelow l ch hl b hb),
      congrArg (· + 1) hn, h.vars, h.decls, h.sound.skip⟩
  · exact ⟨rfl, some p, Function.update_self _ _ _,
      hchain.congr fun b hb => hold _ (hbelow b hb)⟩
  · intro a ha
    by_cases hne : a = A.next
    · exact Or.inl hne
    · refine Or.inr fun hnone => ha ?_
      show heap a = none
      simp only [heap, Function.update_of_ne hne]
      exact hnone

/-- `add_basic_blocks` for a label with its chain. -/
lemma runs_addBasicBlocks {Q : Unit → Layout → Prop} (hl : A.pend l = some ch)
    (h : Q () (A.add l ch)) : Runs (addBasicBlocks l) A abort Q := by
  intro s hs
  have hsound := hs.sound.add hl
  have hch : ch ≠ [] := by
    obtain ⟨b, rest, rfl, -⟩ := hs.sound.labelHead l ch hl
    exact List.cons_ne_nil _ _
  have hapart := hs.sound.labelApart l ch hl
  have hrun : ∃ s', addBasicBlocks l s = .ok ((), s') ∧ Links s' (A.add l ch) ∧
      ∀ a, s'.heap a ≠ none → (∃ b ∈ A.kept ++ A.added ch, b.id = a) ∨
        s.heap a ≠ none ∧ ∀ b ∈ A.all, b.id ≠ a := by
    rw [addBasicBlocks, bind_eq (get_eq s), bind_eq (getBlock_eq hs.cur_get)]
    unfold Layout.add at hsound ⊢
    unfold Layout.added
    show ∃ s', (if endsInIf A.cur.lst = true then _ else _ : Gen Unit) s = _ ∧ _
    split at hsound
    · rename_i hif
      -- after a conditional jump a dummy block takes the fall-through edge
      obtain ⟨s₁, hdummy, hs₁, hchain₁, hold⟩ :=
        addDummy_eq (hs.settle l) (hs.label l ch hl) (hs.sound.labelBelow l ch hl)
      rw [if_pos hif, if_pos hif, if_pos hif, bind_eq hdummy]
      obtain ⟨s', hrun, hs', htight⟩ :=
        appendBlocks_eq hs₁ (List.cons_ne_nil _ _) hchain₁ (fun b hb b' hb' => by
          rcases List.mem_cons.mp hb with rfl | hb
          · exact (Nat.ne_of_lt (hs.sound.below b' hb')).symm
          · exact hapart b hb b' hb') hsound
      refine ⟨s', hrun, hs', fun a ha => ?_⟩
      -- a cell in use is in the chain, or was in use before and is no block of this layout
      rcases htight a ha with hmem | ⟨hne, hall⟩
      · exact Or.inl hmem
      · rcases hold a hne with rfl | hne
        · exact Or.inl ⟨_, List.mem_append_right _ List.mem_cons_self, rfl⟩
        · exact Or.inr ⟨hne, hall⟩
    · rename_i hif
      rw [if_neg hif, if_neg hif, if_neg hif]
      exact appendBlocks_eq (hs.settle l) hch (hs.label l ch hl) hapart hsound
  obtain ⟨s', hrun, hs', htight⟩ := hrun
  rw [hrun]
  refine ⟨_, ⟨hs', fun a ha => ?_⟩, h⟩
  rw [Layout.Has, Layout.all_add hch, Layout.pend_add]
  rcases htight a ha with hmem | ⟨hne, hall⟩
  · exact Or.inl hmem
  · rcases hs.tight a hne with ⟨b, hb, hid⟩ | ⟨k, ch', hk, b, hb, hid⟩
    · exact absurd hid (hall b hb)
    · rcases eq_or_ne k l with rfl | hkl
      · obtain rfl : ch' = ch := Option.some.inj (hk.symm.trans hl)
        refine Or.inl ⟨b, List.mem_append_right _ ?_, hid⟩
        unfold Layout.added
        split
        · exact List.mem_cons_of_mem _ hb
        · exact hb
      · exact Or.inr ⟨k, ch', (Function.update_of_ne hkl _ _).trans hk, b, hb, hid⟩

/-- A freed block is dangling. -/
lemma quadrArgLabel_dangling {s : GenState} (h : Rep s A) (hl : ¬A.Has l) :
    quadrArgLabel l s = .error .dangling := by
  have hnone : s.heap l = none := by
    by_contra hne
    exact hl (h.tight l hne)
  have hget : getBlock l s = .error .dangling := by simp [getBlock, hnone]
  show (getBlock l s).bind _ = _
  rw [hget]
  rfl

lemma runs_newVarDecl {d : VarDecl} {Q : ℕ → Layout → Prop} (h : Q A.vars.length (A.declare d)) :
    Runs (newVarDecl d) A abort Q := by
  intro s hs
  have hv := hs.vars
  refine ⟨A.declare d, ⟨⟨hs.list, hs.cur, hs.prev, hs.label, hs.next, ?_, hs.decls,
    hs.sound.declare d⟩, hs.tight⟩, ?_⟩
  · exact congrArg (· ++ [d]) hv
  · rw [hv]
    exact h

lemma runs_declareVar {type : Ty} {Q : ℕ → Layout → Prop}
    (h : ∀ q, qtypeOf type = some q → Q A.vars.length (A.declare ⟨type, q⟩))
    (habort : qtypeOf type = none → abort) : Runs (declareVar type) A abort Q := by
  unfold declareVar
  cases hq : qtypeOf type with
  | none => exact runs_abort (habort hq)
  | some q => exact runs_newVarDecl (h q hq)

lemma runs_declOf {ident : String} {Q : ℕ → Layout → Prop}
    (h : ∀ v, A.decls ident = some v → Q v A) (habort : A.decls ident = none → abort) :
    Runs (declOf ident) A abort Q := by
  intro s hs
  have hd := hs.decls
  unfold declOf
  cases hv : A.decls ident with
  | none =>
    rw [hd, hv]
    exact habort hv
  | some v =>
    rw [hd, hv]
    exact ⟨A, hs, h v hv⟩

lemma runs_varType {var : ℕ} {Q : Ty → Layout → Prop}
    (h : ∀ d, A.vars[var]? = some d → Q d.type A) (habort : A.vars[var]? = none → abort) :
    Runs (varType var) A abort Q := by
  intro s hs
  have hv := hs.vars
  unfold varType
  cases hd : A.vars[var]? with
  | none =>
    rw [hv, hd]
    exact habort hd
  | some d =>
    rw [hv, hd]
    exact ⟨A, hs, h d hd⟩

/-- The layout when a function has been started. -/
def Layout.start (id : ℕ) : Layout :=
  ⟨[], ⟨id, [], false⟩, fun _ => none, id + 1, [], fun _ => none⟩

lemma rep_start (id : ℕ) : Rep (startFunction id) (Layout.start id) := by
  have hnone : ∀ {l : ℕ} {ch : List Blk}, (Layout.start id).pend l = some ch → False :=
    fun h => nomatch h
  refine ⟨⟨?_, rfl, rfl, fun _ _ h => (hnone h).elim, rfl, rfl, rfl, ?_⟩, fun a ha => ?_⟩
  · exact ⟨rfl, none, by simp [startFunction, Layout.start, Blk.cell], rfl⟩
  · refine ⟨List.nodup_singleton _, fun b hb => ?_, fun _ _ h => (hnone h).elim,
      fun _ _ h => (hnone h).elim, fun _ _ h => (hnone h).elim, fun _ _ h => (hnone h).elim,
      fun _ _ h => (hnone h).elim, fun _ _ _ _ h => (hnone h).elim⟩
    rw [List.mem_singleton.mp hb]
    exact Nat.lt_succ_self id
  · refine Or.inl ⟨_, Layout.cur_mem_all, ?_⟩
    by_contra hne
    refine ha ?_
    show Function.update (fun _ => none) id _ a = none
    exact Function.update_of_ne (Ne.symm hne) _ _

lemma Rep.withDecls {s : GenState} (h : Rep s A) (vars : List VarDecl) (decls : String → Option ℕ) :
    Rep { s with vars := vars, decls := decls } { A with vars := vars, decls := decls } :=
  ⟨⟨h.list, h.cur, h.prev, h.label, h.next, rfl, rfl, h.sound.of_ids rfl rfl rfl⟩, h.tight⟩

end Operations

end Javalette.Front
