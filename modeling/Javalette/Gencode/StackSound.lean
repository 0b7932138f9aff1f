import Mathlib.Algebra.GroupWithZero.Nat
import Javalette.Gencode.Stack
import Mathlib.Data.List.Nodup
import Mathlib.Data.List.Pairwise

/-!
# Soundness of the stack slots

What the operations on the stack frame of a function guarantee, over every sequence of them.  The
layout, that is where the elements lie and how large they are, only changes when the frame
grows and when a parameter is entered, so it is stated of the list of their places.  The rest of
the invariant is that `first_stack_free` is the first element without variables.

Two operations break it.  `stack_insert_new` takes the first free element that is large enough,
and its assertion fails, or the element is too large, when a larger one is free below every one of
the right size; and where it makes a new element, the `int` sum of the sizes may overflow.
`flush_loc` empties an element without a look at `first_stack_free`.  The steps that do none of
this keep the invariant, and no other do.  All of it holds with assertions and without.
-/

namespace Javalette.Gencode

lemma toInt_eq {n : ℤ} (hlow : -2 ^ 31 ≤ n) (hhigh : n < 2 ^ 31) : toInt n = n := by
  apply Int.bmod_eq_of_le
  · omega
  · omega

lemma toInt_lt (n : ℤ) : toInt n < 2 ^ 31 := by
  have := Int.bmod_lt (x := n) (show 0 < 2 ^ 32 by decide)
  rw [toInt]
  omega

/-- Where an element lies. -/
structure Place where
  id : ℕ
  size : ℤ
  offset : ℤ

/-- The element without its variables. -/
def StackElem.place {ν : Type} (e : StackElem ν) : Place :=
  ⟨e.id, e.size, e.offset⟩

/-- The layout of a frame: elements from low to high, none overlapping the next, and the sentry
at the end of the part in use. -/
structure Layout (l : List Place) (stackSize maxStackSize : ℤ) (nextId : ℕ) : Prop where
  sentry : ∃ init id, l = init ++ [⟨id, -1, stackSize⟩] ∧ ∀ p ∈ init, 0 ≤ p.size
  spaced : l.Pairwise fun a b => a.offset + a.size ≤ b.offset
  ids : (l.map (·.id)).Nodup
  fresh : ∀ p ∈ l, p.id < nextId
  bottom : 0 ≤ stackSize
  top : stackSize < 2 ^ 31
  max : maxStackSize < 2 ^ 31
  inFrame : ∀ p ∈ l, p.size ≠ -1 → 0 ≤ p.offset → stackSize ≤ maxStackSize

namespace Layout

variable {l : List Place} {stackSize maxStackSize : ℤ} {nextId : ℕ}

/-- Only the sentry is not of some size. -/
lemma size_nonneg (h : Layout l stackSize maxStackSize nextId) {p : Place} (hp : p ∈ l)
    (hsize : p.size ≠ -1) : 0 ≤ p.size := by
  obtain ⟨init, id, rfl, hinit⟩ := h.sentry
  rcases List.mem_append.mp hp with hp | hp
  · exact hinit p hp
  · rw [List.mem_singleton.mp hp] at hsize
    exact absurd rfl hsize

/-- An element with one above it is not the sentry. -/
lemma size_nonneg_of_append {init rest : List Place} {a b : Place}
    (h : Layout (init ++ a :: rest) stackSize maxStackSize nextId) (hb : b ∈ rest) :
    0 ≤ a.size := by
  obtain ⟨init', id, heq, hinit⟩ := h.sentry
  have hrest : rest ≠ [] := List.ne_nil_of_mem hb
  have ha : a ∈ init' := by
    have hdrop := congrArg List.dropLast heq
    rw [List.dropLast_append_of_ne_nil (List.cons_ne_nil _ _), List.dropLast_concat,
      List.dropLast_cons_of_ne_nil hrest] at hdrop
    rw [← hdrop]
    exact List.mem_append_right _ List.mem_cons_self
  exact hinit a ha

/-- Elements before another one lie below it. -/
lemma offset_le {init rest : List Place} {a b : Place}
    (h : Layout (init ++ a :: rest) stackSize maxStackSize nextId) (hb : b ∈ rest) :
    a.offset + a.size ≤ b.offset := by
  have hpair := (List.pairwise_append.mp h.spaced).2.1
  exact (List.pairwise_cons.mp hpair).1 b hb

/-- The frame grows by an element in the place of the sentry. -/
lemma grow {init : List Place} {id : ℕ} {size : ℤ}
    (h : Layout (init ++ [⟨id, -1, stackSize⟩]) stackSize maxStackSize nextId) (hsize : 0 ≤ size)
    (hroom : stackSize + size < 2 ^ 31) :
    Layout (init ++ [⟨id, size, stackSize⟩] ++ [⟨nextId, -1, stackSize + size⟩])
      (stackSize + size)
      (if maxStackSize < stackSize + size then stackSize + size else maxStackSize)
      (nextId + 1) := by
  have hfresh : ∀ p ∈ init ++ [⟨id, size, stackSize⟩], p.id < nextId := by
    intro p hp
    rcases List.mem_append.mp hp with hp | hp
    · exact h.fresh p (List.mem_append_left _ hp)
    · rw [List.mem_singleton.mp hp]
      exact h.fresh ⟨id, -1, stackSize⟩ (List.mem_append_right _ (List.mem_singleton_self _))
  -- everything before the sentry ends where the new place starts
  have hbelow : ∀ p ∈ init, p.offset + p.size ≤ stackSize := by
    intro p hp
    exact (List.pairwise_append.mp h.spaced).2.2 p hp _ (List.mem_singleton_self _)
  have hinit : ∀ p ∈ init, 0 ≤ p.size := by
    obtain ⟨init', id', heq, hinit⟩ := h.sentry
    rw [(List.append_inj' heq rfl).1]
    exact hinit
  have hmax := h.max
  refine ⟨⟨init ++ [⟨id, size, stackSize⟩], nextId, rfl, ?_⟩, ?_, ?_, ?_, ?_, hroom, ?_, ?_⟩
  · intro p hp
    rcases List.mem_append.mp hp with hp | hp
    · exact hinit p hp
    · rw [List.mem_singleton.mp hp]
      exact hsize
  · refine List.pairwise_append.mpr ⟨?_, List.pairwise_singleton _ _, ?_⟩
    · refine List.pairwise_append.mpr ⟨(List.pairwise_append.mp h.spaced).1,
        List.pairwise_singleton _ _, fun a ha b hb => ?_⟩
      rw [List.mem_singleton.mp hb]
      exact hbelow a ha
    · intro a ha b hb
      rw [List.mem_singleton.mp hb]
      rcases List.mem_append.mp ha with ha | ha
      · have := hbelow a ha
        show a.offset + a.size ≤ stackSize + size
        omega
      · exact Int.le_of_eq (by rw [List.mem_singleton.mp ha])
  · have hids := h.ids
    rw [List.map_append, List.map_singleton] at hids
    rw [List.map_append, List.map_append, List.map_singleton, List.map_singleton]
    refine List.nodup_append.mpr ⟨hids, List.nodup_singleton _, fun i hi j hj => ?_⟩
    rw [List.mem_singleton.mp hj]
    rw [← List.map_singleton (f := Place.id) (a := ⟨id, size, stackSize⟩), ← List.map_append] at hi
    obtain ⟨p, hp, rfl⟩ := List.mem_map.mp hi
    exact Nat.ne_of_lt (hfresh p hp)
  · intro p hp
    rcases List.mem_append.mp hp with hp | hp
    · exact Nat.lt_succ_of_lt (hfresh p hp)
    · rw [List.mem_singleton.mp hp]
      exact Nat.lt_succ_self _
  · have := h.bottom
    omega
  · split_ifs
    · exact hroom
    · exact hmax
  · intro p _ _ _
    split_ifs <;> omega

/-- A parameter is entered below everything else. -/
lemma param (h : Layout l stackSize maxStackSize nextId) {size off : ℤ} (hsize : 0 ≤ size)
    (hoff : off < 0) (hbelow : ∀ p ∈ l, off + size ≤ p.offset) :
    Layout (⟨nextId, size, off⟩ :: l) stackSize maxStackSize (nextId + 1) := by
  obtain ⟨init, id, hl, hinit⟩ := h.sentry
  refine ⟨⟨⟨nextId, size, off⟩ :: init, id, by rw [hl]; rfl, ?_⟩, ?_, ?_, ?_, h.bottom, h.top,
    h.max, ?_⟩
  · intro p hp
    rcases List.mem_cons.mp hp with rfl | hp
    · exact hsize
    · exact hinit p hp
  · exact List.pairwise_cons.mpr ⟨hbelow, h.spaced⟩
  · rw [List.map_cons, List.nodup_cons]
    refine ⟨fun hmem => ?_, h.ids⟩
    obtain ⟨p, hp, hid⟩ := List.mem_map.mp hmem
    exact absurd hid (Nat.ne_of_lt (h.fresh p hp))
  · intro p hp
    rcases List.mem_cons.mp hp with rfl | hp
    · exact Nat.lt_succ_self _
    · exact Nat.lt_succ_of_lt (h.fresh p hp)
  · intro p hp hne hpos
    rcases List.mem_cons.mp hp with rfl | hp
    · exact absurd hpos (Int.not_le.mpr hoff)
    · exact h.inFrame p hp hne hpos

end Layout

/-! ## One element of the list -/

section Split

variable {ν : Type}

/-- `e` stands between `before` and `after` in the list, and no other element has its number. -/
structure SplitAt (elems before : List (StackElem ν)) (e : StackElem ν)
    (after : List (StackElem ν)) : Prop where
  eq : elems = before ++ e :: after
  before : ∀ a ∈ before, a.id ≠ e.id
  after : ∀ b ∈ after, b.id ≠ e.id

namespace SplitAt

variable {elems before after : List (StackElem ν)} {e : StackElem ν}

lemma mem (h : SplitAt elems before e after) : e ∈ elems := by
  rw [h.eq]
  exact List.mem_append_right _ List.mem_cons_self

lemma replace (h : SplitAt elems before e after) (e' : StackElem ν) (hid : e'.id = e.id) :
    SplitAt (before ++ e' :: after) before e' after :=
  ⟨rfl, fun a ha => hid ▸ h.before a ha, fun b hb => hid ▸ h.after b hb⟩

lemma map_update (h : SplitAt elems before e after) (f : StackElem ν → StackElem ν) :
    (elems.map fun a => if a.id = e.id then f a else a) = before ++ f e :: after := by
  have hkeep : ∀ l : List (StackElem ν), (∀ a ∈ l, a.id ≠ e.id) →
      l.map (fun a => if a.id = e.id then f a else a) = l := by
    intro l hl
    conv_rhs => rw [← List.map_id l]
    exact List.map_congr_left fun a ha => by rw [if_neg (hl a ha), id]
  rw [h.eq, List.map_append, List.map_cons, hkeep _ h.before, hkeep _ h.after, if_pos rfl]

lemma flatMap_update (h : SplitAt elems before e after) (f : StackElem ν → List (StackElem ν)) :
    (elems.flatMap fun a => if a.id = e.id then f a else [a]) = before ++ f e ++ after := by
  have hkeep : ∀ l : List (StackElem ν), (∀ a ∈ l, a.id ≠ e.id) →
      l.flatMap (fun a => if a.id = e.id then f a else [a]) = l := by
    intro l hl
    conv_rhs => rw [← List.flatMap_singleton' l]
    exact List.flatMap_congr fun a ha => by rw [if_neg (hl a ha)]
  rw [h.eq, List.flatMap_append, List.flatMap_cons, hkeep _ h.before, hkeep _ h.after, if_pos rfl,
    List.append_assoc]

lemma setVars (h : SplitAt elems before e after) (vars : List ν) :
    Stack.setVars elems e.id vars = before ++ { e with vars := vars } :: after :=
  h.map_update fun a => { a with vars := vars }

lemma suffixAt (h : SplitAt elems before e after) : Stack.suffixAt elems e.id = e :: after := by
  rw [h.eq, Stack.suffixAt, List.dropWhile_append_of_pos]
  · rw [List.dropWhile_cons_of_neg]
    simp
  · intro a ha
    simpa using h.before a ha

lemma find? (h : SplitAt elems before e after) :
    elems.find? (fun a => a.id = e.id) = some e := by
  refine List.find?_eq_some_iff_append.mpr ⟨by simp, before, after, h.eq, fun a ha => ?_⟩
  simpa using h.before a ha

/-- Without a free element before it, the first free one is looked for from `e` on. -/
lemma find?_free (h : SplitAt elems before e after) :
    elems.find? (fun a => a.vars.isEmpty) =
      (before.find? fun a => a.vars.isEmpty).or
        (if e.vars = [] then some e else after.find? fun a => a.vars.isEmpty) := by
  rw [h.eq, List.find?_append, List.find?_cons]
  cases hvars : e.vars with
  | nil => simp
  | cons v l => simp

/-- The layout does not see the variables. -/
lemma map_place (h : SplitAt elems before e after) (vars : List ν) :
    (before ++ { e with vars := vars } :: after).map (·.place) = elems.map (·.place) := by
  rw [h.eq, List.map_append, List.map_append, List.map_cons, List.map_cons]
  rfl

/-- What is said of every element and holds of the new one. -/
lemma forall_replace {p : StackElem ν → Prop} (h : SplitAt elems before e after)
    (hp : ∀ a ∈ elems, p a) {e' : StackElem ν} (he' : p e') :
    ∀ a ∈ before ++ e' :: after, p a := by
  intro a ha
  rw [h.eq] at hp
  rcases List.mem_append.mp ha with ha | ha
  · exact hp a (List.mem_append_left _ ha)
  rcases List.mem_cons.mp ha with rfl | ha
  · exact he'
  · exact hp a (List.mem_append_right _ (List.mem_cons_of_mem _ ha))

/-- Numbers are not used twice, so an element is where it is. -/
lemma of_nodup (hids : (elems.map (·.id)).Nodup) (heq : elems = before ++ e :: after) :
    SplitAt elems before e after := by
  rw [heq, List.map_append, List.map_cons] at hids
  obtain ⟨-, hcons, hdisj⟩ := List.nodup_append.mp hids
  refine ⟨heq, fun a ha => ?_, fun b hb hid => ?_⟩
  · exact hdisj _ (List.mem_map_of_mem ha) _ List.mem_cons_self
  · exact (List.nodup_cons.mp hcons).1 (hid ▸ List.mem_map_of_mem hb)

end SplitAt

end Split

namespace Stack

variable {ν : Type}

lemma fits_iff {size : ℤ} {a : StackElem ν} :
    fits size a = true ↔ a.size = -1 ∨ size ≤ a.size ∧ a.vars = [] := by
  simp only [fits, Bool.not_eq_true', decide_eq_false_iff_not]
  by_cases h1 : a.size = -1 <;> by_cases h2 : a.vars = [] <;> simp [h1, h2]

/-- What holds of the list of elements whatever the sizes are: it ends with a sentry, numbers are
not used twice, and `first_stack_free` points to an element. -/
structure Linked (s : Stack ν) : Prop where
  sentry : ∃ init e, s.elems = init ++ [e] ∧ e.size = -1 ∧ e.vars = []
  ids : (s.elems.map (·.id)).Nodup
  fresh : ∀ e ∈ s.elems, e.id < s.nextId
  free : ∃ f ∈ s.elems, s.firstFree = some f.id

namespace Linked

variable {s : Stack ν} {before after : List (StackElem ν)} {e f : StackElem ν}

lemma init_linked : Linked (init : Stack ν) :=
  ⟨⟨[], _, rfl, rfl, rfl⟩, List.nodup_singleton _, by simp [init],
    _, List.mem_singleton_self _, rfl⟩

/-- The element that `first_stack_free` points to once the element `e` is taken, if another one
after it is free. -/
lemma exists_advanceFree (hs : SplitAt s.elems before e after) (hf : f ∈ s.elems)
    (hfirst : s.firstFree = some f.id) (hafter : ∃ b ∈ after, b.vars = []) {vars : List ν}
    (hvars : vars ≠ []) :
    ∃ f' ∈ (s.occupy e.id vars).elems, (s.occupy e.id vars).firstFree = some f'.id := by
  have helems : (s.occupy e.id vars).elems = before ++ { e with vars := vars } :: after :=
    hs.setVars vars
  have hs' := hs.replace { e with vars := vars } rfl
  have hadvance : (s.occupy e.id vars).firstFree =
      advanceFree (before ++ { e with vars := vars } :: after) (some f.id) e.id := by
    rw [← helems, ← hfirst]
    rfl
  rw [helems, hadvance, advanceFree]
  split_ifs with hid
  · -- The search goes on after `e`.
    obtain ⟨b, hb, hfree⟩ := hafter
    have hsome : (after.find? fun a => a.vars.isEmpty).isSome :=
      List.find?_isSome.mpr ⟨b, hb, by simp [hfree]⟩
    obtain ⟨f', hf'⟩ := Option.isSome_iff_exists.mp hsome
    refine ⟨f', ?_, ?_⟩
    · exact List.mem_append_right _ (List.mem_cons_of_mem _ (List.mem_of_find?_eq_some hf'))
    · rw [hs'.suffixAt, List.find?_cons_of_neg (by simpa using hvars), hf', Option.map_some]
  · -- `f` is another element, which has not changed.
    refine ⟨f, ?_, rfl⟩
    rw [hs.eq] at hf
    rcases List.mem_append.mp hf with hf | hf
    · exact List.mem_append_left _ hf
    rcases List.mem_cons.mp hf with rfl | hf
    · exact absurd rfl hid
    · exact List.mem_append_right _ (List.mem_cons_of_mem _ hf)

/-- An element other than the last one is taken. -/
lemma occupy (h : Linked s) (hs : SplitAt s.elems before e after) (hafter : after ≠ [])
    {vars : List ν} (hvars : vars ≠ []) : Linked (s.occupy e.id vars) := by
  have helems : (s.occupy e.id vars).elems = before ++ { e with vars := vars } :: after :=
    hs.setVars vars
  obtain ⟨init, last, hlast, hsize, hfree⟩ := h.sentry
  obtain ⟨rest, rfl⟩ : ∃ rest, after = rest ++ [last] := by
    obtain ⟨rest, b, rfl⟩ := (List.eq_nil_or_concat after).resolve_left hafter
    rw [hs.eq, List.concat_eq_append, ← List.cons_append, ← List.append_assoc] at hlast
    exact ⟨rest, by rw [List.concat_eq_append, (List.append_inj' hlast rfl).2]⟩
  obtain ⟨f, hf, hfirst⟩ := h.free
  refine ⟨⟨before ++ { e with vars := vars } :: rest, last, ?_, hsize, hfree⟩, ?_, ?_, ?_⟩
  · rw [helems, List.append_assoc, List.cons_append]
  · rw [helems]
    have hids := h.ids
    rw [hs.eq, List.map_append, List.map_cons] at hids
    rw [List.map_append, List.map_cons]
    exact hids
  · rw [helems]
    have hfresh := h.fresh
    rw [hs.eq] at hfresh
    intro a ha
    rcases List.mem_append.mp ha with ha | ha
    · exact hfresh a (List.mem_append_left _ ha)
    rcases List.mem_cons.mp ha with rfl | ha
    · exact hfresh e (List.mem_append_right _ List.mem_cons_self)
    · exact hfresh a (List.mem_append_right _ (List.mem_cons_of_mem _ ha))
  · exact exists_advanceFree hs hf hfirst ⟨last, by simp, hfree⟩ hvars

/-- A new element is linked after another one. -/
lemma grow (h : Linked s) (hs : SplitAt s.elems before e after) (size : ℤ) :
    ∃ after', after' ≠ [] ∧ Linked (s.grow e size) ∧
      SplitAt (s.grow e size).elems before { e with size := size } after' := by
  have helems : (s.grow e size).elems = before ++ { e with size := size } ::
      ⟨s.nextId, [], -1, toInt (e.offset + size)⟩ :: after := by
    show (s.elems.flatMap fun a => if a.id = e.id then _ else [a]) = _
    rw [hs.flatMap_update]
    simp
  have hids : ((s.grow e size).elems.map (·.id)).Nodup := by
    have hnew : s.nextId ∉ s.elems.map (·.id) := by
      intro hmem
      obtain ⟨a, ha, hid⟩ := List.mem_map.mp hmem
      exact absurd hid (Nat.ne_of_lt (h.fresh a ha))
    -- the new element is put behind `e`, so the ids are those of before and one more
    have hperm : ((s.grow e size).elems.map (·.id)).Perm (s.nextId :: s.elems.map (·.id)) := by
      rw [helems, hs.eq, List.map_append, List.map_cons, List.map_cons, List.map_append,
        List.map_cons]
      exact (List.perm_middle.trans (List.Perm.cons _ List.perm_middle)).trans
        ((List.Perm.swap _ _ _).trans (List.Perm.cons _ List.perm_middle.symm))
    exact hperm.nodup_iff.mpr (List.nodup_cons.mpr ⟨hnew, h.ids⟩)
  refine ⟨_, List.cons_ne_nil _ _, ⟨?_, hids, ?_, ?_⟩, .of_nodup hids helems⟩
  · obtain ⟨init, last, hlast, hlastSize, hlastFree⟩ := h.sentry
    -- the sentry is the new element if `e` was the last one, else the old sentry
    rcases List.eq_nil_or_concat after with rfl | ⟨rest, b, rfl⟩
    · exact ⟨before ++ [{ e with size := size }], ⟨s.nextId, [], -1, toInt (e.offset + size)⟩,
        by rw [helems]; simp, rfl, rfl⟩
    · rw [hs.eq, List.concat_eq_append, ← List.cons_append, ← List.append_assoc] at hlast
      obtain rfl := List.singleton_inj.mp (List.append_inj' hlast rfl).2
      exact ⟨before ++ { e with size := size } :: ⟨s.nextId, [], -1, toInt (e.offset + size)⟩ ::
        rest, b, by rw [helems]; simp, hlastSize, hlastFree⟩
  · intro a ha
    show a.id < s.nextId + 1
    rcases List.mem_append.mp (helems ▸ ha) with ha | ha
    · exact Nat.lt_succ_of_lt (h.fresh a (by rw [hs.eq]; simp [ha]))
    rcases List.mem_cons.mp ha with rfl | ha
    · exact Nat.lt_succ_of_lt (h.fresh e hs.mem)
    rcases List.mem_cons.mp ha with rfl | ha
    · exact Nat.lt_succ_self _
    · exact Nat.lt_succ_of_lt (h.fresh a (by rw [hs.eq]; simp [ha]))
  · obtain ⟨f, hf, hfirst⟩ := h.free
    rw [helems]
    rw [hs.eq] at hf
    rcases List.mem_append.mp hf with hf | hf
    · exact ⟨f, by simp [hf], hfirst⟩
    rcases List.mem_cons.mp hf with rfl | hf
    · exact ⟨{ f with size := size }, by simp, hfirst⟩
    · exact ⟨f, by simp [hf], hfirst⟩

/-- Without its assertions, `stack_insert_new` always finds an element. -/
lemma insertNew [B : Build] (h : Linked s) (hrelease : B.ndebug = true) (v : ν) (size : ℤ) :
    ∃ s' se, s.insertNew v size = some (s', se) ∧ Linked s' := by
  obtain ⟨f, hf, hfirst⟩ := h.free
  obtain ⟨before, after, heq⟩ := List.append_of_mem hf
  have hs := SplitAt.of_nodup h.ids heq
  obtain ⟨init, last, hlast, hlastSize, hlastFree⟩ := h.sentry
  have hmem : last ∈ f :: after := by
    rcases List.eq_nil_or_concat after with rfl | ⟨rest, b, rfl⟩
    · rw [heq] at hlast
      rw [List.singleton_inj.mp (List.append_inj' hlast rfl).2]
      exact List.mem_singleton_self _
    · rw [heq, List.concat_eq_append, ← List.cons_append, ← List.append_assoc] at hlast
      rw [List.singleton_inj.mp (List.append_inj' hlast rfl).2]
      simp
  have hsome : ((suffixAt s.elems f.id).find? (fits size)).isSome := by
    rw [hs.suffixAt]
    exact List.find?_isSome.mpr ⟨last, hmem, fits_iff.mpr (Or.inl hlastSize)⟩
  obtain ⟨g, hg⟩ := Option.isSome_iff_exists.mp hsome
  have hgmem : g ∈ s.elems := by
    rw [hs.suffixAt] at hg
    rw [heq]
    exact List.mem_append_right _ (List.mem_of_find?_eq_some hg)
  obtain ⟨gbefore, gafter, hgeq⟩ := List.append_of_mem hgmem
  have hgs := SplitAt.of_nodup h.ids hgeq
  rw [Stack.insertNew, hfirst, Option.bind_some, elem?, hs.find?, Option.bind_some, hg,
    Option.bind_some]
  simp only [hrelease, Bool.true_eq_false, false_and, if_false]
  split_ifs with hsentry
  · obtain ⟨after', hne, hgrow, hgs'⟩ := h.grow hgs size
    exact ⟨_, _, rfl, hgrow.occupy hgs' hne (List.cons_ne_nil _ _)⟩
  · -- The last element is the sentry.
    have hne : gafter ≠ [] := by
      rintro rfl
      rw [hgeq] at hlast
      rw [List.singleton_inj.mp (List.append_inj' hlast rfl).2] at hsentry
      exact hsentry hlastSize
    exact ⟨_, _, rfl, h.occupy hgs hne (List.cons_ne_nil _ _)⟩

end Linked

/-- The invariant of the frame. -/
structure Sound (s : Stack ν) : Prop where
  layout : Layout (s.elems.map (·.place)) s.stackSize s.maxStackSize s.nextId
  sentryFree : ∀ e ∈ s.elems, e.size = -1 → e.vars = []
  free : s.firstFree = (s.elems.find? fun e => e.vars.isEmpty).map (·.id)

namespace Sound

variable {s : Stack ν} {se : ℕ} {e : StackElem ν}

lemma ids (h : Sound s) : (s.elems.map (·.id)).Nodup := by
  have := h.layout.ids
  rwa [List.map_map] at this

lemma split_of_eq (h : Sound s) {before after : List (StackElem ν)}
    (heq : s.elems = before ++ e :: after) : SplitAt s.elems before e after :=
  .of_nodup h.ids heq

lemma split (h : Sound s) (he : e ∈ s.elems) :
    ∃ before after, SplitAt s.elems before e after := by
  obtain ⟨before, after, heq⟩ := List.append_of_mem he
  exact ⟨before, after, h.split_of_eq heq⟩

lemma elem?_eq (h : Sound s) (he : e ∈ s.elems) : s.elem? e.id = some e := by
  obtain ⟨before, after, hsplit⟩ := h.split he
  exact hsplit.find?

lemma of_elem? (he : s.elem? se = some e) : e ∈ s.elems ∧ e.id = se :=
  ⟨List.mem_of_find?_eq_some he, by simpa using List.find?_some he⟩

variable {before after : List (StackElem ν)}

/-- If nothing before `e` is free and `e` is, then `e` is the first free element, and the other
way round. -/
lemma firstFree_eq_iff (h : Sound s) (hs : SplitAt s.elems before e after) :
    s.firstFree = some e.id ↔ e.vars = [] ∧ ∀ a ∈ before, a.vars ≠ [] := by
  rw [h.free, hs.find?_free]
  cases hb : before.find? fun a => a.vars.isEmpty with
  | some a =>
      have ha := List.mem_of_find?_eq_some hb
      have hfree := List.find?_some hb
      simp only [Option.some_or, Option.map_some, Option.some.injEq]
      constructor
      · intro hid
        exact absurd hid (hs.before a ha)
      · rintro ⟨-, hall⟩
        exact absurd (by simpa using hfree) (hall a ha)
  | none =>
      have hnone : ∀ a ∈ before, a.vars ≠ [] := by
        intro a ha
        simpa using List.find?_eq_none.mp hb a ha
      rw [Option.none_or]
      split_ifs with he
      · simpa [he] using hnone
      · simp only [he, false_and, iff_false]
        intro hid
        obtain ⟨a, ha, hid⟩ := Option.map_eq_some_iff.mp hid
        exact hs.after a (List.mem_of_find?_eq_some ha) hid

/-- Taking an element. -/
lemma occupy (h : Sound s) (hs : SplitAt s.elems before e after) (hsize : e.size ≠ -1)
    {vars : List ν} (hvars : vars ≠ []) : Sound (s.occupy e.id vars) := by
  have helems : (s.occupy e.id vars).elems = before ++ { e with vars := vars } :: after :=
    hs.setVars vars
  refine ⟨?_, ?_, ?_⟩
  · rw [helems, hs.map_place vars]
    exact h.layout
  · rw [helems]
    exact hs.forall_replace h.sentryFree fun hne => absurd hne hsize
  · have hs' := hs.replace { e with vars := vars } rfl
    rw [helems, hs'.find?_free, if_neg hvars]
    show advanceFree (Stack.setVars s.elems e.id vars) s.firstFree e.id = _
    rw [hs.setVars vars, advanceFree]
    split_ifs with hfirst
    · -- Nothing before `e` is free: both sides look on after it.
      obtain ⟨-, hall⟩ := (h.firstFree_eq_iff hs).mp hfirst
      have hnone : before.find? (fun a => a.vars.isEmpty) = none :=
        List.find?_eq_none.mpr fun a ha => by simpa using hall a ha
      rw [hs'.suffixAt, hnone, Option.none_or, List.find?_cons_of_neg (by simpa using hvars)]
    · rw [h.free, hs.find?_free]
      cases hb : before.find? fun a => a.vars.isEmpty with
      | some a => rfl
      | none =>
          have hnone : ∀ a ∈ before, a.vars ≠ [] := by
            intro a ha
            simpa using List.find?_eq_none.mp hb a ha
          have he : e.vars ≠ [] := fun he => hfirst ((h.firstFree_eq_iff hs).mpr ⟨he, hnone⟩)
          rw [Option.none_or, Option.none_or, if_neg he]

/-- The sentry is free, so there is always a first free element. -/
lemma exists_firstFree (h : Sound s) :
    ∃ f before after, SplitAt s.elems before f after ∧ s.firstFree = some f.id ∧ f.vars = [] ∧
      ∀ a ∈ before, a.vars ≠ [] := by
  obtain ⟨init, id, hl, -⟩ := h.layout.sentry
  have hmem : (⟨id, -1, s.stackSize⟩ : Place) ∈ s.elems.map (·.place) := by
    rw [hl]
    exact List.mem_append_right _ (List.mem_singleton_self _)
  obtain ⟨last, hlast, hplace⟩ := List.mem_map.mp hmem
  have hfree := h.sentryFree last hlast (congrArg Place.size hplace)
  cases hf : s.elems.find? fun a => a.vars.isEmpty with
  | none =>
      have := List.find?_eq_none.mp hf last hlast
      simp [hfree] at this
  | some f =>
      obtain ⟨before, after, hs⟩ := h.split (List.mem_of_find?_eq_some hf)
      have hfirst : s.firstFree = some f.id := by rw [h.free, hf]; rfl
      obtain ⟨hvars, hall⟩ := (h.firstFree_eq_iff hs).mp hfirst
      exact ⟨f, before, after, hs, hfirst, hvars, hall⟩

/-- Elements further on lie higher. -/
lemma offset_le (h : Sound s) (hs : SplitAt s.elems before e after) {b : StackElem ν}
    (hb : b ∈ after) : e.offset + e.size ≤ b.offset := by
  have hl := h.layout
  rw [hs.eq, List.map_append, List.map_cons] at hl
  exact hl.offset_le (b := b.place) (List.mem_map_of_mem hb)

/-- An element with another one after it has a size. -/
lemma size_nonneg (h : Sound s) (hs : SplitAt s.elems before e after) {b : StackElem ν}
    (hb : b ∈ after) : 0 ≤ e.size := by
  have hl := h.layout
  rw [hs.eq, List.map_append, List.map_cons] at hl
  exact hl.size_nonneg_of_append (b := b.place) (List.mem_map_of_mem hb)

/-- An element lies above those before it. -/
lemma offset_le_of_before (h : Sound s) (hs : SplitAt s.elems before e after) {a : StackElem ν}
    (ha : a ∈ before) : a.offset + a.size ≤ e.offset ∧ 0 ≤ a.size := by
  obtain ⟨l, r, hlr⟩ := List.append_of_mem ha
  have hs' : SplitAt s.elems l a (r ++ e :: after) := by
    apply h.split_of_eq
    rw [hs.eq, hlr, List.append_assoc, List.cons_append]
  have he : e ∈ r ++ e :: after := List.mem_append_right _ List.mem_cons_self
  exact ⟨h.offset_le hs' he, h.size_nonneg hs' he⟩

/-- Emptying a list of variables, or leaving something in it, when the first free element is set
as it should be. -/
lemma replaceVars (h : Sound s) (hs : SplitAt s.elems before e after) {vars : List ν}
    (hsize : e.size ≠ -1) {first : Option ℕ}
    (hfirst : first = ((before.find? fun a => a.vars.isEmpty).or
      (if vars = [] then some { e with vars := vars }
        else after.find? fun a => a.vars.isEmpty)).map (·.id)) :
    Sound { s with elems := Stack.setVars s.elems e.id vars, firstFree := first } := by
  have hs' := hs.replace { e with vars := vars } rfl
  refine ⟨?_, ?_, ?_⟩
  · show Layout ((Stack.setVars s.elems e.id vars).map (·.place)) _ _ _
    rw [hs.setVars, hs.map_place]
    exact h.layout
  · show ∀ a ∈ Stack.setVars s.elems e.id vars, _
    rw [hs.setVars]
    exact hs.forall_replace h.sentryFree fun hne => absurd hne hsize
  · show first = ((Stack.setVars s.elems e.id vars).find? _).map _
    rw [hs.setVars, hs'.find?_free, hfirst]

/-- `stack_erase`. -/
lemma erase [B : Build] [DecidableEq ν] (h : Sound s) (he : e ∈ s.elems) (hsize : 0 < e.size)
    (hvars : e.vars ≠ []) (v : ν) : ∃ s', s.erase e.id v = some s' ∧ Sound s' := by
  obtain ⟨before, after, hs⟩ := h.split he
  rw [Stack.erase, h.elem?_eq he, Option.bind_some, if_neg fun hempty => hvars hempty.2]
  refine ⟨_, rfl, h.replaceVars hs (by omega) ?_⟩
  have hfree := h.free
  rw [hs.find?_free, if_neg hvars] at hfree
  cases hb : before.find? fun a => a.vars.isEmpty with
  | some a =>
      -- The first free element lies below `e` and remains the first.
      have ha := List.mem_of_find?_eq_some hb
      have ha' : a ∈ s.elems := by rw [hs.eq]; exact List.mem_append_left _ ha
      have hle := h.offset_le_of_before hs ha
      rw [hb, Option.some_or, Option.map_some] at hfree
      have hlower : ¬ e.offset < a.offset := by omega
      simp only [hfree, Option.bind_some, h.elem?_eq ha', hlower, decide_false,
        Bool.false_eq_true, and_false, if_false, Option.some_or, Option.map_some]
  | none =>
      rw [hb, Option.none_or] at hfree
      rw [Option.none_or]
      by_cases hempty : e.vars.erase v = []
      · cases hafter : after.find? fun a => a.vars.isEmpty with
        | none => simp [hfree, hafter, hempty]
        | some b =>
            have hb := List.mem_of_find?_eq_some hafter
            have hb' : b ∈ s.elems := by
              rw [hs.eq]
              exact List.mem_append_right _ (List.mem_cons_of_mem _ hb)
            have hlower : e.offset < b.offset := by
              have := h.offset_le hs hb
              omega
            simp [hfree, hafter, hempty, h.elem?_eq hb', hlower]
      · simp [hempty, hfree]

/-- `flush_loc`, above a free element. -/
lemma flush (h : Sound s) (he : e ∈ s.elems) (hsize : 0 < e.size) (hvars : e.vars ≠ [])
    {f : StackElem ν} (hf : f ∈ s.elems) (hfree : f.vars = []) (hle : f.offset ≤ e.offset) :
    ∃ s', s.flush e.id = some s' ∧ Sound s' := by
  obtain ⟨before, after, hs⟩ := h.split he
  rw [Stack.flush, h.elem?_eq he]
  refine ⟨_, rfl, h.replaceVars hs (by omega) ?_⟩
  have hbefore : f ∈ before := by
    have hf' := hf
    rw [hs.eq] at hf'
    rcases List.mem_append.mp hf' with hf' | hf'
    · exact hf'
    rcases List.mem_cons.mp hf' with rfl | hf'
    · exact absurd hfree hvars
    · have := h.offset_le hs hf'
      omega
  have hfirst := h.free
  rw [hs.find?_free] at hfirst
  cases hb : before.find? fun a => a.vars.isEmpty with
  | some a =>
      rw [hb, Option.some_or] at hfirst
      exact hfirst
  | none =>
      have := List.find?_eq_none.mp hb f hbefore
      simp [hfree] at this

/-- `flush_loc` on an element without variables. -/
lemma flush_free (h : Sound s) (he : e ∈ s.elems) (hsize : 0 < e.size) (hvars : e.vars = []) :
    ∃ s', s.flush e.id = some s' ∧ Sound s' := by
  obtain ⟨before, after, hs⟩ := h.split he
  rw [Stack.flush, h.elem?_eq he]
  refine ⟨_, rfl, h.replaceVars hs (by omega) ?_⟩
  rw [h.free, hs.find?_free, if_pos hvars, if_pos rfl]
  cases before.find? fun a => a.vars.isEmpty with
  | some a => rfl
  | none => rfl

/-- The element `occupy` fills. -/
lemma elem?_occupy (hs : SplitAt s.elems before e after) (vars : List ν) :
    (s.occupy e.id vars).elem? e.id = some { e with vars := vars } := by
  have helems : (s.occupy e.id vars).elems = before ++ { e with vars := vars } :: after :=
    hs.setVars vars
  rw [elem?, helems]
  exact (hs.replace { e with vars := vars } rfl).find?

/-- The sentry is the last element. -/
lemma after_sentry (h : Sound s) (hs : SplitAt s.elems before e after) (hsize : e.size = -1) :
    after = [] ∧ e.offset = s.stackSize := by
  have hafter : after = [] := by
    rw [List.eq_nil_iff_forall_not_mem]
    intro b hb
    have := h.size_nonneg hs hb
    omega
  obtain ⟨init, id, hl, -⟩ := h.layout.sentry
  rw [hs.eq, hafter, List.map_append] at hl
  have hlast := (List.append_inj' hl rfl).2
  exact ⟨hafter, congrArg Place.offset (List.singleton_inj.mp hlast)⟩

/-- The sentry becomes an element, and a new sentry follows. -/
lemma grow_eq (h : Sound s) (hs : SplitAt s.elems before e after) (hsentry : e.size = -1)
    (size : ℤ) : (s.grow e size).elems =
      before ++ [{ e with size := size }] ++ [⟨s.nextId, [], -1, toInt (s.stackSize + size)⟩] := by
  obtain ⟨rfl, hoff⟩ := h.after_sentry hs hsentry
  show (s.elems.flatMap fun a => if a.id = e.id then _ else [a]) = _
  rw [hs.flatMap_update, List.append_nil, ← hoff, List.append_assoc]
  rfl

/-- The stack with an element more, if the frame does not grow too large. -/
lemma grow (h : Sound s) (hs : SplitAt s.elems before e after) (hsentry : e.size = -1) {size : ℤ}
    (hsize : 0 ≤ size) (hroom : s.stackSize + size < 2 ^ 31) :
    Sound (s.grow e size) ∧
      SplitAt (s.grow e size).elems before { e with size := size }
        [⟨s.nextId, [], -1, s.stackSize + size⟩] := by
  have hvars := h.sentryFree e hs.mem hsentry
  -- within the bound the C sum does not wrap
  have hint : toInt (s.stackSize + size) = s.stackSize + size := by
    have := h.layout.bottom
    exact toInt_eq (by omega) hroom
  have helems := h.grow_eq hs hsentry size
  rw [hint] at helems
  obtain ⟨rfl, hoff⟩ := h.after_sentry hs hsentry
  have hsound : Sound (s.grow e size) := by
    refine ⟨?_, ?_, ?_⟩
    · have hl := h.layout
      rw [hs.eq, List.map_append, List.map_singleton, StackElem.place, hsentry, hoff] at hl
      have hl' := hl.grow hsize hroom
      rw [helems, List.map_append, List.map_append, List.map_singleton, List.map_singleton,
        StackElem.place, StackElem.place, hoff]
      show Layout _ (toInt (s.stackSize + size))
        (if s.maxStackSize < toInt (s.stackSize + size) then toInt (s.stackSize + size)
          else s.maxStackSize) (s.nextId + 1)
      rw [hint]
      exact hl'
    · rw [helems]
      intro a ha hne
      rcases List.mem_append.mp ha with ha | ha
      · rcases List.mem_append.mp ha with ha | ha
        · exact h.sentryFree a (by rw [hs.eq]; exact List.mem_append_left _ ha) hne
        · rw [List.mem_singleton.mp ha]
          exact hvars
      · rw [List.mem_singleton.mp ha]
    · show s.firstFree = _
      rw [h.free, hs.find?_free, helems, List.find?_append, List.find?_append, if_pos hvars]
      cases before.find? fun a => a.vars.isEmpty with
      | some a => rfl
      | none => simp [hvars]
  refine ⟨hsound, hsound.split_of_eq ?_⟩
  rw [helems, List.append_assoc]
  rfl

/-- The element the loop of `stack_insert_new` finds: the lowest free one that is large enough,
or the sentry. -/
lemma exists_fit (h : Sound s) (size : ℤ) :
    ∃ g before after, SplitAt s.elems before g after ∧ fits size g = true ∧
      ∀ a ∈ before, fits size a ≠ true := by
  obtain ⟨init, id, hl, -⟩ := h.layout.sentry
  have hmem : (⟨id, -1, s.stackSize⟩ : Place) ∈ s.elems.map (·.place) := by
    rw [hl]
    exact List.mem_append_right _ (List.mem_singleton_self _)
  obtain ⟨last, hlast, hplace⟩ := List.mem_map.mp hmem
  cases hf : s.elems.find? (fits size) with
  | none =>
      have := List.find?_eq_none.mp hf last hlast
      exact absurd (fits_iff.mpr (Or.inl (congrArg Place.size hplace))) this
  | some g =>
      obtain ⟨hg, before, after, heq, hall⟩ := List.find?_eq_some_iff_append.mp hf
      exact ⟨g, before, after, h.split_of_eq heq, hg, fun a ha => by simpa using hall a ha⟩

/-- `stack_insert_new` on a sound stack. -/
lemma insertNew_eq [B : Build] (h : Sound s) {g f : StackElem ν} {size : ℤ}
    (hs : SplitAt s.elems before g after) (hfit : fits size g = true)
    (hbefore : ∀ a ∈ before, fits size a ≠ true) (hf : f ∈ s.elems)
    (hfirst : s.firstFree = some f.id) (v : ν) :
    s.insertNew v size =
      if B.ndebug = false ∧ size < f.size then none
      else if g.size = -1 then some ((s.grow g size).occupy g.id [v], g.id)
      else some (s.occupy g.id [v], g.id) := by
  obtain ⟨fbefore, fafter, hfs⟩ := h.split hf
  obtain ⟨hfvars, hfall⟩ := (h.firstFree_eq_iff hfs).mp hfirst
  have hfind : (suffixAt s.elems f.id).find? (fits size) = some g := by
    have hnone : fbefore.find? (fits size) = none := by
      refine List.find?_eq_none.mpr fun a ha hfits => ?_
      rcases fits_iff.mp hfits with hsize | ⟨-, hvars⟩
      · have := (h.offset_le_of_before hfs ha).2
        omega
      · exact hfall a ha hvars
    have hg : s.elems.find? (fits size) = some g :=
      List.find?_eq_some_iff_append.mpr
        ⟨hfit, before, after, hs.eq, fun a ha => by simpa using hbefore a ha⟩
    rwa [hfs.eq, List.find?_append, hnone, Option.none_or, ← hfs.suffixAt] at hg
  rw [insertNew, hfirst, Option.bind_some, h.elem?_eq hf, Option.bind_some, hfind,
    Option.bind_some]
  simp only [hfvars, ne_eq, not_true, or_false]
  split_ifs with hlt hsentry hbad hbad
  · rfl
  · -- The sentry is the last element and free.
    exfalso
    obtain ⟨rfl, -⟩ := h.after_sentry hs hsentry
    rw [hs.eq, List.getLast?_concat] at hbad
    simp [h.sentryFree g hs.mem hsentry] at hbad
  · rfl
  · exfalso
    rcases fits_iff.mp hfit with hsize | ⟨hle, hvars⟩
    · exact hsentry hsize
    · rcases hbad.2 with hbad | hbad
      · exact hbad hvars
      · omega
  · rfl

end Sound

/-! ## The slots of a sound stack -/

/-- The slots of the frame: no two overlap, those of the frame proper lie below `max_stack_size`,
and `first_stack_free` is the lowest free element. -/
structure SlotsSound (s : Stack ν) : Prop where
  disjoint : ∀ a ∈ s.elems, ∀ b ∈ s.elems, a.id ≠ b.id → a.size ≠ -1 → b.size ≠ -1 →
    a.offset + a.size ≤ b.offset ∨ b.offset + b.size ≤ a.offset
  inFrame : ∀ a ∈ s.elems, a.size ≠ -1 → 0 ≤ a.offset → a.offset + a.size ≤ s.maxStackSize
  lowest : ∀ f, s.firstFree = some f →
    ∃ e, s.elem? f = some e ∧ e.vars = [] ∧ ∀ e' ∈ s.elems, e'.vars = [] → e.offset ≤ e'.offset

namespace Sound

variable {s : Stack ν}

/-- An element with a size ends below the sentry. -/
lemma offset_add_le (h : Sound s) {a : StackElem ν} (ha : a ∈ s.elems) (hsize : a.size ≠ -1) :
    a.offset + a.size ≤ s.stackSize := by
  obtain ⟨init, id, hl, -⟩ := h.layout.sentry
  have hspaced := h.layout.spaced
  have hmem : a.place ∈ s.elems.map (·.place) := List.mem_map_of_mem ha
  rw [hl] at hmem hspaced
  rcases List.mem_append.mp hmem with hmem | hmem
  · exact (List.pairwise_append.mp hspaced).2.2 _ hmem _ (List.mem_singleton_self _)
  · exact absurd (congrArg Place.size (List.mem_singleton.mp hmem)) hsize

lemma slotsSound (h : Sound s) : SlotsSound s := by
  refine ⟨?_, ?_, ?_⟩
  · intro a ha b hb hne _ _
    obtain ⟨before, after, hs⟩ := h.split ha
    rw [hs.eq] at hb
    rcases List.mem_append.mp hb with hb | hb
    · exact Or.inr (h.offset_le_of_before hs hb).1
    rcases List.mem_cons.mp hb with rfl | hb
    · exact absurd rfl hne
    · exact Or.inl (h.offset_le hs hb)
  · intro a ha hsize hpos
    have hend := h.offset_add_le ha hsize
    have hmax := h.layout.inFrame a.place (List.mem_map_of_mem ha) hsize hpos
    omega
  · intro f hf
    obtain ⟨e, before, after, hs, hfirst, hvars, hall⟩ := h.exists_firstFree
    have hid : e.id = f := Option.some.inj (hfirst.symm.trans hf)
    refine ⟨e, hid ▸ h.elem?_eq hs.mem, hvars, fun e' he' hvars' => ?_⟩
    rw [hs.eq] at he'
    rcases List.mem_append.mp he' with he' | he'
    · exact absurd hvars' (hall e' he')
    rcases List.mem_cons.mp he' with rfl | he'
    · exact Int.le_refl _
    · have := h.offset_le hs he'
      have := h.size_nonneg hs he'
      omega

end Sound

/-! ## `stack_insert_new` -/

/-- Every free element that is larger than the variable has a free one of exactly its size below
it; and if none is of its size, the frame has room for another one. -/
structure InsertOk (s : Stack ν) (size : ℤ) : Prop where
  fit : ∀ e ∈ s.elems, e.vars = [] → size < e.size →
    ∃ e' ∈ s.elems, e'.vars = [] ∧ e'.size = size ∧ e'.offset ≤ e.offset
  room : (∃ e ∈ s.elems, e.vars = [] ∧ e.size = size) ∨ s.stackSize + size < 2 ^ 31

/-- The variable `v` has been put into the element `se`, which was free and is of its size. -/
structure Inserted (s : Stack ν) (v : ν) (size : ℤ) (s' : Stack ν) (se : ℕ) : Prop where
  was : ∃ e ∈ s.elems, e.id = se ∧ e.vars = []
  now : ∃ e ∈ s'.elems, e.id = se ∧ e.vars = [v] ∧ e.size = size

section InsertNew

variable {s s' : Stack ν} {before after : List (StackElem ν)} {g : StackElem ν} {v : ν} {size : ℤ}
  {se : ℕ}

/-- What does not fit lies before the element found, so what is free and large enough does not. -/
lemma Sound.mem_of_fits (hs : SplitAt s.elems before g after)
    (hbefore : ∀ a ∈ before, fits size a ≠ true) {e : StackElem ν} (he : e ∈ s.elems)
    (hle : size ≤ e.size) (hvars : e.vars = []) : e = g ∨ e ∈ after := by
  rw [hs.eq] at he
  rcases List.mem_append.mp he with he | he
  · exact absurd (fits_iff.mpr (Or.inr ⟨hle, hvars⟩)) (hbefore e he)
  · exact List.mem_cons.mp he

/-- A slot that the frame has no room for does not lie in it. -/
lemma room_of_slotsSound (h : Sound s) (hs : SplitAt s.elems before g after)
    (hsentry : g.size = -1) (hsize : 0 ≤ size)
    (hslots : SlotsSound ((s.grow g size).occupy g.id [v])) : s.stackSize + size < 2 ^ 31 := by
  have hmem : { g with size := size, vars := [v] } ∈ ((s.grow g size).occupy g.id [v]).elems := by
    refine List.mem_map.mpr ⟨{ g with size := size }, ?_, if_pos rfl⟩
    rw [h.grow_eq hs hsentry]
    simp
  have hoff : g.offset = s.stackSize := (h.after_sentry hs hsentry).2
  have hbottom := h.layout.bottom
  have hmax : ((s.grow g size).occupy g.id [v]).maxStackSize < 2 ^ 31 := by
    show (if s.maxStackSize < toInt (s.stackSize + size) then toInt (s.stackSize + size)
      else s.maxStackSize) < 2 ^ 31
    split_ifs
    · exact toInt_lt _
    · exact h.layout.max
  have hframe : g.offset + size ≤ ((s.grow g size).occupy g.id [v]).maxStackSize :=
    hslots.inFrame _ hmem (show size ≠ -1 by omega) (show 0 ≤ g.offset by omega)
  omega

variable [B : Build]

/-- Where `InsertOk` holds, the assertions do and the element found is of the right size. -/
lemma insertNew_ok (h : Sound s) (v : ν) (hsize : 0 ≤ size) (hok : InsertOk s size) :
    ∃ s' se, s.insertNew v size = some (s', se) ∧ Inserted s v size s' se ∧ Sound s' := by
  obtain ⟨g, before, after, hs, hfit, hbefore⟩ := h.exists_fit size
  obtain ⟨f, fbefore, fafter, hfs, hfirst, hfvars, hfall⟩ := h.exists_firstFree
  rw [h.insertNew_eq hs hfit hbefore hfs.mem hfirst]
  have hnlt : ¬ size < f.size := by
    intro hlt
    obtain ⟨e, he, hvars, hesize, hle⟩ := hok.fit f hfs.mem hfvars hlt
    rw [hfs.eq] at he
    rcases List.mem_append.mp he with he | he
    · exact hfall e he hvars
    rcases List.mem_cons.mp he with rfl | he
    · omega
    · have := h.offset_le hfs he
      omega
  rw [if_neg fun hlt => hnlt hlt.2]
  by_cases hsentry : g.size = -1
  · -- No free element is of the size, so that there is room.
    have hroom : s.stackSize + size < 2 ^ 31 := by
      refine hok.room.resolve_left ?_
      rintro ⟨e, he, hvars, hesize⟩
      rcases Sound.mem_of_fits hs hbefore he (Int.le_of_eq hesize.symm) hvars with rfl | he
      · omega
      · rw [(h.after_sentry hs hsentry).1] at he
        simp at he
    obtain ⟨hgrow, hgs⟩ := h.grow hs hsentry hsize hroom
    rw [if_pos hsentry]
    refine ⟨_, _, rfl, ⟨⟨g, hs.mem, rfl, h.sentryFree g hs.mem hsentry⟩, ?_⟩,
      hgrow.occupy hgs (show size ≠ -1 by omega) (List.cons_ne_nil _ _)⟩
    obtain ⟨hmem, hid⟩ := Sound.of_elem? (Sound.elem?_occupy hgs [v])
    exact ⟨_, hmem, hid, rfl, rfl⟩
  · obtain ⟨hle, hgvars⟩ := (fits_iff.mp hfit).resolve_left hsentry
    have hgsize : g.size = size := by
      by_contra hne
      obtain ⟨e, he, hvars, hesize, hle'⟩ := hok.fit g hs.mem hgvars (by omega)
      rcases Sound.mem_of_fits hs hbefore he (Int.le_of_eq hesize.symm) hvars with rfl | he
      · omega
      · have := h.offset_le hs he
        omega
    rw [if_neg hsentry]
    refine ⟨_, _, rfl, ⟨⟨g, hs.mem, rfl, hgvars⟩, ?_⟩,
      h.occupy hs hsentry (List.cons_ne_nil _ _)⟩
    obtain ⟨hmem, hid⟩ := Sound.of_elem? (Sound.elem?_occupy hs [v])
    exact ⟨_, hmem, hid, rfl, hgsize⟩

/-- What `stack_insert_new` does as it should, it does where `InsertOk` holds. -/
lemma insertOk_of_inserted (h : Sound s) (hsize : 0 ≤ size)
    (hstep : s.insertNew v size = some (s', se)) (hins : Inserted s v size s' se)
    (hslots : SlotsSound s') : InsertOk s size := by
  obtain ⟨g, before, after, hs, hfit, hbefore⟩ := h.exists_fit size
  obtain ⟨f, fbefore, fafter, hfs, hfirst, hfvars, hfall⟩ := h.exists_firstFree
  rw [h.insertNew_eq hs hfit hbefore hfs.mem hfirst] at hstep
  split_ifs at hstep with _ hsentry
  · obtain ⟨rfl, rfl⟩ := Prod.mk.inj (Option.some.inj hstep)
    refine ⟨fun e he hvars hlt => ?_, Or.inr (room_of_slotsSound h hs hsentry hsize hslots)⟩
    obtain ⟨rfl, -⟩ := h.after_sentry hs hsentry
    rcases Sound.mem_of_fits hs hbefore he (Int.le_of_lt hlt) hvars with rfl | he
    · omega
    · simp at he
  · obtain ⟨rfl, rfl⟩ := Prod.mk.inj (Option.some.inj hstep)
    have hgvars := ((fits_iff.mp hfit).resolve_left hsentry).2
    have hgsize : g.size = size := by
      have hsound : Sound (s.occupy g.id [v]) := h.occupy hs hsentry (List.cons_ne_nil _ _)
      obtain ⟨e, he, hid, -, hesize⟩ := hins.now
      have hfound := hsound.elem?_eq he
      rw [hid, Sound.elem?_occupy hs] at hfound
      rw [← hesize, ← Option.some.inj hfound]
    refine ⟨fun e he hvars hlt => ?_, Or.inl ⟨g, hs.mem, hgvars, hgsize⟩⟩
    rcases Sound.mem_of_fits hs hbefore he (Int.le_of_lt hlt) hvars with rfl | he
    · omega
    · have := h.offset_le hs he
      exact ⟨g, hs.mem, hgvars, hgsize, by omega⟩

end InsertNew

/-! ## The prologue -/

lemma init_sound : Sound (init : Stack ν) := by
  refine ⟨⟨⟨[], 0, rfl, by simp⟩, List.pairwise_singleton _ _, List.nodup_singleton _, ?_,
    Int.le_refl _, show (0 : ℤ) < 2 ^ 31 by decide, show (-1 : ℤ) < 2 ^ 31 by decide, ?_⟩, ?_, rfl⟩
  · intro p hp
    rw [List.mem_singleton.mp hp]
    exact Nat.one_pos
  · intro p hp hne
    rw [List.mem_singleton.mp hp] at hne
    exact absurd rfl hne
  · intro e he _
    rw [List.mem_singleton.mp he]

/-- The sentry is the only free element. -/
def Full (s : Stack ν) : Prop :=
  ∀ e ∈ s.elems, e.vars = [] → e.size = -1

section Prologue

variable [B : Build]

/-- A new slot goes to the end of a full stack. -/
lemma insertNew_full {s : Stack ν} (h : Sound s) (hfull : Full s)
    (hbottom : ∀ e ∈ s.elems, 0 ≤ e.offset) (v : ν) {size : ℤ} (hsize : 0 ≤ size)
    (hroom : s.stackSize + size < 2 ^ 31) :
    ∃ s' se, s.insertNew v size = some (s', se) ∧ Sound s' ∧ Full s' ∧
      (∀ e ∈ s'.elems, 0 ≤ e.offset) ∧ s'.stackSize = s.stackSize + size := by
  obtain ⟨g, before, after, hs, hfit, hbefore⟩ := h.exists_fit size
  obtain ⟨f, fbefore, fafter, hfs, hfirst, hfvars, -⟩ := h.exists_firstFree
  have hf := hfull f hfs.mem hfvars
  -- no place is free but the sentry, so the new element is put at the top of the frame
  have hsentry : g.size = -1 := by
    rcases fits_iff.mp hfit with hsentry | ⟨-, hvars⟩
    · exact hsentry
    · exact hfull g hs.mem hvars
  obtain ⟨hgrow, hgs⟩ := h.grow hs hsentry hsize hroom
  have hint : toInt (s.stackSize + size) = s.stackSize + size := by
    have := h.layout.bottom
    exact toInt_eq (by omega) hroom
  rw [h.insertNew_eq hs hfit hbefore hfs.mem hfirst, if_neg (by omega), if_pos hsentry]
  obtain ⟨rfl, hoff⟩ := h.after_sentry hs hsentry
  have helems : ((s.grow g size).occupy g.id [v]).elems =
      before ++ { g with size := size, vars := [v] } :: [⟨s.nextId, [], -1, s.stackSize + size⟩] :=
    hgs.setVars [v]
  have hbefore' : ∀ a ∈ before, a ∈ s.elems := fun a ha => by
    rw [hs.eq]
    exact List.mem_append_left _ ha
  refine ⟨_, _, rfl, hgrow.occupy hgs (show size ≠ -1 by omega) (List.cons_ne_nil _ _), ?_, ?_,
    hint⟩
  · intro e he hvars
    rw [helems] at he
    rcases List.mem_append.mp he with he | he
    · exact hfull e (hbefore' e he) hvars
    rcases List.mem_cons.mp he with rfl | he
    · exact absurd hvars (List.cons_ne_nil _ _)
    · rw [List.mem_singleton.mp he]
  · intro e he
    rw [helems] at he
    have hg := hbottom g hs.mem
    rcases List.mem_append.mp he with he | he
    · exact hbottom e (hbefore' e he)
    rcases List.mem_cons.mp he with rfl | he
    · exact hg
    · rw [List.mem_singleton.mp he]
      show 0 ≤ s.stackSize + size
      omega

/-- The bytes of some arrays. -/
def arrayBytes (arrays : List (ν × ℕ × ℕ)) : ℕ :=
  (arrays.map fun a => a.2.1 * a.2.2).sum

/-- After the arrays nothing lies below the bottom of the frame. -/
lemma insertArrays_spec (arrays : List (ν × ℕ × ℕ)) {s : Stack ν} (h : Sound s) (hfull : Full s)
    (hbottom : ∀ e ∈ s.elems, 0 ≤ e.offset)
    (hroom : s.stackSize + (arrayBytes arrays : ℕ) < 2 ^ 31) :
    ∃ s', s.insertArrays arrays = some s' ∧ Sound s' ∧ ∀ e ∈ s'.elems, 0 ≤ e.offset := by
  induction arrays generalizing s with
  | nil => exact ⟨s, rfl, h, hbottom⟩
  | cons a arrays ih =>
      rw [arrayBytes, List.map_cons, List.sum_cons, ← arrayBytes] at hroom
      have hlow := h.layout.bottom
      have hint : arraySize a = ((a.2.1 * a.2.2 : ℕ) : ℤ) := toInt_eq (by omega) (by omega)
      obtain ⟨s₁, se, hstep, h₁, hfull₁, hbottom₁, hsize₁⟩ :=
        insertNew_full h hfull hbottom a.1 (Int.natCast_nonneg (a.2.1 * a.2.2)) (by omega)
      obtain ⟨s', hrest, h', hbottom'⟩ := ih h₁ hfull₁ hbottom₁ (by omega)
      refine ⟨s', ?_, h', hbottom'⟩
      rw [insertArrays, hint, hstep, Option.bind_some]
      exact hrest

end Prologue

/-- `stack_param` below everything else. -/
lemma param_spec {s : Stack ν} (h : Sound s) (v : ν) (size off : ℤ) (hsize : 0 ≤ size)
    (hoff : off < 0) (hbelow : ∀ e ∈ s.elems, off + size ≤ e.offset) :
    ∃ s', s.param v size off = some s' ∧ Sound s' ∧
      s'.elems = ⟨s.nextId, [v], size, off⟩ :: s.elems := by
  obtain ⟨f, before, after, hs, -⟩ := h.exists_firstFree
  cases helems : s.elems with
  | nil =>
      rw [hs.eq] at helems
      simp at helems
  | cons a l =>
      have ha : off ≤ a.offset := by
        have := hbelow a (by rw [helems]; exact List.mem_cons_self)
        omega
      rw [param, helems]
      simp only [if_pos ha]
      refine ⟨_, rfl, ⟨?_, ?_, ?_⟩, rfl⟩
      · have hl := h.layout.param hsize hoff (by
          intro p hp
          obtain ⟨e, he, rfl⟩ := List.mem_map.mp hp
          exact hbelow e he)
        rw [helems] at hl
        exact hl
      · intro e he hne
        rcases List.mem_cons.mp he with rfl | he
        · have : size = -1 := hne
          omega
        · exact h.sentryFree e (by rw [helems]; exact he) hne
      · show s.firstFree = _
        rw [h.free, helems]
        rfl

/-- The bytes of some parameters. -/
def paramBytes (params : List (ν × ℕ)) : ℕ :=
  (params.map Prod.snd).sum

lemma insertParams_spec (params : List (ν × ℕ)) (hsizes : ∀ p ∈ params, 0 < p.2) {s : Stack ν}
    (h : Sound s) (base : ℕ) (hbelow : ∀ e ∈ s.elems, -(base : ℤ) ≤ e.offset)
    (hroom : base + paramBytes params ≤ 2 ^ 31) :
    ∃ s', s.insertParams base params = some s' ∧ Sound s' := by
  induction params generalizing s base with
  | nil => exact ⟨s, rfl, h⟩
  | cons p params ih =>
      have hp := hsizes p List.mem_cons_self
      rw [paramBytes, List.map_cons, List.sum_cons, ← paramBytes] at hroom
      have hint : toInt (-((base + p.2 : ℕ) : ℤ)) = -((base + p.2 : ℕ) : ℤ) :=
        toInt_eq (by omega) (by omega)
      obtain ⟨s₁, hstep, h₁, helems⟩ := param_spec h p.1 p.2
        (-((base + p.2 : ℕ) : ℤ)) (by omega) (by omega) (by
          intro e he
          have := hbelow e he
          omega)
      obtain ⟨s', hrest, h'⟩ := ih (fun q hq => hsizes q (List.mem_cons_of_mem _ hq)) h₁
        (base + p.2) (by
          rw [helems]
          intro e he
          rcases List.mem_cons.mp he with rfl | he
          · exact Int.le_refl _
          · have := hbelow e he
            omega) (by omega)
      refine ⟨s', ?_, h'⟩
      rw [insertParams, hint, hstep, Option.bind_some]
      exact hrest

/-- The arrays and the parameters of a function are so few and small that `int` sums of their sizes
do not overflow. -/
def Fits (arrays : List (ν × ℕ × ℕ)) (base : ℕ) (params : List (ν × ℕ)) : Prop :=
  arrayBytes arrays < 2 ^ 31 ∧ base + paramBytes params ≤ 2 ^ 31

/-- The stack at the start of the code of a function is sound. -/
lemma prologue_sound [B : Build] {arrays : List (ν × ℕ × ℕ)} {base : ℕ} {params : List (ν × ℕ)}
    (hsizes : ∀ p ∈ params, 0 < p.2) (hfits : Fits arrays base params) :
    ∃ s, prologue arrays base params = some s ∧ Sound s := by
  obtain ⟨s₁, harrays, h₁, hbottom⟩ := insertArrays_spec arrays init_sound
    (by intro e he _; rw [List.mem_singleton.mp he])
    (fun e he => Int.le_of_eq (by rw [List.mem_singleton.mp he]))
    (by show 0 + _ < _; have := hfits.1; omega)
  obtain ⟨s, hparams, h⟩ := insertParams_spec params hsizes h₁ base (by
    intro e he
    have := hbottom e he
    omega) hfits.2
  refine ⟨s, ?_, h⟩
  rw [prologue, harrays, Option.bind_some, hparams]

/-! ## `flush_loc` -/

/-- A slot is flushed as it should be only above a free one, or when nothing is in it. -/
lemma flush_lowest {s : Stack ν} (h : Sound s) {e : StackElem ν} (he : e ∈ s.elems)
    (hslots : SlotsSound { s with elems := setVars s.elems e.id [] }) :
    e.vars = [] ∨ ∃ f ∈ s.elems, f.vars = [] ∧ f.offset ≤ e.offset := by
  by_contra hcon
  rw [not_or] at hcon
  obtain ⟨f, fbefore, fafter, hfs, hfirst, hfvars, -⟩ := h.exists_firstFree
  obtain ⟨before, after, hs⟩ := h.split he
  -- The element `first_stack_free` still points to is not `e`, and lies no higher.
  obtain ⟨e₀, he₀, hfree, hlow⟩ := hslots.lowest f.id hfirst
  obtain ⟨hmem, hid⟩ := Sound.of_elem? he₀
  have helems : setVars s.elems e.id [] = before ++ { e with vars := [] } :: after :=
    hs.setVars []
  have hle : e₀.offset ≤ e.offset := by
    refine hlow { e with vars := [] } ?_ rfl
    show _ ∈ setVars s.elems e.id []
    rw [helems]
    exact List.mem_append_right _ List.mem_cons_self
  have hmem' : e₀ ∈ s.elems := by
    have hmem : e₀ ∈ setVars s.elems e.id [] := hmem
    rw [helems] at hmem
    rw [hs.eq]
    rcases List.mem_append.mp hmem with hmem | hmem
    · exact List.mem_append_left _ hmem
    rcases List.mem_cons.mp hmem with rfl | hmem
    · have hfe : f = e := by
        have := h.elem?_eq hfs.mem
        rw [← hid] at this
        exact Option.some.inj (this.symm.trans (h.elem?_eq he))
      exact absurd (hfe ▸ hfvars) hcon.1
    · exact List.mem_append_right _ (List.mem_cons_of_mem _ hmem)
  exact hcon.2 ⟨e₀, hmem', hfree, hle⟩

/-! ## Runs -/

/-- The slot operations of the code generator, after the prologue. -/
inductive SlotOp (ν : Type)
  | insertNew (v : ν) (size : ℕ)
  | insert (se : ℕ) (v : ν) (size : ℕ)
  | erase (se : ℕ) (v : ν)
  | flush (se : ℕ)

variable [DecidableEq ν] [B : Build]

/-- One operation. -/
def step (s : Stack ν) : SlotOp ν → Option (Stack ν)
  | .insertNew v size => (s.insertNew v size).map Prod.fst
  | .insert se v size => (s.insert se v size).map Prod.fst
  | .erase se v => s.erase se v
  | .flush se => s.flush se

/-- What the callers see to: sizes are of type `int`, an element is reached through the location of
a variable that is in it, and an array, whose location is permanent, is never moved. -/
def Called (s : Stack ν) : SlotOp ν → Prop
  | .insertNew _ size => size < 2 ^ 31
  | .insert se _ _ => ∃ e ∈ s.elems, e.id = se
  | .erase se _ => ∃ e ∈ s.elems, e.id = se ∧ 0 < e.size ∧ e.vars ≠ []
  | .flush se => ∃ e ∈ s.elems, e.id = se ∧ 0 < e.size

/-- The steps that keep the slots sound.  A new slot is taken when no larger free one lies below
every free one of the right size, and the frame has room for it; a variable is added to a slot of
its own size; a slot is flushed only above a free one, or when nothing is in it. -/
def StepOk (s : Stack ν) : SlotOp ν → Prop
  | .insertNew _ size => InsertOk s size
  | .insert se _ size => ∀ e ∈ s.elems, e.id = se → e.size = size
  | .erase _ _ => True
  | .flush se => ∀ e ∈ s.elems, e.id = se →
      e.vars = [] ∨ ∃ f ∈ s.elems, f.vars = [] ∧ f.offset ≤ e.offset

/-- What is asked of a step: no assertion fails, the slots are sound after it, and a new slot was
free and has the size of the variable.  The assertion of `stack_insert` is asked for in words, since
it may have been left out. -/
def StepMeets (s : Stack ν) (op : SlotOp ν) : Prop :=
  (∃ s', s.step op = some s' ∧ SlotsSound s') ∧
    match op with
    | .insertNew v size => ∃ s' se, s.insertNew v size = some (s', se) ∧ Inserted s v size s' se
    | .insert se _ size => ∀ e ∈ s.elems, e.id = se → e.size = size
    | _ => True

/-- The states of a run whose steps all are of the right kind. -/
inductive Reached (s₀ : Stack ν) : Stack ν → Prop
  | start : Reached s₀ s₀
  | step {s s' : Stack ν} (op : SlotOp ν) (prev : Reached s₀ s) (called : Called s op)
      (ok : StepOk s op) (eq : s.step op = some s') : Reached s₀ s'

instance (s : Stack ν) (op : SlotOp ν) : Decidable (Called s op) :=
  match op with
  | .insertNew _ size => inferInstanceAs (Decidable (size < 2 ^ 31))
  | .insert se _ _ => inferInstanceAs (Decidable (∃ e ∈ s.elems, e.id = se))
  | .erase se _ =>
      inferInstanceAs (Decidable (∃ e ∈ s.elems, e.id = se ∧ 0 < e.size ∧ e.vars ≠ []))
  | .flush se => inferInstanceAs (Decidable (∃ e ∈ s.elems, e.id = se ∧ 0 < e.size))

instance (s : Stack ν) (size : ℤ) : Decidable (InsertOk s size) :=
  decidable_of_iff (_ ∧ _) ⟨fun h => ⟨h.1, h.2⟩, fun h => ⟨h.fit, h.room⟩⟩

instance (s : Stack ν) (op : SlotOp ν) : Decidable (StepOk s op) :=
  match op with
  | .insertNew _ size => inferInstanceAs (Decidable (InsertOk s size))
  | .insert se _ size => inferInstanceAs (Decidable (∀ e ∈ s.elems, e.id = se → e.size = size))
  | .erase _ _ => inferInstanceAs (Decidable True)
  | .flush se => inferInstanceAs (Decidable (∀ e ∈ s.elems, e.id = se →
      e.vars = [] ∨ ∃ f ∈ s.elems, f.vars = [] ∧ f.offset ≤ e.offset))

/-- The step lemma. -/
lemma step_sound {s : Stack ν} (h : Sound s) {op : SlotOp ν} (hcalled : Called s op)
    (hok : StepOk s op) : ∃ s', s.step op = some s' ∧ Sound s' := by
  cases op with
  | insertNew v size =>
      obtain ⟨s', se, hstep, -, hs'⟩ := insertNew_ok h v (Int.natCast_nonneg size) hok
      exact ⟨s', by rw [step, hstep]; rfl, hs'⟩
  | insert se v size =>
      obtain ⟨e, he, rfl⟩ := hcalled
      have hsize := hok e he rfl
      rw [step, Stack.insert, h.elem?_eq he, Option.bind_some, if_neg fun hne => hne.2 hsize]
      split_ifs
      · exact ⟨s, rfl, h⟩
      · obtain ⟨before, after, hs⟩ := h.split he
        exact ⟨_, rfl, h.occupy hs (by omega) (List.cons_ne_nil _ _)⟩
  | erase se v =>
      obtain ⟨e, he, rfl, hsize, hvars⟩ := hcalled
      exact h.erase he hsize hvars v
  | flush se =>
      obtain ⟨e, he, rfl, hsize⟩ := hcalled
      by_cases hvars : e.vars = []
      · exact h.flush_free he hsize hvars
      · rcases hok e he rfl with hempty | ⟨f, hf, hfree, hle⟩
        · exact absurd hempty hvars
        · exact h.flush he hsize hvars hf hfree hle

/-- The run lemma. -/
lemma Reached.sound {s₀ s : Stack ν} (h₀ : Sound s₀) (h : Reached s₀ s) : Sound s := by
  induction h with
  | start => exact h₀
  | step op _ hcalled hok heq ih =>
      obtain ⟨s', hstep, hs'⟩ := step_sound ih hcalled hok
      rw [heq] at hstep
      exact Option.some.inj hstep ▸ hs'

/-- A step of any other kind fails what is asked of it. -/
lemma stepOk_of_stepMeets {s : Stack ν} (h : Sound s) {op : SlotOp ν} (hmeets : StepMeets s op) :
    StepOk s op := by
  obtain ⟨⟨s', hstep, hslots⟩, hasked⟩ := hmeets
  cases op with
  | insertNew v size =>
      obtain ⟨s'', se, heq, hins⟩ := hasked
      obtain rfl : s'' = s' := by
        rw [step, heq] at hstep
        exact Option.some.inj hstep
      exact insertOk_of_inserted h (Int.natCast_nonneg size) heq hins hslots
  | insert se v size => exact hasked
  | erase se v => trivial
  | flush se =>
      intro e he hid
      subst hid
      rw [step, Stack.flush, h.elem?_eq he] at hstep
      obtain rfl := Option.some.inj hstep
      exact flush_lowest h he hslots

/-- Soundness of the stack slots.  Every prologue whose arrays and parameters fit leaves sound
slots.  So does every run of slot operations after it whose steps are of the kind `StepOk`
describes, and in each of the states it goes through a step meets what is asked of it exactly when
it is of that kind. -/
theorem slots_sound_iff (arrays : List (ν × ℕ × ℕ)) (base : ℕ) (params : List (ν × ℕ))
    (hsizes : ∀ p ∈ params, 0 < p.2) (hfits : Fits arrays base params) :
    ∃ s₀, prologue arrays base params = some s₀ ∧
      ∀ s, Reached s₀ s → SlotsSound s ∧ ∀ op, Called s op → (StepMeets s op ↔ StepOk s op) := by
  obtain ⟨s₀, hpro, h₀⟩ := prologue_sound hsizes hfits
  refine ⟨s₀, hpro, fun s hs => ?_⟩
  have h := hs.sound h₀
  refine ⟨h.slotsSound, fun op hcalled => ⟨stepOk_of_stepMeets h, fun hok => ?_⟩⟩
  obtain ⟨s', hstep, hs'⟩ := step_sound h hcalled hok
  refine ⟨⟨s', hstep, hs'.slotsSound⟩, ?_⟩
  cases op with
  | insertNew v size =>
      obtain ⟨s'', se, heq, hins, -⟩ := insertNew_ok h v (Int.natCast_nonneg size) hok
      exact ⟨s'', se, heq, hins⟩
  | insert se v size => exact hok
  | erase se v => trivial
  | flush se => trivial

omit [DecidableEq ν] B

-- The size of this array, truncated to an `int`, is negative.
example : @prologue ℕ debug [(0, 600000000, 4)] 4 [] = none := by decide

/-- The stack of a function with an array of three elements and with an `int` and a `double`
parameter. -/
def twoParams : Stack ℕ where
  elems := [⟨3, [1], 8, -16⟩, ⟨2, [0], 4, -8⟩, ⟨0, [2], 12, 0⟩, ⟨1, [], -1, 12⟩]
  firstFree := some 1
  stackSize := 12
  maxStackSize := 12
  nextId := 4

/-- The stack after the first parameter has left its slot, and a slot with two variables has been
made and flushed. -/
def afterFlush : Stack ℕ where
  elems := [⟨3, [1], 8, -16⟩, ⟨2, [], 4, -8⟩, ⟨0, [2], 12, 0⟩, ⟨1, [], 4, 12⟩, ⟨4, [], -1, 16⟩]
  firstFree := some 2
  stackSize := 16
  maxStackSize := 16
  nextId := 5

/-- A run with a step of each kind. -/
theorem slots_sound_two_params :
    @prologue ℕ release [(2, 3, 4)] 4 [(0, 4), (1, 8)] = some twoParams ∧
      @Reached ℕ _ release twoParams afterFlush ∧ SlotsSound afterFlush ∧
        @StepMeets ℕ _ release afterFlush (.insertNew 5 8) := by
  let _ : Build := release
  obtain ⟨s₀, hpro, hreach⟩ := slots_sound_iff [((2 : ℕ), 3, 4)] 4 [(0, 4), (1, 8)]
    (by decide) ⟨by decide, by decide⟩
  obtain rfl : twoParams = s₀ := Option.some.inj hpro
  have h₀ : Reached twoParams twoParams := .start
  have h₁ : Reached twoParams ⟨[⟨3, [1], 8, -16⟩, ⟨2, [0], 4, -8⟩, ⟨0, [2], 12, 0⟩,
      ⟨1, [3], 4, 12⟩, ⟨4, [], -1, 16⟩], some 4, 16, 16, 5⟩ :=
    .step (.insertNew 3 4) h₀ (by decide) (by decide) rfl
  have h₂ : Reached twoParams ⟨[⟨3, [1], 8, -16⟩, ⟨2, [0], 4, -8⟩, ⟨0, [2], 12, 0⟩,
      ⟨1, [4, 3], 4, 12⟩, ⟨4, [], -1, 16⟩], some 4, 16, 16, 5⟩ :=
    .step (.insert 1 4 4) h₁ (by decide) (by decide) rfl
  have h₃ : Reached twoParams ⟨[⟨3, [1], 8, -16⟩, ⟨2, [], 4, -8⟩, ⟨0, [2], 12, 0⟩,
      ⟨1, [4, 3], 4, 12⟩, ⟨4, [], -1, 16⟩], some 2, 16, 16, 5⟩ :=
    .step (.erase 2 0) h₂ (by decide) (by decide) rfl
  have h₄ : Reached twoParams afterFlush :=
    .step (.flush 1) h₃ (by decide) (by decide) rfl
  obtain ⟨hsound, hstep⟩ := hreach afterFlush h₄
  exact ⟨hpro, h₄, hsound, (hstep (.insertNew 5 8) (by decide)).mpr (by decide)⟩

/-- The stack after a `double` has been put into a slot and has left it again. -/
def afterDouble : Stack ℕ where
  elems := [⟨0, [], 8, 0⟩, ⟨1, [], -1, 8⟩]
  firstFree := some 0
  stackSize := 8
  maxStackSize := 8
  nextId := 2

/-- The stack with an `int` in the first of two slots. -/
def aboveFree : Stack ℕ where
  elems := [⟨0, [0], 4, 0⟩, ⟨1, [], 4, 4⟩, ⟨2, [], -1, 8⟩]
  firstFree := some 1
  stackSize := 8
  maxStackSize := 8
  nextId := 3

/-- A run of a function without arrays and parameters comes to a step that does not do what is asked
of it. -/
def Fails (B : Build) (op : SlotOp ℕ) : Prop :=
  ∃ s₀ s : Stack ℕ, prologue [] 4 [] = some s₀ ∧ Reached s₀ s ∧ Called s op ∧ ¬StepMeets s op

lemma fails_insertNew (B : Build) : Fails B (.insertNew 1 4) := by
  refine ⟨init, afterDouble, rfl, ?_, by decide, ?_⟩
  · have h₁ : Reached (init : Stack ℕ) ⟨[⟨0, [0], 8, 0⟩, ⟨1, [], -1, 8⟩], some 1, 8, 8, 2⟩ := by
      refine .step (.insertNew 0 8) .start (by decide) (by decide) ?_
      rcases B with ⟨_ | _, _⟩ <;> rfl
    refine .step (.erase 0 0) h₁ (by decide) (by decide) ?_
    rcases B with ⟨_ | _, _⟩ <;> rfl
  · intro hmeets
    obtain ⟨s', se, hstep, -, e, he, hid, -, hsize⟩ := hmeets.2
    rcases B with ⟨_ | _, _⟩
    · -- the assertion
      exact absurd hstep (Option.some_ne_none _).symm
    · obtain ⟨rfl, rfl⟩ := Prod.mk.inj (Option.some.inj hstep)
      revert hid hsize
      revert e
      decide

lemma fails_flush (B : Build) : Fails B (.flush 0) := by
  refine ⟨init, aboveFree, rfl, ?_, by decide, ?_⟩
  · have h₁ : Reached (init : Stack ℕ) ⟨[⟨0, [0], 4, 0⟩, ⟨1, [], -1, 4⟩], some 1, 4, 4, 2⟩ := by
      refine .step (.insertNew 0 4) .start (by decide) (by decide) ?_
      rcases B with ⟨_ | _, _⟩ <;> rfl
    have h₂ : Reached (init : Stack ℕ)
        ⟨[⟨0, [0], 4, 0⟩, ⟨1, [1], 4, 4⟩, ⟨2, [], -1, 8⟩], some 2, 8, 8, 3⟩ := by
      refine .step (.insertNew 1 4) h₁ (by decide) (by decide) ?_
      rcases B with ⟨_ | _, _⟩ <;> rfl
    refine .step (.erase 1 1) h₂ (by decide) (by decide) ?_
    rcases B with ⟨_ | _, _⟩ <;> rfl
  · rintro ⟨⟨s', hstep, hslots⟩, -⟩
    obtain rfl := Option.some.inj hstep
    obtain ⟨e, he, -, hlow⟩ := hslots.lowest 1 rfl
    obtain rfl := Option.some.inj he
    exact absurd (hlow ⟨0, [], 4, 0⟩ (by decide) rfl) (by decide)

/-- A `double` leaves a slot and an `int` comes: the first free slot is larger than the variable.
And a slot below the first free one is flushed: `first_stack_free` does not follow. -/
theorem slots_unsound :
    (Fails debug (.insertNew 1 4) ∧ Fails debug (.flush 0)) ∧
      Fails release (.insertNew 1 4) ∧ Fails release (.flush 0) :=
  ⟨⟨fails_insertNew _, fails_flush _⟩, fails_insertNew _, fails_flush _⟩

end Stack

end Javalette.Gencode
