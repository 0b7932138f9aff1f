import Mathlib

/-!
# The first greatest item of a list

A scan that keeps the best item so far, and takes a new one only if it is better, ends with the
first of the items whose value is greatest.
-/

namespace Javalette

variable {α β : Type} [LinearOrder β] {f : α → β} {xs : List α} {x y : α}

/-- The values of the items before `x` are less than that of `x`, and those of the items after it
are not greater. -/
def FirstMax (f : α → β) (xs : List α) (x : α) : Prop :=
  ∃ pre post, xs = pre ++ x :: post ∧ (∀ y ∈ pre, f y < f x) ∧ ∀ y ∈ post, f y ≤ f x

namespace FirstMax

lemma mem (h : FirstMax f xs x) : x ∈ xs := by
  obtain ⟨pre, post, rfl, -, -⟩ := h
  exact List.mem_append_right _ List.mem_cons_self

lemma le (h : FirstMax f xs x) (hy : y ∈ xs) : f y ≤ f x := by
  obtain ⟨pre, post, rfl, hpre, hpost⟩ := h
  rcases List.mem_append.mp hy with hy | hy
  · exact (hpre y hy).le
  · rcases List.mem_cons.mp hy with rfl | hy
    · exact le_rfl
    · exact hpost y hy

lemma concat_of_forall_lt (h : ∀ z ∈ xs, f z < f y) : FirstMax f (xs ++ [y]) y :=
  ⟨xs, [], rfl, h, by simp⟩

lemma concat_of_lt (h : FirstMax f xs x) (hlt : f x < f y) : FirstMax f (xs ++ [y]) y :=
  concat_of_forall_lt fun _ hz => lt_of_le_of_lt (h.le hz) hlt

/-- An item comes that is not better. -/
lemma concat_of_le (h : FirstMax f xs x) (hle : f y ≤ f x) : FirstMax f (xs ++ [y]) x := by
  obtain ⟨pre, post, rfl, hpre, hpost⟩ := h
  refine ⟨pre, post ++ [y], by simp, hpre, fun z hz => ?_⟩
  rcases List.mem_append.mp hz with hz | hz
  · exact hpost z hz
  · exact List.mem_singleton.mp hz ▸ hle

lemma unique (h : FirstMax f xs x) (h' : FirstMax f xs y) : x = y := by
  have heq : f x = f y := le_antisymm (h'.le h.mem) (h.le h'.mem)
  obtain ⟨pre, post, rfl, hpre, -⟩ := h
  obtain ⟨pre', post', heq', hpre', -⟩ := h'
  -- the one that comes first is not less than the other
  rcases List.append_eq_append_iff.mp heq' with ⟨as, rfl, has⟩ | ⟨as, rfl, has⟩
  · cases as with
    | nil => exact (List.cons.inj has).1
    | cons a as =>
        obtain rfl := (List.cons.inj has).1
        exact absurd heq (hpre' x (by simp)).ne
  · cases as with
    | nil => exact (List.cons.inj has).1.symm
    | cons a as =>
        obtain rfl := (List.cons.inj has).1
        exact absurd heq.symm (hpre y (by simp)).ne

end FirstMax

lemma exists_firstMax (f : α → β) (h : xs ≠ []) : ∃ x, FirstMax f xs x := by
  induction xs using List.reverseRecOn with
  | nil => exact absurd rfl h
  | append_singleton xs y ih =>
      by_cases hnil : xs = []
      · subst hnil
        exact ⟨y, FirstMax.concat_of_forall_lt (by simp)⟩
      · obtain ⟨x, hx⟩ := ih hnil
        rcases lt_or_ge (f x) (f y) with hlt | hle
        · exact ⟨y, hx.concat_of_lt hlt⟩
        · exact ⟨x, hx.concat_of_le hle⟩

end Javalette
