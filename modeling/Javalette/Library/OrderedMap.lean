import Mathlib.Logic.Basic

/-!
# Maps in the order of a comparison

A map as a list of entries, which a comparison `less` keeps in order.  A key is looked up at the
first entry that is not less than it, and is there unless it is less than that entry.

The comparison is only assumed to be transitive.  It need not tell any two keys apart, and a key
to which it says nothing of any other is taken for the first one there is.
-/

namespace Javalette.OrderedMap

variable {κ α : Type} (less : κ → κ → Bool)

/-- What the map has for the key. -/
def find (k : κ) : List (κ × α) → Option α
  | [] => none
  | x :: l => if less x.1 k then find k l else if less k x.1 then none else some x.2

/-- The map in which the key has the value `a`. -/
def set (k : κ) (a : α) : List (κ × α) → List (κ × α)
  | [] => [(k, a)]
  | x :: l =>
      if less x.1 k then x :: set k a l
      else if less k x.1 then (k, a) :: x :: l else (x.1, a) :: l

/-- Neither key is less than the other. -/
def Same (k k' : κ) : Prop := ¬ less k k' ∧ ¬ less k' k

variable {less} {k : κ} {a : α} {l : List (κ × α)}

lemma find_cons (x : κ × α) : find less k (x :: l) =
    if less x.1 k then find less k l else if less k x.1 then none else some x.2 := rfl

lemma mem_of_find (h : find less k l = some a) : ∃ k', (k', a) ∈ l ∧ Same less k' k := by
  induction l with
  | nil => cases h
  | cons x l ih =>
      unfold find at h
      split at h
      · obtain ⟨k', hmem, hsame⟩ := ih h
        exact ⟨k', List.mem_cons_of_mem x hmem, hsame⟩
      · next hlt =>
          split at h
          · cases h
          · next hgt =>
              cases h
              exact ⟨x.1, List.mem_cons_self, hlt, hgt⟩

/-- The entries after a key has been added. -/
lemma mem_set (h : find less k l = none) (x : κ × α) :
    x ∈ set less k a l ↔ x = (k, a) ∨ x ∈ l := by
  induction l with
  | nil => simp [set]
  | cons y l ih =>
      unfold find at h
      unfold set
      split at h
      · next hlt =>
          rw [if_pos hlt, List.mem_cons, ih h, List.mem_cons]
          exact or_left_comm
      · next hlt =>
          split at h
          · next hgt => rw [if_neg hlt, if_pos hgt, List.mem_cons]
          · cases h

/-- A key that has been added is found. -/
lemma find_set_self (hself : ¬ less k k) : find less k (set less k a l) = some a := by
  induction l with
  | nil =>
      unfold set find
      rw [if_neg hself, if_neg hself]
  | cons x l ih =>
      unfold set
      split
      · next hlt =>
          unfold find
          rw [if_pos hlt, ih]
      · next hlt =>
          split
          · unfold find
            rw [if_neg hself, if_neg hself]
          · next hgt =>
              unfold find
              rw [if_neg hlt, if_neg hgt]

/-- What is found of a key after another has been added: what was found before, unless the two
are not told apart. -/
lemma find_set (htrans : ∀ i j m, less i j → less j m → less i m) (h : find less k l = none)
    (a : α) (k' : κ) :
    find less k' (set less k a l) = find less k' l ∨
      find less k' (set less k a l) = some a ∧ Same less k k' := by
  induction l with
  | nil =>
      unfold set find
      dsimp only
      split
      · exact .inl rfl
      · next hlt =>
          split
          · exact .inl rfl
          · next hgt => exact .inr ⟨rfl, hlt, hgt⟩
  | cons x l ih =>
      unfold find at h
      unfold set
      split at h
      · next hlt =>
          rw [if_pos hlt]
          unfold find
          split
          · exact ih h
          · exact .inl rfl
      · next hlt =>
          split at h
          · next hgt =>
              rw [if_neg hlt, if_pos hgt]
              rw [find_cons, find_cons]
              by_cases hlt' : less k k'
              · exact .inl (if_pos hlt')
              by_cases hgt' : less k' k
              · -- the key is less than the one before `x`, so it was not there
                have hx : ¬ less x.1 k' := fun hx => hlt' (htrans _ _ _ hgt hx)
                rw [if_neg hlt', if_pos hgt', if_neg hx, if_pos (htrans _ _ _ hgt' hgt)]
                exact .inl rfl
              · rw [if_neg hlt', if_neg hgt']
                exact .inr ⟨rfl, hlt', hgt'⟩
          · cases h

end Javalette.OrderedMap
