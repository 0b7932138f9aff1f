import Mathlib.Data.List.Basic
import Mathlib.Logic.Function.Basic

/-!
# Linked lists in a heap

A heap maps addresses to cells.  An item `x` of a linked list is stored at the address `addr x`,
in a cell `cell x next` that also holds the address of the next item.  `Segment` says that a
list of items is linked from one address up to another; a whole list is a segment that ends at
the null address.
-/

namespace Javalette.LinkedList

variable {α ι γ : Type} (addr : ι → α) (cell : ι → Option α → γ)

/-- The items are linked, in this order, from the address `p` up to the address `q`. -/
def Segment (heap : α → Option γ) : Option α → List ι → Option α → Prop
  | p, [], q => p = q
  | p, x :: xs, q => p = some (addr x) ∧
      ∃ next, heap (addr x) = some (cell x next) ∧ Segment heap next xs q

/-- The address of the first item, or `q` if there is none. -/
def headAddr (xs : List ι) (q : Option α) : Option α :=
  match xs with
  | [] => q
  | x :: _ => some (addr x)

variable {addr cell} {heap heap' : α → Option γ} {p q : Option α} {xs ys : List ι} {x : ι}

lemma Segment.head (h : Segment addr cell heap p xs q) : p = headAddr addr xs q := by
  cases xs with
  | nil => exact h
  | cons x xs => exact h.1

lemma segment_append :
    Segment addr cell heap p (xs ++ ys) q ↔
      ∃ r, Segment addr cell heap p xs r ∧ Segment addr cell heap r ys q := by
  induction xs generalizing p with
  | nil => exact ⟨fun h => ⟨p, rfl, h⟩, fun ⟨r, hr, h⟩ => hr ▸ h⟩
  | cons x xs ih =>
    constructor
    · rintro ⟨hp, next, hx, h⟩
      obtain ⟨r, h₁, h₂⟩ := ih.mp h
      exact ⟨r, ⟨hp, next, hx, h₁⟩, h₂⟩
    · rintro ⟨r, ⟨hp, next, hx, h₁⟩, h₂⟩
      exact ⟨hp, next, hx, ih.mpr ⟨r, h₁, h₂⟩⟩

/-- A segment does not depend on the rest of the heap. -/
lemma Segment.congr (h : Segment addr cell heap p xs q)
    (hheap : ∀ x ∈ xs, heap' (addr x) = heap (addr x)) : Segment addr cell heap' p xs q := by
  induction xs generalizing p with
  | nil => exact h
  | cons x xs ih =>
    obtain ⟨hp, next, hx, h⟩ := h
    refine ⟨hp, next, ?_, ih h fun y hy => hheap y (List.mem_cons_of_mem _ hy)⟩
    rw [hheap x List.mem_cons_self, hx]

lemma Segment.update [DecidableEq α] (h : Segment addr cell heap p xs q) {a : α} {c : Option γ}
    (ha : a ∉ xs.map addr) : Segment addr cell (Function.update heap a c) p xs q :=
  h.congr fun x hx => Function.update_of_ne
    (fun he => ha (List.mem_map.mpr ⟨x, hx, he⟩)) _ _

lemma Segment.get (h : Segment addr cell heap p (xs ++ x :: ys) q) :
    heap (addr x) = some (cell x (headAddr addr ys q)) := by
  obtain ⟨r, -, -, next, hx, h₂⟩ := segment_append.mp h
  rw [hx, h₂.head]

/-- An item is replaced by what may be several, as long as the new ones are linked and lead to
where the old one led. -/
lemma Segment.splice (h : Segment addr cell heap p (xs ++ x :: ys) q) (zs : List ι)
    (hxs : ∀ y ∈ xs, heap' (addr y) = heap (addr y))
    (hys : ∀ y ∈ ys, heap' (addr y) = heap (addr y))
    (hzs : Segment addr cell heap' (some (addr x)) zs (headAddr addr ys q)) :
    Segment addr cell heap' p (xs ++ zs ++ ys) q := by
  obtain ⟨r, h₁, hr, next, hx, h₂⟩ := segment_append.mp h
  have hnext : next = headAddr addr ys q := h₂.head
  refine segment_append.mpr ⟨next, segment_append.mpr ⟨r, h₁.congr hxs, ?_⟩, h₂.congr hys⟩
  rw [hr, hnext]
  exact hzs

/-- The list that ends at the null address is determined by the heap, if an item is determined by
its address and its cell. -/
lemma Segment.unique
    (hcell : ∀ x y n m, addr x = addr y → cell x n = cell y m → x = y ∧ n = m)
    (h : Segment addr cell heap p xs none) (h' : Segment addr cell heap p ys none) : xs = ys := by
  induction xs generalizing p ys with
  | nil =>
    obtain rfl : p = none := h
    cases ys with
    | nil => rfl
    | cons y ys => cases h'.1
  | cons x xs ih =>
    obtain ⟨rfl, n, hx, h⟩ := h
    cases ys with
    | nil => cases h'
    | cons y ys =>
      obtain ⟨hxy, m, hy, h'⟩ := h'
      have haddr : addr x = addr y := Option.some.inj hxy
      rw [haddr] at hx
      obtain ⟨rfl, rfl⟩ := hcell x y n m haddr (Option.some.inj (hx.symm.trans hy))
      rw [ih h h']

/-- A segment at the start of a list is an initial part of it. -/
lemma Segment.initial
    (hcell : ∀ x y n m, addr x = addr y → cell x n = cell y m → x = y ∧ n = m)
    (h : Segment addr cell heap p xs q) (h' : Segment addr cell heap p ys none) (hq : q ≠ none) :
    ∃ zs, ys = xs ++ zs ∧ Segment addr cell heap q zs none := by
  induction xs generalizing p ys with
  | nil =>
    obtain rfl : p = q := h
    exact ⟨ys, rfl, h'⟩
  | cons x xs ih =>
    obtain ⟨rfl, n, hx, h⟩ := h
    cases ys with
    | nil => cases h'
    | cons y ys =>
      obtain ⟨hxy, m, hy, h'⟩ := h'
      have haddr : addr x = addr y := Option.some.inj hxy
      rw [haddr] at hx
      obtain ⟨rfl, rfl⟩ := hcell x y n m haddr (Option.some.inj (hx.symm.trans hy))
      obtain ⟨zs, rfl, hzs⟩ := ih h h'
      exact ⟨zs, rfl, hzs⟩

end Javalette.LinkedList
