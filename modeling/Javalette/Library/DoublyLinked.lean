import Mathlib.Data.List.Basic
import Mathlib.Data.Set.Finite.List
import Mathlib.Logic.Function.Basic

/-!
# Doubly linked lists in a heap

A heap maps addresses to cells.  An item `x` of a doubly linked list is stored at the address
`addr x`, in a cell `cell p x q` that also holds the addresses of the items before and after it.
`Linked` says that a list of items is linked in both directions between two ends.

A list is changed at one place by taking it apart there (`linked_append`), turning the two items
at the place to their new neighbours (`Linked.setLast`, `Linked.setFirst`) and putting it
together again.
-/

namespace Javalette.DoublyLinked

variable {α ι γ : Type} (addr : ι → α) (cell : Option α → ι → Option α → γ)

/-- The address of the first item, or `q` if there is none. -/
def firstAddr : List ι → Option α → Option α
  | [], q => q
  | x :: _, _ => some (addr x)

/-- The address of the last item, or `p` if there is none. -/
def lastAddr : Option α → List ι → Option α
  | p, [] => p
  | _, x :: xs => lastAddr (some (addr x)) xs

/-- The items are linked, in this order, between the addresses `p` and `q`. -/
def Linked (heap : α → Option γ) : Option α → List ι → Option α → Prop
  | _, [], _ => True
  | p, x :: xs, q => heap (addr x) = some (cell p x (firstAddr addr xs q)) ∧
      Linked heap (some (addr x)) xs q

variable {addr cell} {heap heap' : α → Option γ} {p q : Option α} {xs ys : List ι} {x : ι}

@[simp] lemma firstAddr_nil (q : Option α) : firstAddr addr ([] : List ι) q = q := rfl

@[simp] lemma firstAddr_cons (x : ι) (xs : List ι) (q : Option α) :
    firstAddr addr (x :: xs) q = some (addr x) := rfl

@[simp] lemma lastAddr_nil (p : Option α) : lastAddr addr p ([] : List ι) = p := rfl

lemma firstAddr_append (xs ys : List ι) (q : Option α) :
    firstAddr addr (xs ++ ys) q = firstAddr addr xs (firstAddr addr ys q) := by
  cases xs <;> rfl

lemma lastAddr_append (p : Option α) (xs ys : List ι) :
    lastAddr addr p (xs ++ ys) = lastAddr addr (lastAddr addr p xs) ys := by
  induction xs generalizing p with
  | nil => rfl
  | cons x xs ih => exact ih _

@[simp] lemma lastAddr_concat (p : Option α) (xs : List ι) (x : ι) :
    lastAddr addr p (xs ++ [x]) = some (addr x) := by
  rw [lastAddr_append]
  rfl

lemma linked_append : Linked addr cell heap p (xs ++ ys) q ↔
    Linked addr cell heap p xs (firstAddr addr ys q) ∧
      Linked addr cell heap (lastAddr addr p xs) ys q := by
  induction xs generalizing p with
  | nil => exact (and_iff_right trivial).symm
  | cons x xs ih =>
      rw [List.cons_append, Linked, ih, firstAddr_append, ← and_assoc]
      rfl

/-- A list does not depend on the rest of the heap. -/
lemma Linked.congr (h : Linked addr cell heap p xs q)
    (hheap : ∀ x ∈ xs, heap' (addr x) = heap (addr x)) : Linked addr cell heap' p xs q := by
  induction xs generalizing p with
  | nil => trivial
  | cons x xs ih =>
      refine ⟨?_, ih h.2 fun y hy => hheap y (List.mem_cons_of_mem x hy)⟩
      rw [hheap x List.mem_cons_self]
      exact h.1

/-- The list is determined by the address of its first item, if an item is determined by its
address and its cell. -/
lemma Linked.unique
    (hcell : ∀ x y p q p' q', addr x = addr y → cell p x q = cell p' y q' → x = y ∧ q = q')
    {p' : Option α} (h : Linked addr cell heap p xs none) (h' : Linked addr cell heap p' ys none)
    (hfirst : firstAddr addr xs none = firstAddr addr ys none) : xs = ys := by
  induction xs generalizing p p' ys with
  | nil =>
      cases ys with
      | nil => rfl
      | cons y ys => cases hfirst
  | cons x xs ih =>
      cases ys with
      | nil => cases hfirst
      | cons y ys =>
          have haddr : addr x = addr y := Option.some.inj hfirst
          have hx := h.1
          rw [haddr, h'.1] at hx
          obtain ⟨rfl, hnext⟩ := hcell y x _ _ _ _ haddr.symm (Option.some.inj hx)
          rw [ih h.2 h'.2 hnext.symm]

variable [DecidableEq α]

lemma Linked.update (h : Linked addr cell heap p xs q) {a : α} (ha : a ∉ xs.map addr)
    (c : Option γ) : Linked addr cell (Function.update heap a c) p xs q :=
  h.congr fun x hx => Function.update_of_ne
    (fun he => ha (List.mem_map.mpr ⟨x, hx, he⟩)) _ _

/-- The first item is turned to another neighbour. -/
lemma Linked.setFirst (h : Linked addr cell heap p (x :: xs) q)
    (hnd : addr x ∉ xs.map addr) (p' : Option α) :
    Linked addr cell
      (Function.update heap (addr x) (some (cell p' x (firstAddr addr xs q)))) p' (x :: xs) q :=
  ⟨Function.update_self .., h.2.update hnd _⟩

/-- The last item is turned to another neighbour. -/
lemma Linked.setLast (h : Linked addr cell heap p (xs ++ [x]) q) (hnd : addr x ∉ xs.map addr)
    (q' : Option α) :
    Linked addr cell (Function.update heap (addr x) (some (cell (lastAddr addr p xs) x q'))) p
      (xs ++ [x]) q' := by
  rw [linked_append] at h ⊢
  exact ⟨h.1.update hnd _, Function.update_self .., trivial⟩

end Javalette.DoublyLinked
