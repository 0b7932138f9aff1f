import Mathlib.Data.Option.Basic

/-!
# Computations that fail less often

One computation with a possible failure agrees with another if the other gives its result whenever
it has one.  The operations of the monad keep the relation.
-/

namespace Javalette

variable {α β : Type} {o o' o'' : Option α} {f g : α → Option β}

/-- The second computation succeeds where the first does, with the same result. -/
def Agrees (o o' : Option α) : Prop := ∀ a, o = some a → o' = some a

namespace Agrees

lemma refl (o : Option α) : Agrees o o := fun _ h => h

lemma of_none (o : Option α) : Agrees none o := nofun

lemma bind (h : Agrees o o') (hfg : ∀ a, Agrees (f a) (g a)) : Agrees (o >>= f) (o' >>= g) := by
  intro b hb
  obtain ⟨a, ha, hfa⟩ := Option.bind_eq_some_iff.mp hb
  exact Option.bind_eq_some_iff.mpr ⟨a, h a ha, hfg a b hfa⟩

lemma ite {c : Prop} [Decidable c] {p p' : Option α} (h : Agrees o o') (h' : Agrees p p') :
    Agrees (if c then o else p) (if c then o' else p') := by
  split
  · exact h
  · exact h'

/-- A loop agrees with another when its turns do. -/
lemma foldlM {γ : Type} {step step' : α → γ → Option α} {l : List γ}
    (h : ∀ a, ∀ x ∈ l, Agrees (step a x) (step' a x)) (a : α) :
    Agrees (l.foldlM step a) (l.foldlM step' a) := by
  induction l generalizing a with
  | nil => exact refl _
  | cons x l ih =>
    rw [List.foldlM_cons, List.foldlM_cons]
    apply (h a x List.mem_cons_self).bind
    exact ih fun b y hy => h b y (List.mem_cons_of_mem x hy)

end Agrees

end Javalette
