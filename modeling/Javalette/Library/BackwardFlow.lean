import Mathlib.Data.Set.Basic
import Mathlib.Logic.Function.Basic

/-!
# Backward data flow, iterated in a fixed order

A backward data-flow problem attaches to each vertex of a graph the facts it generates and the
facts it kills; a fact holds at a vertex when the vertex generates it, or when it holds at a
successor and the vertex does not kill it.  `Live` is the least solution.

The solution is computed in rounds: each round goes once through a list of vertices and adds to
every vertex what its successors have at that moment.  `Within l k` says what `k` rounds over
the list `l` find: within a round a fact moves freely along edges that lead to an earlier
vertex of the list, and each other edge costs it one more round.  `round_within` proves
exactly that, and `live_of_stable` that a round without a change has reached the solution.
-/

namespace Javalette.BackwardFlow

variable {β ν : Type}

/-- The facts at each vertex. -/
abbrev Facts (β ν : Type) := β → Set ν

/-- A backward data-flow problem on a graph. -/
structure Problem (β ν : Type) where
  succ : β → List β
  gen : Facts β ν
  kill : Facts β ν

/-- The least solution. -/
inductive Live (P : Problem β ν) : β → ν → Prop
  | gen {b v} : v ∈ P.gen b → Live P b v
  | step {b c v} : c ∈ P.succ b → v ∉ P.kill b → Live P c v → Live P b v

/-- The vertex `c` comes before the vertex `b` in the list. -/
def Precedes (l : List β) (c b : β) : Prop := ∃ l₁ l₂, l = l₁ ++ b :: l₂ ∧ c ∈ l₁

/-- What has been found after `k` rounds over the list `l`. -/
inductive Within (P : Problem β ν) (l : List β) : ℕ → β → ν → Prop
  | gen {k b v} : v ∈ P.gen b → Within P l k b v
  | forward {k b c v} : c ∈ P.succ b → Precedes l c b → v ∉ P.kill b → Within P l (k + 1) c v →
      Within P l (k + 1) b v
  | back {k b c v} : c ∈ P.succ b → ¬Precedes l c b → v ∉ P.kill b → Within P l k c v →
      Within P l (k + 1) b v

/-- A list of vertices that each occur once and have their successors in the list. -/
structure Closed (P : Problem β ν) (l : List β) : Prop where
  nodup : l.Nodup
  succ_mem : ∀ b ∈ l, ∀ c ∈ P.succ b, c ∈ l

variable {P : Problem β ν} {l : List β}

lemma Within.succ {k : ℕ} {b : β} {v : ν} (h : Within P l k b v) : Within P l (k + 1) b v := by
  induction h with
  | gen h => exact .gen h
  | forward hc hp hk _ ih => exact .forward hc hp hk ih
  | back hc hp hk _ ih => exact .back hc hp hk ih

/-- Before the first round there is what the vertices generate. -/
lemma within_zero {b : β} {v : ν} : Within P l 0 b v ↔ v ∈ P.gen b :=
  ⟨fun h => by cases h; assumption, .gen⟩

/-- When all edges lead forward, one round is enough. -/
lemma within_one (hl : Closed P l) (hforward : ∀ b ∈ l, ∀ c ∈ P.succ b, Precedes l c b) {b : β}
    (hb : b ∈ l) {v : ν} (h : Live P b v) : Within P l 1 b v := by
  induction h with
  | gen h => exact .gen h
  | step hc hk _ ih => exact .forward hc (hforward _ hb _ hc) hk (ih (hl.succ_mem _ hb _ hc))

lemma Within.mono {k k' : ℕ} (hle : k ≤ k') {b : β} {v : ν} (h : Within P l k b v) :
    Within P l k' b v := by
  induction hle with
  | refl => exact h
  | step _ ih => exact ih.succ

/-- The rounds find only what is so. -/
lemma Within.live {k : ℕ} {b : β} {v : ν} (h : Within P l k b v) : Live P b v := by
  induction h with
  | gen h => exact .gen h
  | forward hc _ hk _ ih => exact .step hc hk ih
  | back hc _ hk _ ih => exact .step hc hk ih

/-- One more edge, in whichever direction it leads, takes at most one more round. -/
lemma Within.step {k : ℕ} {b c : β} {v : ν} (hc : c ∈ P.succ b) (hk : v ∉ P.kill b)
    (h : Within P l k c v) : Within P l (k + 1) b v := by
  by_cases hp : Precedes l c b
  · exact .forward hc hp hk h.succ
  · exact .back hc hp hk h

/-- A round that finds nothing new has reached the least solution. -/
lemma live_of_stable (hl : Closed P l) {k : ℕ}
    (hstable : ∀ b ∈ l, ∀ v, Within P l (k + 1) b v → Within P l k b v) {b : β} (hb : b ∈ l)
    {v : ν} (h : Live P b v) : Within P l k b v := by
  induction h with
  | gen h => exact .gen h
  | step hc hk _ ih => exact hstable _ hb _ (Within.step hc hk (ih (hl.succ_mem _ hb _ hc)))

/-! ## Rounds -/

section Rounds

variable [DecidableEq β]

/-- Add to the facts at a vertex what its successors have. -/
def visit (P : Problem β ν) (S : Facts β ν) (b : β) : Facts β ν :=
  Function.update S b (S b ∪ {v | v ∉ P.kill b ∧ ∃ c ∈ P.succ b, v ∈ S c})

/-- Once through a list of vertices. -/
def roundOver (P : Problem β ν) (l : List β) (S : Facts β ν) : Facts β ν := l.foldl (visit P) S

lemma visit_of_ne (S : Facts β ν) {b c : β} (h : c ≠ b) : visit P S b c = S c :=
  Function.update_of_ne h _ _

lemma mem_visit_self (S : Facts β ν) {b : β} {v : ν} :
    v ∈ visit P S b b ↔ v ∈ S b ∨ v ∉ P.kill b ∧ ∃ c ∈ P.succ b, v ∈ S c := by
  rw [visit, Function.update_self]
  rfl

lemma subset_visit (S : Facts β ν) (b c : β) : S c ⊆ visit P S b c := by
  by_cases h : c = b
  · subst h
    exact fun v hv => (mem_visit_self S).mpr (.inl hv)
  · rw [visit_of_ne S h]

lemma subset_round (l : List β) (S : Facts β ν) (c : β) : S c ⊆ roundOver P l S c := by
  induction l generalizing S with
  | nil => exact subset_rfl
  | cons b l ih => exact (subset_visit S b c).trans (ih _)

lemma round_of_notMem {l : List β} (S : Facts β ν) {c : β} (h : c ∉ l) :
    roundOver P l S c = S c := by
  induction l generalizing S with
  | nil => rfl
  | cons b l ih =>
      rw [List.mem_cons, not_or] at h
      exact (ih (visit P S b) h.2).trans (visit_of_ne S h.1)

omit [DecidableEq β] in
/-- In a list without duplicates, what precedes a vertex is what stands before it. -/
lemma precedes_iff {l₁ l₂ : List β} {b c : β} (hnd : (l₁ ++ b :: l₂).Nodup) :
    Precedes (l₁ ++ b :: l₂) c b ↔ c ∈ l₁ := by
  refine ⟨?_, fun h => ⟨l₁, l₂, rfl, h⟩⟩
  rintro ⟨m₁, m₂, heq, hc⟩
  have hb : b ∉ l₁ := fun h => (List.nodup_append.mp hnd).2.2 b h b (by simp) rfl
  have hb' : b ∉ m₁ := fun h => (List.nodup_append.mp (heq ▸ hnd)).2.2 b h b (by simp) rfl
  rcases List.append_eq_append_iff.mp heq with ⟨m, rfl, hm⟩ | ⟨m, rfl, hm⟩
  · cases m with
    | nil => simpa using hc
    | cons x m => exact absurd ((List.cons.inj hm).1 ▸ by simp) hb'
  · exact List.mem_append_left _ hc

/-- What the next round has found where it has been, when it comes to the vertex `b`. -/
lemma within_succ_iff {k : ℕ} {l₁ l₂ : List β} {b : β} {v : ν} {S : Facts β ν}
    (hl : Closed P (l₁ ++ b :: l₂))
    (h₁ : ∀ c ∈ l₁, ∀ v, v ∈ S c ↔ Within P (l₁ ++ b :: l₂) (k + 1) c v)
    (h₂ : ∀ c ∈ b :: l₂, ∀ v, v ∈ S c ↔ Within P (l₁ ++ b :: l₂) k c v) :
    v ∈ visit P S b b ↔ Within P (l₁ ++ b :: l₂) (k + 1) b v := by
  rw [mem_visit_self, h₂ b (by simp)]
  constructor
  · rintro (h | ⟨hk, c, hc, hv⟩)
    · exact h.succ
    · by_cases hmem : c ∈ l₁
      · exact .forward hc ((precedes_iff hl.nodup).mpr hmem) hk ((h₁ c hmem v).mp hv)
      · have hin := hl.succ_mem b (by simp) c hc
        rw [List.mem_append] at hin
        exact .back hc (fun hp => hmem ((precedes_iff hl.nodup).mp hp)) hk
          ((h₂ c (hin.resolve_left hmem) v).mp hv)
  · intro h
    cases h with
    | gen h => exact .inl (.gen h)
    | forward hc hp hk h =>
        have hmem := (precedes_iff hl.nodup).mp hp
        exact .inr ⟨hk, _, hc, (h₁ _ hmem v).mpr h⟩
    | back hc hp hk h =>
        have hin := hl.succ_mem b (by simp) _ hc
        rw [List.mem_append] at hin
        have hmem := hin.resolve_left fun hm => hp ((precedes_iff hl.nodup).mpr hm)
        exact .inr ⟨hk, _, hc, (h₂ _ hmem v).mpr h⟩

/-- A round that has come through the first part of the list. -/
lemma round_within_aux {k : ℕ} (l₁ l₂ : List β) (S : Facts β ν) (hl : Closed P (l₁ ++ l₂))
    (h₁ : ∀ b ∈ l₁, ∀ v, v ∈ S b ↔ Within P (l₁ ++ l₂) (k + 1) b v)
    (h₂ : ∀ b ∈ l₂, ∀ v, v ∈ S b ↔ Within P (l₁ ++ l₂) k b v) :
    ∀ b ∈ l₁ ++ l₂, ∀ v, v ∈ roundOver P l₂ S b ↔ Within P (l₁ ++ l₂) (k + 1) b v := by
  induction l₂ generalizing l₁ S with
  | nil => simpa [roundOver] using h₁
  | cons x l₂ ih =>
      have hassoc : l₁ ++ x :: l₂ = (l₁ ++ [x]) ++ l₂ := by simp
      have hx : x ∉ l₁ ∧ x ∉ l₂ := by
        have := hl.nodup
        rw [List.nodup_append, List.nodup_cons] at this
        exact ⟨fun h => this.2.2 x h x (by simp) rfl, this.2.1.1⟩
      have hdone : ∀ b ∈ l₁ ++ [x], ∀ v,
          v ∈ visit P S x b ↔ Within P (l₁ ++ x :: l₂) (k + 1) b v := by
        intro b hb v
        rcases List.mem_append.mp hb with hb | hb
        · rw [visit_of_ne S (ne_of_mem_of_not_mem hb hx.1)]
          exact h₁ b hb v
        · obtain rfl := List.mem_singleton.mp hb
          exact within_succ_iff hl h₁ h₂
      have hrest : ∀ b ∈ l₂, ∀ v, v ∈ visit P S x b ↔ Within P (l₁ ++ x :: l₂) k b v := by
        intro b hb v
        rw [visit_of_ne S (ne_of_mem_of_not_mem hb hx.2)]
        exact h₂ b (List.mem_cons_of_mem _ hb) v
      rw [hassoc] at hl hdone hrest ⊢
      exact ih (l₁ ++ [x]) (visit P S x) hl hdone hrest

/-- **A round** takes what `k` rounds have found to what `k + 1` rounds have found. -/
theorem round_within {k : ℕ} {S : Facts β ν} (hl : Closed P l)
    (h : ∀ b ∈ l, ∀ v, v ∈ S b ↔ Within P l k b v) :
    ∀ b ∈ l, ∀ v, v ∈ roundOver P l S b ↔ Within P l (k + 1) b v :=
  round_within_aux [] l S hl (by simp) h

end Rounds

end Javalette.BackwardFlow
