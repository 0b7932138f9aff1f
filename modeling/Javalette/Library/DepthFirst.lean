import Mathlib.Data.Fintype.Card
import Mathlib.Data.Finset.Card
import Mathlib.Logic.Relation
import Mathlib.Tactic.Linarith

/-!
# Depth-first search

A depth-first search of a graph given by the list of successors of each vertex.  `dfs` returns
the vertices it enters in postorder: each after everything that was entered from it.

`dfs_spec` is the whole theory that an iteration in postorder needs.  The search ends, enters
each vertex at most once, and enters exactly what can be reached through vertices not visited
before.  And every edge leads to a vertex that comes earlier in the postorder, or from which
the edge can be reached again: an edge that does not lead forward closes a cycle.
-/

namespace Javalette.DepthFirst

variable {β : Type} [DecidableEq β]

/-- Enter a vertex unless it is visited. -/
def enterUnvisited (enter : β → Finset β → Option (Finset β × List β)) (c : β)
    (vis : Finset β) : Option (Finset β × List β) :=
  if c ∈ vis then some (vis, []) else enter c vis

/-- Go through a list of vertices, entering with `enter` those that are not yet visited, and
collect what has been visited and what has been left, in order. -/
def visitAll (enter : β → Finset β → Option (Finset β × List β)) :
    List β → Finset β → Option (Finset β × List β)
  | [], vis => some (vis, [])
  | c :: cs, vis => do
      let (vis, l) ← enterUnvisited enter c vis
      let (vis, l') ← visitAll enter cs vis
      return (vis, l ++ l')

/-- Depth-first search from a vertex, with the set of vertices visited before. -/
def dfs (succ : β → List β) : ℕ → β → Finset β → Option (Finset β × List β)
  | 0, _, _ => none
  | fuel + 1, b, vis => do
      let (vis, l) ← visitAll (dfs succ fuel) (succ b) (insert b vis)
      return (vis, l ++ [b])

/-- The edges of the graph. -/
def Edge (succ : β → List β) (b c : β) : Prop := c ∈ succ b

/-- What a search that visited `vis` before, was entered for the vertices `bs` and left the
vertices `l` has done.  The vertices visited before have been left, that is they are in `done`,
or they are still open, and then every vertex of `bs` can be reached from them. -/
structure Searched (succ : β → List β) (vis : Finset β) (bs : List β) (vis' : Finset β)
    (l : List β) : Prop where
  nodup : l.Nodup
  visited : ∀ x, x ∈ vis' ↔ x ∈ vis ∨ x ∈ l
  fresh : ∀ x ∈ l, x ∉ vis
  entered : ∀ b ∈ bs, b ∈ vis'
  reached : ∀ x ∈ l, ∃ b ∈ bs, Relation.ReflTransGen (Edge succ) b x
  closed : ∀ x ∈ l, ∀ y ∈ succ x, y ∈ vis'
  order : ∀ done : Finset β,
    (∀ y ∈ vis, y ∈ done ∨ ∀ b ∈ bs, Relation.ReflTransGen (Edge succ) y b) →
    ∀ l₁ x l₂, l = l₁ ++ x :: l₂ → ∀ y ∈ succ x,
      y ∈ done ∨ y ∈ l₁ ∨ Relation.ReflTransGen (Edge succ) y x

omit [DecidableEq β] in
/-- Nothing to enter. -/
lemma Searched.nil (succ : β → List β) (vis : Finset β) : Searched succ vis [] vis [] where
  nodup := List.nodup_nil
  visited := by simp
  fresh := by simp
  entered := by simp
  reached := by simp
  closed := by simp
  order := by simp

omit [DecidableEq β] in
/-- A vertex visited before is not entered again. -/
lemma Searched.skip {succ : β → List β} {vis : Finset β} {b : β} (hb : b ∈ vis) :
    Searched succ vis [b] vis [] where
  nodup := List.nodup_nil
  visited := by simp
  fresh := by simp
  entered := by simp [hb]
  reached := by simp
  closed := by simp
  order := by simp

omit [DecidableEq β] in
/-- A part of a list that is split elsewhere. -/
lemma split_append {l l' l₁ l₂ : List β} {x : β} (h : l ++ l' = l₁ ++ x :: l₂) :
    (∃ m, l = l₁ ++ x :: m) ∨ ∃ m, l₁ = l ++ m ∧ l' = m ++ x :: l₂ := by
  rcases List.append_eq_append_iff.mp h with ⟨m, rfl, hm⟩ | ⟨m, rfl, hm⟩
  · exact .inr ⟨m, rfl, hm⟩
  · cases m with
    | nil => exact .inr ⟨[], by simp, by simpa using hm.symm⟩
    | cons y m =>
        obtain ⟨rfl, rfl⟩ := List.cons.inj hm
        exact .inl ⟨m, rfl⟩

/-- Two searches one after the other. -/
lemma Searched.append {succ : β → List β} {vis vis' vis'' : Finset β} {b : β} {bs l l' : List β}
    (h : Searched succ vis [b] vis' l) (h' : Searched succ vis' bs vis'' l') :
    Searched succ vis (b :: bs) vis'' (l ++ l') where
  nodup := by
    refine List.nodup_append.mpr ⟨h.nodup, h'.nodup, fun x hx y hy hxy => ?_⟩
    exact h'.fresh y hy ((h.visited y).mpr (.inr (hxy ▸ hx)))
  visited x := by rw [h'.visited, h.visited, List.mem_append, or_assoc]
  fresh x hx := by
    rcases List.mem_append.mp hx with hx | hx
    · exact h.fresh x hx
    · exact fun hv => h'.fresh x hx ((h.visited x).mpr (.inl hv))
  entered x hx := by
    rcases List.mem_cons.mp hx with rfl | hx
    · exact (h'.visited x).mpr (.inl (h.entered x (by simp)))
    · exact h'.entered x hx
  reached x hx := by
    rcases List.mem_append.mp hx with hx | hx
    · obtain ⟨c, hc, hr⟩ := h.reached x hx
      obtain rfl := List.mem_singleton.mp hc
      exact ⟨c, by simp, hr⟩
    · obtain ⟨c, hc, hr⟩ := h'.reached x hx
      exact ⟨c, List.mem_cons_of_mem _ hc, hr⟩
  closed x hx y hy := by
    rcases List.mem_append.mp hx with hx | hx
    · exact (h'.visited y).mpr (.inl (h.closed x hx y hy))
    · exact h'.closed x hx y hy
  order done hdone l₁ x l₂ heq y hy := by
    -- an edge that leads into what the first search visited was finished there
    rcases split_append heq with ⟨m, hm⟩ | ⟨m, rfl, hm⟩
    · refine h.order done (fun z hz => (hdone z hz).imp_right fun hr c hc => ?_) l₁ x m hm y hy
      exact hr c (List.mem_singleton.mp hc ▸ by simp)
    · have hdone' : ∀ z ∈ vis', z ∈ done ∪ l.toFinset ∨
          ∀ c ∈ bs, Relation.ReflTransGen (Edge succ) z c := by
        intro z hz
        rcases (h.visited z).mp hz with hz | hz
        · exact (hdone z hz).imp (fun hd => Finset.mem_union_left _ hd)
            fun hr c hc => hr c (List.mem_cons_of_mem _ hc)
        · exact .inl (Finset.mem_union_right _ (List.mem_toFinset.mpr hz))
      rcases h'.order _ hdone' m x l₂ hm y hy with hy | hy | hy
      · rcases Finset.mem_union.mp hy with hy | hy
        · exact .inl hy
        · exact .inr (.inl (List.mem_append_left _ (List.mem_toFinset.mp hy)))
      · exact .inr (.inl (List.mem_append_right _ hy))
      · exact .inr (.inr hy)

/-- Leaving a vertex after its successors. -/
lemma Searched.leave {succ : β → List β} {vis vis' : Finset β} {b : β} {l : List β}
    (hb : b ∉ vis) (h : Searched succ (insert b vis) (succ b) vis' l) :
    Searched succ vis [b] vis' (l ++ [b]) where
  nodup := by
    refine List.nodup_append.mpr ⟨h.nodup, List.nodup_singleton b, fun x hx y hy hxy => ?_⟩
    exact h.fresh x hx (by simp [hxy, List.mem_singleton.mp hy])
  visited x := by
    rw [h.visited, Finset.mem_insert, List.mem_append, List.mem_singleton]
    tauto
  fresh x hx := by
    rcases List.mem_append.mp hx with hx | hx
    · exact fun hv => h.fresh x hx (Finset.mem_insert_of_mem hv)
    · exact List.mem_singleton.mp hx ▸ hb
  entered x hx := (h.visited x).mpr (.inl (by simp [List.mem_singleton.mp hx]))
  reached x hx := by
    refine ⟨b, by simp, ?_⟩
    rcases List.mem_append.mp hx with hx | hx
    · obtain ⟨c, hc, hr⟩ := h.reached x hx
      exact .head hc hr
    · rw [List.mem_singleton.mp hx]
  closed x hx y hy := by
    rcases List.mem_append.mp hx with hx | hx
    · exact h.closed x hx y hy
    · exact h.entered y (List.mem_singleton.mp hx ▸ hy)
  order done hdone l₁ x l₂ heq y hy := by
    have hopen : ∀ z ∈ vis, z ∈ done ∨ Relation.ReflTransGen (Edge succ) z b := fun z hz =>
      (hdone z hz).imp_right fun hr => hr b (by simp)
    rcases split_append heq with ⟨m, hm⟩ | ⟨m, rfl, hm⟩
    · refine h.order done (fun z hz => ?_) l₁ x m hm y hy
      rcases Finset.mem_insert.mp hz with rfl | hz
      · exact .inr fun c hc => .single hc
      · exact (hopen z hz).imp_right fun hr c hc => hr.tail hc
    · -- `x` is the vertex that is left
      obtain ⟨rfl, rfl⟩ : m = [] ∧ x = b := by
        cases m with
        | nil => exact ⟨rfl, (List.cons.inj hm).1.symm⟩
        | cons z m => simp at hm
      rcases (h.visited y).mp (h.entered y hy) with hv | hv
      · rcases Finset.mem_insert.mp hv with rfl | hv
        · exact .inr (.inr .refl)
        · exact (hopen y hv).imp_right .inr
      · exact .inr (.inl (List.mem_append_left _ hv))

/-- Going through a list is going through its first part and then through its second. -/
lemma visitAll_append {enter : β → Finset β → Option (Finset β × List β)} {as bs : List β}
    {vis vis' : Finset β} {l : List β} (h : visitAll enter (as ++ bs) vis = some (vis', l)) :
    ∃ vis₁ l₁ l₂, visitAll enter as vis = some (vis₁, l₁) ∧
      visitAll enter bs vis₁ = some (vis', l₂) ∧ l = l₁ ++ l₂ := by
  induction as generalizing vis l with
  | nil => exact ⟨vis, [], l, rfl, h, rfl⟩
  | cons a as ih =>
      rw [List.cons_append, visitAll] at h
      obtain ⟨⟨vis₁, l₁⟩, h₁, h⟩ := Option.bind_eq_some_iff.mp h
      obtain ⟨⟨vis₂, l₂⟩, h₂, h⟩ := Option.bind_eq_some_iff.mp h
      obtain ⟨rfl, rfl⟩ := Prod.mk.inj (Option.some.inj h)
      obtain ⟨vis₃, l₃, l₄, h₃, h₄, rfl⟩ := ih h₂
      refine ⟨vis₃, l₁ ++ l₃, l₄, ?_, h₄, by simp⟩
      rw [visitAll, h₁]
      simp only [Option.bind_eq_bind, Option.bind_some, h₃, Option.pure_def]

/-- Going through a list, when every entry succeeds. -/
lemma visitAll_spec {succ : β → List β} {enter : β → Finset β → Option (Finset β × List β)}
    (bs : List β) (vis : Finset β)
    (henter : ∀ c vis', vis ⊆ vis' → c ∉ vis' →
      ∃ vis'' l, enter c vis' = some (vis'', l) ∧ Searched succ vis' [c] vis'' l) :
    ∃ vis' l, visitAll enter bs vis = some (vis', l) ∧ Searched succ vis bs vis' l := by
  induction bs generalizing vis with
  | nil => exact ⟨vis, [], rfl, .nil succ vis⟩
  | cons b bs ih =>
      obtain ⟨vis₁, l₁, heq, h₁⟩ : ∃ vis₁ l₁,
          enterUnvisited enter b vis = some (vis₁, l₁) ∧
            Searched succ vis [b] vis₁ l₁ := by
        by_cases hb : b ∈ vis
        · exact ⟨vis, [], if_pos hb, .skip hb⟩
        · obtain ⟨vis₁, l₁, heq, h₁⟩ := henter b vis (Finset.Subset.refl _) hb
          exact ⟨vis₁, l₁, (if_neg hb).trans heq, h₁⟩
      have hsub : vis ⊆ vis₁ := fun x hx => (h₁.visited x).mpr (.inl hx)
      obtain ⟨vis₂, l₂, heq₂, h₂⟩ := ih vis₁ fun c vis' hs => henter c vis' (hsub.trans hs)
      refine ⟨vis₂, l₁ ++ l₂, ?_, h₁.append h₂⟩
      rw [visitAll, heq]
      simp only [Option.bind_eq_bind, Option.bind_some, heq₂, Option.pure_def]

/-- **Depth-first search** ends, and does what a search has to do. -/
theorem dfs_spec [Fintype β] (succ : β → List β) (fuel : ℕ) {b : β} {vis : Finset β}
    (hb : b ∉ vis) (hfuel : visᶜ.card ≤ fuel) :
    ∃ vis' l, dfs succ fuel b vis = some (vis', l) ∧ Searched succ vis [b] vis' l := by
  induction fuel generalizing b vis with
  | zero =>
      have : b ∈ visᶜ := Finset.mem_compl.mpr hb
      rw [Finset.card_eq_zero.mp (Nat.le_zero.mp hfuel)] at this
      exact absurd this (Finset.notMem_empty b)
  | succ fuel ih =>
      have hcard : (insert b vis)ᶜ.card ≤ fuel := by
        rw [Finset.compl_insert, Finset.card_erase_of_mem (Finset.mem_compl.mpr hb)]
        omega
      have henter : ∀ c vis', insert b vis ⊆ vis' → c ∉ vis' →
          ∃ vis'' l, dfs succ fuel c vis' = some (vis'', l) ∧ Searched succ vis' [c] vis'' l :=
        fun c vis' hs hc =>
          ih hc ((Finset.card_le_card (Finset.compl_subset_compl.mpr hs)).trans hcard)
      obtain ⟨vis', l, heq, h⟩ := visitAll_spec (succ b) (insert b vis) henter
      refine ⟨vis', l ++ [b], ?_, h.leave hb⟩
      rw [dfs, heq]
      rfl

end Javalette.DepthFirst
