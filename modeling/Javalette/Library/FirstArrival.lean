import Javalette.Library.BackwardFlow
import Mathlib.Algebra.BigOperators.Group.Finset.Basic
import Mathlib.Algebra.Order.BigOperators.Group.Finset

/-!
# Distances that are fixed when a fact arrives

In a backward data-flow problem a fact can carry the length of a walk to a vertex that generates
it.  `visitDist` is a visit that takes the distance from the first successor that has the fact,
and never changes it afterwards.

Whether such distances are the shortest ones is not a matter of the graph alone but of the order
of the visits: `ArrivesFrom` says from which successor a fact comes, in rounds over a list of
vertices, and `NearestFirst` that this successor always is a nearest one.
`minimal_of_nearestFirst` and `nearestFirst_of_locallyMinimal` together say that the distances
satisfy the equation of shortest distances exactly then.
-/

namespace Javalette.BackwardFlow

variable {β ν : Type}

/-- The distances at each vertex; a fact that is not there has none. -/
abbrev Dists (β ν : Type) := β → ν → Option ℕ

/-- How long each vertex is, and how far into it a fact is generated. -/
structure Lengths (β ν : Type) where
  weight : β → ℕ
  use : β → ν → ℕ

/-- A walk from the start of a vertex to a place where the fact is generated, with its length. -/
inductive Walk (P : Problem β ν) (L : Lengths β ν) : β → ν → ℕ → Prop
  | gen {b v} : v ∈ P.gen b → Walk P L b v (L.use b v)
  | step {b c v d} : c ∈ P.succ b → v ∉ P.gen b → v ∉ P.kill b → Walk P L c v d →
      Walk P L b v (L.weight b + d)

/-- When round number `k + 1` over the list comes to the vertex `b`, its successor `c` has the
fact. -/
def Ahead (P : Problem β ν) (l : List β) (k : ℕ) (b : β) (v : ν) (c : β) : Prop :=
  Precedes l c b ∧ Within P l (k + 1) c v ∨ ¬Precedes l c b ∧ Within P l k c v

/-- The fact comes to the vertex `b` from its successor `c`: in the first round in which some
successor has the fact, `c` is the first one that does. -/
def ArrivesFrom (P : Problem β ν) (l : List β) (b : β) (v : ν) (c : β) : Prop :=
  ∃ k, ¬Within P l k b v ∧ ∃ l₁ l₂, P.succ b = l₁ ++ c :: l₂ ∧ Ahead P l k b v c ∧
    ∀ c' ∈ l₁, ¬Ahead P l k b v c'

/-- A fact that goes through a vertex comes to it from a nearest successor. -/
def NearestFirst (P : Problem β ν) (L : Lengths β ν) (l : List β) : Prop :=
  ∀ b ∈ l, ∀ v, v ∉ P.gen b → v ∉ P.kill b → ∀ c, ArrivesFrom P l b v c →
    ∀ c' ∈ P.succ b, ∀ e, Walk P L c' v e → ∃ d ≤ e, Walk P L c v d

variable {P : Problem β ν} {L : Lengths β ν} {l : List β}

lemma Walk.live {b : β} {v : ν} {d : ℕ} (h : Walk P L b v d) : Live P b v := by
  induction h with
  | gen h => exact .gen h
  | step hc _ hk _ ih => exact .step hc hk ih

/-- A successor that has the fact passes it on in this round. -/
lemma Ahead.within {k : ℕ} {b c : β} {v : ν} (h : Ahead P l k b v c) (hc : c ∈ P.succ b)
    (hk : v ∉ P.kill b) : Within P l (k + 1) b v := by
  rcases h with ⟨hp, h⟩ | ⟨hp, h⟩
  · exact .forward hc hp hk h
  · exact .back hc hp hk h

/-- A fact comes from one successor only. -/
lemma ArrivesFrom.unique {b c c' : β} {v : ν} (hk : v ∉ P.kill b) (h : ArrivesFrom P l b v c)
    (h' : ArrivesFrom P l b v c') : c = c' := by
  obtain ⟨k, hn, l₁, l₂, hs, ha, hf⟩ := h
  obtain ⟨k', hn', l₁', l₂', hs', ha', hf'⟩ := h'
  have hw := ha.within (by simp [hs]) hk
  have hw' := ha'.within (by simp [hs']) hk
  -- both times it is the first round
  obtain rfl : k = k' := by
    by_contra hne
    rcases lt_or_gt_of_ne hne with hlt | hlt
    · exact hn' (hw.mono hlt)
    · exact hn (hw'.mono hlt)
  have heq : l₁ ++ c :: l₂ = l₁' ++ c' :: l₂' := hs.symm.trans hs'
  rcases List.append_eq_append_iff.mp heq with ⟨m, rfl, hm⟩ | ⟨m, rfl, hm⟩
  · cases m with
    | nil => exact (List.cons.inj hm).1
    | cons x m =>
        obtain rfl := (List.cons.inj hm).1
        exact absurd ha (hf' c (by simp))
  · cases m with
    | nil => exact (List.cons.inj hm).1.symm
    | cons x m =>
        obtain rfl := (List.cons.inj hm).1
        exact absurd ha' (hf c' (by simp))

/-! ## Visits -/

/-- The facts that have arrived. -/
def arrived (T : Dists β ν) : Facts β ν := fun b => {v | (T b v).isSome}

/-- What the distances have in common at any time: they belong to walks, a generated fact has the
distance of its use, and every other fact has come from a successor that still has it. -/
structure Arrived (P : Problem β ν) (L : Lengths β ν) (l : List β) (T : Dists β ν) : Prop where
  gen : ∀ b v, v ∈ P.gen b → T b v = some (L.use b v)
  walk : ∀ b v d, T b v = some d → Walk P L b v d
  via : ∀ b v d, T b v = some d → v ∉ P.gen b → v ∉ P.kill b ∧ ∃ c ∈ P.succ b,
    ArrivesFrom P l b v c ∧ ∃ d', T c v = some d' ∧ d = L.weight b + d'

/-- The distances are those of shortest walks. -/
def Minimal (P : Problem β ν) (L : Lengths β ν) (l : List β) (T : Dists β ν) : Prop :=
  ∀ b ∈ l, ∀ v d, T b v = some d → ∀ e, Walk P L b v e → d ≤ e

/-- No distance could be lowered by way of a successor. -/
def LocallyMinimal (P : Problem β ν) (L : Lengths β ν) (l : List β) (T : Dists β ν) : Prop :=
  ∀ b ∈ l, ∀ v d, T b v = some d → v ∉ P.gen b → ∀ c ∈ P.succ b, ∀ e, T c v = some e →
    d ≤ L.weight b + e

section Visits

variable [DecidableEq β]

open Classical in
/-- A vertex takes what it does not have, and what is not killed on the way through it. -/
noncomputable def pass (K : Set ν) (w : ℕ) (T : Dists β ν) (b : β) (given : ν → Option ℕ) :
    Dists β ν :=
  Function.update T b fun v => (T b v).or (if v ∈ K then none else (given v).map (w + ·))

/-- A vertex takes what it does not have from the first successor that has it. -/
noncomputable def visitDist (P : Problem β ν) (L : Lengths β ν) (T : Dists β ν) (b : β) :
    Dists β ν :=
  pass (P.kill b) (L.weight b) T b fun v => (P.succ b).findSome? (T · v)

/-- Once through a list of vertices. -/
noncomputable def roundDist (P : Problem β ν) (L : Lengths β ν) (l : List β) (T : Dists β ν) :
    Dists β ν :=
  l.foldl (visitDist P L) T

variable {T : Dists β ν}

lemma pass_of_ne {K : Set ν} {w : ℕ} {b c : β} {g : ν → Option ℕ} (h : c ≠ b) :
    pass K w T b g c = T c :=
  Function.update_of_ne h _ _

open Classical in
lemma pass_self {K : Set ν} {w : ℕ} {b : β} {g : ν → Option ℕ} {v : ν} :
    pass K w T b g b v = (T b v).or (if v ∈ K then none else (g v).map (w + ·)) := by
  rw [pass, Function.update_self]

/-- What is there stays. -/
lemma pass_of_some {K : Set ν} {w : ℕ} {b c : β} {g : ν → Option ℕ} {v : ν} {d : ℕ}
    (h : T c v = some d) : pass K w T b g c v = some d := by
  by_cases hc : c = b
  · subst hc
    rw [pass_self, h, Option.some_or]
  · rw [pass_of_ne hc, h]

/-- Two gifts in turn, as far as they matter. -/
lemma pass_pass {K : Set ν} {w : ℕ} {b : β} {g₁ g₂ g : ν → Option ℕ}
    (h : ∀ v ∉ K, T b v = none → (g₁ v).or (g₂ v) = g v) :
    pass K w (pass K w T b g₁) b g₂ = pass K w T b g := by
  funext c
  by_cases hc : c = b
  · subst hc
    funext v
    rw [pass_self, pass_self, pass_self]
    cases hT : T c v with
    | some d => simp
    | none =>
        by_cases hK : v ∈ K
        · simp [hK]
        · rw [← h v hK hT]
          cases g₁ v <;> simp [hK]
  · rw [pass_of_ne hc, pass_of_ne hc, pass_of_ne hc]

lemma pass_congr {K : Set ν} {w : ℕ} {b : β} {g g' : ν → Option ℕ}
    (h : ∀ v ∉ K, T b v = none → g v = g' v) : pass K w T b g = pass K w T b g' := by
  funext c
  by_cases hc : c = b
  · subst hc
    funext v
    rw [pass_self, pass_self]
    cases hT : T c v with
    | some d => simp
    | none =>
        by_cases hK : v ∈ K
        · simp [hK]
        · rw [h v hK hT]
  · rw [pass_of_ne hc, pass_of_ne hc]

lemma visitDist_of_ne {b c : β} (h : c ≠ b) : visitDist P L T b c = T c := pass_of_ne h

lemma visitDist_of_some {b c : β} {v : ν} {d : ℕ} (h : T c v = some d) :
    visitDist P L T b c v = some d :=
  pass_of_some h

/-- What is new has come from the first successor that has it. -/
lemma visitDist_new {b c : β} {v : ν} {d : ℕ} (h : visitDist P L T b c v = some d)
    (hn : T c v = none) : c = b ∧ v ∉ P.kill b ∧ ∃ l₁ c' l₂ d', P.succ b = l₁ ++ c' :: l₂ ∧
      T c' v = some d' ∧ (∀ x ∈ l₁, T x v = none) ∧ d = L.weight b + d' := by
  by_cases hc : c = b
  · subst hc
    rw [visitDist, pass_self, hn, Option.none_or] at h
    split at h
    · cases h
    · next hk =>
        obtain ⟨d', hd', rfl⟩ := Option.map_eq_some_iff.mp h
        obtain ⟨l₁, c', l₂, hs, hsome, hnone⟩ := List.findSome?_eq_some_iff.mp hd'
        exact ⟨rfl, hk, l₁, c', l₂, d', hs, hsome, hnone, rfl⟩
  · rw [visitDist_of_ne hc, hn] at h
    cases h

lemma arrived_visitDist (b : β) : arrived (visitDist P L T b) = visit P (arrived T) b := by
  funext c
  ext v
  by_cases hc : c = b
  · subst hc
    rw [mem_visit_self]
    simp only [arrived, Set.mem_ofPred_eq, visitDist, pass_self, Option.isSome_or,
      Bool.or_eq_true]
    refine or_congr_right ?_
    split
    · next hk => simp [hk]
    · next hk => simp [hk]
  · rw [visit_of_ne _ hc, arrived, arrived, visitDist_of_ne hc]

/-- The state of round number `k + 1` over the list `l₁ ++ l₂` when it has come through `l₁`. -/
structure Underway (P : Problem β ν) (k : ℕ) (l₁ l₂ : List β) (S : Facts β ν) : Prop where
  done : ∀ b ∈ l₁, ∀ v, v ∈ S b ↔ Within P (l₁ ++ l₂) (k + 1) b v
  left : ∀ b ∈ l₂, ∀ v, v ∈ S b ↔ Within P (l₁ ++ l₂) k b v

omit [DecidableEq β] in
/-- What a successor has when its turn comes. -/
lemma Underway.ahead_iff {k : ℕ} {l₁ l₂ : List β} {b c : β} {S : Facts β ν}
    (hl : Closed P (l₁ ++ b :: l₂)) (h : Underway P k l₁ (b :: l₂) S) (hc : c ∈ P.succ b)
    {v : ν} : v ∈ S c ↔ Ahead P (l₁ ++ b :: l₂) k b v c := by
  have hmem := hl.succ_mem b (by simp) c hc
  rw [Ahead, precedes_iff hl.nodup]
  rcases List.mem_append.mp hmem with h₁ | h₂
  · rw [h.done c h₁]
    simp [h₁]
  · have hn : c ∉ l₁ := fun h₁ => (List.nodup_append.mp hl.nodup).2.2 c h₁ c h₂ rfl
    rw [h.left c h₂]
    simp [hn]

/-- The visit of the next vertex. -/
lemma Underway.visit {k : ℕ} {l₁ l₂ : List β} {b : β} {S : Facts β ν}
    (hl : Closed P (l₁ ++ b :: l₂)) (h : Underway P k l₁ (b :: l₂) S) :
    Underway P k (l₁ ++ [b]) l₂ (visit P S b) := by
  have hassoc : l₁ ++ b :: l₂ = l₁ ++ [b] ++ l₂ := by simp
  have hb : b ∉ l₁ ∧ b ∉ l₂ := by
    have hnd := hl.nodup
    rw [List.nodup_append, List.nodup_cons] at hnd
    exact ⟨fun h => hnd.2.2 b h b (by simp) rfl, hnd.2.1.1⟩
  refine ⟨fun c hc v => ?_, fun c hc v => ?_⟩
  · rw [← hassoc]
    rcases List.mem_append.mp hc with hc | hc
    · rw [visit_of_ne S (ne_of_mem_of_not_mem hc hb.1)]
      exact h.done c hc v
    · obtain rfl := List.mem_singleton.mp hc
      exact within_succ_iff hl h.done h.left
  · rw [← hassoc, visit_of_ne S (ne_of_mem_of_not_mem hc hb.2)]
    exact h.left c (List.mem_cons_of_mem _ hc) v

/-- What is new has come from the successor that it is said to come from. -/
lemma Arrived.new {k : ℕ} {l₁ l₂ : List β} {b c : β} {v : ν} {d : ℕ}
    (hl : Closed P (l₁ ++ b :: l₂)) (h : Underway P k l₁ (b :: l₂) (arrived T))
    (hT : Arrived P L (l₁ ++ b :: l₂) T) (hd : visitDist P L T b c v = some d)
    (hn : T c v = none) : c = b ∧ v ∉ P.gen b ∧ v ∉ P.kill b ∧ ∃ c' ∈ P.succ b,
      ArrivesFrom P (l₁ ++ b :: l₂) b v c' ∧ ∃ d', T c' v = some d' ∧ d = L.weight b + d' := by
  obtain ⟨rfl, hk, m₁, c', m₂, d', hs, hsome, hnone, rfl⟩ := visitDist_new hd hn
  have hgen : v ∉ P.gen c := fun hg => by simp [hT.gen c v hg] at hn
  have hc' : c' ∈ P.succ c := by simp [hs]
  have hahead : ∀ x ∈ P.succ c, (T x v).isSome = true ↔ Ahead P (l₁ ++ c :: l₂) k c v x :=
    fun x hx => h.ahead_iff hl hx
  refine ⟨rfl, hgen, hk, c', hc', ⟨k, ?_, m₁, m₂, hs, ?_, ?_⟩, d', hsome, rfl⟩
  · rw [← h.left c (by simp) v]
    simp [arrived, hn]
  · exact (hahead c' hc').mp (by rw [hsome]; rfl)
  · intro x hx hax
    have := (hahead x (by simp [hs, hx])).mpr hax
    simp [hnone x hx] at this

/-- **A visit** keeps what the distances have in common. -/
lemma Arrived.visit {k : ℕ} {l₁ l₂ : List β} {b : β} (hl : Closed P (l₁ ++ b :: l₂))
    (h : Underway P k l₁ (b :: l₂) (arrived T)) (hT : Arrived P L (l₁ ++ b :: l₂) T) :
    Arrived P L (l₁ ++ b :: l₂) (visitDist P L T b) where
  gen c v hg := visitDist_of_some (hT.gen c v hg)
  walk c v d hd := by
    cases hn : T c v with
    | some d₀ =>
        rw [visitDist_of_some hn] at hd
        exact hT.walk c v d (hn.trans hd)
    | none =>
        obtain ⟨rfl, hg, hk, c', hc', -, d', hd', rfl⟩ := hT.new hl h hd hn
        exact .step hc' hg hk (hT.walk c' v d' hd')
  via c v d hd hg := by
    cases hn : T c v with
    | some d₀ =>
        rw [visitDist_of_some hn] at hd
        obtain ⟨hk, c', hc', harr, d', hd', heq⟩ := hT.via c v d (hn.trans hd) hg
        exact ⟨hk, c', hc', harr, d', visitDist_of_some hd', heq⟩
    | none =>
        obtain ⟨rfl, hg, hk, c', hc', harr, d', hd', heq⟩ := hT.new hl h hd hn
        exact ⟨hk, c', hc', harr, d', visitDist_of_some hd', heq⟩

/-- Where facts come from a nearest successor, a visit keeps the distances shortest. -/
lemma Minimal.visit {k : ℕ} {l₁ l₂ : List β} {b : β} (hl : Closed P (l₁ ++ b :: l₂))
    (hnear : NearestFirst P L (l₁ ++ b :: l₂)) (hu : Underway P k l₁ (b :: l₂) (arrived T))
    (hT : Arrived P L (l₁ ++ b :: l₂) T) (h : Minimal P L (l₁ ++ b :: l₂) T) :
    Minimal P L (l₁ ++ b :: l₂) (visitDist P L T b) := by
  intro c hc v d hd e he
  cases hn : T c v with
  | some d₀ =>
      rw [visitDist_of_some hn] at hd
      exact h c hc v d (hn.trans hd) e he
  | none =>
      obtain ⟨rfl, hg, hk, c', hc', harr, d', hd', rfl⟩ := hT.new hl hu hd hn
      cases he with
      | gen hg' => exact absurd hg' hg
      | @step _ x _ e hx _ _ he =>
          obtain ⟨d₁, hle, hwalk⟩ := hnear c hc v hg hk c' harr x hx e he
          have hmin := h c' (hl.succ_mem c hc c' hc') v d' hd' d₁ hwalk
          exact Nat.add_le_add_left (hmin.trans hle) _

/-- What a round keeps. -/
structure Kept (P : Problem β ν) (L : Lengths β ν) (l : List β) (T : Dists β ν) : Prop where
  arrived : Arrived P L l T
  minimal : NearestFirst P L l → Minimal P L l T

/-- A round that has come through the first part of the list. -/
lemma roundDist_kept_aux {k : ℕ} (l₁ l₂ : List β) (T : Dists β ν) (hl : Closed P (l₁ ++ l₂))
    (h : Underway P k l₁ l₂ (arrived T)) (hT : Kept P L (l₁ ++ l₂) T) :
    Kept P L (l₁ ++ l₂) (roundDist P L l₂ T) := by
  induction l₂ generalizing l₁ T with
  | nil => exact hT
  | cons b l₂ ih =>
      have hassoc : l₁ ++ b :: l₂ = l₁ ++ [b] ++ l₂ := by simp
      have hkept : Kept P L (l₁ ++ b :: l₂) (visitDist P L T b) :=
        ⟨hT.arrived.visit hl h, fun hnear => (hT.minimal hnear).visit hl hnear h hT.arrived⟩
      have hunder := h.visit hl
      rw [← arrived_visitDist (L := L)] at hunder
      rw [hassoc] at hl hkept ⊢
      exact ih (l₁ ++ [b]) (visitDist P L T b) hl hunder hkept

/-- **A round** keeps what the distances have in common. -/
theorem roundDist_kept {k : ℕ} (hl : Closed P l)
    (h : ∀ b ∈ l, ∀ v, v ∈ arrived T b ↔ Within P l k b v) (hT : Kept P L l T) :
    Kept P L l (roundDist P L l T) :=
  roundDist_kept_aux (k := k) [] l T hl ⟨by simp, h⟩ hT

end Visits

/-! ## When the distances are shortest -/

variable {T : Dists β ν}

/-- Shortest distances cannot be lowered. -/
theorem Arrived.locallyMinimal (hT : Arrived P L l T) (h : Minimal P L l T) :
    LocallyMinimal P L l T := by
  intro b hb v d hd hg c hc e he
  exact h b hb v d hd _ (.step hc hg (hT.via b v d hd hg).1 (hT.walk c v e he))

/-- Distances that cannot be lowered are shortest. -/
lemma LocallyMinimal.le_walk (hl : Closed P l) (hT : Arrived P L l T)
    (hlive : ∀ b ∈ l, ∀ v, Live P b v → (T b v).isSome) (h : LocallyMinimal P L l T) {b : β}
    (hb : b ∈ l) {v : ν} {e : ℕ} (he : Walk P L b v e) : ∃ d ≤ e, T b v = some d := by
  induction he with
  | gen hg => exact ⟨_, le_rfl, hT.gen _ _ hg⟩
  | @step b c v e hc hg hk he ih =>
      obtain ⟨d', hle, hd'⟩ := ih (hl.succ_mem b hb c hc)
      obtain ⟨d, hd⟩ := Option.isSome_iff_exists.mp (hlive b hb v (.step hc hk he.live))
      exact ⟨d, (h b hb v d hd hg c hc d' hd').trans (Nat.add_le_add_left hle _), hd⟩

/-- **Distances that cannot be lowered** have all come from nearest successors. -/
theorem nearestFirst_of_locallyMinimal (hl : Closed P l) (hT : Arrived P L l T)
    (hlive : ∀ b ∈ l, ∀ v, Live P b v → (T b v).isSome) (h : LocallyMinimal P L l T) :
    NearestFirst P L l := by
  intro b hb v hg hk c harr c' hc' e he
  obtain ⟨d, hd⟩ := Option.isSome_iff_exists.mp (hlive b hb v (.step hc' hk he.live))
  obtain ⟨-, c₀, hc₀, harr₀, d₀, hd₀, heq⟩ := hT.via b v d hd hg
  obtain rfl := ArrivesFrom.unique hk harr₀ harr
  obtain ⟨e', hle, he'⟩ := h.le_walk hl hT hlive (hl.succ_mem b hb c' hc') he
  have hlow := h b hb v d hd hg c' hc' e' he'
  exact ⟨d₀, by omega, hT.walk c₀ v d₀ hd₀⟩

/-! ## How large the distances become -/

/-- A distance is not longer than some vertices that all have the fact. -/
def Spread (L : Lengths β ν) (T : Dists β ν) : Prop :=
  ∀ b v d, T b v = some d → ∃ A : Finset β, (∀ a ∈ A, (T a v).isSome) ∧ d ≤ ∑ a ∈ A, L.weight a

/-- One more distance, from a vertex that has the fact. -/
lemma Spread.insert {T' : Dists β ν} (h : Spread L T) {b c : β} {v : ν} {d : ℕ}
    (hc : T c v = some d) (hn : T b v = none) (hnew : T' b v = some (L.weight b + d))
    (hold : ∀ b' v' d', T b' v' = some d' → T' b' v' = some d')
    (honly : ∀ b' v' d', T' b' v' = some d' → T b' v' = some d' ∨ b' = b ∧ v' = v) :
    Spread L T' := by
  classical
  have hmono : ∀ a v', (T a v').isSome → (T' a v').isSome := fun a v' ha => by
    obtain ⟨d', hd'⟩ := Option.isSome_iff_exists.mp ha
    rw [hold a v' d' hd']
    rfl
  intro b' v' d' hd'
  rcases honly b' v' d' hd' with hd | ⟨rfl, rfl⟩
  · obtain ⟨A, hA, hle⟩ := h b' v' d' hd
    exact ⟨A, fun a ha => hmono a v' (hA a ha), hle⟩
  · obtain ⟨A, hA, hle⟩ := h c v' d hc
    have hb : b' ∉ A := fun hb => by simpa [hn] using hA b' hb
    refine ⟨Insert.insert b' A, fun a ha => ?_, ?_⟩
    · rcases Finset.mem_insert.mp ha with rfl | ha
      · rw [hnew]
        rfl
      · exact hmono a v' (hA a ha)
    · rw [hnew] at hd'
      rw [Finset.sum_insert hb, ← Option.some.inj hd']
      exact Nat.add_le_add_left hle _

lemma Spread.le_sum [Fintype β] (h : Spread L T) {b : β} {v : ν} {d : ℕ} (hd : T b v = some d) :
    d ≤ ∑ a, L.weight a := by
  obtain ⟨A, -, hle⟩ := h b v d hd
  exact hle.trans (Finset.sum_le_univ_sum_of_nonneg fun a => Nat.zero_le _)

end Javalette.BackwardFlow
