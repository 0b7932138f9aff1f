import Javalette.Library.LinkedList
import Javalette.Scope.Model
import Mathlib.Data.List.Induction

/-!
# Lexical scoping

What the declarations mean: a stack of environments, the innermost one first, each with the
declarations that have been made in it.  `Represents` is the invariant that relates the stack to
the chains of declarations and to the array, and `scoping_lexical` says what follows for every
sequence of actions.
-/

namespace Javalette.Scope

open LinkedList

variable {σ α τ υ : Type}

/-! ## Environments -/

/-- A declaration: its symbol, its cell and its type. -/
structure Entry (σ α τ : Type) where
  sym : σ
  cell : α
  type : τ

/-- The open scopes, the innermost one first, each with its declarations, the latest first. -/
abbrev Env (σ α τ : Type) := List (List (Entry σ α τ))

namespace Env

/-- The cells in use. -/
def cells (E : Env σ α τ) : List α := E.flatten.map Entry.cell

/-- The declared symbols, in the order in which they have been declared. -/
def names : Env σ α τ → List σ
  | [] => []
  | top :: rest => names rest ++ top.reverse.map Entry.sym

variable [DecidableEq σ]

/-- The declarations of a symbol with the numbers of their scopes, the innermost one first. -/
def chainOf (sym : σ) : Env σ α τ → List (ℕ × Entry σ α τ)
  | [] => []
  | top :: rest =>
      (top.filter fun e => e.sym = sym).map (fun e => (rest.length, e)) ++ chainOf sym rest

/-- The declaration made in the innermost open scope that declares the symbol. -/
def innermost (sym : σ) (E : Env σ α τ) : Option (Entry σ α τ) :=
  E.findSome? fun top => top.find? fun e => e.sym = sym

variable [DecidableEq α]

/-- What an action means, if it is allowed: the nesting stays within the limit, no more scopes
are closed than have been opened, and a new declaration is given a cell that is not in use. -/
def act (E : Env σ α τ) : Action σ α τ → Option (Env σ α τ)
  | .push => if E.length < maxScopes then some ([] :: E) else none
  | .pop => if 1 < E.length then some E.tail else none
  | .declare sym type _ a =>
      if sym ∈ (E.headD []).map Entry.sym then some E
      else if a ∈ E.cells then none
      else some ((⟨sym, a, type⟩ :: E.headD []) :: E.tail)

/-- A sequence of actions. -/
def actAll (E : Env σ α τ) (acts : List (Action σ α τ)) : Option (Env σ α τ) := acts.foldlM act E

/-- What has been opened is closed again. -/
inductive Balanced : List (Action σ α τ) → Prop
  | nil : Balanced []
  | declare {sym type srcPos a acts} : Balanced acts → Balanced (.declare sym type srcPos a :: acts)
  | block {acts acts'} : Balanced acts → Balanced acts' →
      Balanced (.push :: acts ++ .pop :: acts')

end Env

/-! ## The invariant -/

/-- What is in the cell of a declaration. -/
def declCell (x : ℕ × Entry σ α τ) (prev : Option α) : Decl α τ υ :=
  ⟨x.2.type, x.1, false, none, prev⟩

section

variable [DecidableEq σ]

/-- The chains of declarations that start from the symbols are those of the environments. -/
structure Linked (s : State σ α τ υ) (E : Env σ α τ) : Prop where
  once : ∀ top ∈ E, (top.map Entry.sym).Nodup
  cells : E.cells.Nodup
  chain : ∀ sym, Segment (fun x => x.2.cell) declCell s.heap (s.decl sym) (E.chainOf sym) none
  inUse : ∀ a, s.heap a ≠ none → a ∈ E.cells

/-- `scopes` has, for each open scope, the number of symbols declared outside of it. -/
def Begins (scopes : ℕ → ℕ) : Env σ α τ → Prop
  | [] => True
  | _ :: rest => scopes rest.length = (Env.names rest).length ∧ Begins scopes rest

/-- The state represents the environments. -/
structure Represents (s : State σ α τ υ) (E : Env σ α τ) : Prop where
  linked : Linked s E
  decls : s.decls = E.names
  scopes : Begins s.scopes E
  cur : s.curScope + 1 = E.length
  limit : E.length ≤ maxScopes

/-! ## The environments -/

namespace Env

variable {E : Env σ α τ} {sym : σ}

lemma mem_chainOf {x : ℕ × Entry σ α τ} : x ∈ chainOf sym E ↔
    x.2.sym = sym ∧ ∃ pre top rest, E = pre ++ top :: rest ∧ rest.length = x.1 ∧ x.2 ∈ top := by
  induction E with
  | nil => simp [chainOf]
  | cons top rest ih =>
      rw [chainOf, List.mem_append, ih, List.mem_map]
      constructor
      · rintro (⟨e, he, rfl⟩ | ⟨hs, pre, top', rest', rfl, hlen, hx⟩)
        · rw [List.mem_filter, decide_eq_true_eq] at he
          exact ⟨he.2, [], top, rest, rfl, rfl, he.1⟩
        · exact ⟨hs, top :: pre, top', rest', rfl, hlen, hx⟩
      · rintro ⟨hs, pre, top', rest', heq, hlen, hx⟩
        cases pre with
        | nil =>
            obtain ⟨rfl, rfl⟩ := List.cons.inj heq
            refine .inl ⟨x.2, ?_, by rw [hlen]⟩
            rw [List.mem_filter, decide_eq_true_eq]
            exact ⟨hx, hs⟩
        | cons p pre =>
            obtain ⟨rfl, rfl⟩ := List.cons.inj heq
            exact .inr ⟨hs, pre, top', rest', rfl, hlen, hx⟩

lemma cell_mem_cells {x : ℕ × Entry σ α τ} (h : x ∈ chainOf sym E) : x.2.cell ∈ E.cells := by
  obtain ⟨-, pre, top, rest, rfl, -, hx⟩ := mem_chainOf.mp h
  exact List.mem_map.mpr ⟨x.2, List.mem_flatten.mpr ⟨top, by simp, hx⟩, rfl⟩

lemma fst_lt_of_mem_chainOf {x : ℕ × Entry σ α τ} (h : x ∈ chainOf sym E) : x.1 < E.length := by
  obtain ⟨-, pre, top, rest, rfl, hlen, -⟩ := mem_chainOf.mp h
  rw [List.length_append, List.length_cons, ← hlen]
  omega

/-- In a scope a symbol has at most one declaration. -/
lemma filter_eq_nil_or {top : List (Entry σ α τ)} (h : (top.map Entry.sym).Nodup) (sym : σ) :
    (sym ∉ top.map Entry.sym ∧ top.filter (fun e => e.sym = sym) = []) ∨
      ∃ e ∈ top, e.sym = sym ∧ top.filter (fun e => e.sym = sym) = [e] := by
  induction top with
  | nil => exact .inl ⟨by simp, rfl⟩
  | cons e top ih =>
      rw [List.map_cons, List.nodup_cons] at h
      by_cases he : e.sym = sym
      · subst he
        refine .inr ⟨e, by simp, rfl, ?_⟩
        rw [List.filter_cons_of_pos (by simp)]
        rcases ih h.2 with ⟨-, hnil⟩ | ⟨e', he', hs, -⟩
        · rw [hnil]
        · exact absurd (List.mem_map.mpr ⟨e', he', hs⟩) h.1
      · rw [List.filter_cons_of_neg (by simpa using he)]
        rcases ih h.2 with ⟨hn, hnil⟩ | ⟨e', he', hs, hone⟩
        · exact .inl ⟨by simp [hn, Ne.symm he], hnil⟩
        · exact .inr ⟨e', List.mem_cons_of_mem e he', hs, hone⟩

/-- The scope numbers of a chain decrease. -/
lemma chainOf_decreasing (h : ∀ top ∈ E, (top.map Entry.sym).Nodup) (sym : σ) :
    (chainOf sym E).Pairwise fun x y => y.1 < x.1 := by
  induction E with
  | nil => exact .nil
  | cons top rest ih =>
      rw [chainOf, List.pairwise_append]
      refine ⟨?_, ih fun t ht => h t (List.mem_cons_of_mem top ht), ?_⟩
      · rcases filter_eq_nil_or (h top (by simp)) sym with ⟨-, hnil⟩ | ⟨e, -, -, hone⟩
        · rw [hnil]
          exact .nil
        · rw [hone]
          exact List.pairwise_singleton _ _
      · intro x hx y hy
        obtain ⟨e, -, rfl⟩ := List.mem_map.mp hx
        exact fst_lt_of_mem_chainOf hy

/-- The first declaration of the chain is the innermost one. -/
lemma head?_chainOf (E : Env σ α τ) (sym : σ) :
    (chainOf sym E).head?.map Prod.snd = innermost sym E := by
  induction E with
  | nil => rfl
  | cons top rest ih =>
      rw [chainOf, innermost, List.findSome?_cons, List.head?_append, List.head?_map]
      rw [← List.head?_filter]
      cases (top.filter fun e => decide (e.sym = sym)).head? with
      | none => exact ih
      | some e => rfl

end Env

/-! ## The chains -/

namespace Linked

variable {s s' : State σ α τ υ} {E rest : Env σ α τ} {top : List (Entry σ α τ)}

lemma congr (h : Linked s E) (hdecl : s'.decl = s.decl) (hheap : s'.heap = s.heap) :
    Linked s' E where
  once := h.once
  cells := h.cells
  chain sym := by
    rw [hdecl, hheap]
    exact h.chain sym
  inUse a ha := by
    rw [hheap] at ha
    exact h.inUse a ha

/-- An empty scope adds nothing. -/
lemma nil_cons_iff : Linked s ([] :: E) ↔ Linked s E := by
  constructor
  · intro h
    exact ⟨fun top ht => h.once top (List.mem_cons_of_mem _ ht), h.cells, h.chain, h.inUse⟩
  · intro h
    refine ⟨fun top ht => ?_, h.cells, h.chain, h.inUse⟩
    rcases List.mem_cons.mp ht with rfl | ht
    · exact List.nodup_nil
    · exact h.once top ht

/-- What the symbol points to. -/
lemma decl_eq (h : Linked s E) (sym : σ) : s.decl sym = (E.innermost sym).map Entry.cell := by
  rw [(h.chain sym).head, ← Env.head?_chainOf]
  cases Env.chainOf sym E <;> rfl

/-- The check of `declare` for duplicates. -/
lemma declaredHere_eq (h : Linked s (top :: rest)) (hcur : s.curScope = rest.length) (sym : σ) :
    declaredHere s sym = some (decide (sym ∈ top.map Entry.sym)) := by
  have hchain := h.chain sym
  rw [Env.chainOf] at hchain
  rcases Env.filter_eq_nil_or (h.once top (by simp)) sym with ⟨hn, hnil⟩ | ⟨e, he, hs, hone⟩
  · rw [hnil, List.map_nil, List.nil_append] at hchain
    rw [declaredHere]
    cases hx : Env.chainOf sym rest with
    | nil =>
        rw [hx] at hchain
        rw [show s.decl sym = none from hchain]
        simp [hn]
    | cons x xs =>
        have hlt : x.1 < rest.length := Env.fst_lt_of_mem_chainOf (by rw [hx]; simp)
        rw [hx] at hchain
        obtain ⟨hp, next, hcell, -⟩ := hchain
        rw [hp]
        dsimp only
        rw [hcell, Option.map_some, decide_eq_false hn]
        simp only [declCell, hcur, Option.some.injEq, decide_eq_false_iff_not]
        omega
  · rw [hone, List.map_singleton, List.singleton_append] at hchain
    obtain ⟨hp, next, hcell, -⟩ := hchain
    have hmem : sym ∈ top.map Entry.sym := List.mem_map.mpr ⟨e, he, hs⟩
    rw [declaredHere, hp]
    dsimp only
    rw [hcell]
    simp [declCell, hcur, hmem]

variable [DecidableEq α]

/-- A new declaration in front of the chain of its symbol. -/
lemma declare (h : Linked s (top :: rest)) (hcur : s.curScope = rest.length) {sym : σ} {type : τ}
    {a : α} (hn : sym ∉ top.map Entry.sym) (ha : a ∉ Env.cells (top :: rest))
    (hdecl : s'.decl = Function.update s.decl sym (some a))
    (hheap : s'.heap =
      Function.update s.heap a (some ⟨type, s.curScope, false, none, s.decl sym⟩)) :
    Linked s' ((⟨sym, a, type⟩ :: top) :: rest) := by
  -- nothing of that name in the innermost scope, so its chain starts with the new cell
  have hnil : top.filter (fun e => e.sym = sym) = [] := by
    rcases Env.filter_eq_nil_or (h.once top (by simp)) sym with ⟨-, hnil⟩ | ⟨e, he, hs, -⟩
    · exact hnil
    · exact absurd (List.mem_map.mpr ⟨e, he, hs⟩) hn
  -- the new cell is in no chain, which is why all of them can still be read
  have hframe : ∀ {p : Option α} {xs : List (ℕ × Entry σ α τ)},
      Segment (fun x => x.2.cell) declCell s.heap p xs none →
      (∀ x ∈ xs, x.2.cell ∈ Env.cells (top :: rest)) →
        Segment (fun x => x.2.cell) declCell s'.heap p xs none := by
    intro p xs hxs hin
    rw [hheap]
    refine hxs.update fun hmem => ?_
    obtain ⟨x, hx, rfl⟩ := List.mem_map.mp hmem
    exact ha (hin x hx)
  refine ⟨fun t ht => ?_, ?_, fun sym' => ?_, fun b hb => ?_⟩
  · rcases List.mem_cons.mp ht with rfl | ht
    · rw [List.map_cons, List.nodup_cons]
      exact ⟨hn, h.once top (by simp)⟩
    · exact h.once t (List.mem_cons_of_mem top ht)
  · show (a :: Env.cells (top :: rest)).Nodup
    exact List.nodup_cons.mpr ⟨ha, h.cells⟩
  · have hold := hframe (h.chain sym') fun x hx => Env.cell_mem_cells hx
    rw [hdecl]
    by_cases hs : sym' = sym
    · subst hs
      rw [Env.chainOf, List.filter_cons_of_pos (by simp), hnil, Function.update_self]
      rw [Env.chainOf, hnil] at hold
      refine ⟨rfl, s.decl sym', ?_, hold⟩
      rw [hheap, Function.update_self, hcur]
      rfl
    · rw [Env.chainOf, List.filter_cons_of_neg (by simpa using Ne.symm hs),
        Function.update_of_ne hs]
      exact hold
  · show b ∈ a :: Env.cells (top :: rest)
    rw [List.mem_cons]
    by_cases hba : b = a
    · exact .inl hba
    · rw [hheap, Function.update_of_ne hba] at hb
      exact .inr (h.inUse b hb)

/-- The removal of the oldest declaration of the innermost scope. -/
lemma popDecl {e : Entry σ α τ} (h : Linked s ((top ++ [e]) :: rest)) :
    ∃ s', popDecl s e.sym = some s' ∧ Linked s' (top :: rest) ∧ s'.decls = s.decls ∧
      s'.scopes = s.scopes ∧ s'.curScope = s.curScope ∧ s'.errors = s.errors := by
  have honce := h.once (top ++ [e]) (by simp)
  rw [List.map_append, List.map_singleton] at honce
  have hn : e.sym ∉ top.map Entry.sym := fun hmem =>
    (List.nodup_append.mp honce).2.2 _ hmem _ (by simp) rfl
  have hnil : top.filter (fun x => x.sym = e.sym) = [] := by
    rw [List.filter_eq_nil_iff]
    intro x hx hs
    exact hn (List.mem_map.mpr ⟨x, hx, by simpa using hs⟩)
  have hcells : (Env.cells ((top ++ [e]) :: rest)).Perm (e.cell :: Env.cells (top :: rest)) := by
    simp only [Env.cells, List.flatten_cons, List.map_append, List.map_cons, List.map_nil]
    rw [List.append_assoc, List.singleton_append]
    exact List.perm_middle
  have hnodup := hcells.nodup_iff.mp h.cells
  rw [List.nodup_cons] at hnodup
  -- the chain of the symbol starts with this declaration
  have hchain := h.chain e.sym
  rw [Env.chainOf, List.filter_append, hnil, List.nil_append, List.filter_cons_of_pos (by simp),
    List.filter_nil, List.map_singleton, List.singleton_append] at hchain
  obtain ⟨hp, prev, hcell, hrest⟩ := hchain
  have heq : Scope.popDecl s e.sym = some { s with
      decl := Function.update s.decl e.sym prev
      heap := Function.update s.heap e.cell none } := by
    rw [Scope.popDecl, hp]
    simp only [Option.bind_eq_bind, Option.bind_some, hcell]
    rfl
  refine ⟨_, heq, ⟨fun t ht => ?_, hnodup.2, fun sym => ?_, fun b hb => ?_⟩, rfl, rfl, rfl, rfl⟩
  · rcases List.mem_cons.mp ht with rfl | ht
    · exact (List.nodup_append.mp honce).1
    · exact h.once t (List.mem_cons_of_mem _ ht)
  · have hframe : ∀ {p : Option α} {xs : List (ℕ × Entry σ α τ)},
        Segment (fun x => x.2.cell) declCell s.heap p xs none →
        (∀ x ∈ xs, x.2.cell ∈ Env.cells (top :: rest)) →
          Segment (fun x => x.2.cell) declCell (Function.update s.heap e.cell none) p xs none := by
      intro p xs hxs hin
      refine hxs.update fun hmem => ?_
      obtain ⟨x, hx, heq⟩ := List.mem_map.mp hmem
      exact hnodup.1 (heq ▸ hin x hx)
    by_cases hs : sym = e.sym
    · subst hs
      have hmem : ∀ x ∈ Env.chainOf e.sym rest, x.2.cell ∈ Env.cells (top :: rest) := fun x hx =>
        Env.cell_mem_cells (show x ∈ Env.chainOf e.sym (top :: rest) by
          rw [Env.chainOf]
          exact List.mem_append_right _ hx)
      rw [Env.chainOf, hnil]
      dsimp only
      rw [Function.update_self]
      exact hframe hrest hmem
    · have hold := h.chain sym
      rw [Env.chainOf, List.filter_append, List.filter_cons_of_neg (by simpa using Ne.symm hs),
        List.filter_nil, List.append_nil] at hold
      dsimp only
      rw [Function.update_of_ne hs]
      exact hframe hold fun x hx => Env.cell_mem_cells (E := top :: rest) hx
  · dsimp only at hb
    by_cases hbe : b = e.cell
    · subst hbe
      exact absurd (Function.update_self ..) hb
    · rw [Function.update_of_ne hbe] at hb
      have hmem := hcells.mem_iff.mp (h.inUse b hb)
      exact (List.mem_cons.mp hmem).resolve_left hbe

/-- **The loop of `pop_scope`** undoes each chain once. -/
lemma popDecls (top : List (Entry σ α τ)) {s : State σ α τ υ} (h : Linked s (top :: rest)) :
    ∃ s', (top.reverse.map Entry.sym).foldlM Scope.popDecl s = some s' ∧ Linked s' rest ∧
      s'.decls = s.decls ∧ s'.scopes = s.scopes ∧ s'.curScope = s.curScope ∧
        s'.errors = s.errors := by
  induction top using List.reverseRecOn generalizing s with
  | nil => exact ⟨s, rfl, nil_cons_iff.mp h, rfl, rfl, rfl, rfl⟩
  | append_singleton top e ih =>
      obtain ⟨s₁, heq₁, h₁, hd₁, hs₁, hc₁, he₁⟩ := h.popDecl
      obtain ⟨s', heq', h', hd', hs', hc', he'⟩ := ih h₁
      refine ⟨s', ?_, h', hd'.trans hd₁, hs'.trans hs₁, hc'.trans hc₁, he'.trans he₁⟩
      rw [List.reverse_append, List.reverse_singleton, List.singleton_append, List.map_cons,
        List.foldlM_cons, heq₁]
      exact heq'

end Linked

/-! ## The actions -/

omit [DecidableEq σ] in
lemma Begins.update {scopes : ℕ → ℕ} {E : Env σ α τ} (h : Begins scopes E) {k : ℕ}
    (hk : E.length ≤ k) (m : ℕ) : Begins (Function.update scopes k m) E := by
  induction E with
  | nil => trivial
  | cons top rest ih =>
      rw [List.length_cons] at hk
      refine ⟨?_, ih h.2 (by omega)⟩
      rw [Function.update_of_ne (by omega)]
      exact h.1

section

variable [DecidableEq α] {s : State σ α τ υ} {E E' : Env σ α τ}

omit [DecidableEq α] in
lemma represents_init : Represents (declInit : State σ α τ υ) ([[]] : Env σ α τ) where
  linked := ⟨by simp, List.nodup_nil, fun _ => rfl, fun a ha => absurd rfl ha⟩
  decls := rfl
  scopes := ⟨rfl, trivial⟩
  cur := rfl
  limit := by simp [maxScopes]

omit [DecidableEq α] in
lemma Represents.pushScope (h : Represents s E) (hlen : E.length < maxScopes) :
    ∃ s', pushScope s = some s' ∧ Represents s' ([] :: E) ∧ s'.errors = s.errors := by
  have hcur := h.cur
  refine ⟨_, if_neg (by omega), ⟨?_, ?_, ⟨?_, ?_⟩, ?_, ?_⟩, rfl⟩
  · exact Linked.nil_cons_iff.mpr (h.linked.congr rfl rfl)
  · rw [h.decls, Env.names]
    simp
  · dsimp only
    rw [hcur, Function.update_self, h.decls]
  · exact h.scopes.update (by omega) _
  · rw [List.length_cons, ← hcur]
  · rw [List.length_cons]
    omega

lemma Represents.popScope {top : List (Entry σ α τ)} {rest : Env σ α τ}
    (h : Represents s (top :: rest)) (hlen : 1 < (top :: rest).length) :
    ∃ s', popScope s = some s' ∧ Represents s' rest ∧ s'.errors = s.errors := by
  have hcur : s.curScope = rest.length := Nat.succ.inj h.cur
  have hlim := h.limit
  rw [List.length_cons] at hlen hlim
  have hbegin : s.scopes s.curScope = (Env.names rest).length := hcur ▸ h.scopes.1
  have hdrop : s.decls.drop (s.scopes s.curScope) = top.reverse.map Entry.sym := by
    rw [hbegin, h.decls, Env.names, List.drop_left]
  obtain ⟨s₁, heq₁, h₁, hd₁, hs₁, hc₁, he₁⟩ := h.linked.popDecls
  refine ⟨{ s₁ with decls := s₁.decls.take (s₁.scopes s₁.curScope), curScope := s₁.curScope - 1 },
    ?_, ⟨h₁.congr rfl rfl, ?_, ?_, ?_, by omega⟩, he₁⟩
  · rw [Scope.popScope, if_neg (by omega), hdrop, heq₁]
    rfl
  · show s₁.decls.take (s₁.scopes s₁.curScope) = rest.names
    rw [hs₁, hc₁, hd₁, hbegin, h.decls, Env.names, List.take_left]
  · show Begins s₁.scopes rest
    rw [hs₁]
    exact h.scopes.2
  · show s₁.curScope - 1 + 1 = rest.length
    omega

/-- A declaration of a symbol that the current scope declares already is reported. -/
lemma Represents.declare_duplicate (h : Represents s E) {sym : σ} (type : τ) (srcPos : SrcPos)
    (a : α) (hmem : sym ∈ (E.headD []).map Entry.sym) :
    declare s sym type srcPos a =
      some { s with errors := s.errors ++ [(srcPos, "duplicate identifier")] } := by
  cases E with
  | nil => simp at hmem
  | cons top rest =>
      rw [declare, h.linked.declaredHere_eq (Nat.succ.inj h.cur)]
      rw [List.headD_cons] at hmem
      simp [hmem]

/-- Any other declaration is made. -/
lemma Represents.declare_new (h : Represents s E) {sym : σ} (type : τ) (srcPos : SrcPos)
    {a : α} (hmem : sym ∉ (E.headD []).map Entry.sym) (ha : a ∉ E.cells) :
    ∃ s', declare s sym type srcPos a = some s' ∧
      Represents s' ((⟨sym, a, type⟩ :: E.headD []) :: E.tail) ∧ s'.errors = s.errors ∧
        s'.decl sym = some a ∧ s'.heap a = some ⟨type, s.curScope, false, none, s.decl sym⟩ := by
  cases E with
  | nil => exact absurd h.cur (Nat.succ_ne_zero _)
  | cons top rest =>
      have hcur : s.curScope = rest.length := Nat.succ.inj h.cur
      rw [List.headD_cons] at hmem
      refine ⟨{ s with
        decl := Function.update s.decl sym (some a)
        heap := Function.update s.heap a (some ⟨type, s.curScope, false, none, s.decl sym⟩)
        decls := s.decls ++ [sym] }, ?_,
        ⟨h.linked.declare hcur hmem ha rfl rfl, ?_, h.scopes, h.cur, h.limit⟩, rfl,
        Function.update_self .., Function.update_self ..⟩
      · rw [declare, h.linked.declaredHere_eq hcur]
        simp [hmem]
      · show s.decls ++ [sym] = _
        rw [h.decls]
        simp [Env.names]

/-- **An action** that is allowed does to the state what it does to the environments. -/
theorem Represents.perform (h : Represents s E) {act : Action σ α τ} (hact : E.act act = some E') :
    ∃ s', perform s act = some s' ∧ Represents s' E' := by
  -- one lemma for each action; where the environment refuses there is nothing to show
  cases act with
  | push =>
      rw [Env.act] at hact
      split at hact
      · next hlen =>
          obtain rfl := Option.some.inj hact
          obtain ⟨s', heq, h', -⟩ := h.pushScope hlen
          exact ⟨s', heq, h'⟩
      · cases hact
  | pop =>
      rw [Env.act] at hact
      split at hact
      · next hlen =>
          obtain rfl := Option.some.inj hact
          cases E with
          | nil => cases hlen
          | cons top rest =>
              obtain ⟨s', heq, h', -⟩ := h.popScope hlen
              exact ⟨s', heq, h'⟩
      · cases hact
  | declare sym type srcPos a =>
      rw [Env.act] at hact
      split at hact
      · next hmem =>
          obtain rfl := Option.some.inj hact
          exact ⟨_, h.declare_duplicate type srcPos a hmem,
            ⟨h.linked.congr rfl rfl, h.decls, h.scopes, h.cur, h.limit⟩⟩
      · next hmem =>
          split at hact
          · cases hact
          · next ha =>
              obtain rfl := Option.some.inj hact
              obtain ⟨s', heq, h', -⟩ := h.declare_new type srcPos hmem ha
              exact ⟨s', heq, h'⟩

/-- **A sequence of actions.** -/
theorem Represents.performAll (h : Represents s E) {acts : List (Action σ α τ)}
    (hacts : E.actAll acts = some E') :
    ∃ s', performAll s acts = some s' ∧ Represents s' E' := by
  induction acts generalizing s E with
  | nil =>
      obtain rfl := Option.some.inj hacts
      exact ⟨s, rfl, h⟩
  | cons act acts ih =>
      obtain ⟨E₁, hact, hacts⟩ := Option.bind_eq_some_iff.mp hacts
      obtain ⟨s₁, heq₁, h₁⟩ := h.perform hact
      obtain ⟨s', heq', h'⟩ := ih h₁ hacts
      exact ⟨s', Option.bind_eq_some_iff.mpr ⟨s₁, heq₁, heq'⟩, h'⟩

end

/-! ## Going back -/

/-- The environments determine the chains and the array. -/
lemma Represents.unique {s s' : State σ α τ υ} {E : Env σ α τ} (h : Represents s E)
    (h' : Represents s' E) : s'.decl = s.decl ∧ s'.heap = s.heap ∧ s'.decls = s.decls ∧
      s'.curScope = s.curScope := by
  refine ⟨funext fun sym => ?_, funext fun a => ?_, h'.decls.trans h.decls.symm,
    Nat.succ.inj (h'.cur.trans h.cur.symm)⟩
  · rw [h.linked.decl_eq, h'.linked.decl_eq]
  · by_cases ha : a ∈ E.cells
    · obtain ⟨e, he, rfl⟩ := List.mem_map.mp ha
      obtain ⟨top, htop, he⟩ := List.mem_flatten.mp he
      obtain ⟨pre, rest, hE⟩ := List.append_of_mem htop
      have hmem : (rest.length, e) ∈ E.chainOf e.sym :=
        Env.mem_chainOf.mpr ⟨rfl, pre, top, rest, hE, rfl, he⟩
      obtain ⟨xs, ys, hxs⟩ := List.append_of_mem hmem
      have hc := h.linked.chain e.sym
      have hc' := h'.linked.chain e.sym
      rw [hxs] at hc hc'
      exact hc'.get.trans hc.get.symm
    · have hnone := not_not.mp (mt (h.linked.inUse a) ha)
      have hnone' := not_not.mp (mt (h'.linked.inUse a) ha)
      rw [hnone, hnone']

section

variable [DecidableEq α]

lemma Env.actAll_append {E E' : Env σ α τ} {acts acts' : List (Action σ α τ)} :
    E.actAll (acts ++ acts') = some E' ↔
      ∃ E₁, E.actAll acts = some E₁ ∧ E₁.actAll acts' = some E' := by
  rw [actAll, List.foldlM_append]
  exact Option.bind_eq_some_iff

lemma Env.actAll_cons {E E' : Env σ α τ} {act : Action σ α τ} {acts : List (Action σ α τ)} :
    E.actAll (act :: acts) = some E' ↔ ∃ E₁, E.act act = some E₁ ∧ E₁.actAll acts = some E' := by
  rw [actAll, List.foldlM_cons]
  exact Option.bind_eq_some_iff

/-- A balanced sequence changes the innermost scope only. -/
lemma Env.Balanced.tail_eq {acts : List (Action σ α τ)} (hb : Balanced acts) {E E' : Env σ α τ}
    (h : E.actAll acts = some E') : E'.tail = E.tail ∧ (E ≠ [] → E' ≠ []) := by
  induction hb generalizing E E' with
  | nil =>
      obtain rfl := Option.some.inj h
      exact ⟨rfl, id⟩
  | declare _ ih =>
      obtain ⟨E₁, hact, h⟩ := actAll_cons.mp h
      obtain ⟨htail, hne⟩ := ih h
      rw [act] at hact
      split at hact
      · obtain rfl := Option.some.inj hact
        exact ⟨htail, hne⟩
      · split at hact
        · cases hact
        · obtain rfl := Option.some.inj hact
          exact ⟨htail, fun _ => hne (List.cons_ne_nil _ _)⟩
  | block _ _ ih ih' =>
      -- the push puts the whole environment in the tail, and the pop takes it from there
      obtain ⟨E₁, hin, hout⟩ := actAll_append.mp h
      obtain ⟨E₀, hpush, hin⟩ := actAll_cons.mp hin
      obtain ⟨E₂, hpop, hout⟩ := actAll_cons.mp hout
      rw [act] at hpush
      rw [act] at hpop
      split at hpush
      · obtain rfl := Option.some.inj hpush
        split at hpop
        · obtain rfl := Option.some.inj hpop
          obtain ⟨htail, -⟩ := ih hin
          rw [List.tail_cons] at htail
          rw [htail] at hout
          exact ih' hout
        · cases hpop
      · cases hpush

/-- A scope that is opened and closed again leaves no trace. -/
lemma Env.actAll_block {acts : List (Action σ α τ)} (hb : Balanced acts) {E E' : Env σ α τ}
    (h : E.actAll (.push :: acts ++ [.pop]) = some E') : E' = E := by
  have hblock : E.actAll (.push :: acts ++ .pop :: []) = some E' := h
  obtain ⟨E₁, hin, hout⟩ := actAll_append.mp hblock
  obtain ⟨E₀, hpush, hin⟩ := actAll_cons.mp hin
  obtain ⟨E₂, hpop, hout⟩ := actAll_cons.mp hout
  obtain rfl := Option.some.inj hout
  rw [act] at hpush
  rw [act] at hpop
  split at hpush
  · obtain rfl := Option.some.inj hpush
    split at hpop
    · obtain rfl := Option.some.inj hpop
      exact (hb.tail_eq hin).1
    · cases hpop
  · cases hpush

/-- What the state says about the names when the environments `E` are open: each symbol has the
declaration made in the innermost scope that declares it; the chain from there has exactly its
enclosing declarations, with decreasing scope numbers (`Env.mem_chainOf` says which these are);
the array has the declared symbols. -/
structure Lexical (s : State σ α τ υ) (E : Env σ α τ) : Prop where
  resolves : ∀ sym, s.decl sym = (E.innermost sym).map Entry.cell
  chain : ∀ sym, Segment (fun x => x.2.cell) declCell s.heap (s.decl sym) (E.chainOf sym) none
  enclosing : ∀ sym k e, (k, e) ∈ E.chainOf sym ↔
    e.sym = sym ∧ ∃ pre top rest, E = pre ++ top :: rest ∧ rest.length = k ∧ e ∈ top
  decreasing : ∀ sym, (E.chainOf sym).Pairwise fun x y => y.1 < x.1
  decls : s.decls = E.names
  depth : s.curScope + 1 = E.length

/-- What `declare` does, depending on whether the current scope declares the symbol already. -/
structure DeclareCorrect (s : State σ α τ υ) (E : Env σ α τ) : Prop where
  duplicate : ∀ sym type srcPos a, (∃ e ∈ E.headD [], e.sym = sym) →
    declare s sym type srcPos a =
      some { s with errors := s.errors ++ [(srcPos, "duplicate identifier")] }
  new : ∀ sym type srcPos a, ¬(∃ e ∈ E.headD [], e.sym = sym) → a ∉ E.cells →
    ∃ s', declare s sym type srcPos a = some s' ∧ s'.errors = s.errors ∧ s'.decl sym = some a ∧
      s'.heap a = some ⟨type, s.curScope, false, none, s.decl sym⟩

/-- A scope that is opened now and closed later, with any declarations and whole blocks in
between, leaves the declarations as they are. -/
def BlockRestores (s : State σ α τ υ) (E : Env σ α τ) : Prop :=
  ∀ acts, Env.Balanced acts → ∀ E', E.actAll (.push :: acts ++ [.pop]) = some E' →
    ∃ s', performAll s (.push :: acts ++ [.pop]) = some s' ∧ s'.decl = s.decl ∧
      s'.heap = s.heap ∧ s'.decls = s.decls ∧ s'.curScope = s.curScope

/-- **Name resolution is lexical scoping**, after every sequence of actions. -/
theorem scoping_lexical {acts : List (Action σ α τ)} {E : Env σ α τ}
    (h : Env.actAll [[]] acts = some E) :
    ∃ s : State σ α τ υ, performAll declInit acts = some s ∧ Lexical s E ∧ DeclareCorrect s E ∧
      BlockRestores s E := by
  obtain ⟨s, heq, hs⟩ := represents_init.performAll h
  refine ⟨s, heq, ⟨hs.linked.decl_eq, hs.linked.chain, fun _ _ _ => Env.mem_chainOf,
    Env.chainOf_decreasing hs.linked.once, hs.decls, hs.cur⟩, ⟨?_, ?_⟩, ?_⟩
  · rintro sym type srcPos a ⟨e, he, rfl⟩
    exact hs.declare_duplicate type srcPos a (List.mem_map.mpr ⟨e, he, rfl⟩)
  · intro sym type srcPos a hn ha
    have hmem : sym ∉ (E.headD []).map Entry.sym := fun hmem => by
      obtain ⟨e, he, hsym⟩ := List.mem_map.mp hmem
      exact hn ⟨e, he, hsym⟩
    obtain ⟨s', heq', -, hs'⟩ := hs.declare_new type srcPos hmem ha
    exact ⟨s', heq', hs'⟩
  · intro acts' hb E' hE'
    obtain rfl := Env.actAll_block hb hE'
    obtain ⟨s', heq', hs'⟩ := hs.performAll hE'
    exact ⟨s', heq', hs.unique hs'⟩

end

end

/-- A variable that is shadowed in an inner block, which is closed again. -/
def shadowing : List (Action ℕ ℕ ℕ) :=
  [.push, .declare 0 7 ⟨1, 1⟩ 10, .push, .declare 0 8 ⟨2, 1⟩ 11, .declare 1 7 ⟨3, 1⟩ 12,
    .declare 0 7 ⟨4, 1⟩ 13, .pop]

theorem scoping_lexical_shadowing : ∃ s : State ℕ ℕ ℕ Unit,
    performAll declInit shadowing = some s ∧ Lexical s [[⟨0, 10, 7⟩], []] ∧
      DeclareCorrect s [[⟨0, 10, 7⟩], []] ∧ BlockRestores s [[⟨0, 10, 7⟩], []] :=
  scoping_lexical (show Env.actAll [[]] shadowing = some [[⟨0, 10, 7⟩], []] from rfl)

end Javalette.Scope
