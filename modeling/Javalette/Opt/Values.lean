import Javalette.Opt.Keys

/-!
# Values of the graph of a basic block

Each node of the graph stands for a value: a leaf for a constant or for the value that a variable
had when the graph was begun, any other node for an operation on two nodes.  While the block is
read, the node of a variable stands for the value that the variable has at that point of the
block, and a variable without a node still has its first value (`Represents`).

What the operations compute is a parameter, of which only the law is used that operands are
exchanged by: sums and products are commutative.  The quadruples that are no operations and no
copies end a graph; what they do to the variables is a parameter as well.
-/

namespace Javalette.Opt

open Rbtree

variable {ν β V : Type}

/-- The meaning of the operators and the constants. -/
structure Arith (V : Type) where
  op : QuadrOp → V → V → V
  int : BitVec 32 → V
  double : BitVec 64 → V
  comm : ∀ o x y, isCommutative o → op o x y = op o y x

/-- The value of an operand. -/
def argValue (M : Arith V) (ρ : ν → V) : QuadrArg ν β → Option V
  | .var v => some (ρ v)
  | .int i => some (M.int i)
  | .double d => some (M.double d)
  | _ => none

/-- The node at `a` stands for `x`, where the variables had the values `ρ` in the beginning. -/
inductive Denotes (M : Arith V) (ρ : ν → V) (pool : ℕ → Option (GraphNode ν β)) : ℕ → V → Prop
  | leaf {a : ℕ} {n : GraphNode ν β} {arg : QuadrArg ν β} {x : V} (ha : pool a = some n)
      (hu : n.u = .inl arg) (hx : argValue M ρ arg = some x) : Denotes M ρ pool a x
  | operation {a : ℕ} {n : GraphNode ν β} {op : QuadrOp} {x y : V} (ha : pool a = some n)
      (hu : n.u = .inr op) (hx : Denotes M ρ pool n.left x) (hy : Denotes M ρ pool n.right y) :
      Denotes M ρ pool a (M.op op x y)

/-- The values of the variables where the graph has been begun, and now. -/
abbrev Valuations (ν V : Type) := (ν → V) × (ν → V)

section Execute

variable [DecidableEq ν]

/-- One quadruple; `other` is what a quadruple that ends the graph does to the variables. -/
def execute (M : Arith V) (other : Quadr ν β → (ν → V) → ν → V) (s : Valuations ν V)
    (q : Quadr ν β) : Valuations ν V :=
  match q.op, q.result with
  | .add, .var v | .sub, .var v | .div, .var v | .mul, .var v | .mod, .var v =>
      match argValue M s.2 q.arg1, argValue M s.2 q.arg2 with
      | some x, some y => (s.1, Function.update s.2 v (M.op q.op x y))
      | _, _ => s
  | .copy, .var v =>
      match argValue M s.2 q.arg1 with
      | some x => (s.1, Function.update s.2 v x)
      | none => s
  | _, _ => (other q s.2, other q s.2)

end Execute

/-- The graph represents the values `s`. -/
structure Represents (M : Arith V) (s : Valuations ν V) (g : Dag ν β) : Prop where
  nodes : ∀ a, (g.pool a).isSome → ∃ x, Denotes M s.1 g.pool a x
  int : ∀ i, g.intLeaf i ≠ NULL → Denotes M s.1 g.pool (g.intLeaf i) (M.int i)
  double : ∀ d, PlainDouble d → g.doubleLeaf d ≠ NULL →
    Denotes M s.1 g.pool (g.doubleLeaf d) (M.double d)
  var : ∀ v, g.varNode v ≠ NULL → Denotes M s.1 g.pool (g.varNode v) (s.2 v)
  untouched : ∀ v, g.varNode v = NULL → s.2 v = s.1 v

/-- The constant can be told from the others by `double_leaves`: it is a number and not `-0.0`. -/
def PlainConstant : QuadrArg ν β → Prop
  | .double d => PlainDouble d
  | _ => True

variable {M : Arith V} {ρ : ν → V} {s : Valuations ν V} {g g' g'' : Dag ν β}

/-! ## Denotations -/

lemma argValue_of_operand (M : Arith V) (ρ : ν → V) {arg : QuadrArg ν β}
    (h : Formed.Operand arg) : ∃ x, argValue M ρ arg = some x := by
  cases arg with
  | var | int | double => exact ⟨_, rfl⟩
  | none | label | str | func => exact h.elim

/-- A node stands for one value. -/
lemma Denotes.unique {pool : ℕ → Option (GraphNode ν β)} {a : ℕ} {x y : V}
    (hx : Denotes M ρ pool a x) (hy : Denotes M ρ pool a y) : x = y := by
  induction hx generalizing y with
  | leaf ha hu hx =>
      cases hy with
      | leaf ha' hu' hy =>
          rw [ha, Option.some.injEq] at ha'
          rw [ha', hu', Sum.inl.injEq] at hu
          rw [← hu, hy, Option.some.injEq] at hx
          exact hx.symm
      | operation ha' hu' _ _ =>
          rw [ha, Option.some.injEq] at ha'
          rw [ha', hu'] at hu
          cases hu
  | operation ha hu _ _ ihx ihy =>
      cases hy with
      | leaf ha' hu' _ =>
          rw [ha, Option.some.injEq] at ha'
          rw [ha', hu'] at hu
          cases hu
      | operation ha' hu' hx' hy' =>
          rw [ha, Option.some.injEq] at ha'
          subst ha'
          rw [hu', Sum.inr.injEq] at hu
          rw [hu, ihx hx', ihy hy']

/-- The nodes of `p` are in `p'`. -/
def Embeds (p p' : ℕ → Option (GraphNode ν β)) : Prop :=
  ∀ b m, p b = some m → ∃ m', p' b = some m' ∧ m'.fixed = m.fixed

lemma SameNodes.embeds {p p' : ℕ → Option (GraphNode ν β)} (h : SameNodes p p') :
    Embeds p p' := fun _ _ hb => h.symm.at hb

lemma embeds_alloc {a : ℕ} {n : GraphNode ν β} (h : g.alloc a n = some g') :
    Embeds g.pool g'.pool := by
  obtain ⟨-, hfresh, rfl⟩ := alloc_eq_some h
  intro b m hb
  exact ⟨m, some_of_alloc hfresh _ hb, rfl⟩

lemma Embeds.trans {p p' p'' : ℕ → Option (GraphNode ν β)} (h : Embeds p p')
    (h' : Embeds p' p'') : Embeds p p'' := by
  intro b m hb
  obtain ⟨m', hb', hfix⟩ := h b m hb
  obtain ⟨m'', hb'', hfix'⟩ := h' b m' hb'
  exact ⟨m'', hb'', hfix'.trans hfix⟩

/-- What a node stands for does not change when the pool grows. -/
lemma Denotes.mono {p p' : ℕ → Option (GraphNode ν β)} (hp : Embeds p p') {a : ℕ} {x : V}
    (h : Denotes M ρ p a x) : Denotes M ρ p' a x := by
  induction h with
  | leaf ha hu hx =>
      obtain ⟨m, hm, hfix⟩ := hp _ _ ha
      exact .leaf hm ((fixed_eq_iff.mp hfix).2.2.2.1.trans hu) hx
  | operation ha hu _ _ ihx ihy =>
      obtain ⟨m, hm, hfix⟩ := hp _ _ ha
      obtain ⟨-, hleft, hright, hu', -, -⟩ := fixed_eq_iff.mp hfix
      exact .operation hm (hu'.trans hu) (hleft ▸ ihx) (hright ▸ ihy)

/-- A node with the same operation stands for the same value. -/
lemma Denotes.of_sameOperation {p : ℕ → Option (GraphNode ν β)} {a b : ℕ} {n m : GraphNode ν β}
    {x : V} (h : Denotes M ρ p a x) (ha : p a = some n) (hb : p b = some m)
    (hop : m.SameOperation n) : Denotes M ρ p b x := by
  obtain ⟨hu, hleft, hright⟩ := hop
  cases h with
  | leaf ha' hu' hx =>
      rw [ha, Option.some.injEq] at ha'
      subst ha'
      exact .leaf hb (hu.trans hu') hx
  | operation ha' hu' hx hy =>
      rw [ha, Option.some.injEq] at ha'
      subst ha'
      exact .operation hb (hu.trans hu') (hleft ▸ hx) (hright ▸ hy)

/-! ## The functions on the graph -/

/-- The graph after a change that keeps the tables and the nodes, and whose new nodes stand for
values. -/
lemma Represents.of_embeds (hr : Represents M s g) (hp : Embeds g.pool g'.pool)
    (hnew : ∀ a, (g'.pool a).isSome → g.pool a = none → ∃ x, Denotes M s.1 g'.pool a x)
    (hint : g'.intLeaves = g.intLeaves) (hdouble : g'.doubleLeaves = g.doubleLeaves)
    (hvar : g'.varNode = g.varNode) : Represents M s g' where
  nodes a ha := by
    cases hold : g.pool a with
    | none => exact hnew a ha hold
    | some n =>
        obtain ⟨x, hx⟩ := hr.nodes a (by rw [hold]; rfl)
        exact ⟨x, hx.mono hp⟩
  int i := by
    rw [intLeaf_congr hint]
    exact fun hne => (hr.int i hne).mono hp
  double d hd := by
    rw [doubleLeaf_congr hdouble]
    exact fun hne => (hr.double d hd hne).mono hp
  var v := by
    rw [hvar]
    exact fun hne => (hr.var v hne).mono hp
  untouched v := by
    rw [hvar]
    exact hr.untouched v

lemma Represents.of_keeps (hr : Represents M s g) (hk : Keeps g g')
    (hvar : g'.varNode = g.varNode) : Represents M s g' := by
  apply hr.of_embeds hk.pool.embeds ?_ hk.intLeaves hk.doubleLeaves hvar
  intro a ha hnone
  rw [hk.pool.eq_none hnone] at ha
  cases ha

lemma alloc_self {a : ℕ} {n : GraphNode ν β} (h : g.alloc a n = some g') :
    g'.pool a = some { n with id := g.nextId } := by
  obtain ⟨-, -, rfl⟩ := alloc_eq_some h
  exact Function.update_self a _ g.pool

/-- The graph with a new node that stands for a value. -/
lemma Represents.of_alloc {a : ℕ} {n : GraphNode ν β} {x : V} (hr : Represents M s g)
    (h : g.alloc a n = some g') (ha : Denotes M s.1 g'.pool a x) : Represents M s g' := by
  have hp := embeds_alloc h
  obtain ⟨-, -, rfl⟩ := alloc_eq_some h
  apply hr.of_embeds hp ?_ rfl rfl rfl
  intro b hb hnone
  by_cases hba : b = a
  · exact ⟨x, hba ▸ ha⟩
  · dsimp only at hb
    rw [Function.update_of_ne hba, hnone] at hb
    cases hb

/-- A new leaf stands for its argument. -/
lemma newGraphLeaf_represents {arg : QuadrArg ν β} {a : ℕ} {x : V} (hr : Represents M s g)
    (hx : argValue M s.1 arg = some x) (h : newGraphLeaf g arg a = some g') :
    Represents M s g' ∧ Denotes M s.1 g'.pool a x ∧ Embeds g.pool g'.pool ∧
      g'.varNode = g.varNode := by
  have ha : Denotes M s.1 g'.pool a x := .leaf (alloc_self h) rfl hx
  refine ⟨hr.of_alloc h ha, ha, embeds_alloc h, ?_⟩
  rw [(alloc_eq_some h).2.2]

/-- The new node stands for the operation on what its operands stand for. -/
lemma newOrderedRoot_represents {w : ℕ} {op : QuadrOp} {left right a : ℕ} {x y : V}
    (hr : Represents M s g) (hx : Denotes M s.1 g.pool left x)
    (hy : Denotes M s.1 g.pool right y) (h : newOrderedRoot w g op left right a = some g') :
    Represents M s g' ∧ Denotes M s.1 g'.pool a (M.op op x y) ∧ Embeds g.pool g'.pool := by
  obtain ⟨key, -, h⟩ := Option.bind_eq_some_iff.mp h
  obtain ⟨g₁, halloc, h⟩ := Option.bind_eq_some_iff.mp h
  obtain ⟨g₂, hleft, hright⟩ := Option.bind_eq_some_iff.mp h
  obtain ⟨hkeep, hvar⟩ := useOperand_keeps hleft
  obtain ⟨hkeep', hvar'⟩ := useOperand_keeps hright
  have hk := hkeep.trans hkeep'
  have hp := embeds_alloc halloc
  have ha : Denotes M s.1 g₁.pool a (M.op op x y) :=
    .operation (alloc_self halloc) rfl (hx.mono hp) (hy.mono hp)
  exact ⟨(hr.of_alloc halloc ha).of_keeps hk (hvar'.trans hvar), ha.mono hk.pool.embeds,
    hp.trans hk.pool.embeds⟩

/-- **`new_graph_root`**: the new node stands for the operation, also when the operands have been
exchanged. -/
lemma newGraphRoot_represents {w : ℕ} {op : QuadrOp} {left right a : ℕ} {x y : V}
    (hr : Represents M s g) (hx : Denotes M s.1 g.pool left x)
    (hy : Denotes M s.1 g.pool right y) (h : newGraphRoot w g op left right a = some g') :
    Represents M s g' ∧ Denotes M s.1 g'.pool a (M.op op x y) ∧ Embeds g.pool g'.pool := by
  unfold newGraphRoot at h
  split at h
  · next hswap =>
      rw [M.comm op x y hswap.1]
      exact newOrderedRoot_represents hr hy hx h
  · exact newOrderedRoot_represents hr hx hy h

/-- The node that stands for an operation after `rb_insert_if_absent` stands for its value. -/
lemma insertRoot_represents {w : ℕ} {a b : ℕ} {x : V} (hw : 32 ≤ w) (hs : Sound w g)
    (hlt : g.nextId < 2 ^ 13) (hr : Represents M s g) (hg : Grown w g a g')
    (hr' : Represents M s g') (ha : Denotes M s.1 g'.pool a x) (hp : Embeds g.pool g'.pool)
    (h : insertRoot g' a = some (b, g'')) :
    Represents M s g'' ∧ Denotes M s.1 g''.pool b x := by
  have hs' := hg.sound hs hlt
  obtain ⟨n, hn, h⟩ := Option.bind_eq_some_iff.mp h
  have hleaf : n.tag ≠ .leaf := by
    obtain ⟨m, g₁, hm, -, halloc, hkeep, -⟩ := hg
    obtain ⟨m', hm', hfix⟩ := hkeep.pool.at hn
    rw [alloc_self halloc, Option.some.injEq] at hm'
    rw [fixed_eq_iff, ← hm'] at hfix
    exact mt hfix.2.2.2.2.2.mpr hm
  split at h
  · next c hc =>
      obtain ⟨g₁, hfree, h⟩ := Option.bind_eq_some_iff.mp h
      cases h
      have hkeep := freeGraphNode_keeps hlt hg hfree
      have hvar : g''.varNode = g.varNode := by
        obtain ⟨m, -, hfree⟩ := Option.bind_eq_some_iff.mp hfree
        cases hfree
        obtain ⟨_, _, _, _, _, _, hv⟩ := hg
        exact hv
      refine ⟨hr.of_keeps hkeep hvar, ?_⟩
      -- the node that has been found was there before, and stood for the same value
      obtain ⟨m, hm, -, hop⟩ := (hs'.identifies hw).merge a n b hn hleaf hc
      have hb' := ha.of_sameOperation hn hm hop
      have hgraph : g'.graph = g.graph := by
        obtain ⟨_, g₀, _, _, halloc, hk, _⟩ := hg
        rw [hk.graph, (alloc_eq_some halloc).2.2]
      obtain ⟨m₀, hm₀, -⟩ := hs.graph _ _ (hgraph ▸ hc)
      obtain ⟨z, hz⟩ := hr.nodes b (Option.isSome_of_mem hm₀)
      rw [← (hz.mono hp).unique hb']
      exact hz.mono hkeep.pool.embeds
  · cases h
    exact ⟨⟨hr'.nodes, hr'.int, hr'.double, hr'.var, hr'.untouched⟩, ha⟩

/-! ## The variables -/

lemma represents_resetGraph (M : Arith V) (ρ : ν → V) :
    Represents M (ρ, ρ) (resetGraph : Dag ν β) where
  nodes _ h := by cases h
  int _ h := absurd rfl h
  double _ _ h := absurd rfl h
  var _ h := absurd rfl h
  untouched _ _ := rfl

lemma Denotes.isSome {pool : ℕ → Option (GraphNode ν β)} {a : ℕ} {x : V}
    (h : Denotes M ρ pool a x) : (pool a).isSome := by
  cases h with
  | leaf ha | operation ha => exact Option.isSome_of_mem ha

lemma Denotes.ne_null {a : ℕ} {x : V} (h : Denotes M ρ g.pool a x) (hnull : g.pool NULL = none) :
    a ≠ NULL := by
  rintro rfl
  have hsome := h.isSome
  rw [hnull] at hsome
  cases hsome

section Variables

variable [DecidableEq ν]

/-- **`add_var`** gives the variable the value that the node stands for. -/
lemma addVar_represents {a : ℕ} {v : ν} {x : V} (hr : Represents M s g)
    (ha : Denotes M s.1 g.pool a x) (hne : a ≠ NULL) (h : addVar g a v = some g') :
    Represents M (s.1, Function.update s.2 v x) g' := by
  have hk := addVar_keeps h
  have hp := hk.pool.embeds
  have hvar := addVar_varNode h
  constructor
  case nodes =>
    intro b hb
    rw [← Option.isSome_map (f := GraphNode.fixed), hk.pool b, Option.isSome_map] at hb
    obtain ⟨y, hy⟩ := hr.nodes b hb
    exact ⟨y, hy.mono hp⟩
  case int =>
    intro i
    rw [intLeaf_congr hk.intLeaves]
    exact fun hi => (hr.int i hi).mono hp
  case double =>
    intro d hplain
    rw [doubleLeaf_congr hk.doubleLeaves]
    exact fun hd => (hr.double d hplain hd).mono hp
  case var =>
    intro v' hv'
    rw [hvar] at hv' ⊢
    -- only `v` moves, and what it now denotes is the value of the node `a`
    by_cases hvv : v' = v
    · subst hvv
      simpa only [Function.update_self] using ha.mono hp
    · rw [Function.update_of_ne hvv] at hv' ⊢
      simpa only [Function.update_of_ne hvv] using (hr.var v' hv').mono hp
  case untouched =>
    intro v' hv'
    rw [hvar] at hv'
    by_cases hvv : v' = v
    · rw [hvv, Function.update_self] at hv'
      exact absurd hv' hne
    · rw [Function.update_of_ne hvv] at hv'
      simpa only [Function.update_of_ne hvv] using hr.untouched v' hv'

lemma removeVar_varNode {a : ℕ} {v : ν} (h : removeVar g a v = some g') :
    g'.varNode = g.varNode := by
  obtain ⟨n, -, h⟩ := Option.bind_eq_some_iff.mp h
  split at h <;> cases h <;> rfl

lemma moveVar_represents {res a : ℕ} {v : ν} {x : V} (hr : Represents M s g)
    (ha : Denotes M s.1 g.pool a x) (hne : a ≠ NULL) (h : moveVar g res a v = some g') :
    Represents M (s.1, Function.update s.2 v x) g' := by
  obtain ⟨g₁, h₁, h⟩ := Option.bind_eq_some_iff.mp h
  split at h₁
  · cases h₁
    exact addVar_represents hr ha hne h
  · have hk := removeVar_keeps h₁
    exact addVar_represents (hr.of_keeps hk (removeVar_varNode h₁)) (ha.mono hk.pool.embeds) hne h

/-- **`get_node`** finds or makes a node that stands for the operand. -/
lemma getNode_represents {w : ℕ} {arg : QuadrArg ν β} {a b : ℕ} {x : V} (hs : Sound w g)
    (hr : Represents M s g) (hplain : PlainConstant arg) (hx : argValue M s.2 arg = some x)
    (h : getNode g arg a = some (b, g')) :
    Represents M s g' ∧ Denotes M s.1 g'.pool b x ∧ Embeds g.pool g'.pool := by
  have hrefl : Embeds g.pool g.pool := fun _ m hb => ⟨m, hb, rfl⟩
  cases arg with
  | int i =>
      cases hx
      unfold getNode at h
      dsimp only at h
      split at h
      · next hnull =>
          obtain ⟨g₁, hleaf, h⟩ := Option.bind_eq_some_iff.mp h
          cases h
          obtain ⟨hr₁, ha, hp, -⟩ := newGraphLeaf_represents hr rfl hleaf
          have hmap : g₁.intLeaves = g.intLeaves := by rw [(alloc_eq_some hleaf).2.2]
          refine ⟨{ hr₁ with int := fun j hj => ?_ }, ha, hp⟩
          have hset : ({ g₁ with
              intLeaves := OrderedMap.set BitVec.slt i a g₁.intLeaves } : Dag ν β).intLeaves =
                OrderedMap.set BitVec.slt i a g.intLeaves := congrArg _ hmap
          obtain heq | ⟨heq, rfl⟩ := intLeaf_set (j := j) hs hnull hset
          · rw [heq, ← intLeaf_congr hmap] at hj ⊢
            exact hr₁.int j hj
          · rwa [heq]
      · next hne =>
          cases h
          exact ⟨hr, hr.int i hne, hrefl⟩
  | double d =>
      cases hx
      unfold getNode at h
      dsimp only at h
      split at h
      · next hnull =>
          obtain ⟨g₁, hleaf, h⟩ := Option.bind_eq_some_iff.mp h
          cases h
          obtain ⟨hr₁, ha, hp, -⟩ := newGraphLeaf_represents hr rfl hleaf
          have hmap : g₁.doubleLeaves = g.doubleLeaves := by rw [(alloc_eq_some hleaf).2.2]
          refine ⟨{ hr₁ with double := fun e hplain' he => ?_ }, ha, hp⟩
          have hset : ({ g₁ with doubleLeaves := OrderedMap.set doubleLess d a g₁.doubleLeaves } :
              Dag ν β).doubleLeaves =
                OrderedMap.set doubleLess d a g.doubleLeaves := congrArg _ hmap
          obtain heq | ⟨heq, hsame⟩ := doubleLeaf_set (e := e) hs hnull hset
          · rw [heq, ← doubleLeaf_congr hmap] at he ⊢
            exact hr₁.double e hplain' he
          · rwa [heq, ← eq_of_same_doubleLess hplain hplain' hsame]
      · next hne =>
          cases h
          exact ⟨hr, hr.double d hplain hne, hrefl⟩
  | var v =>
      cases hx
      unfold getNode at h
      dsimp only at h
      split at h
      · next hnull =>
          obtain ⟨g₁, hleaf, h⟩ := Option.bind_eq_some_iff.mp h
          obtain ⟨g₂, hadd, h⟩ := Option.bind_eq_some_iff.mp h
          cases h
          -- a variable without a node still has its first value
          have hfirst : argValue M s.1 (.var v : QuadrArg ν β) = some (s.2 v) :=
            congrArg some (hr.untouched v hnull).symm
          obtain ⟨hr₁, ha, hp, -⟩ := newGraphLeaf_represents hr hfirst hleaf
          have hentered : Represents M s { g₁ with varLeaves := g₁.varLeaves ++ [a] } :=
            { hr₁ with }
          have hr₂ := addVar_represents hentered ha (alloc_eq_some hleaf).1 hadd
          rw [Function.update_eq_self] at hr₂
          have hp₂ := (addVar_keeps hadd).pool.embeds
          exact ⟨hr₂, ha.mono hp₂, hp.trans hp₂⟩
      · next hne =>
          cases h
          exact ⟨hr, hr.var v hne, hrefl⟩
  | none | label | str | func => cases hx

/-! ## The block -/

/-- The turn for a copy. -/
theorem optimizeCopy_represents {w : ℕ} {v : ν} {arg1 : QuadrArg ν β} {a : ℕ}
    {ms : List (Dag ν β)} {x : V} (hs : Sound w g) (hfit : g.nextId + absent g arg1 ≤ 2 ^ 13)
    (hr : Represents M s g) (harg1 : Formed.Operand arg1) (hplain : PlainConstant arg1)
    (hx : argValue M s.2 arg1 = some x) (h : optimizeCopy g v arg1 a = some ms) :
    Represents M (s.1, Function.update s.2 v x) (ms.getLastD g) := by
  obtain ⟨⟨node, g₁⟩, hread, h⟩ := Option.bind_eq_some_iff.mp h
  obtain ⟨g₂, hmove, h⟩ := Option.bind_eq_some_iff.mp h
  cases h
  have h₁ := getNode_reads hs hfit harg1 hread
  obtain ⟨hr₁, hnode, -⟩ := getNode_represents hs hr hplain hx hread
  exact moveVar_represents hr₁ hnode (hnode.ne_null h₁.sound.null) hmove

variable [DecidableEq β]

/-- After both operands there is room for the node of the operation. -/
lemma reads_operands {w : ℕ} {g₁ g₂ : Dag ν β} {arg1 arg2 : QuadrArg ν β} {a₁ a₂ x y : ℕ}
    (hs : Sound w g)
    (hfit : g.nextId + (absent g arg1 + (if arg1 = arg2 then 0 else absent g arg2) + 1) ≤ 2 ^ 13)
    (harg1 : Formed.Operand arg1) (harg2 : Formed.Operand arg2)
    (hleft : getNode g arg1 a₁ = some (x, g₁)) (hright : getNode g₁ arg2 a₂ = some (y, g₂)) :
    Reads w g arg1 x g₁ ∧ Reads w g₁ arg2 y g₂ ∧ g₂.nextId < 2 ^ 13 := by
  have h₁ := getNode_reads hs (by omega) harg1 hleft
  have habs : absent g₁ arg2 ≤ if arg1 = arg2 then 0 else absent g arg2 := by
    split
    · next heq => exact (heq ▸ h₁.absent_self).le
    · exact h₁.absent_le arg2
  have hid₁ := h₁.nextId
  have h₂ := getNode_reads h₁.sound (by omega) harg2 hright
  have hid₂ := h₂.nextId
  exact ⟨h₁, h₂, by omega⟩

/-- The turn for an operation. -/
theorem optimizeArith_represents {w : ℕ} {op : QuadrOp} {v : ν} {arg1 arg2 : QuadrArg ν β}
    {a₁ a₂ a₃ : ℕ} {ms : List (Dag ν β)} {x y : V} (hw : 32 ≤ w) (hs : Sound w g)
    (hfit : g.nextId + (absent g arg1 + (if arg1 = arg2 then 0 else absent g arg2) + 1) ≤ 2 ^ 13)
    (hr : Represents M s g) (harg1 : Formed.Operand arg1) (harg2 : Formed.Operand arg2)
    (hplain1 : PlainConstant arg1) (hplain2 : PlainConstant arg2)
    (hx : argValue M s.2 arg1 = some x) (hy : argValue M s.2 arg2 = some y)
    (h : optimizeArith w g op v arg1 arg2 a₁ a₂ a₃ = some ms) :
    Represents M (s.1, Function.update s.2 v (M.op op x y)) (ms.getLastD g) := by
  obtain ⟨⟨left, g₁⟩, hleft, h⟩ := Option.bind_eq_some_iff.mp h
  obtain ⟨⟨right, g₂⟩, hright, h⟩ := Option.bind_eq_some_iff.mp h
  obtain ⟨g₃, hroot, h⟩ := Option.bind_eq_some_iff.mp h
  obtain ⟨⟨node, g₄⟩, hins, h⟩ := Option.bind_eq_some_iff.mp h
  obtain ⟨g₅, hmove, h⟩ := Option.bind_eq_some_iff.mp h
  cases h
  obtain ⟨h₁, h₂, hlt⟩ := reads_operands hs hfit harg1 harg2 hleft hright
  obtain ⟨hr₁, hl₁, -⟩ := getNode_represents hs hr hplain1 hx hleft
  obtain ⟨hr₂, hr', hp⟩ := getNode_represents h₁.sound hr₁ hplain2 hy hright
  obtain ⟨hr₃, ha, hp'⟩ := newGraphRoot_represents hr₂ (hl₁.mono hp) hr' hroot
  have hgrown := newGraphRoot_grown h₂.sound.null (getNode_isSome h₁.node hright) h₂.node hroot
  obtain ⟨hr₄, hnode⟩ := insertRoot_represents hw h₂.sound hlt hr₂ hgrown hr₃ ha hp' hins
  have hs₄ := (insertRoot_sound h₂.sound hlt hgrown hins).1
  exact moveVar_represents hr₄ hnode (hnode.ne_null hs₄.null) hmove

/-- One turn of the loop follows one quadruple. -/
theorem optimizeQuadr_represents {w : ℕ} {q : Quadr ν β} {a : ℕ × ℕ × ℕ} {ms : List (Dag ν β)}
    (other : Quadr ν β → (ν → V) → ν → V) (hw : 32 ≤ w) (hs : Sound w g) (hq : Formed q)
    (hfit : Fits g q) (hplain : PlainConstant q.arg1 ∧ PlainConstant q.arg2)
    (hr : Represents M s g) (h : optimizeQuadr w g q a = some ms) :
    Represents M (execute M other s q) (ms.getLastD g) := by
  obtain ⟨op, result, arg1, arg2⟩ := q
  unfold Fits at hfit
  cases op with
  | add | sub | div | mul | mod =>
      obtain ⟨⟨v, rfl⟩, harg1, harg2⟩ := hq
      obtain ⟨x, hx⟩ := argValue_of_operand M s.2 harg1
      obtain ⟨y, hy⟩ := argValue_of_operand M s.2 harg2
      unfold execute
      dsimp only
      rw [hx, hy]
      exact optimizeArith_represents hw hs hfit hr harg1 harg2 hplain.1 hplain.2 hx hy h
  | copy =>
      obtain ⟨⟨v, rfl⟩, harg1⟩ := hq
      obtain ⟨x, hx⟩ := argValue_of_operand M s.2 harg1
      unfold execute
      dsimp only
      rw [hx]
      exact optimizeCopy_represents hs hfit hr harg1 hplain.1 hx h
  | _ =>
      cases h
      exact represents_resetGraph M _

lemma getLastD_append {α : Type} (l l' : List α) (x : α) :
    (l ++ l').getLastD x = l'.getLastD (l.getLastD x) := by
  simp only [List.getLastD_eq_getLast?, List.getLast?_append]
  cases l'.getLast? <;> simp

theorem optimizeLocal_represents {w : ℕ} (other : Quadr ν β → (ν → V) → ν → V) (hw : 32 ≤ w)
    (block : List (Quadr ν β × ℕ × ℕ × ℕ)) :
    ∀ {g : Dag ν β} {s : Valuations ν V} {ms : List (Dag ν β)}, Sound w g →
      (∀ qa ∈ block, Formed qa.1) → AllFit w g block →
      (∀ qa ∈ block, PlainConstant qa.1.arg1 ∧ PlainConstant qa.1.arg2) → Represents M s g →
      optimizeLocal w g block = some ms →
      Represents M ((block.map Prod.fst).foldl (execute M other) s) (ms.getLastD g) := by
  induction block with
  | nil =>
      intro g s ms _ _ _ _ hr h
      cases h
      exact hr
  | cons qa block ih =>
      intro g s ms hs hformed hfit hplain hr h
      obtain ⟨ms₁, hturn, h⟩ := Option.bind_eq_some_iff.mp h
      obtain ⟨ms₂, hrest, h⟩ := Option.bind_eq_some_iff.mp h
      cases h
      have hq := hformed qa List.mem_cons_self
      have hlast : Sound w (ms₁.getLastD g) := by
        rw [List.getLastD_eq_getLast?]
        cases hl : ms₁.getLast? with
        | none => exact hs
        | some m => exact optimizeQuadr_sound hs hq hfit.1 hturn m (List.mem_of_getLast? hl)
      have hturn' := optimizeQuadr_represents other hw hs hq hfit.1 (hplain qa List.mem_cons_self)
        hr hturn
      rw [getLastD_append, List.map_cons, List.foldl_cons]
      exact ih hlast (fun q hmem => hformed q (List.mem_cons_of_mem qa hmem)) (hfit.2 _ hturn)
        (fun q hmem => hplain q (List.mem_cons_of_mem qa hmem)) hturn' hrest

/-- **Values of the graph.**  As long as the graph of the block has at most 8192 nodes, after the
block the node of a variable stands for the value that the variable has there, in terms of the
values that the variables had when the graph was begun, and a variable without a node still has
that value. -/
theorem optimizeLocal_values {w : ℕ} (M : Arith V) (other : Quadr ν β → (ν → V) → ν → V)
    (ρ : ν → V) (hw : 32 ≤ w) (block : List (Quadr ν β × ℕ × ℕ × ℕ)) {ms : List (Dag ν β)}
    (hformed : ∀ qa ∈ block, Formed qa.1) (hfit : AllFit w resetGraph block)
    (hplain : ∀ qa ∈ block, PlainConstant qa.1.arg1 ∧ PlainConstant qa.1.arg2)
    (h : optimizeLocal w resetGraph block = some ms) :
    Represents M ((block.map Prod.fst).foldl (execute M other) (ρ, ρ))
      (ms.getLastD resetGraph) :=
  optimizeLocal_represents other hw block (sound_resetGraph w) hformed hfit hplain
    (represents_resetGraph M ρ) h

end Variables

/-- The arithmetic of the integers, for blocks without doubles. -/
def intArith : Arith (BitVec 32) where
  op
    | .add, x, y => x + y
    | .sub, x, y => x - y
    | .mul, x, y => x * y
    | .div, x, y => x.sdiv y
    | _, x, y => x.srem y
  int i := i
  double d := d.setWidth 32
  comm o x y h := by
    cases o with
    | add => exact BitVec.add_comm x y
    | mul => exact BitVec.mul_comm x y
    | _ => cases h

/-- Two sums of the same operands in either order, and their difference.  The second sum is found
in the tree, and its node is given back and used again. -/
def sameSumsBlock : List (Quadr ℕ Unit × ℕ × ℕ × ℕ) :=
  [(⟨.add, .var 1, .var 0, .int 7⟩, 1, 2, 3), (⟨.add, .var 2, .int 7, .var 0⟩, NULL, NULL, 4),
    (⟨.sub, .var 0, .var 1, .var 2⟩, NULL, NULL, 4)]

theorem optimizeLocal_values_sameSumsBlock :
    ∃ ms, optimizeLocal 64 resetGraph sameSumsBlock = some ms ∧
      (ms.getLastD resetGraph).varNode 2 = (ms.getLastD resetGraph).varNode 1 ∧
      Represents intArith ((fun _ => 5), fun v => if v = 0 then 0 else if v ≤ 2 then 12 else 5)
        (ms.getLastD resetGraph) := by
  have hvalues : (sameSumsBlock.map Prod.fst).foldl (execute intArith fun _ ρ => ρ)
      (fun _ => 5, fun _ => 5) =
        ((fun _ => 5), fun v => if v = 0 then 0 else if v ≤ 2 then 12 else 5) := by
    refine Prod.ext rfl (funext fun v => ?_)
    match v with
    | 0 | 1 | 2 => rfl
    | v + 3 => simp [sameSumsBlock, execute, argValue]
  rw [← hvalues]
  refine ⟨_, rfl, rfl, optimizeLocal_values (w := 64) intArith (fun _ ρ => ρ) (fun _ => 5)
    (by norm_num) sameSumsBlock ?_ ?_ ?_ rfl⟩
  · intro qa hqa
    simp only [sameSumsBlock, List.mem_cons, List.not_mem_nil, or_false] at hqa
    rcases hqa with rfl | rfl | rfl <;> exact ⟨⟨_, rfl⟩, trivial, trivial⟩
  · refine ⟨by unfold Fits; decide, fun ms h => ?_⟩
    cases h
    refine ⟨by unfold Fits; decide, fun ms h => ?_⟩
    cases h
    exact ⟨by unfold Fits; decide, fun _ _ => trivial⟩
  · intro qa hqa
    simp only [sameSumsBlock, List.mem_cons, List.not_mem_nil, or_false] at hqa
    rcases hqa with rfl | rfl | rfl <;> exact ⟨trivial, trivial⟩

end Javalette.Opt
