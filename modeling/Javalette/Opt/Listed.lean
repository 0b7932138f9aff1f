import Javalette.Opt.Values

/-!
# The shape of the graph of a basic block

What the generation of code relies on while it walks the graph: the variables on the list of an
operation are those whose node it is (`Lists`), the leaves are those that the maps and the list of
leaves have (`LeafTables`), and every operation is in the tree and below a root (`Ordered`).  The
lists of leaves may have variables on them that have got another node since, because `remove_var`
does nothing for a leaf.
-/

namespace Javalette.Opt

open Rbtree

variable {ν β V : Type}

/-! ## The invariants -/

/-- Each variable is on the list of its node, and on no list of another operation. -/
structure Lists (g : Dag ν β) : Prop where
  listed : ∀ v, g.varNode v ≠ NULL → ∃ n, g.pool (g.varNode v) = some n ∧ v ∈ n.varList
  current : ∀ a n v, g.pool a = some n → n.tag ≠ .leaf → v ∈ n.varList → g.varNode v = a
  nodup : ∀ a n, g.pool a = some n → n.tag ≠ .leaf → n.varList.Nodup
  touched : ∀ a n v, g.pool a = some n → v ∈ n.varList → g.varNode v ≠ NULL

/-- The leaves are those of variables, which `var_leaves` has, and those of constants, which the
maps have.  There is one for each operand that has been read, as long as the maps tell it from the
others. -/
structure LeafTables (g : Dag ν β) : Prop where
  leaf : ∀ a n, g.pool a = some n → n.tag = .leaf → ∃ arg, n.u = .inl arg ∧ Formed.Operand arg
  own : ∀ a n arg, g.pool a = some n → n.u = .inl arg → nodeOf g arg ≠ NULL
  unique : ∀ a b n m arg, g.pool a = some n → g.pool b = some m → n.u = .inl arg →
    m.u = .inl arg → a = b
  varLeaf : ∀ a n v, g.pool a = some n → n.u = .inl (.var v) → a ∈ g.varLeaves
  varLeaves : ∀ a ∈ g.varLeaves, ∃ n v, g.pool a = some n ∧ n.u = .inl (.var v)
  nodup : g.varLeaves.Nodup
  int : ∀ a n i, g.pool a = some n → n.u = .inl (.int i) → a ∈ g.intLeaves.map Prod.snd
  double : ∀ a n d, g.pool a = some n → n.u = .inl (.double d) → a ∈ g.doubleLeaves.map Prod.snd

/-- One operand of the operation is at `a`. -/
def GraphNode.Uses (n : GraphNode ν β) (a : ℕ) : Prop := n.tag ≠ .leaf ∧ (n.left = a ∨ n.right = a)

/-- The operators of the operations. -/
def isArith : QuadrOp → Bool
  | .add | .sub | .div | .mul | .mod => true
  | _ => false

/-- The operands of an operation are older than it, each operation is in the tree, and it is a
root or an operand. -/
structure Ordered (g : Dag ν β) : Prop where
  older : ∀ a n, g.pool a = some n → n.tag ≠ .leaf → ∃ l r, g.pool n.left = some l ∧
    g.pool n.right = some r ∧ l.id < n.id ∧ r.id < n.id
  tree : ∀ a n, g.pool a = some n → n.tag ≠ .leaf → g.graph.lookup n.key = some a
  used : ∀ a n, g.pool a = some n → n.tag = .internal → ∃ b m, g.pool b = some m ∧ m.Uses a
  op : ∀ a n op, g.pool a = some n → n.u = .inr op → isArith op

/-- The graph is ready for the generation of code. -/
structure Ready (g : Dag ν β) : Prop where
  lists : Lists g
  leaves : LeafTables g
  ordered : Ordered g

lemma ready_resetGraph : Ready (resetGraph : Dag ν β) where
  lists := by
    refine ⟨fun v h => absurd rfl h, ?_, ?_, ?_⟩
    all_goals intro a n
    · rintro v ⟨⟩
    · rintro ⟨⟩
    · rintro v ⟨⟩
  leaves := by
    refine ⟨?_, ?_, ?_, ?_, ?_, List.nodup_nil, ?_, ?_⟩
    all_goals intro a
    · rintro n ⟨⟩
    · rintro n arg ⟨⟩
    · rintro b n m arg ⟨⟩
    · rintro n v ⟨⟩
    · rintro ⟨⟩
    · rintro n i ⟨⟩
    · rintro n d ⟨⟩
  ordered := by
    refine ⟨?_, ?_, ?_, fun a n op ha => by cases ha⟩
    all_goals
      intro a n
      rintro ⟨⟩

/-! ## Writes that keep the lists -/

/-- The part of a node that `useOperand` keeps. -/
def GraphNode.kept (n : GraphNode ν β) := (n.fixed, n.varList)

/-- The nodes are the same up to their sizes and to which of them are roots. -/
def SameLists (p p' : ℕ → Option (GraphNode ν β)) : Prop :=
  ∀ a, (p' a).map GraphNode.kept = (p a).map GraphNode.kept

lemma SameLists.symm {p p' : ℕ → Option (GraphNode ν β)} (h : SameLists p p') :
    SameLists p' p := fun a => (h a).symm

lemma SameLists.trans {p p' p'' : ℕ → Option (GraphNode ν β)} (h : SameLists p p')
    (h' : SameLists p' p'') : SameLists p p'' := fun a => (h' a).trans (h a)

lemma SameLists.at {p p' : ℕ → Option (GraphNode ν β)} (h : SameLists p p') {a : ℕ}
    {n : GraphNode ν β} (ha : p' a = some n) :
    ∃ m, p a = some m ∧ m.fixed = n.fixed ∧ m.varList = n.varList := by
  have hmap := h a
  rw [ha, Option.map_some] at hmap
  obtain ⟨m, hm, heq⟩ := Option.map_eq_some_iff.mp hmap.symm
  exact ⟨m, hm, congrArg Prod.fst heq, congrArg Prod.snd heq⟩

lemma SameLists.sameNodes {p p' : ℕ → Option (GraphNode ν β)} (h : SameLists p p') :
    SameNodes p p' := by
  intro a
  have hmap := congrArg (Option.map Prod.fst) (h a)
  rwa [Option.map_map, Option.map_map] at hmap

lemma leaf_iff_of_fixed {n m : GraphNode ν β} (h : n.fixed = m.fixed) :
    n.tag = .leaf ↔ m.tag = .leaf := (fixed_eq_iff.mp h).2.2.2.2.2

lemma u_eq_of_fixed {n m : GraphNode ν β} (h : n.fixed = m.fixed) : n.u = m.u :=
  (fixed_eq_iff.mp h).2.2.2.1

section

variable {g g' : Dag ν β}

lemma Lists.congr (h : Lists g) (hp : SameLists g.pool g'.pool) (hvar : g'.varNode = g.varNode) :
    Lists g' := by
  refine ⟨fun v hv => ?_, fun a n v ha hn hv => ?_, fun a n ha hn => ?_, fun a n v ha hv => ?_⟩
  · rw [hvar] at hv ⊢
    obtain ⟨n, hn, hmem⟩ := h.listed v hv
    obtain ⟨m, hm, -, hlist⟩ := hp.symm.at hn
    exact ⟨m, hm, hlist ▸ hmem⟩
  all_goals obtain ⟨m, hm, hfix, hlist⟩ := hp.at ha
  · rw [hvar]
    exact h.current a m v hm (mt (leaf_iff_of_fixed hfix).mp hn) (hlist ▸ hv)
  · rw [← hlist]
    exact h.nodup a m hm (mt (leaf_iff_of_fixed hfix).mp hn)
  · rw [hvar]
    exact h.touched a m v hm (hlist ▸ hv)

lemma nodeOf_ne_null (hint : g'.intLeaves = g.intLeaves)
    (hdouble : g'.doubleLeaves = g.doubleLeaves)
    (hvar : ∀ v, g.varNode v ≠ NULL → g'.varNode v ≠ NULL) (arg : QuadrArg ν β)
    (h : nodeOf g arg ≠ NULL) : nodeOf g' arg ≠ NULL := by
  cases arg with
  | int i => exact (intLeaf_congr hint i).trans_ne h
  | double d => exact (doubleLeaf_congr hdouble d).trans_ne h
  | var v => exact hvar v h
  | none | label | str | func => exact h

lemma LeafTables.congr (h : LeafTables g) (hp : SameNodes g.pool g'.pool)
    (hvl : g'.varLeaves = g.varLeaves) (hint : g'.intLeaves = g.intLeaves)
    (hdouble : g'.doubleLeaves = g.doubleLeaves)
    (hvar : ∀ v, g.varNode v ≠ NULL → g'.varNode v ≠ NULL) : LeafTables g' := by
  -- the leaves are the same nodes, with the same constants and variables in them
  have hat : ∀ a n, g'.pool a = some n → ∃ m, g.pool a = some m ∧ m.fixed = n.fixed ∧
      m.u = n.u := by
    intro a n ha
    obtain ⟨m, hm, hfix⟩ := hp.at ha
    exact ⟨m, hm, hfix, u_eq_of_fixed hfix⟩
  refine ⟨fun a n ha hn => ?_, fun a n arg ha hu => ?_, fun a b n n' arg ha hb hu hu' => ?_,
    fun a n v ha hu => ?_, fun a ha => ?_, hvl ▸ h.nodup, fun a n i ha hu => ?_,
    fun a n d ha hu => ?_⟩
  · obtain ⟨m, hm, hfix, hmu⟩ := hat a n ha
    rw [← hmu]
    exact h.leaf a m hm ((leaf_iff_of_fixed hfix).mpr hn)
  · obtain ⟨m, hm, -, hmu⟩ := hat a n ha
    exact nodeOf_ne_null hint hdouble hvar arg (h.own a m arg hm (hmu.trans hu))
  · obtain ⟨m, hm, -, hmu⟩ := hat a n ha
    obtain ⟨m', hm', -, hmu'⟩ := hat b n' hb
    exact h.unique a b m m' arg hm hm' (hmu.trans hu) (hmu'.trans hu')
  · obtain ⟨m, hm, -, hmu⟩ := hat a n ha
    rw [hvl]
    exact h.varLeaf a m v hm (hmu.trans hu)
  · rw [hvl] at ha
    obtain ⟨n, v, hn, hu⟩ := h.varLeaves a ha
    obtain ⟨m, hm, hfix⟩ := hp.symm.at hn
    exact ⟨m, v, hm, (u_eq_of_fixed hfix).trans hu⟩
  · obtain ⟨m, hm, -, hmu⟩ := hat a n ha
    rw [hint]
    exact h.int a m i hm (hmu.trans hu)
  · obtain ⟨m, hm, -, hmu⟩ := hat a n ha
    rw [hdouble]
    exact h.double a m d hm (hmu.trans hu)

/-- Which nodes are roots has not changed. -/
def SameTags (p p' : ℕ → Option (GraphNode ν β)) : Prop :=
  ∀ a, (p' a).map GraphNode.tag = (p a).map GraphNode.tag

lemma SameTags.at {p p' : ℕ → Option (GraphNode ν β)} (h : SameTags p p') {a : ℕ}
    {n m : GraphNode ν β} (ha : p a = some n) (ha' : p' a = some m) : m.tag = n.tag := by
  have hmap := h a
  rw [ha, ha'] at hmap
  exact Option.some.inj hmap

lemma older_congr {p p' : ℕ → Option (GraphNode ν β)} (hp : SameNodes p p')
    {n m : GraphNode ν β} (hfix : m.fixed = n.fixed)
    (h : ∃ l r, p m.left = some l ∧ p m.right = some r ∧ l.id < m.id ∧ r.id < m.id) :
    ∃ l r, p' n.left = some l ∧ p' n.right = some r ∧ l.id < n.id ∧ r.id < n.id := by
  obtain ⟨l, r, hl, hr, hlt, hlt'⟩ := h
  obtain ⟨-, hleft, hright, -, hid, -⟩ := fixed_eq_iff.mp hfix
  obtain ⟨l', hl', hfl⟩ := hp.symm.at hl
  obtain ⟨r', hr', hfr⟩ := hp.symm.at hr
  have hidl := (fixed_eq_iff.mp hfl).2.2.2.2.1
  have hidr := (fixed_eq_iff.mp hfr).2.2.2.2.1
  exact ⟨l', r', hleft ▸ hl', hright ▸ hr', by omega, by omega⟩

lemma Ordered.congr (h : Ordered g) (hp : SameNodes g.pool g'.pool) (ht : SameTags g.pool g'.pool)
    (hgraph : g'.graph = g.graph) : Ordered g' := by
  refine ⟨fun a n ha hn => ?_, fun a n ha hn => ?_, fun a n ha hn => ?_, fun a n op ha hu => ?_⟩
  · obtain ⟨m, hm, hfix⟩ := hp.at ha
    exact older_congr hp hfix (h.older a m hm (mt (leaf_iff_of_fixed hfix).mp hn))
  · obtain ⟨m, hm, hfix⟩ := hp.at ha
    rw [hgraph, ← (fixed_eq_iff.mp hfix).1]
    exact h.tree a m hm (mt (leaf_iff_of_fixed hfix).mp hn)
  · obtain ⟨m, hm, hfix⟩ := hp.at ha
    obtain ⟨b, k, hb, hleaf, huses⟩ := h.used a m hm ((ht.at hm ha).symm.trans hn)
    obtain ⟨k', hk', hfk⟩ := hp.symm.at hb
    obtain ⟨-, hleft, hright, -⟩ := fixed_eq_iff.mp hfk
    refine ⟨b, k', hk', mt (leaf_iff_of_fixed hfk).mp hleaf, ?_⟩
    rw [hleft, hright]
    exact huses
  · obtain ⟨m, hm, hfix⟩ := hp.at ha
    exact h.op a m op hm ((u_eq_of_fixed hfix).trans hu)

end

/-! ## New leaves -/

section Leaf

variable {g g' : Dag ν β} {arg : QuadrArg ν β} {a : ℕ}

/-- A node of the graph with a new leaf. -/
lemma newGraphLeaf_cases (h : newGraphLeaf g arg a = some g') {b : ℕ} {n : GraphNode ν β}
    (hb : g'.pool b = some n) :
    b = a ∧ n.tag = .leaf ∧ n.u = .inl arg ∧ n.varList = [] ∨ g.pool b = some n := by
  obtain ⟨-, -, rfl⟩ := alloc_eq_some h
  dsimp only at hb
  rw [Function.update_apply] at hb
  split at hb
  · next heq =>
      cases hb
      exact .inl ⟨heq, rfl, rfl, rfl⟩
  · exact .inr hb

lemma newGraphLeaf_old (h : newGraphLeaf g arg a = some g') {b : ℕ} {n : GraphNode ν β}
    (hb : g.pool b = some n) : g'.pool b = some n := by
  obtain ⟨-, hfresh, rfl⟩ := alloc_eq_some h
  exact some_of_alloc hfresh _ hb

lemma newGraphLeaf_lists (h : newGraphLeaf g arg a = some g') (hl : Lists g) : Lists g' := by
  have hvar : g'.varNode = g.varNode := by rw [(alloc_eq_some h).2.2]
  refine ⟨fun v hv => ?_, fun b n v hb hn hv => ?_, fun b n hb hn => ?_, fun b n v hb hv => ?_⟩
  · rw [hvar] at hv ⊢
    obtain ⟨n, hn, hmem⟩ := hl.listed v hv
    exact ⟨n, newGraphLeaf_old h hn, hmem⟩
  all_goals obtain ⟨-, htag, -, hlist⟩ | hb := newGraphLeaf_cases h hb
  · exact absurd htag hn
  · rw [hvar]
    exact hl.current b n v hb hn hv
  · exact absurd htag hn
  · exact hl.nodup b n hb hn
  · rw [hlist] at hv
    cases hv
  · rw [hvar]
    exact hl.touched b n v hb hv

lemma newGraphLeaf_ordered (h : newGraphLeaf g arg a = some g') (ho : Ordered g) :
    Ordered g' := by
  have hgraph : g'.graph = g.graph := by rw [(alloc_eq_some h).2.2]
  refine ⟨fun b n hb hn => ?_, fun b n hb hn => ?_, fun b n hb hn => ?_, fun b n op hb hu => ?_⟩
  · obtain ⟨-, htag, -⟩ | hb := newGraphLeaf_cases h hb
    · exact absurd htag hn
    · obtain ⟨l, r, hl, hr, hlt⟩ := ho.older b n hb hn
      exact ⟨l, r, newGraphLeaf_old h hl, newGraphLeaf_old h hr, hlt⟩
  · obtain ⟨-, htag, -⟩ | hb := newGraphLeaf_cases h hb
    · exact absurd htag hn
    · rw [hgraph]
      exact ho.tree b n hb hn
  · obtain ⟨-, htag, -⟩ | hb := newGraphLeaf_cases h hb
    · rw [htag] at hn
      cases hn
    · obtain ⟨c, m, hc, huses⟩ := ho.used b n hb hn
      exact ⟨c, m, newGraphLeaf_old h hc, huses⟩
  · obtain ⟨-, -, hleaf, -⟩ | hb := newGraphLeaf_cases h hb
    · cases hleaf.symm.trans hu
    · exact ho.op b n op hb hu

end Leaf

section Variables

variable [DecidableEq ν] {g g' : Dag ν β} {arg : QuadrArg ν β} {a x : ℕ}

/-! ## The variables of a node -/

/-- A node after `remove_var`. -/
lemma removeVar_pool {v : ν} (h : removeVar g a v = some g') (b : ℕ) :
    g'.pool b = (g.pool b).map fun n =>
      if b = a ∧ n.tag ≠ .leaf then { n with varList := n.varList.erase v } else n := by
  obtain ⟨n, hn, h⟩ := Option.bind_eq_some_iff.mp h
  by_cases hb : b = a
  · subst hb
    split at h
    · next hleaf =>
        cases h
        rw [hn, Option.map_some, if_neg fun hno => hno.2 hleaf]
    · next hleaf =>
        cases h
        simp [Dag.modify, hn, hleaf]
  · have hsame : g'.pool b = g.pool b := by
      split at h
      · cases h
        rfl
      · cases h
        exact Function.update_of_ne hb _ _
    rw [hsame]
    simp [hb]

/-- A node after `add_var`. -/
lemma addVar_pool {v : ν} (h : addVar g a v = some g') (b : ℕ) :
    g'.pool b = (g.pool b).map fun n =>
      if b = a then { n with varList := v :: n.varList } else n := by
  obtain ⟨n, hn, h⟩ := Option.bind_eq_some_iff.mp h
  cases h
  by_cases hb : b = a
  · subst hb
    simp [Dag.modify]
  · simp [Dag.modify, hb]

/-- The variables on a list after a variable has moved. -/
def movedList (res a : ℕ) (v : ν) (b : ℕ) (n : GraphNode ν β) : List ν :=
  let l := if b = res ∧ n.tag ≠ .leaf then n.varList.erase v else n.varList
  if b = a then v :: l else l

lemma moveVar_pool {res : ℕ} {v : ν} (hnull : g.pool NULL = none)
    (h : moveVar g res a v = some g') (b : ℕ) :
    g'.pool b = (g.pool b).map fun n => { n with varList := movedList res a v b n } := by
  obtain ⟨g₁, h₁, h⟩ := Option.bind_eq_some_iff.mp h
  have hfirst : g₁.pool b = (g.pool b).map fun n =>
      if b = res ∧ n.tag ≠ .leaf then { n with varList := n.varList.erase v } else n := by
    split at h₁
    · next hres =>
        cases h₁
        cases hb : g.pool b with
        | none => rfl
        | some n =>
            have hne : b ≠ res := by
              rintro rfl
              rw [hres, hnull] at hb
              cases hb
            rw [Option.map_some, if_neg fun hno => hne hno.1]
    · exact removeVar_pool h₁ b
  rw [addVar_pool h b, hfirst, Option.map_map]
  congr 1
  funext n
  dsimp only [Function.comp]
  unfold movedList
  split <;> split <;> rfl

lemma moveVar_varNode {res : ℕ} {v : ν} (h : moveVar g res a v = some g') :
    g'.varNode = Function.update g.varNode v a := by
  obtain ⟨g₁, h₁, h⟩ := Option.bind_eq_some_iff.mp h
  rw [addVar_varNode h]
  split at h₁
  · cases h₁
    rfl
  · rw [removeVar_varNode h₁]

/-- The variable moves to a node of the graph. -/
lemma moveVar_target {res : ℕ} {v : ν} (h : moveVar g res a v = some g') :
    ∃ n, g.pool a = some n := by
  obtain ⟨g₁, h₁, h⟩ := Option.bind_eq_some_iff.mp h
  obtain ⟨n, hn, -⟩ := Option.bind_eq_some_iff.mp h
  split at h₁
  · cases h₁
    exact ⟨n, hn⟩
  · rw [removeVar_pool h₁] at hn
    obtain ⟨m, hm, -⟩ := Option.map_eq_some_iff.mp hn
    exact ⟨m, hm⟩

lemma mem_movedList {res : ℕ} {v u : ν} {b : ℕ} {n : GraphNode ν β} (hne : u ≠ v) :
    u ∈ movedList res a v b n ↔ u ∈ n.varList := by
  unfold movedList
  dsimp only
  split <;> split <;> simp [hne, List.mem_erase_of_ne hne]

/-- A variable gets another node. -/
lemma moveVar_lists {res : ℕ} {v : ν} (hnull : g.pool NULL = none) (ha : a ≠ NULL)
    (hres : ∀ b n, g.pool b = some n → n.tag ≠ .leaf → v ∈ n.varList → b = res)
    (h : moveVar g res a v = some g') (hl : Lists g) : Lists g' := by
  have hpool := moveVar_pool hnull h
  have hvar := moveVar_varNode h
  have hold : ∀ b n', g'.pool b = some n' → ∃ n, g.pool b = some n ∧
      n' = { n with varList := movedList res a v b n } := by
    intro b n' hb
    rw [hpool] at hb
    obtain ⟨n, hn, rfl⟩ := Option.map_eq_some_iff.mp hb
    exact ⟨n, hn, rfl⟩
  -- an operation that the variable is not put on has it no more
  have hgone : ∀ b n, g.pool b = some n → n.tag ≠ .leaf →
      v ∉ (if b = res ∧ n.tag ≠ .leaf then n.varList.erase v else n.varList) := by
    intro b n hb hn
    split
    · exact (hl.nodup b n hb hn).not_mem_erase
    · next hno => exact fun hmem => hno ⟨hres b n hb hn hmem, hn⟩
  refine ⟨fun u hu => ?_, fun b n' u hb hn hu => ?_, fun b n' hb hn => ?_, fun b n' u hb hu => ?_⟩
  · rw [hvar] at hu ⊢
    obtain rfl | hne := eq_or_ne u v
    · rw [Function.update_self]
      obtain ⟨n, hn⟩ := moveVar_target h
      refine ⟨_, by rw [hpool, hn, Option.map_some], ?_⟩
      unfold movedList
      simp
    · rw [Function.update_of_ne hne] at hu ⊢
      obtain ⟨n, hn, hmem⟩ := hl.listed u hu
      exact ⟨_, by rw [hpool, hn, Option.map_some], (mem_movedList hne).mpr hmem⟩
  all_goals obtain ⟨n, hn', rfl⟩ := hold b n' hb
  · rw [hvar]
    obtain rfl | hne := eq_or_ne u v
    · rw [Function.update_self]
      by_contra hab
      unfold movedList at hu
      rw [if_neg (Ne.symm hab)] at hu
      exact hgone b n hn' hn hu
    · rw [Function.update_of_ne hne]
      exact hl.current b n u hn' hn ((mem_movedList hne).mp hu)
  · show (movedList res a v b n).Nodup
    have hrest : (if b = res ∧ n.tag ≠ .leaf then n.varList.erase v else n.varList).Nodup := by
      split
      · exact (hl.nodup b n hn' hn).erase v
      · exact hl.nodup b n hn' hn
    unfold movedList
    dsimp only
    split
    · exact List.nodup_cons.mpr ⟨hgone b n hn' hn, hrest⟩
    · exact hrest
  · rw [hvar]
    obtain rfl | hne := eq_or_ne u v
    · rwa [Function.update_self]
    · rw [Function.update_of_ne hne]
      exact hl.touched b n u hn' ((mem_movedList hne).mp hu)

lemma moveVar_sameTags {res : ℕ} {v : ν} (hnull : g.pool NULL = none)
    (h : moveVar g res a v = some g') : SameTags g.pool g'.pool := by
  intro b
  rw [moveVar_pool hnull h, Option.map_map]
  rfl

lemma moveVar_varLeaves {res : ℕ} {v : ν} (h : moveVar g res a v = some g') :
    g'.varLeaves = g.varLeaves := by
  obtain ⟨g₁, h₁, h⟩ := Option.bind_eq_some_iff.mp h
  have hfirst : g₁.varLeaves = g.varLeaves := by
    split at h₁
    · cases h₁
      rfl
    · obtain ⟨n, -, h₁⟩ := Option.bind_eq_some_iff.mp h₁
      split at h₁ <;> cases h₁ <;> rfl
  obtain ⟨n, -, h⟩ := Option.bind_eq_some_iff.mp h
  cases h
  exact hfirst

lemma moveVar_ready {res : ℕ} {v : ν} (hnull : g.pool NULL = none) (ha : a ≠ NULL)
    (hres : ∀ b n, g.pool b = some n → n.tag ≠ .leaf → v ∈ n.varList → b = res)
    (h : moveVar g res a v = some g') (hg : Ready g) : Ready g' := by
  have hkeep := moveVar_keeps h
  refine ⟨moveVar_lists hnull ha hres h hg.lists, ?_, ?_⟩
  · apply hg.leaves.congr hkeep.pool (moveVar_varLeaves h) hkeep.intLeaves hkeep.doubleLeaves
    intro u hu
    rw [moveVar_varNode h, Function.update_apply]
    split
    · exact ha
    · exact hu
  · exact hg.ordered.congr hkeep.pool (moveVar_sameTags hnull h) hkeep.graph

/-! ## Operands -/

omit [DecidableEq ν] in
/-- A new leaf, which has been entered: the tables have it and what they had. -/
lemma newLeaf_tables {g₁ g₂ : Dag ν β} (hg : LeafTables g) (harg : Formed.Operand arg)
    (hnew : nodeOf g arg = NULL) (h : newGraphLeaf g arg a = some g₁)
    (hpool : SameNodes g₁.pool g₂.pool) (hself : nodeOf g₂ arg ≠ NULL)
    (hothers : ∀ arg', nodeOf g arg' ≠ NULL → nodeOf g₂ arg' ≠ NULL)
    (hvl : ∀ b, b ∈ g₂.varLeaves ↔ b ∈ g.varLeaves ∨ b = a ∧ ∃ v, arg = .var v)
    (hnodup : g₂.varLeaves.Nodup)
    (hint : ∀ b, b ∈ g.intLeaves.map Prod.snd ∨ b = a ∧ (∃ i, arg = .int i) →
      b ∈ g₂.intLeaves.map Prod.snd)
    (hdouble : ∀ b, b ∈ g.doubleLeaves.map Prod.snd ∨ b = a ∧ (∃ d, arg = .double d) →
      b ∈ g₂.doubleLeaves.map Prod.snd) : LeafTables g₂ := by
  -- a node is the new leaf or an old node
  have hat : ∀ b n, g₂.pool b = some n → b = a ∧ n.tag = .leaf ∧ n.u = .inl arg ∨
      ∃ m, g.pool b = some m ∧ m.fixed = n.fixed ∧ m.u = n.u := by
    intro b n hb
    obtain ⟨m, hm, hfix⟩ := hpool.at hb
    obtain ⟨hba, htag, hu, -⟩ | hm := newGraphLeaf_cases h hm
    · exact .inl ⟨hba, (leaf_iff_of_fixed hfix).mp htag, (u_eq_of_fixed hfix).symm.trans hu⟩
    · exact .inr ⟨m, hm, hfix, u_eq_of_fixed hfix⟩
  have hkept : ∀ b n, g.pool b = some n → ∃ m, g₂.pool b = some m ∧ m.u = n.u := by
    intro b n hb
    obtain ⟨m, hm, hfix⟩ := hpool.symm.at (newGraphLeaf_old h hb)
    exact ⟨m, hm, u_eq_of_fixed hfix⟩
  have hfresh : ∀ b n, g.pool b = some n → n.u ≠ .inl arg :=
    fun b n hb hu => hg.own b n arg hb hu hnew
  refine ⟨fun b n hb hn => ?_, fun b n arg' hb hu => ?_, fun b c n n' arg' hb hc hu hu' => ?_,
    fun b n v hb hu => ?_, fun b hb => ?_, hnodup, fun b n i hb hu => ?_, fun b n d hb hu => ?_⟩
  · obtain ⟨-, -, hu⟩ | ⟨m, hm, hfix, hmu⟩ := hat b n hb
    · exact ⟨arg, hu, harg⟩
    · rw [← hmu]
      exact hg.leaf b m hm ((leaf_iff_of_fixed hfix).mpr hn)
  · obtain ⟨-, -, hn⟩ | ⟨m, hm, -, hmu⟩ := hat b n hb
    · cases hn.symm.trans hu
      exact hself
    · exact hothers arg' (hg.own b m arg' hm (hmu.trans hu))
  · obtain ⟨rfl, -, hn⟩ | ⟨m, hm, -, hmu⟩ := hat b n hb
    · obtain ⟨rfl, -, -⟩ | ⟨m', hm', -, hmu'⟩ := hat c n' hc
      · rfl
      · cases hn.symm.trans hu
        exact absurd (hmu'.trans hu') (hfresh c m' hm')
    · obtain ⟨-, -, hn'⟩ | ⟨m', hm', -, hmu'⟩ := hat c n' hc
      · cases hn'.symm.trans hu'
        exact absurd (hmu.trans hu) (hfresh b m hm)
      · exact hg.unique b c m m' arg' hm hm' (hmu.trans hu) (hmu'.trans hu')
  · rw [hvl]
    obtain ⟨hba, -, hn⟩ | ⟨m, hm, -, hmu⟩ := hat b n hb
    · exact .inr ⟨hba, v, Sum.inl.inj (hn.symm.trans hu)⟩
    · exact .inl (hg.varLeaf b m v hm (hmu.trans hu))
  · obtain hb | ⟨rfl, v, rfl⟩ := (hvl b).mp hb
    · obtain ⟨n, v, hn, hu⟩ := hg.varLeaves b hb
      obtain ⟨m, hm, hmu⟩ := hkept b n hn
      exact ⟨m, v, hm, hmu.trans hu⟩
    · obtain ⟨m, hm, hfix⟩ := hpool.symm.at (alloc_self h)
      exact ⟨m, v, hm, u_eq_of_fixed hfix⟩
  · apply hint
    obtain ⟨hba, -, hn⟩ | ⟨m, hm, -, hmu⟩ := hat b n hb
    · exact .inr ⟨hba, i, Sum.inl.inj (hn.symm.trans hu)⟩
    · exact .inl (hg.int b m i hm (hmu.trans hu))
  · apply hdouble
    obtain ⟨hba, -, hn⟩ | ⟨m, hm, -, hmu⟩ := hat b n hb
    · exact .inr ⟨hba, d, Sum.inl.inj (hn.symm.trans hu)⟩
    · exact .inl (hg.double b m d hm (hmu.trans hu))

omit [DecidableEq ν] in
/-- The values of a map after a key has been added. -/
lemma mem_values_set {κ : Type} {less : κ → κ → Bool} {k : κ} {l : List (κ × ℕ)} {b : ℕ}
    (h : OrderedMap.find less k l = none) :
    b ∈ (OrderedMap.set less k a l).map Prod.snd ↔ b = a ∨ b ∈ l.map Prod.snd := by
  simp only [List.mem_map, OrderedMap.mem_set h]
  constructor
  · rintro ⟨x, rfl | hx, rfl⟩
    · exact .inl rfl
    · exact .inr ⟨x, hx, rfl⟩
  · rintro (rfl | ⟨x, hx, rfl⟩)
    · exact ⟨(k, b), .inl rfl, rfl⟩
    · exact ⟨x, .inr hx, rfl⟩

omit [DecidableEq ν] in
lemma intLeaf_tables {w : ℕ} {i : BitVec 32} {g₁ : Dag ν β} (hs : Sound w g) (hg : LeafTables g)
    (hi : g.intLeaf i = NULL) (h : newGraphLeaf g (.int i) a = some g₁) :
    LeafTables { g₁ with intLeaves := OrderedMap.set BitVec.slt i a g₁.intLeaves } := by
  have heq := (alloc_eq_some h).2.2
  have hne := (alloc_eq_some h).1
  have hvl : g₁.varLeaves = g.varLeaves := by rw [heq]
  have hset : ({ g₁ with
      intLeaves := OrderedMap.set BitVec.slt i a g₁.intLeaves } : Dag ν β).intLeaves =
        OrderedMap.set BitVec.slt i a g.intLeaves := by rw [heq]
  refine newLeaf_tables hg (show Formed.Operand (.int i : QuadrArg ν β) from trivial) hi h
    (fun _ => rfl) ((intLeaf_set_self hset).trans_ne hne) (fun arg' harg' => ?_) (fun b => ?_)
    (hvl ▸ hg.nodup) (fun b hb => ?_) fun b hb => ?_
  · cases arg' with
    | int j =>
        obtain hj | ⟨hj, -⟩ := intLeaf_set (j := j) hs hi hset
        · exact hj.trans_ne harg'
        · exact hj.trans_ne hne
    | _ =>
        rw [heq]
        exact harg'
  · rw [hvl]
    simp
  · rw [hset, mem_values_set (hs.find_int hi)]
    exact hb.symm.imp_left And.left
  · rw [heq]
    simpa using hb

omit [DecidableEq ν] in
lemma doubleLeaf_tables {w : ℕ} {d : BitVec 64} {g₁ : Dag ν β} (hs : Sound w g)
    (hg : LeafTables g) (hd : g.doubleLeaf d = NULL)
    (h : newGraphLeaf g (.double d) a = some g₁) :
    LeafTables { g₁ with doubleLeaves := OrderedMap.set doubleLess d a g₁.doubleLeaves } := by
  have heq := (alloc_eq_some h).2.2
  have hne := (alloc_eq_some h).1
  have hvl : g₁.varLeaves = g.varLeaves := by rw [heq]
  have hset : ({ g₁ with
      doubleLeaves := OrderedMap.set doubleLess d a g₁.doubleLeaves } : Dag ν β).doubleLeaves =
        OrderedMap.set doubleLess d a g.doubleLeaves := by rw [heq]
  refine newLeaf_tables hg (show Formed.Operand (.double d : QuadrArg ν β) from trivial) hd h
    (fun _ => rfl) ((doubleLeaf_set_self hset).trans_ne hne) (fun arg' harg' => ?_) (fun b => ?_)
    (hvl ▸ hg.nodup) (fun b hb => ?_) fun b hb => ?_
  · cases arg' with
    | double e =>
        obtain he | ⟨he, -⟩ := doubleLeaf_set (e := e) hs hd hset
        · exact he.trans_ne harg'
        · exact he.trans_ne hne
    | _ =>
        rw [heq]
        exact harg'
  · rw [hvl]
    simp
  · rw [heq]
    simpa using hb
  · rw [hset, mem_values_set (hs.find_double hd)]
    exact hb.symm.imp_left And.left

lemma varLeaf_tables {v : ν} {g₁ g₂ : Dag ν β} (hg : LeafTables g) (hv : g.varNode v = NULL)
    (h : newGraphLeaf g (.var v) a = some g₁)
    (hadd : addVar { g₁ with varLeaves := g₁.varLeaves ++ [a] } a v = some g₂) :
    LeafTables g₂ := by
  have hkeep := addVar_keeps hadd
  have hvar := addVar_varNode hadd
  have hleaves : g₂.varLeaves = g₁.varLeaves ++ [a] := by
    obtain ⟨n, -, hadd⟩ := Option.bind_eq_some_iff.mp hadd
    cases hadd
    rfl
  obtain ⟨hne, hfresh, rfl⟩ := alloc_eq_some h
  refine newLeaf_tables hg (show Formed.Operand (.var v : QuadrArg ν β) from trivial) hv h
    hkeep.pool ?_ ?_ ?_ ?_ ?_ ?_
  · rw [nodeOf, hvar, Function.update_self]
    exact hne
  · -- the tables of constants are as before, and only `v` points elsewhere
    refine nodeOf_ne_null hkeep.intLeaves hkeep.doubleLeaves fun u hu => ?_
    rw [hvar, Function.update_apply]
    split
    · exact hne
    · exact hu
  · intro b
    rw [hleaves, List.mem_append, List.mem_singleton]
    simp
  · rw [hleaves, List.nodup_append]
    refine ⟨hg.nodup, List.nodup_singleton a, fun b hb c hc => ?_⟩
    rintro rfl
    rw [List.mem_singleton] at hc
    subst hc
    obtain ⟨n, u, hn, -⟩ := hg.varLeaves b hb
    rw [hfresh] at hn
    cases hn
  · intro b hb
    rw [hkeep.intLeaves]
    simpa using hb
  · intro b hb
    rw [hkeep.doubleLeaves]
    simpa using hb

/-- **`get_node`** keeps the graph ready. -/
theorem getNode_ready {w : ℕ} (hs : Sound w g) (harg : Formed.Operand arg)
    (h : getNode g arg a = some (x, g')) (hg : Ready g) : Ready g' := by
  -- a new leaf for a constant not seen before, else a leaf that exists
  cases arg with
  | int i =>
      unfold getNode at h
      dsimp only at h
      split at h
      · next hi =>
          obtain ⟨g₁, hleaf, h⟩ := Option.bind_eq_some_iff.mp h
          cases h
          exact ⟨(newGraphLeaf_lists hleaf hg.lists).congr (fun _ => rfl) rfl,
            intLeaf_tables hs hg.leaves hi hleaf,
            (newGraphLeaf_ordered hleaf hg.ordered).congr (fun _ => rfl) (fun _ => rfl) rfl⟩
      · cases h
        exact hg
  | double d =>
      unfold getNode at h
      dsimp only at h
      split at h
      · next hd =>
          obtain ⟨g₁, hleaf, h⟩ := Option.bind_eq_some_iff.mp h
          cases h
          exact ⟨(newGraphLeaf_lists hleaf hg.lists).congr (fun _ => rfl) rfl,
            doubleLeaf_tables hs hg.leaves hd hleaf,
            (newGraphLeaf_ordered hleaf hg.ordered).congr (fun _ => rfl) (fun _ => rfl) rfl⟩
      · cases h
        exact hg
  | var v =>
      unfold getNode at h
      dsimp only at h
      split at h
      · next hv =>
          obtain ⟨g₁, hleaf, h⟩ := Option.bind_eq_some_iff.mp h
          obtain ⟨g₂, hadd, h⟩ := Option.bind_eq_some_iff.mp h
          cases h
          let g₀ : Dag ν β := { g₁ with varLeaves := g₁.varLeaves ++ [a] }
          have hmove : moveVar g₀ NULL a v = some g' := by
            rw [moveVar, if_pos rfl]
            exact hadd
          have hnull : g₀.pool NULL = none := by
            obtain ⟨hne, -, rfl⟩ := alloc_eq_some hleaf
            exact (Function.update_of_ne hne.symm _ _).trans hs.null
          have hlists : Lists g₀ := (newGraphLeaf_lists hleaf hg.lists).congr (fun _ => rfl) rfl
          have hordered : Ordered g₀ :=
            (newGraphLeaf_ordered hleaf hg.ordered).congr (fun _ => rfl) (fun _ => rfl) rfl
          have hkeep := moveVar_keeps hmove
          refine ⟨moveVar_lists hnull (alloc_eq_some hleaf).1 ?_ hmove hlists,
            varLeaf_tables hg.leaves hv hleaf hadd,
            hordered.congr hkeep.pool (moveVar_sameTags hnull hmove) hkeep.graph⟩
          intro b n hb _ hmem
          have hno : g₁.varNode v = NULL := by
            rw [(alloc_eq_some hleaf).2.2]
            exact hv
          exact absurd hno (hlists.touched b n v hb hmem)
      · cases h
        exact hg
  | none | label | str | func => exact harg.elim

end Variables

/-! ## New operations -/

section Root

variable {g g' g'' : Dag ν β} {a b x : ℕ}

lemma useOperand_sameLists (h : useOperand g a x = some g') : SameLists g.pool g'.pool := by
  unfold useOperand at h
  split at h
  · cases h
    exact fun _ => rfl
  · obtain ⟨n, -, h⟩ := Option.bind_eq_some_iff.mp h
    cases h
    have hmodify : ∀ (g : Dag ν β) c f, (∀ m : GraphNode ν β, (f m).kept = m.kept) →
        SameLists g.pool (g.modify c f).pool := by
      intro g c f hf d
      unfold Dag.modify
      dsimp only
      by_cases hd : d = c
      · rw [hd, Function.update_self, Option.map_map]
        exact congrArg (fun k => (g.pool c).map k) (funext hf)
      · rw [Function.update_of_ne hd]
    refine SameLists.trans (hmodify g a _ fun m => ?_) (hmodify _ x _ fun m => ?_)
    · rfl
    unfold GraphNode.kept
    rw [Prod.mk.injEq, fixed_eq_iff]
    refine ⟨⟨rfl, rfl, rfl, rfl, rfl, ?_⟩, rfl⟩
    dsimp only
    split
    · next hroot => simp [hroot]
    · rfl

/-- Only the operand can have become an inner node. -/
lemma useOperand_tag (h : useOperand g a x = some g') {n n' : GraphNode ν β}
    (hn : g.pool b = some n) (hn' : g'.pool b = some n') (ht : n'.tag = .internal) :
    n.tag = .internal ∨ b = x := by
  unfold useOperand at h
  split at h
  · cases h
    rw [hn, Option.some.injEq] at hn'
    exact .inl (hn' ▸ ht)
  · obtain ⟨m, -, h⟩ := Option.bind_eq_some_iff.mp h
    cases h
    by_cases hb : b = x
    · exact .inr hb
    · left
      have hmodify : ∀ (g : Dag ν β) c f, b ≠ c → (g.modify c f).pool b = g.pool b :=
        fun g c f hne => Function.update_of_ne hne _ _
      rw [hmodify _ _ _ hb] at hn'
      by_cases hba : b = a
      · subst hba
        unfold Dag.modify at hn'
        dsimp only at hn'
        rw [Function.update_self, hn, Option.map_some, Option.some.injEq] at hn'
        rw [← hn'] at ht
        exact ht
      · rw [hmodify _ _ _ hba, hn, Option.some.injEq] at hn'
        exact hn' ▸ ht

lemma useOperand_rest (h : useOperand g a x = some g') : g'.graph = g.graph ∧
    g'.intLeaves = g.intLeaves ∧ g'.doubleLeaves = g.doubleLeaves ∧
      g'.varLeaves = g.varLeaves ∧ g'.varNode = g.varNode := by
  unfold useOperand at h
  split at h
  · cases h
    exact ⟨rfl, rfl, rfl, rfl, rfl⟩
  · obtain ⟨n, -, h⟩ := Option.bind_eq_some_iff.mp h
    cases h
    exact ⟨rfl, rfl, rfl, rfl, rfl⟩

/-- The graph has a new operation, whose operands are no roots now. -/
structure NewRoot (g : Dag ν β) (a : ℕ) (g' : Dag ν β) : Prop where
  fresh : g.pool a = none
  node : ∃ n op l r, g'.pool a = some n ∧ n.tag = .root ∧ n.u = .inr op ∧ n.varList = [] ∧
    g.pool n.left = some l ∧ g.pool n.right = some r ∧ l.id < n.id ∧ r.id < n.id ∧ isArith op
  old : ∀ b, b ≠ a → (g'.pool b).map GraphNode.kept = (g.pool b).map GraphNode.kept
  tags : ∀ b n n', g.pool b = some n → g'.pool b = some n' → n'.tag = .internal →
    n.tag = .internal ∨ ∃ m, g'.pool a = some m ∧ m.Uses b
  graph : g'.graph = g.graph
  intLeaves : g'.intLeaves = g.intLeaves
  doubleLeaves : g'.doubleLeaves = g.doubleLeaves
  varLeaves : g'.varLeaves = g.varLeaves
  varNode : g'.varNode = g.varNode

lemma newOrderedRoot_newRoot {w : ℕ} {op : QuadrOp} {left right : ℕ} (hs : Sound w g)
    (hop : isArith op) (hl : (g.pool left).isSome) (hr : (g.pool right).isSome)
    (h : newOrderedRoot w g op left right a = some g') : NewRoot g a g' := by
  obtain ⟨key, -, h⟩ := Option.bind_eq_some_iff.mp h
  obtain ⟨g₁, halloc, h⟩ := Option.bind_eq_some_iff.mp h
  obtain ⟨g₂, hleft, hright⟩ := Option.bind_eq_some_iff.mp h
  have hsame := (useOperand_sameLists hleft).trans (useOperand_sameLists hright)
  obtain ⟨hgraph, hint, hdouble, hvl, hvar⟩ := useOperand_rest hleft
  obtain ⟨hgraph', hint', hdouble', hvl', hvar'⟩ := useOperand_rest hright
  obtain ⟨-, hfresh, rfl⟩ := alloc_eq_some halloc
  obtain ⟨l, hl⟩ := Option.isSome_iff_exists.mp hl
  obtain ⟨r, hr⟩ := Option.isSome_iff_exists.mp hr
  obtain ⟨n, hn, hfix, hlist⟩ := hsame.symm.at (Function.update_self _ _ _)
  obtain ⟨-, hnl, hnr, hu, hid, htag⟩ := fixed_eq_iff.mp hfix
  dsimp only at hnl hnr hu hid htag
  have hleaf : n.tag ≠ .leaf := by simp [htag]
  have hold : ∀ b m, g.pool b = some m → b ≠ a := by
    rintro b m hb rfl
    rw [hfresh] at hb
    cases hb
  -- the operands are older than the new node, so marking them cannot make it internal
  have hroot : n.tag = .root := by
    cases ht : n.tag with
    | root => rfl
    | leaf => exact absurd ht hleaf
    | internal =>
        obtain ⟨k, hk, -⟩ := (useOperand_sameLists hright).at hn
        obtain hk' | rfl := useOperand_tag hright hk hn ht
        · obtain hm | rfl := useOperand_tag hleft (Function.update_self _ _ _) hk hk'
          · cases hm
          · exact absurd rfl (hold _ _ hl)
        · exact absurd rfl (hold _ _ hr)
  refine ⟨hfresh, ⟨n, op, l, r, hn, hroot, hu, hlist, hnl ▸ hl, hnr ▸ hr, ?_, ?_, hop⟩,
    fun b hb => ?_, fun b m m' hm hm' ht => ?_, hgraph'.trans hgraph, hint'.trans hint,
    hdouble'.trans hdouble, hvl'.trans hvl, hvar'.trans hvar⟩
  · exact hid ▸ hs.id_lt left l hl
  · exact hid ▸ hs.id_lt right r hr
  · rw [hsame b]
    exact congrArg (Option.map GraphNode.kept) (Function.update_of_ne hb _ _)
  · obtain ⟨k, hk, -⟩ := (useOperand_sameLists hright).at hm'
    have huses : b = left ∨ b = right → ∃ m, g'.pool a = some m ∧ m.Uses b := by
      intro hb
      refine ⟨n, hn, hleaf, ?_⟩
      rw [hnl, hnr]
      exact hb.imp Eq.symm Eq.symm
    obtain ht | hb := useOperand_tag hright hk hm' ht
    · obtain ht | hb := useOperand_tag hleft (some_of_alloc hfresh _ hm) hk ht
      · exact .inl ht
      · exact .inr (huses (.inl hb))
    · exact .inr (huses (.inr hb))

lemma newGraphRoot_newRoot {w : ℕ} {op : QuadrOp} {left right : ℕ} (hs : Sound w g)
    (hop : isArith op) (hl : (g.pool left).isSome) (hr : (g.pool right).isSome)
    (h : newGraphRoot w g op left right a = some g') : NewRoot g a g' := by
  unfold newGraphRoot at h
  split at h
  · exact newOrderedRoot_newRoot hs hop hr hl h
  · exact newOrderedRoot_newRoot hs hop hl hr h

lemma NewRoot.at (h : NewRoot g a g') {n : GraphNode ν β} (hb : g'.pool b = some n)
    (hne : b ≠ a) : ∃ m, g.pool b = some m ∧ m.fixed = n.fixed ∧ m.varList = n.varList := by
  have hmap := h.old b hne
  rw [hb, Option.map_some] at hmap
  obtain ⟨m, hm, heq⟩ := Option.map_eq_some_iff.mp hmap.symm
  exact ⟨m, hm, congrArg Prod.fst heq, congrArg Prod.snd heq⟩

lemma NewRoot.kept (h : NewRoot g a g') {n : GraphNode ν β} (hb : g.pool b = some n) :
    b ≠ a ∧ ∃ m, g'.pool b = some m ∧ m.fixed = n.fixed ∧ m.varList = n.varList := by
  have hne : b ≠ a := by
    rintro rfl
    rw [h.fresh] at hb
    cases hb
  have hmap := h.old b hne
  rw [hb, Option.map_some] at hmap
  obtain ⟨m, hm, heq⟩ := Option.map_eq_some_iff.mp hmap
  exact ⟨hne, m, hm, congrArg Prod.fst heq, congrArg Prod.snd heq⟩

/-- The operation is there already, and the new node is given back. -/
lemma NewRoot.freed {w : ℕ} (hw : 32 ≤ w) (h : NewRoot g a g') (hs : Sound w g)
    (hs' : Sound w g') {n : GraphNode ν β} (hn : g'.pool a = some n) {c : ℕ}
    (hc : g'.graph.lookup n.key = some c) (hfree : freeGraphNode g' a = some g'') (hg : Ready g) :
    Ready g'' := by
  obtain ⟨n', hn', hfree⟩ := Option.bind_eq_some_iff.mp hfree
  cases hfree
  have hsame : SameLists g.pool (Function.update g'.pool a none) := by
    intro b
    by_cases hb : b = a
    · rw [hb, Function.update_self, h.fresh]
    · rw [Function.update_of_ne hb, h.old b hb]
  refine ⟨hg.lists.congr hsame h.varNode,
    hg.leaves.congr hsame.sameNodes h.varLeaves h.intLeaves h.doubleLeaves
      fun v hv => h.varNode ▸ hv, ?_⟩
  refine ⟨fun b m hb hm => ?_, fun b m hb hm => ?_, fun b m hb hm => ?_, fun b m op hb hu => ?_⟩
  · obtain ⟨k, hk, hfix⟩ := hsame.sameNodes.at hb
    exact older_congr hsame.sameNodes hfix
      (hg.ordered.older b k hk (mt (leaf_iff_of_fixed hfix).mp hm))
  · obtain ⟨k, hk, hfix⟩ := hsame.sameNodes.at hb
    dsimp only
    rw [h.graph, ← (fixed_eq_iff.mp hfix).1]
    exact hg.ordered.tree b k hk (mt (leaf_iff_of_fixed hfix).mp hm)
  · have hparent : ∀ d k, g.pool d = some k → k.Uses b →
        ∃ d m, Function.update g'.pool a none d = some m ∧ m.Uses b := by
      intro d k hd hk
      obtain ⟨k', hk', hfk⟩ := hsame.sameNodes.symm.at hd
      obtain ⟨-, hleft, hright, -, -, htag⟩ := fixed_eq_iff.mp hfk
      refine ⟨d, k', hk', mt htag.mp hk.1, ?_⟩
      rw [hleft, hright]
      exact hk.2
    have hne : b ≠ a := by
      rintro rfl
      dsimp only at hb
      rw [Function.update_self] at hb
      cases hb
    dsimp only at hb
    rw [Function.update_of_ne hne] at hb
    obtain ⟨k, hk, -⟩ := h.at hb hne
    obtain ht | ⟨k', hk', huses⟩ := h.tags b k m hk hb hm
    · obtain ⟨d, j, hd, hj⟩ := hg.ordered.used b k hk ht
      exact hparent d j hd hj
    · -- the node that was there has the same operands
      rw [hn, Option.some.injEq] at hk'
      subst hk'
      obtain ⟨m', hm', hleaf, hkey⟩ := hs'.graph _ _ hc
      have hop := ((hs'.identifies hw).keys c a m' n hm' hn hleaf huses.1).mp hkey
      have hca : c ≠ a := by
        rintro rfl
        rw [h.graph] at hc
        obtain ⟨j, hj, -⟩ := hs.graph _ _ hc
        rw [h.fresh] at hj
        cases hj
      obtain ⟨j, hj, hfj, -⟩ := h.at hm' hca
      obtain ⟨-, hleft, hright, -, -, htag⟩ := fixed_eq_iff.mp hfj
      refine hparent c j hj ⟨mt htag.mp hleaf, ?_⟩
      rw [hleft, hright, hop.2.1, hop.2.2]
      exact huses.2
  · obtain ⟨k, hk, hfix⟩ := hsame.sameNodes.at hb
    exact hg.ordered.op b k op hk ((u_eq_of_fixed hfix).trans hu)

/-- A node is the new operation, which is a root without variables, or it was there before. -/
lemma NewRoot.cases (h : NewRoot g a g') {n : GraphNode ν β} (hb : g'.pool b = some n) :
    b = a ∧ n.tag = .root ∧ n.varList = [] ∧ (∃ op, n.u = .inr op ∧ isArith op) ∨
      b ≠ a ∧ ∃ k, g.pool b = some k ∧ k.fixed = n.fixed ∧ k.varList = n.varList ∧
        k.u = n.u ∧ (k.tag = .leaf ↔ n.tag = .leaf) := by
  obtain rfl | hne := eq_or_ne b a
  · obtain ⟨n', op, _, _, hn', hroot, hu, hlist, -, -, -, -, hop⟩ := h.node
    rw [hb, Option.some.injEq] at hn'
    subst hn'
    exact .inl ⟨rfl, hroot, hlist, op, hu, hop⟩
  · obtain ⟨k, hk, hfix, hlist⟩ := h.at hb hne
    exact .inr ⟨hne, k, hk, hfix, hlist, u_eq_of_fixed hfix, leaf_iff_of_fixed hfix⟩

/-- The new operation has no variables. -/
lemma NewRoot.lists (h : NewRoot g a g') (hg : Lists g) : Lists g' := by
  refine ⟨fun v hv => ?_, fun b m v hb hm hv => ?_, fun b m hb hm => ?_, fun b m v hb hv => ?_⟩
  · rw [h.varNode] at hv ⊢
    obtain ⟨k, hk, hmem⟩ := hg.listed v hv
    obtain ⟨-, m, hm, -, hlm⟩ := h.kept hk
    exact ⟨m, hm, hlm ▸ hmem⟩
  · obtain ⟨-, -, hnil, -⟩ | ⟨-, k, hk, -, hlk, -, htag⟩ := h.cases hb
    · rw [hnil] at hv
      cases hv
    · rw [h.varNode]
      exact hg.current b k v hk (mt htag.mp hm) (hlk ▸ hv)
  · obtain ⟨-, -, hnil, -⟩ | ⟨-, k, hk, -, hlk, -, htag⟩ := h.cases hb
    · rw [hnil]
      exact List.nodup_nil
    · rw [← hlk]
      exact hg.nodup b k hk (mt htag.mp hm)
  · obtain ⟨-, -, hnil, -⟩ | ⟨-, k, hk, -, hlk, -⟩ := h.cases hb
    · rw [hnil] at hv
      cases hv
    · rw [h.varNode]
      exact hg.touched b k v hk (hlk ▸ hv)

/-- The new operation is no leaf. -/
lemma NewRoot.leaves (h : NewRoot g a g') (hg : LeafTables g) : LeafTables g' := by
  -- the new node is an operation, so the leaves are those of before
  have hat : ∀ b m arg, g'.pool b = some m → m.u = .inl arg →
      ∃ k, g.pool b = some k ∧ k.u = .inl arg := by
    intro b m arg hb hu
    obtain ⟨-, -, -, op, hop, -⟩ | ⟨-, k, hk, -, -, hku, -⟩ := h.cases hb
    · cases hop.symm.trans hu
    · exact ⟨k, hk, hku.trans hu⟩
  refine ⟨fun b m hb hm => ?_, fun b m arg hb hu => ?_, fun b c m m' arg hb hc hu hu' => ?_,
    fun b m v hb hu => ?_, fun b hb => ?_, h.varLeaves ▸ hg.nodup, fun b m i hb hu => ?_,
    fun b m d hb hu => ?_⟩
  · obtain ⟨-, hroot, -⟩ | ⟨-, k, hk, -, -, hku, htag⟩ := h.cases hb
    · cases hroot.symm.trans hm
    · rw [← hku]
      exact hg.leaf b k hk (htag.mpr hm)
  · obtain ⟨k, hk, hku⟩ := hat b m arg hb hu
    exact nodeOf_ne_null h.intLeaves h.doubleLeaves (fun v hv => h.varNode ▸ hv) arg
      (hg.own b k arg hk hku)
  · obtain ⟨k, hk, hku⟩ := hat b m arg hb hu
    obtain ⟨k', hk', hku'⟩ := hat c m' arg hc hu'
    exact hg.unique b c k k' arg hk hk' hku hku'
  · obtain ⟨k, hk, hku⟩ := hat b m _ hb hu
    rw [h.varLeaves]
    exact hg.varLeaf b k v hk hku
  · rw [h.varLeaves] at hb
    obtain ⟨k, v, hk, hku⟩ := hg.varLeaves b hb
    obtain ⟨-, m, hm, hfix, -⟩ := h.kept hk
    exact ⟨m, v, hm, (u_eq_of_fixed hfix).trans hku⟩
  · obtain ⟨k, hk, hku⟩ := hat b m _ hb hu
    rw [h.intLeaves]
    exact hg.int b k i hk hku
  · obtain ⟨k, hk, hku⟩ := hat b m _ hb hu
    rw [h.doubleLeaves]
    exact hg.double b k d hk hku

/-- The operands of the new operation are older than it. -/
lemma NewRoot.older (h : NewRoot g a g') (hg : Ordered g) {n : GraphNode ν β}
    (hb : g'.pool b = some n) (hn : n.tag ≠ .leaf) : ∃ l r, g'.pool n.left = some l ∧
      g'.pool n.right = some r ∧ l.id < n.id ∧ r.id < n.id := by
  have hids : ∀ c k, g.pool c = some k → ∃ m, g'.pool c = some m ∧ m.id = k.id := by
    intro c k hk
    obtain ⟨-, m, hm, hfix, -⟩ := h.kept hk
    exact ⟨m, hm, (fixed_eq_iff.mp hfix).2.2.2.2.1⟩
  obtain rfl | hne := eq_or_ne b a
  · obtain ⟨n', _, l, r, hn', -, -, -, hl, hr, hlt, hlt', -⟩ := h.node
    rw [hb, Option.some.injEq] at hn'
    subst hn'
    obtain ⟨l', hl', hidl⟩ := hids _ l hl
    obtain ⟨r', hr', hidr⟩ := hids _ r hr
    exact ⟨l', r', hl', hr', by omega, by omega⟩
  · obtain ⟨k, hk, hfix, -⟩ := h.at hb hne
    obtain ⟨l, r, hl, hr, hlt, hlt'⟩ := hg.older b k hk (mt (leaf_iff_of_fixed hfix).mp hn)
    obtain ⟨-, hleft, hright, -, hid, -⟩ := fixed_eq_iff.mp hfix
    obtain ⟨l', hl', hidl⟩ := hids _ l hl
    obtain ⟨r', hr', hidr⟩ := hids _ r hr
    exact ⟨l', r', hleft ▸ hl', hright ▸ hr', by omega, by omega⟩

/-- An operation that is no root is an operand of one that was there, or of the new one. -/
lemma NewRoot.used (h : NewRoot g a g') (hg : Ordered g) {n : GraphNode ν β}
    (hb : g'.pool b = some n) (hn : n.tag = .internal) : ∃ c m, g'.pool c = some m ∧ m.Uses b := by
  obtain ⟨-, hroot, -⟩ | ⟨hne, k, hk, -⟩ := h.cases hb
  · cases hroot.symm.trans hn
  · obtain ht | ⟨k', hk', huses⟩ := h.tags b k n hk hb hn
    · obtain ⟨d, j, hd, hj⟩ := hg.used b k hk ht
      obtain ⟨-, j', hj', hfj, -⟩ := h.kept hd
      obtain ⟨-, hleft, hright, -, -, htag⟩ := fixed_eq_iff.mp hfj
      refine ⟨d, j', hj', mt htag.mp hj.1, ?_⟩
      rw [hleft, hright]
      exact hj.2
    · exact ⟨a, k', hk', huses⟩

/-- The operation is put into the tree. -/
lemma NewRoot.inserted (h : NewRoot g a g') {n : GraphNode ν β}
    (hn : g'.pool a = some n) (habs : g'.graph.lookup n.key = none) (hg : Ready g) :
    Ready { g' with graph := g'.graph.insertIfAbsent ⟨n.key, a⟩ } := by
  have hlists := h.lists hg.lists
  have hleaves := h.leaves hg.leaves
  refine ⟨⟨hlists.listed, hlists.current, hlists.nodup, hlists.touched⟩,
    ⟨hleaves.leaf, hleaves.own, hleaves.unique, hleaves.varLeaf, hleaves.varLeaves, hleaves.nodup,
      hleaves.int, hleaves.double⟩,
    ⟨fun b m hb hm => h.older hg.ordered hb hm, fun b m hb hm => ?_,
      fun b m hb hm => h.used hg.ordered hb hm, fun b m op hb hu => ?_⟩⟩
  · dsimp only
    rw [RbSet.lookup_insertIfAbsent]
    obtain rfl | hne := eq_or_ne b a
    · cases hn.symm.trans hb
      exact if_pos ⟨rfl, RbSet.lookup_eq_none_iff.mp habs⟩
    · obtain ⟨k, hk, hfix, -⟩ := h.at hb hne
      have hlook : g'.graph.lookup m.key = some b := by
        rw [h.graph, ← (fixed_eq_iff.mp hfix).1]
        exact hg.ordered.tree b k hk (mt (leaf_iff_of_fixed hfix).mp hm)
      rw [if_neg, hlook]
      rintro ⟨hkey, -⟩
      dsimp only at hkey
      rw [hkey, habs] at hlook
      cases hlook
  · obtain ⟨-, -, -, op', hop', harith⟩ | ⟨-, k, hk, -, -, hku, -⟩ := h.cases hb
    · cases hop'.symm.trans hu
      exact harith
    · exact hg.ordered.op b k op hk (hku.trans hu)

/-- **`rb_insert_if_absent`** keeps the graph ready. -/
theorem insertRoot_ready {w : ℕ} (hw : 32 ≤ w) (hs : Sound w g) (hs' : Sound w g')
    (h : NewRoot g a g') (hins : insertRoot g' a = some (b, g'')) (hg : Ready g) : Ready g'' := by
  obtain ⟨n, hn, hins⟩ := Option.bind_eq_some_iff.mp hins
  split at hins
  · next c hc =>
      obtain ⟨g₁, hfree, hins⟩ := Option.bind_eq_some_iff.mp hins
      cases hins
      exact h.freed hw hs hs' hn hc hfree hg
  · next habs =>
      cases hins
      exact h.inserted hn habs hg

/-! ## The operations that variables are on -/

/-- Variables are on the lists of the same operations as before. -/
def KeepsOps (g g' : Dag ν β) : Prop :=
  ∀ b n, g'.pool b = some n → n.tag ≠ .leaf → n.varList ≠ [] →
    ∃ m, g.pool b = some m ∧ m.tag ≠ .leaf ∧ m.varList = n.varList

lemma KeepsOps.trans (h : KeepsOps g g') (h' : KeepsOps g' g'') : KeepsOps g g'' := by
  intro b n hb hn hne
  obtain ⟨m, hm, htag, hlist⟩ := h' b n hb hn hne
  obtain ⟨k, hk, htag', hlist'⟩ := h b m hm htag (hlist ▸ hne)
  exact ⟨k, hk, htag', hlist'.trans hlist⟩

lemma NewRoot.keepsOps (h : NewRoot g a g') : KeepsOps g g' := by
  intro b n hb hn hne
  obtain rfl | hba := eq_or_ne b a
  · obtain ⟨m, _, _, _, hm, -, -, hlist, -⟩ := h.node
    rw [hb, Option.some.injEq] at hm
    exact absurd (hm ▸ hlist) hne
  · obtain ⟨m, hm, hfix, hlist⟩ := h.at hb hba
    exact ⟨m, hm, mt (leaf_iff_of_fixed hfix).mp hn, hlist⟩

lemma insertRoot_keepsOps (h : insertRoot g a = some (b, g')) : KeepsOps g g' := by
  obtain ⟨n, hn, h⟩ := Option.bind_eq_some_iff.mp h
  split at h
  · obtain ⟨g₁, hfree, h⟩ := Option.bind_eq_some_iff.mp h
    obtain ⟨m, -, hfree⟩ := Option.bind_eq_some_iff.mp hfree
    cases hfree
    cases h
    intro c k hc hk _
    dsimp only at hc
    rw [Function.update_apply] at hc
    split at hc
    · cases hc
    · exact ⟨k, hc, hk, rfl⟩
  · cases h
    exact fun c k hc hk _ => ⟨k, hc, hk, rfl⟩

/-- An operation that has the variable on its list is the node that the variable had before. -/
lemma KeepsOps.node_eq {v : ν} (h : KeepsOps g g') (hl : Lists g) {n : GraphNode ν β}
    (hb : g'.pool b = some n) (hn : n.tag ≠ .leaf) (hv : v ∈ n.varList) : b = g.varNode v := by
  obtain ⟨m, hm, htag, hlist⟩ := h b n hb hn (List.ne_nil_of_mem hv)
  exact (hl.current b m v hm htag (hlist ▸ hv)).symm

variable [DecidableEq ν]

lemma getNode_keepsOps {arg : QuadrArg ν β} (h : getNode g arg a = some (x, g')) :
    KeepsOps g g' := by
  -- the only node a leaf adds is the leaf itself
  have hleaf : ∀ g₁, newGraphLeaf g arg a = some g₁ → KeepsOps g g₁ := by
    intro g₁ h₁ b n hb hn _
    obtain ⟨-, htag, -⟩ | hb := newGraphLeaf_cases h₁ hb
    · exact absurd htag hn
    · exact ⟨n, hb, hn, rfl⟩
  cases arg with
  | int i | double d =>
      unfold getNode at h
      dsimp only at h
      split at h
      · obtain ⟨g₁, h₁, h⟩ := Option.bind_eq_some_iff.mp h
        cases h
        exact hleaf g₁ h₁
      · cases h
        exact fun b n hb hn _ => ⟨n, hb, hn, rfl⟩
  | var v =>
      unfold getNode at h
      dsimp only at h
      split at h
      · obtain ⟨g₁, h₁, h⟩ := Option.bind_eq_some_iff.mp h
        obtain ⟨g₂, hadd, h⟩ := Option.bind_eq_some_iff.mp h
        cases h
        intro b n' hb hn hne
        rw [addVar_pool hadd] at hb
        obtain ⟨n, hm, rfl⟩ := Option.map_eq_some_iff.mp hb
        obtain ⟨rfl, htag, -⟩ | hold := newGraphLeaf_cases h₁ hm
        · rw [if_pos rfl] at hn
          exact absurd htag hn
        · have hba : b ≠ a := by
            rintro rfl
            rw [(alloc_eq_some h₁).2.1] at hold
            cases hold
          rw [if_neg hba] at hn hne ⊢
          exact ⟨n, hold, hn, rfl⟩
      · cases h
        exact fun b n hb hn _ => ⟨n, hb, hn, rfl⟩
  | none =>
      cases h
      exact fun b n hb hn _ => ⟨n, hb, hn, rfl⟩
  | label | str | func => cases h

/-! ## The block -/

lemma optimizeCopy_ready {w : ℕ} {v : ν} {arg1 : QuadrArg ν β} {ms : List (Dag ν β)}
    (hs : Sound w g) (hfit : g.nextId + absent g arg1 ≤ 2 ^ 13) (harg1 : Formed.Operand arg1)
    (h : optimizeCopy g v arg1 a = some ms) (hg : Ready g) : Ready (ms.getLastD g) := by
  obtain ⟨⟨node, g₁⟩, hread, h⟩ := Option.bind_eq_some_iff.mp h
  obtain ⟨g₂, hmove, h⟩ := Option.bind_eq_some_iff.mp h
  have h₁ := getNode_reads hs hfit harg1 hread
  have hg₁ := getNode_ready hs harg1 hread hg
  cases h
  refine moveVar_ready h₁.sound.null ?_ (fun b n hb hn hv => ?_) hmove hg₁
  · rintro rfl
    have hnode := h₁.node
    rw [h₁.sound.null] at hnode
    cases hnode
  · exact (hg₁.lists.current b n v hb hn hv).symm

variable [DecidableEq β]

lemma optimizeArith_ready {w : ℕ} (hw : 32 ≤ w) {op : QuadrOp} {v : ν} {arg1 arg2 : QuadrArg ν β}
    {a₁ a₂ a₃ : ℕ} {ms : List (Dag ν β)} (hs : Sound w g) (hop : isArith op)
    (hfit : g.nextId + (absent g arg1 + (if arg1 = arg2 then 0 else absent g arg2) + 1) ≤ 2 ^ 13)
    (harg1 : Formed.Operand arg1) (harg2 : Formed.Operand arg2)
    (h : optimizeArith w g op v arg1 arg2 a₁ a₂ a₃ = some ms) (hg : Ready g) :
    Ready (ms.getLastD g) := by
  have hsound := optimizeArith_sound hs hfit harg1 harg2 h
  obtain ⟨⟨left, g₁⟩, hleft, h⟩ := Option.bind_eq_some_iff.mp h
  obtain ⟨⟨right, g₂⟩, hright, h⟩ := Option.bind_eq_some_iff.mp h
  obtain ⟨g₃, hroot, h⟩ := Option.bind_eq_some_iff.mp h
  obtain ⟨⟨node, g₄⟩, hins, h⟩ := Option.bind_eq_some_iff.mp h
  obtain ⟨g₅, hmove, h⟩ := Option.bind_eq_some_iff.mp h
  cases h
  have hs₁ : Sound w g₁ := hsound _ (by simp)
  have hs₂ : Sound w g₂ := hsound _ (by simp)
  have hs₃ : Sound w g₃ := hsound _ (by simp)
  have hs₄ : Sound w g₄ := hsound _ (by simp)
  have h₁ := getNode_reads hs (by omega) harg1 hleft
  have habs : absent g₁ arg2 ≤ if arg1 = arg2 then 0 else absent g arg2 := by
    split
    · next heq => exact (heq ▸ h₁.absent_self).le
    · exact h₁.absent_le arg2
  have hid₁ := h₁.nextId
  have h₂ := getNode_reads hs₁ (by omega) harg2 hright
  have hg₁ := getNode_ready hs harg1 hleft hg
  have hg₂ := getNode_ready hs₁ harg2 hright hg₁
  have hnew := newGraphRoot_newRoot hs₂ hop (getNode_isSome h₁.node hright) h₂.node hroot
  have hg₄ := insertRoot_ready hw hs₂ hs₃ hnew hins hg₂
  -- the node moved to is an operation, which none of the four steps turns into a leaf
  have hops := (((getNode_keepsOps hleft).trans (getNode_keepsOps hright)).trans
    hnew.keepsOps).trans (insertRoot_keepsOps hins)
  refine moveVar_ready hs₄.null ?_ (fun b n hb hn hv => ?_) hmove hg₄
  · rintro rfl
    obtain ⟨n, hn⟩ := moveVar_target hmove
    rw [hs₄.null] at hn
    cases hn
  · exact hops.node_eq hg.lists hb hn hv

/-- One turn of the loop leaves the graph ready. -/
theorem optimizeQuadr_ready {w : ℕ} (hw : 32 ≤ w) {q : Quadr ν β} {a : ℕ × ℕ × ℕ}
    {ms : List (Dag ν β)} (hs : Sound w g) (hq : Formed q) (hfit : Fits g q)
    (h : optimizeQuadr w g q a = some ms) (hg : Ready g) : Ready (ms.getLastD g) := by
  obtain ⟨op, result, arg1, arg2⟩ := q
  unfold Fits at hfit
  cases op with
  | add | sub | div | mul | mod =>
      obtain ⟨⟨v, rfl⟩, harg1, harg2⟩ := hq
      exact optimizeArith_ready hw hs rfl hfit harg1 harg2 h hg
  | copy =>
      obtain ⟨⟨v, rfl⟩, harg1⟩ := hq
      exact optimizeCopy_ready hs hfit harg1 h hg
  | _ =>
      cases h
      exact ready_resetGraph

end Root

end Javalette.Opt
