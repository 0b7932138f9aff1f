import Javalette.Opt.Dag

/-!
# Keys of the graph of a basic block

`make_key` leaves 13 bits for the `id` of the right operand and nothing checks that it fits.  As
long as the graph of a block has at most 8192 nodes, keys and operations determine each other and
no `id` is in use twice.

What a node is for the keys never changes: only its tag, its size and its list of variables are
written after it has been made.  The invariant `Sound` of the graph is therefore about the `fixed`
part of its nodes, and each function changes the pool in one of three ways: it keeps that part,
it adds a node with the next `id`, or it takes the last node back.
-/

namespace Javalette.Opt

open Rbtree

variable {ν β : Type}

/-! ## Packing -/

lemma opCode_lt (op : QuadrOp) : opCode op < 2 ^ 6 := by
  cases op <;> decide

lemma opCode_injective : Function.Injective opCode := by
  intro op op' h
  cases op <;> cases op' <;> first | rfl | exact absurd h (by decide)

/-- With small ids the fields of a key do not overlap. -/
lemma packKey_eq {w : ℕ} (hw : 32 ≤ w) (op : QuadrOp) {left right : ℕ} (hl : left < 2 ^ 13)
    (hr : right < 2 ^ 13) :
    packKey w op left right = left * 2 ^ 19 + (right * 2 ^ 6 + opCode op) := by
  have hword : 2 ^ 32 ≤ 2 ^ w := Nat.pow_le_pow_right (by omega) hw
  have hop := opCode_lt op
  unfold packKey
  rw [Nat.mod_eq_of_lt (by rw [Nat.shiftLeft_eq]; omega),
    Nat.mod_eq_of_lt (by rw [Nat.shiftLeft_eq]; omega), Nat.or_assoc,
    ← Nat.shiftLeft_add_eq_or_of_lt hop, ← Nat.shiftLeft_add_eq_or_of_lt,
    Nat.shiftLeft_eq, Nat.shiftLeft_eq]
  rw [Nat.shiftLeft_eq]
  omega

lemma packKey_inj {w : ℕ} (hw : 32 ≤ w) {op op' : QuadrOp} {l r l' r' : ℕ} (hl : l < 2 ^ 13)
    (hr : r < 2 ^ 13) (hl' : l' < 2 ^ 13) (hr' : r' < 2 ^ 13)
    (h : packKey w op l r = packKey w op' l' r') : op = op' ∧ l = l' ∧ r = r' := by
  rw [packKey_eq hw op hl hr, packKey_eq hw op' hl' hr'] at h
  have hop := opCode_lt op
  have hop' := opCode_lt op'
  refine ⟨opCode_injective ?_, ?_, ?_⟩ <;> omega

/-! ## The property -/

/-- The nodes stand for the same operation on the same nodes. -/
def GraphNode.SameOperation (n m : GraphNode ν β) : Prop :=
  n.u = m.u ∧ n.left = m.left ∧ n.right = m.right

/-- What value numbering relies on. -/
structure Identifies (g : Dag ν β) : Prop where
  ids : ∀ a b n m, g.pool a = some n → g.pool b = some m → n.id = m.id → a = b
  keys : ∀ a b n m, g.pool a = some n → g.pool b = some m → n.tag ≠ .leaf → m.tag ≠ .leaf →
    (n.key = m.key ↔ n.SameOperation m)
  canonical : ∀ a n op, g.pool a = some n → n.tag ≠ .leaf → n.u = .inr op → isCommutative op →
    n.left ≤ n.right
  merge : ∀ a n b, g.pool a = some n → n.tag ≠ .leaf → g.graph.lookup n.key = some b →
    ∃ m, g.pool b = some m ∧ m.tag ≠ .leaf ∧ m.SameOperation n

/-- The quadruple has the form that `quadr.h` describes, where an operation may also have
constants for its arguments. -/
def Formed (q : Quadr ν β) : Prop :=
  match q.op with
  | .add | .sub | .div | .mul | .mod =>
      (∃ v, q.result = .var v) ∧ Operand q.arg1 ∧ Operand q.arg2
  | .copy => (∃ v, q.result = .var v) ∧ Operand q.arg1
  | _ => True
where
  /-- A variable or a constant. -/
  Operand : QuadrArg ν β → Prop
    | .var _ | .int _ | .double _ => True
    | _ => False

/-- The node that the graph has for the argument. -/
def nodeOf (g : Dag ν β) : QuadrArg ν β → ℕ
  | .int i => g.intLeaf i
  | .double d => g.doubleLeaf d
  | .var v => g.varNode v
  | _ => NULL

/-- How many leaves `get_node` makes for the argument. -/
def absent (g : Dag ν β) (arg : QuadrArg ν β) : ℕ := if nodeOf g arg = NULL then 1 else 0

section Variables

variable [DecidableEq ν] [DecidableEq β]

/-- How many nodes the turn for the quadruple makes. -/
def newNodes (g : Dag ν β) (q : Quadr ν β) : ℕ :=
  match q.op with
  | .add | .sub | .div | .mul | .mod =>
      absent g q.arg1 + (if q.arg1 = q.arg2 then 0 else absent g q.arg2) + 1
  | .copy => absent g q.arg1
  | _ => 0

/-- The nodes that the turn makes still have ids of 13 bits. -/
def Fits (g : Dag ν β) (q : Quadr ν β) : Prop := g.nextId + newNodes g q ≤ 2 ^ 13

/-- Every quadruple of the rest of the block fits when its turn comes. -/
def AllFit (w : ℕ) : Dag ν β → List (Quadr ν β × ℕ × ℕ × ℕ) → Prop
  | _, [] => True
  | g, qa :: block =>
      Fits g qa.1 ∧
        ∀ ms, optimizeQuadr w g qa.1 qa.2 = some ms → AllFit w (ms.getLastD g) block

end Variables

/-! ## The invariant -/

/-- The part of a node that is not written again. -/
def GraphNode.fixed (n : GraphNode ν β) :=
  (n.key, n.left, n.right, n.u, n.id, decide (n.tag = .leaf))

/-- The key of an operation is packed from the nodes of its operands. -/
def Keyed (w : ℕ) (pool : ℕ → Option (GraphNode ν β)) (n : GraphNode ν β) : Prop :=
  ∃ op l r, n.u = .inr op ∧ pool n.left = some l ∧ pool n.right = some r ∧
    n.key = packKey w op l.id r.id ∧ (isCommutative op → n.left ≤ n.right)

/-- A null pointer or the address of a node. -/
def Points (pool : ℕ → Option (GraphNode ν β)) (a : ℕ) : Prop := a = NULL ∨ (pool a).isSome

/-- The invariant of the graph. -/
structure Sound (w : ℕ) (g : Dag ν β) : Prop where
  null : g.pool NULL = none
  small : g.nextId ≤ 2 ^ 13
  id_lt : ∀ a n, g.pool a = some n → n.id < g.nextId
  id_inj : ∀ a b n m, g.pool a = some n → g.pool b = some m → n.id = m.id → a = b
  keyed : ∀ a n, g.pool a = some n → n.tag ≠ .leaf → Keyed w g.pool n
  graph : ∀ k a, g.graph.lookup k = some a → ∃ n, g.pool a = some n ∧ n.tag ≠ .leaf ∧ n.key = k
  intLeaf : ∀ x ∈ g.intLeaves, (g.pool x.2).isSome
  doubleLeaf : ∀ x ∈ g.doubleLeaves, (g.pool x.2).isSome
  varNode : ∀ v, Points g.pool (g.varNode v)

/-! ## The maps of constants -/

lemma slt_trans (i j k : BitVec 32) (h : i.slt j) (h' : j.slt k) : i.slt k := by
  rw [BitVec.slt_iff_toInt_lt] at h h' ⊢
  exact h.trans h'

lemma slt_irrefl (i : BitVec 32) : ¬ i.slt i := by
  rw [BitVec.slt_iff_toInt_lt]
  exact lt_irrefl _

/-- `int_leaves` tells all keys apart. -/
lemma eq_of_same_slt {i j : BitVec 32} (h : OrderedMap.Same BitVec.slt i j) : i = j := by
  unfold OrderedMap.Same at h
  rw [BitVec.slt_iff_toInt_lt, BitVec.slt_iff_toInt_lt] at h
  exact BitVec.eq_of_toInt_eq (le_antisymm (not_lt.mp h.2) (not_lt.mp h.1))

lemma intLeaf_congr {g g' : Dag ν β} (h : g'.intLeaves = g.intLeaves) (i : BitVec 32) :
    g'.intLeaf i = g.intLeaf i := by
  rw [Dag.intLeaf, h, Dag.intLeaf]

lemma doubleLeaf_congr {g g' : Dag ν β} (h : g'.doubleLeaves = g.doubleLeaves) (d : BitVec 64) :
    g'.doubleLeaf d = g.doubleLeaf d := by
  rw [Dag.doubleLeaf, h, Dag.doubleLeaf]

section Entries

variable {κ : Type} {less : κ → κ → Bool} {pool : ℕ → Option (GraphNode ν β)} {l : List (κ × ℕ)}
  {k : κ} {a : ℕ}

/-- What a map finds is a node if its entries are. -/
lemma points_find (hl : ∀ x ∈ l, (pool x.2).isSome) (k : κ) :
    Points pool ((OrderedMap.find less k l).getD NULL) := by
  cases hfind : OrderedMap.find less k l with
  | none => exact .inl rfl
  | some b =>
      obtain ⟨k', hmem, -⟩ := OrderedMap.mem_of_find hfind
      exact .inr (hl _ hmem)

/-- A map in which `NULL` is found has no entry. -/
lemma find_eq_none (hnull : pool NULL = none) (hl : ∀ x ∈ l, (pool x.2).isSome)
    (h : (OrderedMap.find less k l).getD NULL = NULL) : OrderedMap.find less k l = none := by
  cases hfind : OrderedMap.find less k l with
  | none => rfl
  | some b =>
      obtain ⟨k', hmem, -⟩ := OrderedMap.mem_of_find hfind
      have hsome := hl _ hmem
      rw [hfind, Option.getD_some] at h
      rw [h, hnull] at hsome
      cases hsome

/-- The entries are nodes when a node is entered. -/
lemma entries_set (hl : ∀ x ∈ l, (pool x.2).isSome) (ha : (pool a).isSome)
    (h : OrderedMap.find less k l = none) :
    ∀ x ∈ OrderedMap.set less k a l, (pool x.2).isSome := by
  intro x hx
  obtain rfl | hx := (OrderedMap.mem_set h x).mp hx
  · exact ha
  · exact hl x hx

end Entries

lemma Sound.find_int {w : ℕ} {g : Dag ν β} (hs : Sound w g) {i : BitVec 32}
    (h : g.intLeaf i = NULL) : OrderedMap.find BitVec.slt i g.intLeaves = none :=
  find_eq_none hs.null hs.intLeaf h

lemma Sound.find_double {w : ℕ} {g : Dag ν β} (hs : Sound w g) {d : BitVec 64}
    (h : g.doubleLeaf d = NULL) : OrderedMap.find doubleLess d g.doubleLeaves = none :=
  find_eq_none hs.null hs.doubleLeaf h

lemma intLeaf_set_self {g g' : Dag ν β} {i : BitVec 32} {a : ℕ}
    (h : g'.intLeaves = OrderedMap.set BitVec.slt i a g.intLeaves) : g'.intLeaf i = a := by
  rw [Dag.intLeaf, h, OrderedMap.find_set_self (slt_irrefl i), Option.getD_some]

lemma doubleLeaf_set_self {g g' : Dag ν β} {d : BitVec 64} {a : ℕ}
    (h : g'.doubleLeaves = OrderedMap.set doubleLess d a g.doubleLeaves) :
    g'.doubleLeaf d = a := by
  rw [Dag.doubleLeaf, h, OrderedMap.find_set_self (doubleLess_irrefl d), Option.getD_some]

/-- What is found of a constant after a leaf has been entered. -/
lemma intLeaf_set {w : ℕ} {g g' : Dag ν β} (hs : Sound w g) {i j : BitVec 32} {a : ℕ}
    (hi : g.intLeaf i = NULL)
    (h : g'.intLeaves = OrderedMap.set BitVec.slt i a g.intLeaves) :
    g'.intLeaf j = g.intLeaf j ∨ g'.intLeaf j = a ∧ i = j := by
  obtain hfind | ⟨hfind, hsame⟩ := OrderedMap.find_set slt_trans (hs.find_int hi) a j
  · exact .inl (by rw [Dag.intLeaf, h, hfind, Dag.intLeaf])
  · exact .inr ⟨by rw [Dag.intLeaf, h, hfind, Option.getD_some], eq_of_same_slt hsame⟩

lemma doubleLeaf_set {w : ℕ} {g g' : Dag ν β} (hs : Sound w g) {d e : BitVec 64} {a : ℕ}
    (hd : g.doubleLeaf d = NULL)
    (h : g'.doubleLeaves = OrderedMap.set doubleLess d a g.doubleLeaves) :
    g'.doubleLeaf e = g.doubleLeaf e ∨
      g'.doubleLeaf e = a ∧ OrderedMap.Same doubleLess d e := by
  obtain hfind | ⟨hfind, hsame⟩ := OrderedMap.find_set doubleLess_trans (hs.find_double hd) a e
  · exact .inl (by rw [Dag.doubleLeaf, h, hfind, Dag.doubleLeaf])
  · exact .inr ⟨by rw [Dag.doubleLeaf, h, hfind, Option.getD_some], hsame⟩

lemma Keyed.sameOperation {w : ℕ} (hw : 32 ≤ w) {g : Dag ν β} (hs : Sound w g)
    {n m : GraphNode ν β} (hn : Keyed w g.pool n) (hm : Keyed w g.pool m) (h : n.key = m.key) :
    n.SameOperation m := by
  obtain ⟨op, l, r, hu, hl, hr, hkey, -⟩ := hn
  obtain ⟨op', l', r', hu', hl', hr', hkey', -⟩ := hm
  have hsmall : ∀ a n, g.pool a = some n → n.id < 2 ^ 13 := fun a n h =>
    lt_of_lt_of_le (hs.id_lt a n h) hs.small
  rw [hkey, hkey'] at h
  obtain ⟨rfl, hidl, hidr⟩ := packKey_inj hw (hsmall _ _ hl) (hsmall _ _ hr) (hsmall _ _ hl')
    (hsmall _ _ hr') h
  exact ⟨hu.trans hu'.symm, hs.id_inj _ _ _ _ hl hl' hidl, hs.id_inj _ _ _ _ hr hr' hidr⟩

/-- The invariant is enough. -/
theorem Sound.identifies {w : ℕ} (hw : 32 ≤ w) {g : Dag ν β} (hs : Sound w g) :
    Identifies g where
  ids := hs.id_inj
  keys := by
    intro a b n m ha hb hn hm
    have hkn := hs.keyed a n ha hn
    have hkm := hs.keyed b m hb hm
    constructor
    · intro h
      exact hkn.sameOperation hw hs hkm h
    · rintro ⟨hu, hleft, hright⟩
      obtain ⟨op, l, r, hun, hl, hr, hkey, -⟩ := hkn
      obtain ⟨op', l', r', hum, hl', hr', hkey', -⟩ := hkm
      rw [hun, hum, Sum.inr.injEq] at hu
      rw [← hleft, hl, Option.some.injEq] at hl'
      rw [← hright, hr, Option.some.injEq] at hr'
      rw [hkey, hkey', hu, hl', hr']
  canonical := by
    intro a n op ha hn hop hc
    obtain ⟨op', l, r, hu, -, -, -, hle⟩ := hs.keyed a n ha hn
    rw [hop, Sum.inr.injEq] at hu
    exact hle (hu ▸ hc)
  merge := by
    intro a n b ha hn hb
    obtain ⟨m, hm, hleaf, hkey⟩ := hs.graph _ _ hb
    exact ⟨m, hm, hleaf, (hs.keyed b m hm hleaf).sameOperation hw hs (hs.keyed a n ha hn) hkey⟩

/-! ## Writes that keep the nodes -/

/-- The addresses in use and the fixed parts of their nodes are the same. -/
def SameNodes (p p' : ℕ → Option (GraphNode ν β)) : Prop :=
  ∀ a, (p' a).map GraphNode.fixed = (p a).map GraphNode.fixed

lemma SameNodes.at {p p' : ℕ → Option (GraphNode ν β)} (h : SameNodes p p') {a : ℕ}
    {n : GraphNode ν β} (ha : p' a = some n) : ∃ m, p a = some m ∧ m.fixed = n.fixed := by
  have hmap := h a
  rw [ha, Option.map_some] at hmap
  exact Option.map_eq_some_iff.mp hmap.symm

lemma SameNodes.symm {p p' : ℕ → Option (GraphNode ν β)} (h : SameNodes p p') :
    SameNodes p' p := fun a => (h a).symm

lemma SameNodes.eq_none {p p' : ℕ → Option (GraphNode ν β)} (h : SameNodes p p') {a : ℕ}
    (ha : p a = none) : p' a = none := by
  have hmap := h a
  rw [ha, Option.map_none, Option.map_eq_none_iff] at hmap
  exact hmap

lemma SameNodes.isSome {p p' : ℕ → Option (GraphNode ν β)} (h : SameNodes p p') {a : ℕ}
    (ha : (p a).isSome) : (p' a).isSome := by
  rw [← Option.isSome_map (f := GraphNode.fixed), h a, Option.isSome_map]
  exact ha

lemma SameNodes.points {p p' : ℕ → Option (GraphNode ν β)} (h : SameNodes p p') {a : ℕ}
    (ha : Points p a) : Points p' a := ha.imp_right h.isSome

lemma fixed_eq_iff {n m : GraphNode ν β} :
    n.fixed = m.fixed ↔ n.key = m.key ∧ n.left = m.left ∧ n.right = m.right ∧ n.u = m.u ∧
      n.id = m.id ∧ (n.tag = .leaf ↔ m.tag = .leaf) := by
  simp [GraphNode.fixed]

/-- What the keys depend on has not changed; a variable may have got another node. -/
structure Keeps (g g' : Dag ν β) : Prop where
  pool : SameNodes g.pool g'.pool
  nextId : g'.nextId = g.nextId
  graph : g'.graph = g.graph
  intLeaves : g'.intLeaves = g.intLeaves
  doubleLeaves : g'.doubleLeaves = g.doubleLeaves
  varNode : ∀ v, g'.varNode v = g.varNode v ∨ Points g.pool (g'.varNode v)

lemma Keeps.refl (g : Dag ν β) : Keeps g g :=
  ⟨fun _ => rfl, rfl, rfl, rfl, rfl, fun _ => .inl rfl⟩

lemma Keeps.trans {g g' g'' : Dag ν β} (h : Keeps g g') (h' : Keeps g' g'') : Keeps g g'' where
  pool a := (h'.pool a).trans (h.pool a)
  nextId := h'.nextId.trans h.nextId
  graph := h'.graph.trans h.graph
  intLeaves := h'.intLeaves.trans h.intLeaves
  doubleLeaves := h'.doubleLeaves.trans h.doubleLeaves
  varNode v := by
    obtain heq | hp := h'.varNode v
    · rw [heq]
      exact h.varNode v
    · exact .inr (h.pool.symm.points hp)

lemma Keeps.sound {w : ℕ} {g g' : Dag ν β} (h : Keeps g g') (hs : Sound w g) : Sound w g' where
  null := h.pool.eq_none hs.null
  small := h.nextId ▸ hs.small
  id_lt := by
    intro a n ha
    obtain ⟨m, hm, hfix⟩ := h.pool.at ha
    rw [h.nextId, ← (fixed_eq_iff.mp hfix).2.2.2.2.1]
    exact hs.id_lt a m hm
  id_inj := by
    intro a b n m ha hb hid
    -- the ids and the operands of a node are among what is kept of it
    obtain ⟨n', hn', hfn⟩ := h.pool.at ha
    obtain ⟨m', hm', hfm⟩ := h.pool.at hb
    rw [fixed_eq_iff] at hfn hfm
    exact hs.id_inj a b n' m' hn' hm' (hfn.2.2.2.2.1.trans (hid.trans hfm.2.2.2.2.1.symm))
  keyed := by
    intro a n ha hn
    obtain ⟨n', hn', hfn⟩ := h.pool.at ha
    obtain ⟨hkey, hleft, hright, hu, -, htag⟩ := fixed_eq_iff.mp hfn
    obtain ⟨op, l, r, hop, hl, hr, hpack, hle⟩ := hs.keyed a n' hn' (mt htag.mp hn)
    obtain ⟨l', hl', hfl⟩ := h.pool.symm.at hl
    obtain ⟨r', hr', hfr⟩ := h.pool.symm.at hr
    rw [fixed_eq_iff] at hfl hfr
    refine ⟨op, l', r', hu ▸ hop, hleft ▸ hl', hright ▸ hr', ?_, hleft ▸ hright ▸ hle⟩
    rw [← hkey, hpack, hfl.2.2.2.2.1, hfr.2.2.2.2.1]
  graph := by
    intro k a ha
    rw [h.graph] at ha
    obtain ⟨n, hn, hleaf, hkey⟩ := hs.graph k a ha
    obtain ⟨n', hn', hfn⟩ := h.pool.symm.at hn
    rw [fixed_eq_iff] at hfn
    exact ⟨n', hn', mt hfn.2.2.2.2.2.mp hleaf, hfn.1.trans hkey⟩
  intLeaf x hx := h.pool.isSome (hs.intLeaf x (h.intLeaves ▸ hx))
  doubleLeaf x hx := h.pool.isSome (hs.doubleLeaf x (h.doubleLeaves ▸ hx))
  varNode v := by
    obtain heq | hp := h.varNode v
    · rw [heq]
      exact h.pool.points (hs.varNode v)
    · exact h.pool.points hp

lemma modify_keeps (g : Dag ν β) (a : ℕ) {f : GraphNode ν β → GraphNode ν β}
    (hf : ∀ n, (f n).fixed = n.fixed) : Keeps g (g.modify a f) := by
  refine ⟨fun b => ?_, rfl, rfl, rfl, rfl, fun _ => .inl rfl⟩
  unfold Dag.modify
  dsimp only
  by_cases hb : b = a
  · subst hb
    rw [Function.update_self, Option.map_map]
    congr 1
    funext n
    exact hf n
  · rw [Function.update_of_ne hb]

lemma useOperand_keeps {g g' : Dag ν β} {a x : ℕ} (h : useOperand g a x = some g') :
    Keeps g g' ∧ g'.varNode = g.varNode := by
  unfold useOperand at h
  split at h
  · cases h
    exact ⟨Keeps.refl g, rfl⟩
  · obtain ⟨n, -, h⟩ := Option.bind_eq_some_iff.mp h
    cases h
    refine ⟨(modify_keeps g a ?_).trans (modify_keeps _ x ?_), rfl⟩
    · intro m
      rfl
    · intro m
      rw [fixed_eq_iff]
      refine ⟨rfl, rfl, rfl, rfl, rfl, ?_⟩
      dsimp only
      split
      · next hroot => simp [hroot]
      · rfl

section Variables

variable [DecidableEq ν]

lemma addVar_keeps {g g' : Dag ν β} {a : ℕ} {v : ν} (h : addVar g a v = some g') :
    Keeps g g' := by
  obtain ⟨n, ha, h⟩ := Option.bind_eq_some_iff.mp h
  cases h
  have hmod := modify_keeps g a (f := fun n => { n with varList := v :: n.varList }) fun _ => rfl
  refine ⟨hmod.pool, rfl, rfl, rfl, rfl, fun v' => ?_⟩
  by_cases hv : v' = v
  · right
    right
    simp [hv, ha]
  · left
    exact Function.update_of_ne hv _ _

lemma addVar_total {g : Dag ν β} {a : ℕ} (v : ν) (h : (g.pool a).isSome) :
    ∃ g', addVar g a v = some g' := by
  obtain ⟨n, hn⟩ := Option.isSome_iff_exists.mp h
  exact ⟨_, Option.bind_eq_some_iff.mpr ⟨n, hn, rfl⟩⟩

lemma addVar_varNode {g g' : Dag ν β} {a : ℕ} {v : ν} (h : addVar g a v = some g') :
    g'.varNode = Function.update g.varNode v a := by
  obtain ⟨n, -, h⟩ := Option.bind_eq_some_iff.mp h
  cases h
  rfl

lemma removeVar_keeps {g g' : Dag ν β} {a : ℕ} {v : ν} (h : removeVar g a v = some g') :
    Keeps g g' := by
  obtain ⟨n, -, h⟩ := Option.bind_eq_some_iff.mp h
  split at h
  · cases h
    exact Keeps.refl g
  · cases h
    exact modify_keeps g a fun _ => rfl

lemma moveVar_keeps {g g' : Dag ν β} {res a : ℕ} {v : ν} (h : moveVar g res a v = some g') :
    Keeps g g' := by
  obtain ⟨g₁, h₁, h⟩ := Option.bind_eq_some_iff.mp h
  refine Keeps.trans ?_ (addVar_keeps h)
  split at h₁
  · cases h₁
    exact Keeps.refl g
  · exact removeVar_keeps h₁

end Variables

/-! ## New nodes -/

lemma alloc_eq_some {g g' : Dag ν β} {a : ℕ} {n : GraphNode ν β} (h : g.alloc a n = some g') :
    a ≠ NULL ∧ g.pool a = none ∧ g' = { g with
      pool := Function.update g.pool a (some { n with id := g.nextId })
      nextId := (g.nextId + 1) % 2 ^ 16 } := by
  unfold Dag.alloc at h
  split at h
  · cases h
  · next hfresh =>
      rw [not_or, Bool.not_eq_true, Option.isSome_eq_false_iff, Option.isNone_iff_eq_none] at hfresh
      exact ⟨hfresh.1, hfresh.2, (Option.some.inj h).symm⟩

/-- The nodes of the old pool are in the new one. -/
lemma some_of_alloc {p : ℕ → Option (GraphNode ν β)} {a : ℕ} (hfresh : p a = none)
    (n : GraphNode ν β) {b : ℕ} {m : GraphNode ν β} (hb : p b = some m) :
    Function.update p a (some n) b = some m := by
  rw [Function.update_of_ne, hb]
  rintro rfl
  rw [hfresh] at hb
  cases hb

lemma Keyed.mono {w : ℕ} {p p' : ℕ → Option (GraphNode ν β)} {n : GraphNode ν β}
    (h : Keyed w p n) (hp : ∀ b m, p b = some m → p' b = some m) : Keyed w p' n := by
  obtain ⟨op, l, r, hu, hl, hr, hkey⟩ := h
  exact ⟨op, l, r, hu, hp _ _ hl, hp _ _ hr, hkey⟩

/-- A new node takes the next id. -/
theorem Sound.alloc {w : ℕ} {g g' : Dag ν β} {a : ℕ} {n : GraphNode ν β} (hs : Sound w g)
    (hlt : g.nextId < 2 ^ 13) (h : g.alloc a n = some g')
    (hn : n.tag ≠ .leaf → Keyed w g.pool n) : Sound w g' ∧ g'.nextId = g.nextId + 1 := by
  obtain ⟨hnull, hfresh, rfl⟩ := alloc_eq_some h
  have hnext : (g.nextId + 1) % 2 ^ 16 = g.nextId + 1 := Nat.mod_eq_of_lt (by omega)
  -- every node is the new one or an old one
  have hold : ∀ b m, Function.update g.pool a (some { n with id := g.nextId }) b = some m →
      b = a ∧ m = { n with id := g.nextId } ∨ b ≠ a ∧ g.pool b = some m := by
    intro b m hb
    by_cases hba : b = a
    · subst hba
      rw [Function.update_self] at hb
      exact .inl ⟨rfl, (Option.some.inj hb).symm⟩
    · rw [Function.update_of_ne hba] at hb
      exact .inr ⟨hba, hb⟩
  have hkeep : ∀ b m, g.pool b = some m →
      Function.update g.pool a (some { n with id := g.nextId }) b = some m :=
    fun b m hb => some_of_alloc hfresh _ hb
  have hstays : ∀ b, (g.pool b).isSome →
      (Function.update g.pool a (some { n with id := g.nextId }) b).isSome := by
    intro b hsome
    obtain ⟨m, hm⟩ := Option.isSome_iff_exists.mp hsome
    rw [hkeep b m hm]
    rfl
  refine ⟨?_, hnext⟩
  constructor
  case null => exact (Function.update_of_ne (Ne.symm hnull) _ _).trans hs.null
  case small =>
    dsimp only
    rw [hnext]
    exact hlt
  case id_lt =>
    intro b m hb
    dsimp only
    rw [hnext]
    obtain ⟨-, rfl⟩ | ⟨-, hb⟩ := hold b m hb
    · exact Nat.lt_succ_self _
    · exact (hs.id_lt b m hb).trans (Nat.lt_succ_self _)
  case id_inj =>
    intro b c m k hb hc hid
    obtain ⟨hba, hm⟩ | ⟨-, hb'⟩ := hold b m hb
    · obtain ⟨hca, -⟩ | ⟨-, hc'⟩ := hold c k hc
      · exact hba.trans hca.symm
      · rw [hm] at hid
        exact absurd hid (hs.id_lt c k hc').ne'
    · obtain ⟨-, hk⟩ | ⟨-, hc'⟩ := hold c k hc
      · rw [hk] at hid
        exact absurd hid (hs.id_lt b m hb').ne
      · exact hs.id_inj b c m k hb' hc' hid
  case keyed =>
    intro b m hb hleaf
    obtain ⟨-, rfl⟩ | ⟨-, hb⟩ := hold b m hb
    · exact (hn hleaf).mono hkeep
    · exact (hs.keyed b m hb hleaf).mono hkeep
  case graph =>
    intro k b hb
    obtain ⟨m, hm, hrest⟩ := hs.graph k b hb
    exact ⟨m, hkeep b m hm, hrest⟩
  case intLeaf => exact fun x hx => hstays _ (hs.intLeaf x hx)
  case doubleLeaf => exact fun x hx => hstays _ (hs.doubleLeaf x hx)
  case varNode => exact fun v => (hs.varNode v).imp_right (hstays _)

lemma getId_of_some {pool : ℕ → Option (GraphNode ν β)} (hnull : pool NULL = none) {x : ℕ}
    {n : GraphNode ν β} (hx : pool x = some n) : getId pool x = some n.id := by
  have hne : x ≠ NULL := by
    rintro rfl
    rw [hnull] at hx
    cases hx
  rw [getId, if_neg hne, hx, Option.map_some]

lemma makeKey_of_some {w : ℕ} {pool : ℕ → Option (GraphNode ν β)} (hnull : pool NULL = none)
    (op : QuadrOp) {left right : ℕ} {l r : GraphNode ν β} (hl : pool left = some l)
    (hr : pool right = some r) :
    makeKey w pool op left right = some (packKey w op l.id r.id) := by
  unfold makeKey
  rw [getId_of_some hnull hl, getId_of_some hnull hr]
  rfl

/-- `g'` has one node more, an operation at `a`. -/
def Grown (w : ℕ) (g : Dag ν β) (a : ℕ) (g' : Dag ν β) : Prop :=
  ∃ n g₁, n.tag ≠ .leaf ∧ Keyed w g.pool n ∧ g.alloc a n = some g₁ ∧ Keeps g₁ g' ∧
    g'.varNode = g.varNode

lemma newOrderedRoot_grown {w : ℕ} {g g' : Dag ν β} {op : QuadrOp} {left right a : ℕ}
    {l r : GraphNode ν β} (hnull : g.pool NULL = none) (hl : g.pool left = some l)
    (hr : g.pool right = some r) (hle : isCommutative op → left ≤ right)
    (h : newOrderedRoot w g op left right a = some g') : Grown w g a g' := by
  unfold newOrderedRoot at h
  rw [makeKey_of_some hnull op hl hr] at h
  obtain ⟨key, hkey, h⟩ := Option.bind_eq_some_iff.mp h
  cases hkey
  obtain ⟨g₁, halloc, h⟩ := Option.bind_eq_some_iff.mp h
  obtain ⟨g₂, hleft, hright⟩ := Option.bind_eq_some_iff.mp h
  obtain ⟨hkeep, hvar⟩ := useOperand_keeps hleft
  obtain ⟨hkeep', hvar'⟩ := useOperand_keeps hright
  refine ⟨_, g₁, by simp, ⟨op, l, r, rfl, hl, hr, rfl, hle⟩, halloc, hkeep.trans hkeep', ?_⟩
  rw [hvar', hvar, (alloc_eq_some halloc).2.2]

/-- `new_graph_root` makes one node, and its key is packed from its operands. -/
lemma newGraphRoot_grown {w : ℕ} {g g' : Dag ν β} {op : QuadrOp} {left right a : ℕ}
    (hnull : g.pool NULL = none) (hl : (g.pool left).isSome) (hr : (g.pool right).isSome)
    (h : newGraphRoot w g op left right a = some g') : Grown w g a g' := by
  obtain ⟨l, hl⟩ := Option.isSome_iff_exists.mp hl
  obtain ⟨r, hr⟩ := Option.isSome_iff_exists.mp hr
  unfold newGraphRoot at h
  split at h
  · next hswap => exact newOrderedRoot_grown hnull hr hl (fun _ => hswap.2.le) h
  · next hord =>
      apply newOrderedRoot_grown hnull hl hr ?_ h
      intro hc
      exact not_lt.mp fun hlt => hord ⟨hc, hlt⟩

lemma Grown.sound {w : ℕ} {g g' : Dag ν β} {a : ℕ} (h : Grown w g a g') (hs : Sound w g)
    (hlt : g.nextId < 2 ^ 13) : Sound w g' := by
  obtain ⟨n, g₁, -, hkey, halloc, hkeep, -⟩ := h
  exact hkeep.sound (hs.alloc hlt halloc fun _ => hkey).1

/-- The node that is freed has the last id, and nothing points to it. -/
lemma freeGraphNode_keeps {w : ℕ} {g g' g'' : Dag ν β} {a : ℕ} (hlt : g.nextId < 2 ^ 13)
    (hg : Grown w g a g') (h : freeGraphNode g' a = some g'') : Keeps g g'' := by
  obtain ⟨n, g₁, -, -, halloc, hkeep, hvar⟩ := hg
  obtain ⟨-, hfresh, rfl⟩ := alloc_eq_some halloc
  obtain ⟨m, hm, h⟩ := Option.bind_eq_some_iff.mp h
  cases h
  obtain ⟨m', hm', hfix⟩ := hkeep.pool.at hm
  dsimp only at hm'
  rw [Function.update_self, Option.some.injEq] at hm'
  have hid : m.id = g.nextId := by
    rw [← (fixed_eq_iff.mp hfix).2.2.2.2.1, ← hm']
  have hnext : g'.nextId = g.nextId + 1 := by
    rw [hkeep.nextId]
    exact Nat.mod_eq_of_lt (by omega)
  refine ⟨fun b => ?_, ?_, hkeep.graph, hkeep.intLeaves, hkeep.doubleLeaves, fun v => ?_⟩
  · dsimp only
    by_cases hb : b = a
    · rw [hb, Function.update_self, hfresh]
    · have hpool := hkeep.pool b
      dsimp only at hpool
      rw [Function.update_of_ne hb] at hpool
      rw [Function.update_of_ne hb, hpool]
  · dsimp only
    rw [hid, hnext, if_pos rfl, Nat.add_sub_cancel]
  · exact .inl (congrFun hvar v)

/-- **`rb_insert_if_absent`** on the new node. -/
theorem insertRoot_sound {w : ℕ} {g g' g'' : Dag ν β} {a b : ℕ} (hs : Sound w g)
    (hlt : g.nextId < 2 ^ 13) (hg : Grown w g a g') (h : insertRoot g' a = some (b, g'')) :
    Sound w g'' ∧ g''.nextId ≤ g.nextId + 1 := by
  have hs' := hg.sound hs hlt
  obtain ⟨n, hn, h⟩ := Option.bind_eq_some_iff.mp h
  split at h
  · next c hc =>
      obtain ⟨g₁, hfree, h⟩ := Option.bind_eq_some_iff.mp h
      cases h
      have hkeep := freeGraphNode_keeps hlt hg hfree
      exact ⟨hkeep.sound hs, hkeep.nextId ▸ Nat.le_succ _⟩
  · next habs =>
      cases h
      obtain ⟨m, g₁, hleaf, -, halloc, hkeep, -⟩ := hg
      obtain ⟨-, -, rfl⟩ := alloc_eq_some halloc
      refine ⟨{ hs' with graph := fun k c hc => ?_ }, ?_⟩
      · dsimp only at hc
        rw [RbSet.lookup_insertIfAbsent] at hc
        split at hc
        · next hk =>
            cases hc
            obtain ⟨m', hm', hfix⟩ := hkeep.pool.at hn
            dsimp only at hm'
            rw [Function.update_self, Option.some.injEq] at hm'
            rw [fixed_eq_iff, ← hm'] at hfix
            exact ⟨n, hn, mt hfix.2.2.2.2.2.mpr hleaf, hk.1.symm⟩
        · exact hs'.graph k c hc
      · dsimp only
        rw [hkeep.nextId]
        exact Nat.mod_le _ _

/-! ## The operands -/

lemma newGraphLeaf_sound {w : ℕ} {g g' : Dag ν β} {arg : QuadrArg ν β} {a : ℕ} (hs : Sound w g)
    (hlt : g.nextId < 2 ^ 13) (h : newGraphLeaf g arg a = some g') :
    Sound w g' ∧ g'.nextId = g.nextId + 1 ∧ a ≠ NULL ∧ (g'.pool a).isSome ∧
      g'.intLeaves = g.intLeaves ∧ g'.doubleLeaves = g.doubleLeaves ∧ g'.varNode = g.varNode := by
  have hsound := hs.alloc hlt h fun hleaf => absurd rfl hleaf
  obtain ⟨hnull, -, rfl⟩ := alloc_eq_some h
  refine ⟨hsound.1, hsound.2, hnull, ?_, rfl, rfl, rfl⟩
  dsimp only
  rw [Function.update_self]
  rfl

lemma isSome_of_points {pool : ℕ → Option (GraphNode ν β)} {a : ℕ} (h : Points pool a)
    (hne : a ≠ NULL) : (pool a).isSome := h.resolve_left hne

/-- Reading an operand makes at most one leaf, for this operand. -/
structure Reads (w : ℕ) (g : Dag ν β) (arg : QuadrArg ν β) (x : ℕ) (g' : Dag ν β) : Prop where
  sound : Sound w g'
  node : (g'.pool x).isSome
  nextId : g'.nextId = g.nextId + absent g arg
  here : nodeOf g' arg ≠ NULL
  others : ∀ arg', nodeOf g' arg' = nodeOf g arg' ∨ nodeOf g' arg' ≠ NULL

lemma Reads.absent_self {w : ℕ} {g g' : Dag ν β} {arg : QuadrArg ν β} {x : ℕ}
    (h : Reads w g arg x g') : absent g' arg = 0 := if_neg h.here

lemma Reads.absent_le {w : ℕ} {g g' : Dag ν β} {arg : QuadrArg ν β} {x : ℕ}
    (h : Reads w g arg x g') (arg' : QuadrArg ν β) : absent g' arg' ≤ absent g arg' := by
  unfold absent
  obtain heq | hne := h.others arg'
  · rw [heq]
  · rw [if_neg hne]
    exact Nat.zero_le _

lemma reads_old {w : ℕ} {g : Dag ν β} {arg : QuadrArg ν β} (hs : Sound w g)
    (hp : Points g.pool (nodeOf g arg)) (hne : nodeOf g arg ≠ NULL) :
    Reads w g arg (nodeOf g arg) g where
  sound := hs
  node := isSome_of_points hp hne
  nextId := by rw [absent, if_neg hne, Nat.add_zero]
  here := hne
  others _ := .inl rfl

/-- The leaf is new and its address has been entered for the operand. -/
lemma reads_new {w : ℕ} {g g' : Dag ν β} {arg : QuadrArg ν β} {a : ℕ} (hs : Sound w g')
    (hnull : nodeOf g arg = NULL) (hne : a ≠ NULL) (ha : (g'.pool a).isSome)
    (hid : g'.nextId = g.nextId + 1) (hself : nodeOf g' arg = a)
    (hother : ∀ arg', nodeOf g' arg' = nodeOf g arg' ∨ nodeOf g' arg' = a) :
    Reads w g arg a g' where
  sound := hs
  node := ha
  nextId := by rw [absent, if_pos hnull, hid]
  here := by
    rw [hself]
    exact hne
  others arg' := by
    apply (hother arg').imp_right
    intro heq
    rw [heq]
    exact hne

lemma sound_resetGraph (w : ℕ) : Sound w (resetGraph : Dag ν β) where
  null := rfl
  small := Nat.zero_le _
  id_lt _ _ h := by cases h
  id_inj _ _ _ _ h := by cases h
  keyed _ _ h := by cases h
  graph k _ h := by
    change RbSet.empty.lookup k = some _ at h
    rw [RbSet.lookup_empty] at h
    cases h
  intLeaf _ h := by cases h
  doubleLeaf _ h := by cases h
  varNode _ := .inl rfl

section Variables

variable [DecidableEq ν]

/-- A node that is there stays. -/
lemma getNode_isSome {g g' : Dag ν β} {arg : QuadrArg ν β} {a x b : ℕ} (hb : (g.pool b).isSome)
    (h : getNode g arg a = some (x, g')) : (g'.pool b).isSome := by
  -- a new leaf is put at a free address
  have hleaf : ∀ g₁, newGraphLeaf g arg a = some g₁ → (g₁.pool b).isSome := by
    intro g₁ h₁
    obtain ⟨-, hfresh, rfl⟩ := alloc_eq_some h₁
    obtain ⟨n, hn⟩ := Option.isSome_iff_exists.mp hb
    exact Option.isSome_iff_exists.mpr ⟨n, some_of_alloc hfresh _ hn⟩
  cases arg with
  | int i | double d =>
      unfold getNode at h
      dsimp only at h
      split at h
      · obtain ⟨g₁, h₁, h⟩ := Option.bind_eq_some_iff.mp h
        cases h
        exact hleaf g₁ h₁
      · cases h
        exact hb
  | var v =>
      unfold getNode at h
      dsimp only at h
      split at h
      · obtain ⟨g₁, h₁, h⟩ := Option.bind_eq_some_iff.mp h
        obtain ⟨g₂, hadd, h⟩ := Option.bind_eq_some_iff.mp h
        cases h
        rw [← Option.isSome_map (f := GraphNode.fixed), (addVar_keeps hadd).pool b,
          Option.isSome_map]
        exact hleaf g₁ h₁
      · cases h
        exact hb
  | none =>
      cases h
      exact hb
  | label | str | func => cases h

/-- **`get_node`**. -/
theorem getNode_reads {w : ℕ} {g g' : Dag ν β} {arg : QuadrArg ν β} {a x : ℕ} (hs : Sound w g)
    (hfit : g.nextId + absent g arg ≤ 2 ^ 13) (harg : Formed.Operand arg)
    (h : getNode g arg a = some (x, g')) : Reads w g arg x g' := by
  have hlt : nodeOf g arg = NULL → g.nextId < 2 ^ 13 := by
    intro hnull
    rw [absent, if_pos hnull] at hfit
    omega
  cases arg with
  | int i =>
      unfold getNode at h
      dsimp only at h
      split at h
      · next hnull =>
          change nodeOf g (.int i) = NULL at hnull
          obtain ⟨g₁, hleaf, h⟩ := Option.bind_eq_some_iff.mp h
          cases h
          obtain ⟨hs₁, hid, hne, ha, hint, hdouble, hvar⟩ := newGraphLeaf_sound hs (hlt hnull) hleaf
          have hnull₁ : g₁.intLeaf i = NULL := (intLeaf_congr hint i).trans hnull
          -- the new entry names the new leaf, the others are as they were
          have hs₂ : Sound w { g₁ with intLeaves := OrderedMap.set BitVec.slt i a g₁.intLeaves } :=
            { hs₁ with intLeaf := entries_set hs₁.intLeaf ha (hs₁.find_int hnull₁) }
          apply reads_new hs₂ hnull hne ha hid
          · exact intLeaf_set_self rfl
          · -- an operand that had a node still has it
            intro arg'
            cases arg' with
            | int j =>
                rw [nodeOf, nodeOf, ← intLeaf_congr hint j]
                exact (intLeaf_set hs₁ hnull₁ rfl).imp_right And.left
            | double d => exact .inl (doubleLeaf_congr hdouble d)
            | var v => exact .inl (congrFun hvar v)
            | none | label | str | func => exact .inl rfl
      · next hne =>
          cases h
          exact reads_old hs (points_find hs.intLeaf i) hne
  | double d =>
      unfold getNode at h
      dsimp only at h
      split at h
      · next hnull =>
          change nodeOf g (.double d) = NULL at hnull
          obtain ⟨g₁, hleaf, h⟩ := Option.bind_eq_some_iff.mp h
          cases h
          obtain ⟨hs₁, hid, hne, ha, hint, hdouble, hvar⟩ := newGraphLeaf_sound hs (hlt hnull) hleaf
          have hnull₁ : g₁.doubleLeaf d = NULL := (doubleLeaf_congr hdouble d).trans hnull
          have hs₂ : Sound w
              { g₁ with doubleLeaves := OrderedMap.set doubleLess d a g₁.doubleLeaves } :=
            { hs₁ with doubleLeaf := entries_set hs₁.doubleLeaf ha (hs₁.find_double hnull₁) }
          apply reads_new hs₂ hnull hne ha hid
          · exact doubleLeaf_set_self rfl
          · intro arg'
            cases arg' with
            | int i => exact .inl (intLeaf_congr hint i)
            | double e =>
                rw [nodeOf, nodeOf, ← doubleLeaf_congr hdouble e]
                exact (doubleLeaf_set hs₁ hnull₁ rfl).imp_right And.left
            | var v => exact .inl (congrFun hvar v)
            | none | label | str | func => exact .inl rfl
      · next hne =>
          cases h
          exact reads_old hs (points_find hs.doubleLeaf d) hne
  | var v =>
      unfold getNode at h
      dsimp only at h
      split at h
      · next hnull =>
          change nodeOf g (.var v) = NULL at hnull
          obtain ⟨g₁, hleaf, h⟩ := Option.bind_eq_some_iff.mp h
          obtain ⟨g₂, hadd, h⟩ := Option.bind_eq_some_iff.mp h
          cases h
          obtain ⟨hs₁, hid, hne, ha, hint, hdouble, hvar⟩ := newGraphLeaf_sound hs (hlt hnull) hleaf
          -- the leaf of a variable is on the list of the variable as well
          have hkeep := addVar_keeps hadd
          have hs₂ : Sound w g' := hkeep.sound { hs₁ with }
          have hmap := addVar_varNode hadd
          apply reads_new hs₂ hnull hne ?_ (hkeep.nextId.trans hid)
          · rw [nodeOf, hmap]
            exact Function.update_self v a g₁.varNode
          · intro arg'
            cases arg' with
            | int i => exact .inl (intLeaf_congr (hkeep.intLeaves.trans hint) i)
            | double d => exact .inl (doubleLeaf_congr (hkeep.doubleLeaves.trans hdouble) d)
            | var v' =>
                rw [nodeOf, hmap, nodeOf, ← hvar, Function.update_apply]
                split
                · exact .inr rfl
                · exact .inl rfl
            | none | label | str | func => exact .inl rfl
          · exact isSome_of_points (hkeep.pool.points (.inr ha)) hne
      · next hne =>
          cases h
          exact reads_old hs (hs.varNode v) hne
  | none | label | str | func => exact harg.elim

/-! ## The block -/

/-- The turn for a copy. -/
theorem optimizeCopy_sound {w : ℕ} {g : Dag ν β} {v : ν} {arg1 : QuadrArg ν β} {a : ℕ}
    {ms : List (Dag ν β)} (hs : Sound w g) (hfit : g.nextId + absent g arg1 ≤ 2 ^ 13)
    (harg1 : Formed.Operand arg1) (h : optimizeCopy g v arg1 a = some ms) :
    ∀ m ∈ ms, Sound w m := by
  obtain ⟨⟨node, g₁⟩, hread, h⟩ := Option.bind_eq_some_iff.mp h
  obtain ⟨g₂, hmove, h⟩ := Option.bind_eq_some_iff.mp h
  have h₁ := getNode_reads hs hfit harg1 hread
  have h₂ := (moveVar_keeps hmove).sound h₁.sound
  cases h
  simp only [List.mem_cons, List.not_mem_nil, or_false]
  rintro m (rfl | rfl)
  · exact h₁.sound
  · exact h₂

variable [DecidableEq β]

/-- The turn for an operation. -/
theorem optimizeArith_sound {w : ℕ} {g : Dag ν β} {op : QuadrOp} {v : ν} {arg1 arg2 : QuadrArg ν β}
    {a₁ a₂ a₃ : ℕ} {ms : List (Dag ν β)} (hs : Sound w g)
    (hfit : g.nextId + (absent g arg1 + (if arg1 = arg2 then 0 else absent g arg2) + 1) ≤ 2 ^ 13)
    (harg1 : Formed.Operand arg1) (harg2 : Formed.Operand arg2)
    (h : optimizeArith w g op v arg1 arg2 a₁ a₂ a₃ = some ms) : ∀ m ∈ ms, Sound w m := by
  obtain ⟨⟨left, g₁⟩, hleft, h⟩ := Option.bind_eq_some_iff.mp h
  obtain ⟨⟨right, g₂⟩, hright, h⟩ := Option.bind_eq_some_iff.mp h
  obtain ⟨g₃, hroot, h⟩ := Option.bind_eq_some_iff.mp h
  obtain ⟨⟨node, g₄⟩, hins, h⟩ := Option.bind_eq_some_iff.mp h
  obtain ⟨g₅, hmove, h⟩ := Option.bind_eq_some_iff.mp h
  have h₁ := getNode_reads hs (by omega) harg1 hleft
  -- the second operand may have got its leaf from the first one
  have habs : absent g₁ arg2 ≤ if arg1 = arg2 then 0 else absent g arg2 := by
    split
    · next heq => exact (heq ▸ h₁.absent_self).le
    · exact h₁.absent_le arg2
  have hid₁ := h₁.nextId
  have h₂ := getNode_reads h₁.sound (by omega) harg2 hright
  have hid₂ := h₂.nextId
  have hlt : g₂.nextId < 2 ^ 13 := by omega
  have hleft₂ : (g₂.pool left).isSome := getNode_isSome h₁.node hright
  have hgrown := newGraphRoot_grown h₂.sound.null hleft₂ h₂.node hroot
  have h₃ := hgrown.sound h₂.sound hlt
  have h₄ := (insertRoot_sound h₂.sound hlt hgrown hins).1
  have h₅ := (moveVar_keeps hmove).sound h₄
  cases h
  simp only [List.mem_cons, List.not_mem_nil, or_false]
  rintro m (rfl | rfl | rfl | rfl | rfl)
  · exact h₁.sound
  · exact h₂.sound
  · exact h₃
  · exact h₄
  · exact h₅

/-- One turn of the loop keeps the invariant at every moment. -/
theorem optimizeQuadr_sound {w : ℕ} {g : Dag ν β} {q : Quadr ν β} {a : ℕ × ℕ × ℕ}
    {ms : List (Dag ν β)} (hs : Sound w g) (hq : Formed q) (hfit : Fits g q)
    (h : optimizeQuadr w g q a = some ms) : ∀ m ∈ ms, Sound w m := by
  obtain ⟨op, result, arg1, arg2⟩ := q
  unfold Fits at hfit
  cases op with
  | add | sub | div | mul | mod =>
      obtain ⟨⟨v, rfl⟩, harg1, harg2⟩ := hq
      exact optimizeArith_sound hs hfit harg1 harg2 h
  | copy =>
      obtain ⟨⟨v, rfl⟩, harg1⟩ := hq
      exact optimizeCopy_sound hs hfit harg1 h
  | _ =>
      cases h
      intro m hm
      rw [List.mem_singleton] at hm
      rw [hm]
      exact sound_resetGraph w

theorem optimizeLocal_sound {w : ℕ} (block : List (Quadr ν β × ℕ × ℕ × ℕ)) :
    ∀ {g : Dag ν β} {ms : List (Dag ν β)}, Sound w g → (∀ qa ∈ block, Formed qa.1) →
      AllFit w g block → optimizeLocal w g block = some ms → ∀ m ∈ ms, Sound w m := by
  induction block with
  | nil =>
      intro g ms _ _ _ h
      cases h
      simp
  | cons qa block ih =>
      intro g ms hs hformed hfit h
      obtain ⟨ms₁, hturn, h⟩ := Option.bind_eq_some_iff.mp h
      obtain ⟨ms₂, hrest, h⟩ := Option.bind_eq_some_iff.mp h
      cases h
      have hms := optimizeQuadr_sound hs (hformed qa List.mem_cons_self) hfit.1 hturn
      have hlast : Sound w (ms₁.getLastD g) := by
        rw [List.getLastD_eq_getLast?]
        cases hl : ms₁.getLast? with
        | none => exact hs
        | some m => exact hms m (List.mem_of_getLast? hl)
      intro m hm
      obtain hm | hm := List.mem_append.mp hm
      · exact hms m hm
      · apply ih hlast ?_ (hfit.2 _ hturn) hrest m hm
        intro q hq
        exact hformed q (List.mem_cons_of_mem qa hq)

/-- **Value numbering.**  As long as the graph of the block has at most 8192 nodes, at every
moment keys and operations determine each other, what the tree returns for a new node is the same
operation, and no id is in use twice. -/
theorem keys_identify {w : ℕ} (hw : 32 ≤ w) (block : List (Quadr ν β × ℕ × ℕ × ℕ))
    {ms : List (Dag ν β)} (hformed : ∀ qa ∈ block, Formed qa.1) (hfit : AllFit w resetGraph block)
    (h : optimizeLocal w resetGraph block = some ms) : ∀ m ∈ ms, Identifies m := by
  intro m hm
  exact (optimizeLocal_sound block (sound_resetGraph w) hformed hfit h m hm).identifies hw

end Variables

/-- A block with a copy and a sum. -/
def sumBlock : List (Quadr ℕ Unit × ℕ × ℕ × ℕ) :=
  [(⟨.copy, .var 0, .int 7, .none⟩, 1, NULL, NULL),
    (⟨.add, .var 1, .var 0, .var 2⟩, NULL, 2, 3)]

theorem keys_identify_sumBlock :
    ∃ ms, optimizeLocal 64 resetGraph sumBlock = some ms ∧ ms ≠ [] ∧ ∀ m ∈ ms, Identifies m := by
  refine ⟨_, rfl, by simp, keys_identify (w := 64) (by norm_num) sumBlock ?_ ?_ rfl⟩
  · intro qa hqa
    simp only [sumBlock, List.mem_cons, List.not_mem_nil, or_false] at hqa
    rcases hqa with rfl | rfl
    · exact ⟨⟨0, rfl⟩, trivial⟩
    · exact ⟨⟨1, rfl⟩, trivial, trivial⟩
  · refine ⟨?_, fun ms h => ?_⟩
    · unfold Fits
      decide
    cases h
    refine ⟨?_, fun _ _ => trivial⟩
    unfold Fits
    decide

/-! ## A block that does not fit -/

/-- The graph after copies of the constants below `n` into as many variables. -/
structure Leaves (n : ℕ) (g : Dag ℕ Unit) : Prop where
  nextId : g.nextId = n
  graph : g.graph = RbSet.empty
  varNode : ∀ v, g.varNode v = if v < n then v + 1 else NULL
  intLeaves : ∀ x ∈ g.intLeaves, x.1.toNat < n
  node : ∀ k < n, ∃ m, g.pool (k + 1) = some m ∧ m.id = k
  free : ∀ a, n < a → g.pool a = none
  null : g.pool NULL = none

/-- A copy of the constant `k` into the variable number `k`. -/
def copyConstant (k : ℕ) : Quadr ℕ Unit × ℕ × ℕ × ℕ :=
  (⟨.copy, .var k, .int (BitVec.ofNat 32 k), .none⟩, k + 1, NULL, NULL)

/-- The next constant gets the next id. -/
lemma leaves_succ (w : ℕ) {n : ℕ} {g : Dag ℕ Unit} (hn : n < 2 ^ 15) (hg : Leaves n g) :
    ∃ g₁ g₂, optimizeQuadr w g (copyConstant n).1 (copyConstant n).2 = some [g₁, g₂] ∧
      Leaves (n + 1) g₂ := by
  have hval : (BitVec.ofNat 32 n).toNat = n := by
    rw [BitVec.toNat_ofNat, Nat.mod_eq_of_lt (by omega)]
  -- the keys so far are less than `n`
  have hfind : OrderedMap.find BitVec.slt (BitVec.ofNat 32 n) g.intLeaves = none := by
    rw [Option.eq_none_iff_forall_ne_some]
    intro b hb
    obtain ⟨i, hmem, hsame⟩ := OrderedMap.mem_of_find hb
    have hlt := hg.intLeaves _ hmem
    dsimp only at hlt
    rw [eq_of_same_slt hsame, hval] at hlt
    exact lt_irrefl n hlt
  have hint : g.intLeaf (BitVec.ofNat 32 n) = NULL := by
    rw [Dag.intLeaf, hfind, Option.getD_none]
  have hvar : g.varNode n = NULL := by
    rw [hg.varNode, if_neg (lt_irrefl n)]
  have hfree := hg.free (n + 1) (Nat.lt_succ_self n)
  have hid : (g.nextId + 1) % 2 ^ 16 = n + 1 := by
    rw [hg.nextId]
    exact Nat.mod_eq_of_lt (by omega)
  let leaf : GraphNode ℕ Unit :=
    ⟨NULL, NULL, NULL, [], 0, .inl (.int (BitVec.ofNat 32 n)), g.nextId, .leaf⟩
  let g₁ : Dag ℕ Unit := { g with
    pool := Function.update g.pool (n + 1) (some leaf)
    intLeaves := OrderedMap.set BitVec.slt (BitVec.ofNat 32 n) (n + 1) g.intLeaves
    nextId := (g.nextId + 1) % 2 ^ 16 }
  -- so the constant gets a leaf of its own
  have hnode : getNode g (.int (BitVec.ofNat 32 n)) (n + 1) = some (n + 1, g₁) := by
    simp [getNode, hint, newGraphLeaf, Dag.alloc, hfree, NULL, g₁, leaf]
  have hpool : g₁.pool (n + 1) = some leaf := Function.update_self (n + 1) (some leaf) g.pool
  have hrest : ∀ b, b ≠ n + 1 → g₁.pool b = g.pool b := fun b hb =>
    Function.update_of_ne hb (some leaf) g.pool
  -- and the variable goes on its list
  obtain ⟨g₂, hadd⟩ := addVar_total n (Option.isSome_of_mem hpool)
  have hkeep := addVar_keeps hadd
  have hmap := addVar_varNode hadd
  refine ⟨g₁, g₂, ?_, ?_⟩
  · have hmove : moveVar g₁ (g₁.varNode n) (n + 1) n = some g₂ := by
      rw [moveVar, if_pos hvar]
      exact hadd
    change optimizeCopy g n (.int (BitVec.ofNat 32 n)) (n + 1) = some [g₁, g₂]
    unfold optimizeCopy
    simp [hnode, hmove]
  constructor
  case nextId => exact hkeep.nextId.trans hid
  case graph => exact hkeep.graph.trans hg.graph
  case varNode =>
    intro v
    have hv : g₁.varNode v = if v < n then v + 1 else NULL := hg.varNode v
    rw [hmap, Function.update_apply, hv]
    split_ifs <;> omega
  case intLeaves =>
    intro x hx
    rw [hkeep.intLeaves] at hx
    obtain rfl | hx := (OrderedMap.mem_set hfind x).mp hx
    · exact Nat.lt_succ_of_le hval.le
    · exact (hg.intLeaves x hx).trans (Nat.lt_succ_self n)
  case node =>
    intro k hk
    obtain hlt | rfl := Nat.lt_succ_iff_lt_or_eq.mp hk
    · obtain ⟨m, hm, hmid⟩ := hg.node k hlt
      have hm₁ : g₁.pool (k + 1) = some m := (hrest (k + 1) (by omega)).trans hm
      obtain ⟨m', hm', hfix⟩ := hkeep.pool.symm.at hm₁
      exact ⟨m', hm', (fixed_eq_iff.mp hfix).2.2.2.2.1.trans hmid⟩
    · obtain ⟨m', hm', hfix⟩ := hkeep.pool.symm.at hpool
      exact ⟨m', hm', (fixed_eq_iff.mp hfix).2.2.2.2.1.trans hg.nextId⟩
  case free =>
    intro a ha
    exact hkeep.pool.eq_none ((hrest a (by omega)).trans (hg.free a (by omega)))
  case null => exact hkeep.pool.eq_none ((hrest NULL (Nat.succ_ne_zero n).symm).trans hg.null)

/-- The copies leave the graph as described. -/
lemma leaves_copies (w : ℕ) {n : ℕ} (hn : n ≤ 2 ^ 15) (rest : List (Quadr ℕ Unit × ℕ × ℕ × ℕ)) :
    ∃ g, Leaves n g ∧ ∀ ms, optimizeLocal w g rest = some ms →
      ∃ ms', optimizeLocal w resetGraph ((List.range n).map copyConstant ++ rest) =
        some (ms' ++ ms) := by
  induction n generalizing rest with
  | zero =>
      refine ⟨resetGraph,
        ⟨rfl, rfl, fun _ => rfl, by simp [resetGraph], by simp, fun _ _ => rfl, rfl⟩,
        fun ms h => ⟨[], ?_⟩⟩
      exact h
  | succ n ih =>
      obtain ⟨g, hg, hrun⟩ := ih (by omega) (copyConstant n :: rest)
      obtain ⟨g₁, g₂, hturn, hg₂⟩ := leaves_succ w (by omega) hg
      refine ⟨g₂, hg₂, fun ms h => ?_⟩
      obtain ⟨ms', hms'⟩ := hrun ([g₁, g₂] ++ ms) (by
        rw [optimizeLocal, hturn]
        simp [h])
      refine ⟨ms' ++ [g₁, g₂], ?_⟩
      rw [List.range_succ, List.map_append, List.append_assoc]
      simpa using hms'

lemma useOperand_total {g : Dag ν β} {a x : ℕ} (h : (g.pool x).isSome) :
    ∃ g', useOperand g a x = some g' := by
  obtain ⟨n, hn⟩ := Option.isSome_iff_exists.mp h
  unfold useOperand
  split
  · exact ⟨g, rfl⟩
  · exact ⟨_, Option.bind_eq_some_iff.mpr ⟨n, hn, rfl⟩⟩

/-- The node at `a` is the difference of the nodes with the ids `i` and `j`, whose left operand
is at `left`. -/
def IsDifference (w : ℕ) (p : ℕ → Option (GraphNode ν β)) (a left i j : ℕ) : Prop :=
  ∃ n, p a = some n ∧ n.tag ≠ .leaf ∧ n.key = packKey w .sub i j ∧ n.left = left

lemma IsDifference.congr {w : ℕ} {p p' : ℕ → Option (GraphNode ν β)} {a left i j : ℕ}
    (h : IsDifference w p a left i j)
    (hp : (p' a).map GraphNode.fixed = (p a).map GraphNode.fixed) :
    IsDifference w p' a left i j := by
  obtain ⟨n, hn, hleaf, hkey, hleft⟩ := h
  rw [hn, Option.map_some] at hp
  obtain ⟨n', hn', hfix⟩ := Option.map_eq_some_iff.mp hp
  obtain ⟨hkey', hleft', -, -, -, htag⟩ := fixed_eq_iff.mp hfix
  exact ⟨n', hn', mt htag.mp hleaf, hkey'.trans hkey, hleft'.trans hleft⟩

/-- `new_graph_root` for a difference. -/
lemma newGraphRoot_sub (w : ℕ) {g : Dag ν β} {left right a : ℕ} {l r : GraphNode ν β}
    (hnull : g.pool NULL = none) (hl : g.pool left = some l) (hr : g.pool right = some r)
    (ha : a ≠ NULL) (hfresh : g.pool a = none) :
    ∃ g', newGraphRoot w g .sub left right a = some g' ∧
      IsDifference w g'.pool a left l.id r.id ∧
      (∀ b, b ≠ a → (g'.pool b).map GraphNode.fixed = (g.pool b).map GraphNode.fixed) ∧
      g'.graph = g.graph ∧ g'.varNode = g.varNode := by
  let n : GraphNode ν β :=
    ⟨packKey w .sub l.id r.id, left, right, [], 1, .inr .sub, g.nextId, .root⟩
  let g₁ : Dag ν β := { g with
    pool := Function.update g.pool a (some n), nextId := (g.nextId + 1) % 2 ^ 16 }
  -- the new node is written first, and marking the operands changes nothing that is fixed
  have hrest : ∀ b, b ≠ a → g₁.pool b = g.pool b := fun b hb =>
    Function.update_of_ne hb (some n) g.pool
  have hpool : g₁.pool a = some n := Function.update_self a (some n) g.pool
  have hl₁ : g₁.pool left = some l := some_of_alloc hfresh n hl
  have hr₁ : g₁.pool right = some r := some_of_alloc hfresh n hr
  obtain ⟨g₂, h₂⟩ := useOperand_total (a := a) (Option.isSome_of_mem hl₁)
  obtain ⟨hkeep₂, hvar₂⟩ := useOperand_keeps h₂
  obtain ⟨r', hr₂, -⟩ := hkeep₂.pool.symm.at hr₁
  obtain ⟨g₃, h₃⟩ := useOperand_total (a := a) (Option.isSome_of_mem hr₂)
  obtain ⟨hkeep₃, hvar₃⟩ := useOperand_keeps h₃
  have hkeep := hkeep₂.trans hkeep₃
  refine ⟨g₃, ?_, ?_, ?_, hkeep.graph, hvar₃.trans hvar₂⟩
  · have halloc : g.alloc a n = some g₁ := by
      rw [Dag.alloc, if_neg (by simp [ha, hfresh])]
    rw [newGraphRoot, if_neg (by simp [isCommutative]), newOrderedRoot,
      makeKey_of_some hnull .sub hl hr]
    apply Option.bind_eq_some_iff.mpr ⟨_, rfl, Option.bind_eq_some_iff.mpr ⟨g₁, halloc, ?_⟩⟩
    exact Option.bind_eq_some_iff.mpr ⟨g₂, h₂, h₃⟩
  · have hdiff : IsDifference w g₁.pool a left l.id r.id := ⟨n, hpool, by simp [n], rfl, rfl⟩
    exact hdiff.congr (hkeep.pool a)
  · intro b hb
    rw [hkeep.pool b, hrest b hb]

/-- The turn for a difference of variables that have nodes: the moment when its node is new and
the end. -/
lemma sub_turn [DecidableEq ν] (w : ℕ) {g : Dag ν β} {x y v : ν} {a : ℕ} {l r : GraphNode ν β}
    (hnull : g.pool NULL = none) (hl : g.pool (g.varNode x) = some l)
    (hr : g.pool (g.varNode y) = some r) (ha : a ≠ NULL) (hfresh : g.pool a = none)
    (hv : g.varNode v = NULL) (hgraph : ∀ k b, g.graph.lookup k = some b → (g.pool b).isSome) :
    ∃ m m' g', optimizeArith w g .sub v (.var x) (.var y) NULL NULL a = some [g, g, m, m', g'] ∧
      IsDifference w m.pool a (g.varNode x) l.id r.id ∧
      (∀ b, b ≠ a → (m.pool b).map GraphNode.fixed = (g.pool b).map GraphNode.fixed) ∧
      (g.graph = RbSet.empty → SameNodes m.pool g'.pool ∧
        g'.graph = g.graph.insertIfAbsent ⟨packKey w .sub l.id r.id, a⟩ ∧
        g'.varNode = Function.update g.varNode v a) := by
  -- both operands have nodes already
  have hread : ∀ z n, g.pool (g.varNode z) = some n →
      getNode g (.var z : QuadrArg ν β) NULL = some (g.varNode z, g) := by
    intro z n hz
    apply if_neg
    intro hz0
    rw [hz0, hnull] at hz
    cases hz
  obtain ⟨m, hroot, hdiff, hrest, hmgraph, hmvar⟩ := newGraphRoot_sub w hnull hl hr ha hfresh
  obtain ⟨n, hn, hleaf, hkey, hleft⟩ := id hdiff
  have hbody : ∀ b m' g', insertRoot m a = some (b, m') → addVar m' b v = some g' →
      optimizeArith w g .sub v (.var x) (.var y) NULL NULL a = some [g, g, m, m', g'] := by
    intro b m' g' hins hadd
    have hmove : moveVar m' (g.varNode v) b v = some g' := by
      rw [moveVar, if_pos hv]
      exact hadd
    unfold optimizeArith
    simp [hread x l hl, hread y r hr, hroot, hins, hmove]
  cases hlook : m.graph.lookup n.key with
  | some b =>
      -- the key is taken by an older node, and the new one is given back
      have hb : b ≠ a := by
        rintro rfl
        have hsome := hgraph n.key b (hmgraph ▸ hlook)
        rw [hfresh] at hsome
        cases hsome
      let m' : Dag ν β := { m with
        pool := Function.update m.pool a none
        nextId := if n.id + 1 = m.nextId then m.nextId - 1 else m.nextId }
      have hins : insertRoot m a = some (b, m') := by
        unfold insertRoot freeGraphNode
        simp [hn, hlook, m']
      have hb' : (m'.pool b).isSome := by
        change (Function.update m.pool a none b).isSome
        rw [Function.update_of_ne hb, ← Option.isSome_map (f := GraphNode.fixed), hrest b hb,
          Option.isSome_map]
        exact hgraph n.key b (hmgraph ▸ hlook)
      obtain ⟨g', hadd⟩ := addVar_total v hb'
      refine ⟨m, m', g', hbody b m' g' hins hadd, hdiff, hrest, fun hempty => ?_⟩
      rw [hmgraph, hempty, RbSet.lookup_empty] at hlook
      cases hlook
  | none =>
      -- the new node enters the tree
      let m' : Dag ν β := { m with graph := m.graph.insertIfAbsent ⟨n.key, a⟩ }
      have hins : insertRoot m a = some (a, m') := by
        unfold insertRoot
        simp [hn, hlook, m']
      have ha' : (m'.pool a).isSome := Option.isSome_of_mem hn
      obtain ⟨g', hadd⟩ := addVar_total v ha'
      have hkeep := addVar_keeps hadd
      refine ⟨m, m', g', hbody a m' g' hins hadd, hdiff, hrest, fun _ => ⟨hkeep.pool, ?_, ?_⟩⟩
      · rw [hkeep.graph, ← hmgraph, ← hkey]
      · rw [addVar_varNode hadd, ← hmvar]

/-- The first difference of `wideBlock`. -/
def firstDifference : Quadr ℕ Unit × ℕ × ℕ × ℕ :=
  (⟨.sub, .var 8193, .var 1, .var 0⟩, NULL, NULL, 8194)

/-- The second one. -/
def secondDifference : Quadr ℕ Unit × ℕ × ℕ × ℕ :=
  (⟨.sub, .var 8194, .var 0, .var 8192⟩, NULL, NULL, 8195)

/-- A block whose graph has more nodes than fit: copies of the constants from `0` to `8192`, and
then `1 - 0` and `0 - 8192`. -/
def wideBlock : List (Quadr ℕ Unit × ℕ × ℕ × ℕ) :=
  (List.range 8193).map copyConstant ++ [firstDifference, secondDifference]

lemma formed_wideBlock : ∀ qa ∈ wideBlock, Formed qa.1 := by
  intro qa hqa
  simp only [wideBlock, List.mem_append, List.mem_map, List.mem_cons, List.not_mem_nil,
    or_false] at hqa
  rcases hqa with ⟨k, -, rfl⟩ | rfl | rfl
  · exact ⟨⟨k, rfl⟩, trivial⟩
  · exact ⟨⟨8193, rfl⟩, trivial, trivial⟩
  · exact ⟨⟨8194, rfl⟩, trivial, trivial⟩

/-- The graph after the first difference. -/
structure OneDifference (g : Dag ℕ Unit) : Prop where
  null : g.pool NULL = none
  free : g.pool 8195 = none
  varNode : ∀ v, v ≠ 8193 → g.varNode v = if v < 8193 then v + 1 else NULL
  node : ∀ k < 8193, ∃ n, g.pool (k + 1) = some n ∧ n.id = k
  difference : IsDifference 64 g.pool 8194 2 1 0
  graph : ∀ k b, g.graph.lookup k = some b → (g.pool b).isSome

lemma oneDifference_of_leaves {g : Dag ℕ Unit} (hg : Leaves 8193 g) :
    ∃ m m' g', optimizeQuadr 64 g firstDifference.1 firstDifference.2 = some [g, g, m, m', g'] ∧
      OneDifference g' := by
  have hvar : ∀ k, k < 8193 → g.varNode k = k + 1 := by
    intro k hk
    rw [hg.varNode, if_pos hk]
  obtain ⟨n₀, h₀, hid₀⟩ := hg.node 0 (by norm_num)
  obtain ⟨n₁, h₁, hid₁⟩ := hg.node 1 (by norm_num)
  rw [← hvar 0 (by norm_num)] at h₀
  rw [← hvar 1 (by norm_num)] at h₁
  have hv : g.varNode 8193 = NULL := by
    rw [hg.varNode, if_neg (lt_irrefl 8193)]
  have hgraph : ∀ k b, g.graph.lookup k = some b → (g.pool b).isSome := by
    intro k b hb
    rw [hg.graph, RbSet.lookup_empty] at hb
    cases hb
  -- the graph of expressions is still empty, so the difference gets a new node
  obtain ⟨m, m', g', hturn, hdiff, hrest, hempty⟩ := sub_turn 64 hg.null h₁ h₀
    (by norm_num [NULL]) (hg.free 8194 (by norm_num)) hv hgraph
  obtain ⟨hpool, hgraph', hvar'⟩ := hempty hg.graph
  rw [hid₁, hid₀, hvar 1 (by norm_num)] at hdiff
  have hdiff' := hdiff.congr (hpool 8194)
  have hold : ∀ b, b ≠ 8194 → (g'.pool b).map GraphNode.fixed = (g.pool b).map GraphNode.fixed :=
    fun b hb => (hpool b).trans (hrest b hb)
  have hnone : ∀ b, b ≠ 8194 → g.pool b = none → g'.pool b = none := by
    intro b hb hfree
    have hmap := hold b hb
    rw [hfree, Option.map_none, Option.map_eq_none_iff] at hmap
    exact hmap
  refine ⟨m, m', g', hturn, hnone NULL (by norm_num [NULL]) hg.null,
    hnone 8195 (by norm_num) (hg.free 8195 (by norm_num)), ?_, ?_, hdiff', ?_⟩
  · intro v hv
    rw [hvar', Function.update_of_ne hv, hg.varNode]
  · intro k hk
    obtain ⟨n, hn, hid⟩ := hg.node k hk
    have hmap := hold (k + 1) (by omega)
    rw [hn, Option.map_some] at hmap
    obtain ⟨n', hn', hfix⟩ := Option.map_eq_some_iff.mp hmap
    exact ⟨n', hn', (fixed_eq_iff.mp hfix).2.2.2.2.1.trans hid⟩
  · intro k b hb
    rw [hgraph', hg.graph, RbSet.lookup_insertIfAbsent, RbSet.lookup_empty] at hb
    split at hb
    · cases hb
      obtain ⟨n, hn, -⟩ := hdiff'
      exact Option.isSome_of_mem hn
    · cases hb

lemma packKey_collision : packKey 64 .sub 1 0 = packKey 64 .sub 0 8192 := by decide

/-- At the moment when the second difference is new, two differences have one key. -/
lemma not_identifies_of_oneDifference {g : Dag ℕ Unit} (hg : OneDifference g) :
    ∃ m m' g', optimizeQuadr 64 g secondDifference.1 secondDifference.2 =
      some [g, g, m, m', g'] ∧ ¬ Identifies m := by
  have hvar : ∀ k, k < 8193 → g.varNode k = k + 1 := by
    intro k hk
    rw [hg.varNode k (by omega), if_pos hk]
  obtain ⟨n₀, h₀, hid₀⟩ := hg.node 0 (by norm_num)
  obtain ⟨n₁, h₁, hid₁⟩ := hg.node 8192 (by norm_num)
  rw [← hvar 0 (by norm_num)] at h₀
  rw [← hvar 8192 (by norm_num)] at h₁
  have hv : g.varNode 8194 = NULL := by
    rw [hg.varNode 8194 (by norm_num), if_neg (by norm_num)]
  obtain ⟨m, m', g', hturn, hdiff, hrest, -⟩ := sub_turn 64 hg.null h₀ h₁ (by norm_num [NULL])
    hg.free hv hg.graph
  refine ⟨m, m', g', hturn, fun hident => ?_⟩
  obtain ⟨a, ha, hleafa, hkeya, hlefta⟩ := hg.difference.congr (hrest 8194 (by norm_num))
  obtain ⟨b, hb, hleafb, hkeyb, hleftb⟩ := hdiff
  have hkey : a.key = b.key := by
    rw [hkeya, hkeyb, hid₀, hid₁]
    exact packKey_collision
  have hsame := (hident.keys 8194 8195 a b ha hb hleafa hleafb).mp hkey
  rw [GraphNode.SameOperation, hlefta, hleftb, hvar 0 (by norm_num)] at hsame
  exact absurd hsame.2.1 (by norm_num)

/-- The two differences of `wideBlock` have one key. -/
theorem keys_collide : ¬ ∀ (block : List (Quadr ℕ Unit × ℕ × ℕ × ℕ)) (ms : List (Dag ℕ Unit)),
    (∀ qa ∈ block, Formed qa.1) → optimizeLocal 64 resetGraph block = some ms →
      ∀ m ∈ ms, Identifies m := by
  intro hall
  obtain ⟨g, hg, hrun⟩ := leaves_copies 64 (n := 8193) (by norm_num)
    [firstDifference, secondDifference]
  obtain ⟨m, m', g', hturn, hg'⟩ := oneDifference_of_leaves hg
  obtain ⟨m₂, m₂', g'', hturn', hnot⟩ := not_identifies_of_oneDifference hg'
  obtain ⟨ms', hms'⟩ := hrun ([g, g, m, m', g'] ++ [g', g', m₂, m₂', g'']) (by
    rw [optimizeLocal, hturn]
    simp [optimizeLocal, hturn'])
  exact hnot (hall wideBlock _ formed_wideBlock hms' m₂ (by simp))

end Javalette.Opt
