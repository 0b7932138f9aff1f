import Javalette.Opt.EmitSteps

/-!
# The code that is generated from the graph of a block

`gencode_for_node` follows the graph, so it comes to an end, and after it every node below the one
it is called for has been computed.  After `gencode_from_graph` every variable that has a node has
been set to what its node stands for, so the code does what the quadruples that the graph was
built from do, in every block whose graphs are tidy and where no division by zero is reported.
-/

namespace Javalette.Opt

open Rbtree

variable {ν β V W : Type}

section Graph

variable [DecidableEq ν] {M : Machine β V W} {C : Context ν} {A : Arith V} {w : ℕ}
  {g : Dag ν β} {ρ σ : ν → V} {k : ℕ} {e e' : Emission ν β} {a b : ℕ} {n : GraphNode ν β}

/-! ## One node -/

omit [DecidableEq ν] in
/-- What is below a node that has been computed has been computed. -/
lemma Emits.below (he : Emits C g k e) (h : Below g.pool a b) (ha : (e.result a).isSome) :
    (e.result b).isSome := by
  induction h with
  | operand hn huses => exact he.closed _ _ _ ha hn huses
  | trans _ _ ih ih' => exact ih' (ih ha)

/-- The nodes that have been computed have no lists, the leaves of variables and `a` apart. -/
def CleanBut (g : Dag ν β) (e : Emission ν β) (a : ℕ) : Prop :=
  ∀ b n, b ≠ a → (e.result b).isSome → g.pool b = some n → ¬ n.IsVarLeaf → Cleared e b

/-- The variables that have left the list of the node have nodes that have not been computed. -/
def Current (g : Dag ν β) (e : Emission ν β) (a : ℕ) (n : GraphNode ν β) : Prop :=
  ∀ v ∈ n.varList, n.u ≠ .inl (.var v) → g.varNode v ≠ a → e.result (g.varNode v) = none

omit [DecidableEq ν] in
lemma cleanBut_of_other (hclean : Clean g e)
    (hother : ∀ b, b ≠ a → e'.result b = e.result b ∧ e'.pool b = e.pool b) : CleanBut g e' a := by
  intro b m hb hdone hm hvar
  obtain ⟨hres, hpool⟩ := hother b hb
  obtain ⟨l, hl, hnil⟩ := hclean b m (hres ▸ hdone) hm hvar
  exact ⟨l, hpool.trans hl, hnil⟩

/-- A node is computed, and then its variables are set. -/
lemma Steps.update {P : Emission ν β → Prop} {call : Option (Emitted ν β)}
    (hg : Emittable C A w g ρ σ k) (hn : g.pool a = some n)
    (h : Steps M C A g ρ σ k e (fun e' => (e'.result a).isSome ∧ CleanBut g e' a ∧
      Current g e' a n ∧ P e') call)
    (hP : ∀ e' e'', P e' → e''.result = e'.result → P e'') :
    Steps M C A g ρ σ k e (fun e' => Clean g e' ∧ (e'.result a).isSome ∧ P e')
      (thenEmit call fun e => updateNodeVars e a) := by
  apply h.then
  rintro e₁ hemits - ⟨hdone, hclean, hcurrent, hp⟩
  refine (steps_updateNodeVars hg hemits hn hdone hcurrent).weaken ?_
  rintro e₂ - hcont ⟨hres, hcleared, hpool⟩
  refine ⟨fun b m hb hm hvar => ?_, hres ▸ hdone, hP e₁ e₂ hp hres⟩
  obtain rfl | hne := eq_or_ne b a
  · exact hcleared
  · exact hcont.cleared b (hclean b m hne (hres ▸ hb) hm hvar)

omit [DecidableEq ν] in
lemma bind_thenEmit (call : Option (Emitted ν β)) (next : Emission ν β → Option (Emitted ν β)) :
    (do let code ← call; thenEmit (some code) next) = thenEmit call next := by
  cases call <;> rfl

omit [DecidableEq ν] in
/-- The kinds of nodes that `gencode_for_node` tells apart. -/
lemma Emittable.cases (hg : Emittable C A w g ρ σ k) (hn : g.pool a = some n) :
    (n.tag = .leaf ∧ ∃ arg, n.u = .inl arg ∧ Formed.Operand arg) ∨
      (n.tag ≠ .leaf ∧ ∃ op l r, n.u = .inr op ∧ g.pool n.left = some l ∧
        g.pool n.right = some r ∧ l.id < n.id ∧ r.id < n.id) := by
  by_cases hleaf : n.tag = .leaf
  · exact .inl ⟨hleaf, hg.ready.leaves.leaf a n hn hleaf⟩
  · obtain ⟨op, _, _, hu, -⟩ := hg.sound.keyed a n hn hleaf
    obtain ⟨l, r, hl, hr, hlt, hlt'⟩ := hg.ready.ordered.older a n hn hleaf
    exact .inr ⟨hleaf, op, l, r, hu, hl, hr, hlt, hlt'⟩

omit [DecidableEq ν] in
lemma Emittable.ne_null (hg : Emittable C A w g ρ σ k) (hn : g.pool a = some n) : a ≠ NULL := by
  rintro rfl
  cases hg.sound.null.symm.trans hn

omit [DecidableEq ν] in
lemma Formed.Operand.value_const {arg : QuadrArg ν β} (harg : Formed.Operand arg)
    (hvar : ∀ v, arg ≠ .var v) (τ ρ : ν → V) : argValue A τ arg = argValue A ρ arg := by
  cases arg with
  | var v => exact absurd rfl (hvar v)
  | int | double => rfl
  | none | label | str | func => exact harg.elim

/-- A leaf for a constant. -/
lemma steps_constantLeaf {arg : QuadrArg ν β} (hf : Follows M C A)
    (hg : Emittable C A w g ρ σ k) (he : Emits C g k e) (hclean : Clean g e)
    (hn : g.pool a = some n) (hleaf : n.tag = .leaf) (hu : n.u = .inl arg)
    (harg : Formed.Operand arg) (hvar : ∀ v, arg ≠ .var v) (hnone : e.result a = none) :
    Steps M C A g ρ σ k e (fun e' => Clean g e' ∧ (e'.result a).isSome ∧
      ∀ b, b ≠ a → e'.result b = e.result b)
      (thenEmit (gencodeForLeaf C e a) fun e => updateNodeVars e a) := by
  refine Steps.update hg hn ?_ fun e' e'' h heq b hb => (congrFun heq b).trans (h b hb)
  refine (steps_gencodeForLeaf hf hg he hn hleaf hu harg hnone
    fun τ _ => harg.value_const hvar τ ρ).weaken ?_
  rintro e' - - ⟨hdone, -, hother⟩
  refine ⟨hdone, cleanBut_of_other hclean hother, fun v hv hbad hne => ?_,
    fun b hb => (hother b hb).1⟩
  -- the node of the variable is above the leaf
  obtain ⟨-, hbelow⟩ := hg.tidy a n v hn hv hbad hne
  rw [(hother _ hne).1, ← Option.not_isSome_iff_eq_none]
  intro hdone'
  have hbelow' := he.below hbelow hdone'
  rw [hnone] at hbelow'
  cases hbelow'

/-- Only nodes that are at most as young as the node have been computed since. -/
def KeepsYounger (g : Dag ν β) (n : GraphNode ν β) (e e' : Emission ν β) : Prop :=
  ∀ b m, g.pool b = some m → n.id < m.id → e'.result b = e.result b

/-- The leaves of variables have been computed. -/
def LeavesDone (g : Dag ν β) (e : Emission ν β) : Prop := ∀ b ∈ g.varLeaves, (e.result b).isSome

omit [DecidableEq ν] in
lemma LeavesDone.continues (h : LeavesDone g e) (hcont : Continues e e') : LeavesDone g e' :=
  fun b hb => hcont.isSome (h b hb)

lemma gencodeForNode_of_isSome (fuel : ℕ) (h : (e.result a).isSome) :
    gencodeForNode C (fuel + 1) e a = some ([], e) := by
  unfold gencodeForNode
  exact if_pos h

lemma gencodeForNode_leaf (fuel : ℕ) (hnone : e.result a = none) (ha : e.pool a = some n)
    (hleaf : n.tag = .leaf) : gencodeForNode C (fuel + 1) e a =
      thenEmit (gencodeForLeaf C e a) fun e => updateNodeVars e a := by
  unfold gencodeForNode
  rw [hnone, ha, if_neg (by simp), ← bind_thenEmit]
  simp only [Option.bind_eq_bind, Option.bind_some, hleaf]

lemma gencodeForNode_op {op : QuadrOp} (fuel : ℕ) (hnone : e.result a = none)
    (ha : e.pool a = some n) (hleaf : n.tag ≠ .leaf) (hu : n.u = .inr op) (hl : n.left ≠ NULL)
    (hr : n.right ≠ NULL) : gencodeForNode C (fuel + 1) e a =
      thenEmit (thenEmit (gencodeForNode C fuel e n.left) fun e =>
        thenEmit (gencodeForNode C fuel e n.right) fun e =>
          gencodeForOp C e a op n.left n.right) fun e => updateNodeVars e a := by
  conv_lhs => unfold gencodeForNode
  rw [hnone, ha, if_neg (by simp), ← bind_thenEmit]
  simp only [Option.bind_eq_bind, Option.bind_some, hu, if_neg hl, if_neg hr]

/-- An operation after its operands. -/
lemma steps_operation {op : QuadrOp} (hf : Follows M C A) (hg : Emittable C A w g ρ σ k)
    (he : Emits C g k e) (hclean : Clean g e) (hn : g.pool a = some n) (hu : n.u = .inr op)
    (hleaf : n.tag ≠ .leaf) (hnone : e.result a = none)
    (hclosed : ∀ b, n.Uses b → (e.result b).isSome) :
    Steps M C A g ρ σ k e (fun e' => (e'.result a).isSome ∧ CleanBut g e' a ∧ Current g e' a n ∧
      ∀ b, b ≠ a → e'.result b = e.result b) (gencodeForOp C e a op n.left n.right) := by
  refine (steps_gencodeForOp hf hg he hn hu hleaf hnone hclosed).weaken ?_
  rintro e' - - ⟨hdone, hother⟩
  refine ⟨hdone, cleanBut_of_other hclean hother, fun v hv _ hne => ?_, fun b hb => (hother b hb).1⟩
  exact absurd (hg.ready.lists.current a n v hn hleaf hv) hne

/-- **`gencode_for_node`** comes to an end and computes the node. -/
theorem steps_gencodeForNode (hf : Follows M C A) (hg : Emittable C A w g ρ σ k) (fuel : ℕ) :
    ∀ {e : Emission ν β} {a : ℕ} {n : GraphNode ν β}, Emits C g k e → Clean g e →
      LeavesDone g e → g.pool a = some n → n.id < fuel →
      Steps M C A g ρ σ k e (fun e' => Clean g e' ∧ (e'.result a).isSome ∧ KeepsYounger g n e e')
        (gencodeForNode C fuel e a) := by
  induction fuel with
  | zero =>
      intro e a n _ _ _ _ hlt
      exact absurd hlt (Nat.not_lt_zero _)
  | succ fuel ih =>
      intro e a n he hclean hleaves hn hlt
      by_cases hdone : (e.result a).isSome
      · rw [gencodeForNode_of_isSome fuel hdone]
        refine (steps_nothing he).weaken ?_
        rintro e' - - rfl
        exact ⟨hclean, hdone, fun _ _ _ _ => rfl⟩
      rw [Option.not_isSome_iff_eq_none] at hdone
      have ha := (he.waiting a hdone).trans hn
      have hself : ∀ b m, g.pool b = some m → n.id < m.id → b ≠ a := by
        rintro b m hb hid rfl
        rw [hn, Option.some.injEq] at hb
        exact (hb ▸ hid).ne rfl
      obtain ⟨hleaf, arg, hu, harg⟩ | ⟨hleaf, op, l, r, hu, hl, hr, hltl, hltr⟩ := hg.cases hn
      · rw [gencodeForNode_leaf fuel hdone ha hleaf]
        refine (steps_constantLeaf hf hg he hclean hn hleaf hu harg ?_ hdone).weaken ?_
        · rintro v rfl
          have hvar := hleaves a (hg.ready.leaves.varLeaf a n v hn hu)
          rw [hdone] at hvar
          cases hvar
        · rintro e' - - ⟨hclean', hdone', hother⟩
          exact ⟨hclean', hdone', fun b m hb hid => hother b (hself b m hb hid)⟩
      · rw [gencodeForNode_op fuel hdone ha hleaf hu (hg.ne_null hl) (hg.ne_null hr)]
        refine Steps.update hg hn ?_ fun e₁ e₂ h heq b m hb hid =>
          (congrFun heq b).trans (h b m hb hid)
        apply (ih he hclean hleaves hl (by omega)).then
        rintro e₁ he₁ hcont₁ ⟨hclean₁, hdone₁, hkeep₁⟩
        apply (ih he₁ hclean₁ (hleaves.continues hcont₁) hr (by omega)).then
        rintro e₂ he₂ hcont₂ ⟨hclean₂, hdone₂, hkeep₂⟩
        -- the operands are older than the node, so it has not been computed with them
        have hkeep : ∀ b m, g.pool b = some m → n.id ≤ m.id → e₂.result b = e.result b :=
          fun b m hb hid => (hkeep₂ b m hb (by omega)).trans (hkeep₁ b m hb (by omega))
        refine (steps_operation hf hg he₂ hclean₂ hn hu hleaf
          ((hkeep a n hn le_rfl).trans hdone) ?_).weaken ?_
        · rintro b ⟨-, rfl | rfl⟩
          · exact hcont₂.isSome hdone₁
          · exact hdone₂
        · rintro e₃ - - ⟨hdone₃, hclean₃, hcurrent₃, hother₃⟩
          refine ⟨hdone₃, hclean₃, hcurrent₃, fun b m hb hid => ?_⟩
          exact (hother₃ b (hself b m hb hid)).trans (hkeep b m hb hid.le)

/-! ## The graph -/

/-- The loop over nodes computes them. -/
lemma steps_emitAll {fuel : ℕ} (hf : Follows M C A) (hg : Emittable C A w g ρ σ k)
    (nodes : List ℕ) : ∀ {e : Emission ν β}, Emits C g k e → Clean g e → LeavesDone g e →
      (∀ a ∈ nodes, ∃ n, g.pool a = some n ∧ n.id < fuel) →
      Steps M C A g ρ σ k e (fun e' => Clean g e' ∧ ∀ a ∈ nodes, (e'.result a).isSome)
        (emitAll (gencodeForNode C fuel) e nodes) := by
  induction nodes with
  | nil =>
      intro e he hclean _ _
      refine (steps_nothing he).weaken ?_
      rintro e' - - rfl
      exact ⟨hclean, by simp⟩
  | cons a nodes ih =>
      intro e he hclean hleaves hnodes
      obtain ⟨n, hn, hlt⟩ := hnodes a List.mem_cons_self
      apply (steps_gencodeForNode hf hg fuel he hclean hleaves hn hlt).then
      rintro e₁ he₁ hcont₁ ⟨hclean₁, hdone₁, -⟩
      refine (ih he₁ hclean₁ (hleaves.continues hcont₁)
        fun b hb => hnodes b (List.mem_cons_of_mem a hb)).weaken ?_
      rintro e₂ - hcont₂ ⟨hclean₂, hdone₂⟩
      refine ⟨hclean₂, fun b hb => ?_⟩
      obtain rfl | hb := List.mem_cons.mp hb
      · exact hcont₂.isSome hdone₁
      · exact hdone₂ b hb

/-- The loop over the leaves of variables at the beginning, when no variable has been set. -/
lemma steps_varLeaves (hf : Follows M C A) (hg : Emittable C A w g ρ σ k) (nodes : List ℕ) :
    ∀ {e : Emission ν β}, Emits C g k e → e.pool = g.pool → nodes.Nodup →
      (∀ a ∈ nodes, a ∈ g.varLeaves ∧ e.result a = none) →
      Steps M C A g ρ σ k e (fun e' => e'.pool = g.pool ∧ (∀ a ∈ nodes, (e'.result a).isSome) ∧
        ∀ b, b ∉ nodes → e'.result b = e.result b) (emitAll (gencodeForLeaf C) e nodes) := by
  induction nodes with
  | nil =>
      intro e he hpool _ _
      refine (steps_nothing he).weaken ?_
      rintro e' - - rfl
      exact ⟨hpool, by simp, fun _ _ => rfl⟩
  | cons a nodes ih =>
      intro e he hpool hnodup hnodes
      obtain ⟨hnot, hnodup⟩ := List.nodup_cons.mp hnodup
      obtain ⟨hmem, hnone⟩ := hnodes a List.mem_cons_self
      obtain ⟨n, v, hn, hu⟩ := hg.ready.leaves.varLeaves a hmem
      have hleaf : n.tag = .leaf := by
        by_contra hleaf
        obtain ⟨op, _, _, hop, -⟩ := hg.sound.keyed a n hn hleaf
        cases hu.symm.trans hop
      -- a variable leaf is read before anything is assigned, so it has its value at entry
      have hval : ∀ τ, Holds C A g ρ σ k e τ →
          argValue A τ (.var v : QuadrArg ν β) = argValue A ρ (.var v : QuadrArg ν β) := by
        intro τ hτ
        refine congrArg some (hτ.kept v (hg.old v (hg.ready.leaves.own a n _ hn hu)) ?_)
        rintro b m hb hv - ⟨l, hl, hnil⟩
        rw [hpool, hb, Option.some.injEq] at hl
        rw [hl, hnil] at hv
        cases hv
      apply (steps_gencodeForLeaf hf hg he hn hleaf hu trivial hnone hval).then
      rintro e₁ he₁ - ⟨hdone, hself, hother⟩
      have hpool₁ : e₁.pool = g.pool := by
        funext b
        obtain rfl | hne := eq_or_ne b a
        · rw [hself, hn]
        · rw [(hother b hne).2, hpool]
      refine (ih he₁ hpool₁ hnodup fun b hb => ?_).weaken ?_
      · obtain ⟨hb', hnone'⟩ := hnodes b (List.mem_cons_of_mem a hb)
        have hne : b ≠ a := fun heq => hnot (heq ▸ hb)
        exact ⟨hb', (hother b hne).1.trans hnone'⟩
      · rintro e₂ - hcont ⟨hpool₂, hdone₂, hother₂⟩
        refine ⟨hpool₂, fun b hb => ?_, fun b hb => ?_⟩
        · obtain rfl | hb := List.mem_cons.mp hb
          · exact hcont.isSome hdone
          · exact hdone₂ b hb
        · obtain ⟨hne, hb⟩ := not_or.mp (mt List.mem_cons.mpr hb)
          exact (hother₂ b hb).trans (hother b hne).1

/-- The loop over the leaves of variables at the end. -/
lemma steps_updateLeaves (hg : Emittable C A w g ρ σ k) (nodes : List ℕ) :
    ∀ {e : Emission ν β}, Emits C g k e → LeavesDone g e → (∀ a ∈ nodes, a ∈ g.varLeaves) →
      Steps M C A g ρ σ k e (fun e' => ∀ a ∈ nodes, Cleared e' a)
        (emitAll updateNodeVars e nodes) := by
  induction nodes with
  | nil =>
      intro e he _ _
      refine (steps_nothing he).weaken ?_
      rintro e' - - rfl
      simp
  | cons a nodes ih =>
      intro e he hleaves hnodes
      have hmem := hnodes a List.mem_cons_self
      obtain ⟨n, v, hn, hu⟩ := hg.ready.leaves.varLeaves a hmem
      apply (steps_updateNodeVars hg he hn (hleaves a hmem)
        fun u hu' hbad hne => absurd ⟨v, hu⟩ (hg.tidy a n u hn hu' hbad hne).1).then
      rintro e₁ he₁ hcont₁ ⟨-, hcleared, -⟩
      refine (ih he₁ (hleaves.continues hcont₁)
        fun b hb => hnodes b (List.mem_cons_of_mem a hb)).weaken ?_
      rintro e₂ - hcont₂ hcleared₂ b hb
      obtain rfl | hb := List.mem_cons.mp hb
      · exact hcont₂.cleared b hcleared
      · exact hcleared₂ b hb

omit [DecidableEq ν] in
/-- **`find_roots`** finds the roots of the tree. -/
lemma findRoots_spec {pool : ℕ → Option (GraphNode ν β)} (t : ColorTree (RbPair ℕ ℕ)) :
    ∀ {roots : List ℕ}, (∀ x ∈ t.toList, ∃ n, pool x.rest = some n) →
      ∃ lst, findRoots pool t roots = some lst ∧ ∀ a, a ∈ lst ↔ a ∈ roots ∨
        ∃ x ∈ t.toList, x.rest = a ∧ ∃ n, pool a = some n ∧ n.tag = .root := by
  induction t with
  | nil =>
      intro roots _
      exact ⟨roots, rfl, by simp⟩
  | node c left x right ihl ihr =>
      intro roots hpool
      obtain ⟨n, hn⟩ := hpool x (by simp)
      obtain ⟨lst, hlst, hmem⟩ := @ihr (if n.tag = .root then x.rest :: roots else roots)
        fun y hy => hpool y (by simp [hy])
      obtain ⟨lst', hlst', hmem'⟩ := @ihl lst fun y hy => hpool y (by simp [hy])
      refine ⟨lst', ?_, fun a => ?_⟩
      · unfold findRoots
        simp only [hn, Option.bind_eq_bind, Option.bind_some, hlst, hlst']
      · -- the node itself is put in front between the two subtrees
        have hself : a ∈ (if n.tag = .root then x.rest :: roots else roots) ↔
            a ∈ roots ∨ x.rest = a ∧ ∃ n, pool a = some n ∧ n.tag = .root := by
          by_cases hroot : n.tag = .root
          · rw [if_pos hroot, List.mem_cons]
            constructor
            · rintro (rfl | ha)
              · exact .inr ⟨rfl, n, hn, hroot⟩
              · exact .inl ha
            · rintro (ha | ⟨rfl, -⟩)
              · exact .inr ha
              · exact .inl rfl
          · rw [if_neg hroot]
            refine ⟨.inl, ?_⟩
            rintro (ha | ⟨rfl, m, hm, hroot'⟩)
            · exact ha
            · rw [hn, Option.some.injEq] at hm
              exact absurd (hm ▸ hroot') hroot
        rw [hmem', hmem, hself]
        simp only [ColorTree.toList_node, List.mem_append, List.mem_cons]
        constructor
        · rintro (((ha | ⟨hx, ha⟩) | ⟨y, hy, ha⟩) | ⟨y, hy, ha⟩)
          · exact .inl ha
          · exact .inr ⟨x, .inr (.inl rfl), hx, ha⟩
          · exact .inr ⟨y, .inr (.inr hy), ha⟩
          · exact .inr ⟨y, .inl hy, ha⟩
        · rintro (ha | ⟨y, hy | rfl | hy, ha⟩)
          · exact .inl (.inl (.inl ha))
          · exact .inr ⟨y, hy, ha⟩
          · exact .inl (.inl (.inr ha))
          · exact .inl (.inr ⟨y, hy, ha⟩)

omit [DecidableEq ν] in
/-- Every operation is a root or below one. -/
lemma operation_done (hg : Emittable C A w g ρ σ k) (he : Emits C g k e)
    (hroots : ∀ a n, g.pool a = some n → n.tag = .root → (e.result a).isSome) (d : ℕ) :
    ∀ a n, g.pool a = some n → n.tag ≠ .leaf → g.nextId - n.id ≤ d → (e.result a).isSome := by
  induction d with
  | zero =>
      intro a n hn _ hd
      have hlt := hg.sound.id_lt a n hn
      omega
  | succ d ih =>
      intro a n hn hleaf hd
      cases htag : n.tag with
      | leaf => exact absurd htag hleaf
      | root => exact hroots a n hn htag
      | internal =>
          -- the node that uses it is younger
          obtain ⟨b, m, hm, huses⟩ := hg.ready.ordered.used a n hn htag
          obtain ⟨l, r, hl, hr, hltl, hltr⟩ := hg.ready.ordered.older b m hm huses.1
          have hlt : n.id < m.id := by
            obtain rfl | rfl := huses.2
            · rw [hn, Option.some.injEq] at hl
              exact hl ▸ hltl
            · rw [hn, Option.some.injEq] at hr
              exact hr ▸ hltr
          have hlt' := hg.sound.id_lt b m hm
          exact he.closed b m a (ih b m hm huses.1 (by omega)) hm huses

omit [DecidableEq ν] in
lemma all_done (hg : Emittable C A w g ρ σ k) (he : Emits C g k e) (hleaves : LeavesDone g e)
    (hroots : ∀ a n, g.pool a = some n → n.tag = .root → (e.result a).isSome)
    (hints : ∀ b ∈ g.intLeaves.map Prod.snd, (e.result b).isSome)
    (hdoubles : ∀ b ∈ g.doubleLeaves.map Prod.snd, (e.result b).isSome)
    (hn : g.pool a = some n) : (e.result a).isSome := by
  by_cases hleaf : n.tag = .leaf
  · obtain ⟨arg, hu, harg⟩ := hg.ready.leaves.leaf a n hn hleaf
    cases arg with
    | var v => exact hleaves a (hg.ready.leaves.varLeaf a n v hn hu)
    | int i => exact hints a (hg.ready.leaves.int a n i hn hu)
    | double d => exact hdoubles a (hg.ready.leaves.double a n d hn hu)
    | none | label | str | func => exact harg.elim
  · exact operation_done hg he hroots (g.nextId - n.id) a n hn hleaf le_rfl

omit [DecidableEq ν] in
/-- In the beginning nothing has been set. -/
lemma holds_start (hg : Emittable C A w g ρ σ k) (errs : List String) :
    Holds C A g ρ σ k ⟨g.pool, fun _ => none, k, errs⟩ ρ := by
  have hclear : ∀ a n v, g.pool a = some n → v ∈ n.varList →
      ¬ Cleared (⟨g.pool, fun _ => none, k, errs⟩ : Emission ν β) a := by
    rintro a n v hn hv ⟨m, hm, hnil⟩
    cases hn.symm.trans hm
    rw [hnil] at hv
    cases hv
  refine ⟨nofun, fun a m arg x hm hu hx => .leaf hm hu hx,
    fun v n hv hn _ hc => ?_, fun _ _ _ => rfl⟩
  obtain ⟨m, hm, hmem⟩ := hg.ready.lists.listed v hv
  exact absurd hc (hclear _ m v hm hmem)

omit [DecidableEq ν] in
lemma Below.isOperation {pool : ℕ → Option (GraphNode ν β)} (h : Below pool a b) :
    ∃ n, pool a = some n ∧ n.tag ≠ .leaf := by
  induction h with
  | operand hn huses => exact ⟨_, hn, huses.1⟩
  | trans _ _ ih _ => exact ih

omit [DecidableEq ν] in
/-- In the end each variable has its value. -/
lemma Holds.final {τ : ν → V} (hg : Emittable C A w g ρ σ k)
    (hcleared : ∀ a n, g.pool a = some n → Cleared e a) (hτ : Holds C A g ρ σ k e τ) {v : ν}
    (hv : Old C k v) : τ v = σ v := by
  by_cases hnull : g.varNode v = NULL
  · have hfirst : σ v = ρ v := hg.represents.untouched v hnull
    rw [hfirst]
    refine hτ.kept v hv fun a n hn hmem => ?_
    exact absurd hnull (hg.ready.lists.touched a n v hn hmem)
  obtain ⟨n, hn, hmem⟩ := hg.ready.lists.listed v hnull
  by_cases hu : n.u = .inl (.var v)
  · have hfirst : σ v = ρ v :=
      (hg.represents.var v hnull).unique (.leaf hn hu rfl)
    rw [hfirst]
    refine hτ.kept v hv fun a m hm hmem' hbad => ?_
    -- the node of the variable is its own leaf, which has nothing below it
    by_cases hva : g.varNode v = a
    · rw [hva, hm, Option.some.injEq] at hn
      exact absurd (hn ▸ hu) hbad
    · obtain ⟨-, hbelow⟩ := hg.tidy a m v hm hmem' hbad hva
      obtain ⟨l, hl, hleaf⟩ := hbelow.isOperation
      obtain ⟨op, _, _, hop, -⟩ := hg.sound.keyed _ l hl hleaf
      rw [hn, Option.some.injEq] at hl
      cases hu.symm.trans (hl ▸ hop)
  · exact hτ.set v n hnull hn hu (hcleared _ n hn)

/-- **`gencode_from_graph`**: the code leads from the values that the variables had when the graph
was begun to those that they have now. -/
theorem gencodeFromGraph_correct {s : Optimizer ν β} (hf : Follows M C A)
    (hg : Emittable C A w s.dag ρ σ s.nextVar) :
    ∃ lst k' msgs, gencodeFromGraph C s = some (lst, .start k' (s.errors ++ msgs)) ∧
      s.nextVar ≤ k' ∧ (∀ q ∈ lst, Assigns C s.dag s.nextVar q) ∧ (msgs = [] →
        ∀ world : W, ∃ τ, runBlock M lst (ρ, world) = (τ, world) ∧
          ∀ v, Old C s.nextVar v → τ v = σ v) := by
  have hpool : ∀ x ∈ s.dag.graph.tree.toList, ∃ n, s.dag.pool x.rest = some n := by
    intro x hx
    obtain ⟨n, hn, -⟩ := hg.sound.graph _ _ (RbSet.lookup_eq_some_iff.mpr hx)
    exact ⟨n, hn⟩
  obtain ⟨roots, hroots, hmem⟩ := @findRoots_spec ν β s.dag.pool s.dag.graph.tree [] hpool
  -- nothing has been emitted yet
  have hstart : Emits C s.dag s.nextVar ⟨s.dag.pool, fun _ => none, s.nextVar, s.errors⟩ :=
    ⟨fun a n hn => ⟨n, hn, .refl n⟩, fun _ _ => rfl, le_rfl, nofun, nofun,
      fun a m arg x hm hu hx => .leaf hm hu hx⟩
  have hnodes : ∀ a, (s.dag.pool a).isSome → ∃ n, s.dag.pool a = some n ∧ n.id < s.dag.nextId := by
    intro a ha
    obtain ⟨n, hn⟩ := Option.isSome_iff_exists.mp ha
    exact ⟨n, hn, hg.sound.id_lt a n hn⟩
  have hsteps : Steps M C A s.dag ρ σ s.nextVar ⟨s.dag.pool, fun _ => none, s.nextVar, s.errors⟩
      (fun e => ∀ a n, s.dag.pool a = some n → Cleared e a)
      (thenEmit (emitAll (gencodeForLeaf C) ⟨s.dag.pool, fun _ => none, s.nextVar, s.errors⟩
          s.dag.varLeaves) fun e =>
        thenEmit (emitAll (gencodeForNode C s.dag.nextId) e roots) fun e =>
          thenEmit (emitAll (gencodeForNode C s.dag.nextId) e
            (s.dag.intLeaves.map Prod.snd)) fun e =>
            thenEmit (emitAll (gencodeForNode C s.dag.nextId) e
              (s.dag.doubleLeaves.map Prod.snd)) fun e =>
                emitAll updateNodeVars e s.dag.varLeaves) := by
    apply (steps_varLeaves hf hg s.dag.varLeaves hstart rfl hg.ready.leaves.nodup
      fun a ha => ⟨ha, rfl⟩).then
    rintro e₁ he₁ - ⟨-, hdone₁, hother₁⟩
    -- only leaves of variables have a result so far
    have hclean₁ : Clean s.dag e₁ := by
      intro a n hdone hn hvar
      by_cases ha : a ∈ s.dag.varLeaves
      · obtain ⟨m, v, hm, hu⟩ := hg.ready.leaves.varLeaves a ha
        rw [hn, Option.some.injEq] at hm
        exact absurd ⟨v, hm ▸ hu⟩ hvar
      · rw [hother₁ a ha] at hdone
        cases hdone
    apply (steps_emitAll hf hg roots he₁ hclean₁ hdone₁ fun a ha => ?_).then
    · rintro e₂ he₂ hcont₂ ⟨hclean₂, hdone₂⟩
      have hleaves₂ : LeavesDone s.dag e₂ := LeavesDone.continues hdone₁ hcont₂
      apply (steps_emitAll hf hg _ he₂ hclean₂ hleaves₂ fun a ha => ?_).then
      · rintro e₃ he₃ hcont₃ ⟨hclean₃, hdone₃⟩
        apply (steps_emitAll hf hg _ he₃ hclean₃ (hleaves₂.continues hcont₃) fun a ha => ?_).then
        · rintro e₄ he₄ hcont₄ ⟨hclean₄, hdone₄⟩
          have hleaves₄ := (hleaves₂.continues hcont₃).continues hcont₄
          have hall : ∀ a n, s.dag.pool a = some n → (e₄.result a).isSome := by
            intro a n hn
            refine all_done hg he₄ hleaves₄ (fun b m hm htag => ?_)
              (fun b hb => hcont₄.isSome (hdone₃ b hb)) hdone₄ hn
            · apply (hcont₃.trans hcont₄).isSome
              apply hdone₂
              rw [hmem]
              refine .inr ⟨⟨m.key, b⟩, ?_, rfl, m, hm, htag⟩
              exact RbSet.lookup_eq_some_iff.mp (hg.ready.ordered.tree b m hm (by simp [htag]))
          refine (steps_updateLeaves hg _ he₄ hleaves₄ fun a ha => ha).weaken ?_
          rintro e₅ - hcont₅ hcleared a n hn
          by_cases hvar : n.IsVarLeaf
          · obtain ⟨v, hu⟩ := hvar
            exact hcleared a (hg.ready.leaves.varLeaf a n v hn hu)
          · exact hcont₅.cleared a (hclean₄ a n (hall a n hn) hn hvar)
        · obtain ⟨x, hx, rfl⟩ := List.mem_map.mp ha
          exact hnodes _ (hg.sound.doubleLeaf x hx)
      · obtain ⟨x, hx, rfl⟩ := List.mem_map.mp ha
        exact hnodes _ (hg.sound.intLeaf x hx)
    · rw [hmem] at ha
      obtain ha | ⟨x, -, rfl, n, hn, -⟩ := ha
      · cases ha
      · exact hnodes _ (Option.isSome_of_mem hn)
  obtain ⟨lst, e', hcall, hemits, hcont, hcleared, hassigns, hleads⟩ := hsteps
  obtain ⟨msgs, hmsgs⟩ := hcont.errors
  refine ⟨lst, e'.nextVar, msgs, ?_, ?_, hassigns, fun hnil world => ?_⟩
  · unfold gencodeFromGraph
    simp only [hroots, hcall, hmsgs, Option.bind_eq_bind, Option.bind_some]
    rfl
  · exact hemits.nextVar
  · obtain ⟨τ, hrun, hτ⟩ := hleads (by rw [hmsgs, hnil, List.append_nil]) ρ world
      (holds_start hg s.errors)
    exact ⟨τ, hrun, fun v hv => hτ.final hg hcleared hv⟩

end Graph

end Javalette.Opt
