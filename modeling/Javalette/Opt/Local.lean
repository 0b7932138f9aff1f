import Javalette.Opt.EmitMeaning

/-!
# `perform_local_optimizations`

`perform_local_optimizations` puts each block of a function through `optimize_local`, which reads
it into graphs and generates it again, and then through `optimize_local_2`.  What comes out does
the same to the world and to the variables that the function had before, block by block and in
every run of the function.

The conditions on a block are those of the two optimizations: the graphs have at most 8192 nodes,
no constant is `-0.0` or not a number, the block suits the generation of code (`Suits`), and no
quadruple assigns the result of a call that comes before it.  The machine that the code is for is
assumed to compute what constant folding computes, and no division by zero is found.
-/

namespace Javalette.Opt

open Rbtree

variable {ν β V W : Type} [DecidableEq ν]

/-- A block in `perform_local_optimizations`. -/
def optimizeBlock (C : Context ν) (w nextVar : ℕ) (errors : List String)
    (block : List (Quadr ν β × ℕ × ℕ × ℕ)) : Option (List (Quadr ν β) × Optimizer ν β) := do
  let (lst, s) ← rebuildBlock C w (.start nextVar errors) block
  return (optimizeLocal2 lst, s)

/-- `perform_local_optimizations`: the blocks, how many variables the function has then, and the
errors. -/
def performLocalOptimizations (C : Context ν) (w : ℕ) :
    ℕ → List String → List (List (Quadr ν β × ℕ × ℕ × ℕ)) →
      Option (List (List (Quadr ν β)) × ℕ × List String)
  | nextVar, errors, [] => some ([], nextVar, errors)
  | nextVar, errors, block :: blocks => do
      let (lst, s) ← optimizeBlock C w nextVar errors block
      let (rest, r) ← performLocalOptimizations C w s.nextVar s.errors blocks
      return (lst :: rest, r)

/-- The blocks of a function, one after another, for at most `n` of them: the block that is next,
if there is one, and the state.  Which block is next after a block the world says. -/
def runFunc (M : Machine β V W) (next : ℕ → W → Option ℕ) (blocks : List (List (Quadr ν β))) :
    ℕ → ℕ → (ν → V) × W → Option ℕ × ((ν → V) × W)
  | 0, i, s => (some i, s)
  | n + 1, i, s =>
      let s := runBlock M (blocks.getD i []) s
      match next i s.2 with
      | none => (none, s)
      | some j => runFunc M next blocks n j s

/-- The quadruple is one that the compiler makes, with variables that the function had before the
`k`-th was made. -/
structure QuadrFits (C : Context ν) (k : ℕ) (q : Quadr ν β) : Prop where
  formed : Formed q
  result : ResultFits q
  plain : PlainConstant q.arg1 ∧ PlainConstant q.arg2
  used : ∀ v, usedInQuadr q v → Old C k v
  assigned : ∀ v, assignedInQuadr q v → Old C k v

/-- The block can be optimized, where the addresses are such that the pool can hand out. -/
structure BlockFits [DecidableEq β] (C : Context ν) (w k : ℕ)
    (block : List (Quadr ν β × ℕ × ℕ × ℕ)) : Prop where
  quadrs : ∀ qa ∈ block, QuadrFits C k qa.1
  small : AllFit w resetGraph block
  suits : Suits .start (block.map Prod.fst)
  calls : CallsKept (block.map Prod.fst)
  addresses : ∃ ms, optimizeLocal w resetGraph block = some ms

/-! ## What a block is read into -/

/-- Which variables get nodes and are put on lists by reading operands and assigning variables. -/
structure Adds (g g' : Dag ν β) (reads : List (QuadrArg ν β)) (sets : List ν) : Prop where
  var : ∀ v, g'.varNode v ≠ NULL → g.varNode v ≠ NULL ∨ .var v ∈ reads ∨ v ∈ sets
  listed : ∀ v, Listed g' v → Listed g v ∨ v ∈ sets

variable {g g' g'' : Dag ν β} {a b : ℕ}

omit [DecidableEq ν] in
lemma Adds.trans {reads reads' : List (QuadrArg ν β)} {sets sets' : List ν}
    (h : Adds g g' reads sets) (h' : Adds g' g'' reads' sets') :
    Adds g g'' (reads ++ reads') (sets ++ sets') where
  var v hv := by
    simp only [List.mem_append]
    obtain hv | hv | hv := h'.var v hv
    · have := h.var v hv
      tauto
    · exact .inr (.inl (.inr hv))
    · exact .inr (.inr (.inr hv))
  listed v hv := by
    rw [List.mem_append]
    obtain hv | hv := h'.listed v hv
    · exact (h.listed v hv).imp_right .inl
    · exact .inr (.inr hv)

omit [DecidableEq ν] in
/-- Nothing is added when no variable gets a node and no node gets a variable. -/
lemma adds_nothing (hvar : g'.varNode = g.varNode)
    (hpool : ∀ c n v, g'.pool c = some n → v ∈ n.varList →
      ∃ c' n', g.pool c' = some n' ∧ v ∈ n'.varList ∧ n'.u = n.u) : Adds g g' [] [] where
  var v hv := .inl (hvar ▸ hv)
  listed v := by
    rintro ⟨c, n, hn, hv, hu⟩
    obtain ⟨c', n', hn', hv', hu'⟩ := hpool c n v hn hv
    exact .inl ⟨c', n', hn', hv', hu' ▸ hu⟩

omit [DecidableEq ν] in
lemma newGraphLeaf_adds {arg : QuadrArg ν β} (h : newGraphLeaf g arg a = some g') :
    Adds g g' [] [] := by
  apply adds_nothing
  · rw [(alloc_eq_some h).2.2]
  · intro c n v hn hv
    obtain ⟨-, -, -, hlist⟩ | hold := newGraphLeaf_cases h hn
    · rw [hlist] at hv
      cases hv
    · exact ⟨c, n, hold, hv, rfl⟩

omit [DecidableEq ν] in
lemma NewRoot.adds (h : NewRoot g a g') : Adds g g' [] [] := by
  apply adds_nothing h.varNode
  intro c n v hn hv
  obtain rfl | hne := eq_or_ne c a
  · obtain ⟨m, _, _, _, hm, -, -, hlist, -⟩ := h.node
    rw [hn, Option.some.injEq] at hm
    rw [hm, hlist] at hv
    cases hv
  · obtain ⟨m, hm, hfix, hlist⟩ := h.at hn hne
    exact ⟨c, m, hm, hlist ▸ hv, u_eq_of_fixed hfix⟩

omit [DecidableEq ν] in
lemma insertRoot_adds (h : insertRoot g a = some (b, g')) : Adds g g' [] [] := by
  obtain ⟨n, hn, h⟩ := Option.bind_eq_some_iff.mp h
  split at h
  · obtain ⟨g₁, hfree, h⟩ := Option.bind_eq_some_iff.mp h
    obtain ⟨m, -, hfree⟩ := Option.bind_eq_some_iff.mp hfree
    cases hfree
    cases h
    refine adds_nothing rfl fun c l v hl hv => ?_
    dsimp only at hl
    rw [Function.update_apply] at hl
    split at hl
    · cases hl
    · exact ⟨c, l, hl, hv, rfl⟩
  · cases h
    exact adds_nothing rfl fun c l v hl hv => ⟨c, l, hl, hv, rfl⟩

lemma moveVar_adds {res : ℕ} {v : ν} (hnull : g.pool NULL = none)
    (h : moveVar g res a v = some g') : Adds g g' [] [v] := by
  refine ⟨fun u hu => ?_, ?_⟩
  · rw [moveVar_varNode h, Function.update_apply] at hu
    by_cases huv : u = v
    · exact .inr (.inr (List.mem_singleton.mpr huv))
    · rw [if_neg huv] at hu
      exact .inl hu
  · rintro u ⟨c, n, hn, hu, hbad⟩
    rw [moveVar_pool hnull h] at hn
    obtain ⟨m, hm, rfl⟩ := Option.map_eq_some_iff.mp hn
    by_cases huv : u = v
    · exact .inr (List.mem_singleton.mpr huv)
    · exact .inl ⟨c, m, hm, (mem_movedList huv).mp hu, hbad⟩

lemma addVar_adds {v : ν} (h : addVar g a v = some g') (hn : ∀ n, g.pool a = some n →
    n.u = .inl (.var v)) : Adds g g' [.var v] [] := by
  refine ⟨fun u hu => ?_, ?_⟩
  · rw [addVar_varNode h, Function.update_apply] at hu
    by_cases huv : u = v
    · exact .inr (.inl (by simp [huv]))
    · rw [if_neg huv] at hu
      exact .inl hu
  · rintro u ⟨c, n, hc, hu, hbad⟩
    rw [addVar_pool h] at hc
    obtain ⟨m, hm, rfl⟩ := Option.map_eq_some_iff.mp hc
    split at hu
    · next hca =>
        subst hca
        rw [if_pos rfl] at hbad
        obtain rfl | hu := List.mem_cons.mp hu
        · exact absurd (hn m hm) hbad
        · exact .inl ⟨c, m, hm, hu, hbad⟩
    · next hca =>
        rw [if_neg hca] at hbad
        exact .inl ⟨c, m, hm, hu, hbad⟩

omit [DecidableEq ν] in
lemma adds_old (reads : List (QuadrArg ν β)) : Adds g g reads [] :=
  ⟨fun _ hv => .inl hv, fun _ hv => .inl hv⟩

lemma getNode_adds {arg : QuadrArg ν β} {x : ℕ} (h : getNode g arg a = some (x, g')) :
    Adds g g' [arg] [] := by
  cases arg with
  | int i | double d =>
      unfold getNode at h
      dsimp only at h
      split at h
      · obtain ⟨g₁, hleaf, h⟩ := Option.bind_eq_some_iff.mp h
        cases h
        have hnew := newGraphLeaf_adds hleaf
        exact ⟨fun v hv => (hnew.var v hv).imp_right (by simp), hnew.listed⟩
      · cases h
        exact adds_old _
  | var v =>
      unfold getNode at h
      dsimp only at h
      split at h
      · obtain ⟨g₁, hleaf, h⟩ := Option.bind_eq_some_iff.mp h
        obtain ⟨g₂, hadd, h⟩ := Option.bind_eq_some_iff.mp h
        cases h
        have hnew := newGraphLeaf_adds hleaf
        have hentered : Adds g { g₁ with varLeaves := g₁.varLeaves ++ [a] } [] [] :=
          ⟨hnew.var, hnew.listed⟩
        refine hentered.trans (addVar_adds hadd fun n hn => ?_)
        have hself : g₁.pool a = some n := hn
        rw [alloc_self hleaf, Option.some.injEq] at hself
        rw [← hself]
      · cases h
        exact adds_old _
  | none =>
      cases h
      exact adds_old _
  | label | str | func => cases h

/-! ## The turns of the loop -/

lemma optimizeCopy_adds {w : ℕ} {v : ν} {arg1 : QuadrArg ν β} {ms : List (Dag ν β)}
    (hs : Sound w g) (hfit : g.nextId + absent g arg1 ≤ 2 ^ 13) (harg1 : Formed.Operand arg1)
    (h : optimizeCopy g v arg1 a = some ms) : Adds g (ms.getLastD g) [arg1] [v] := by
  obtain ⟨⟨node, g₁⟩, hread, h⟩ := Option.bind_eq_some_iff.mp h
  obtain ⟨g₂, hmove, h⟩ := Option.bind_eq_some_iff.mp h
  cases h
  have h₁ := getNode_reads hs hfit harg1 hread
  exact (getNode_adds hread).trans (moveVar_adds h₁.sound.null hmove)

variable [DecidableEq β]

lemma optimizeArith_adds {w : ℕ} {op : QuadrOp} {v : ν} {arg1 arg2 : QuadrArg ν β}
    {a₁ a₂ a₃ : ℕ} {ms : List (Dag ν β)} (hs : Sound w g) (hop : isArith op)
    (hfit : g.nextId + (absent g arg1 + (if arg1 = arg2 then 0 else absent g arg2) + 1) ≤ 2 ^ 13)
    (harg1 : Formed.Operand arg1) (harg2 : Formed.Operand arg2)
    (h : optimizeArith w g op v arg1 arg2 a₁ a₂ a₃ = some ms) :
    Adds g (ms.getLastD g) [arg1, arg2] [v] := by
  have hsound := optimizeArith_sound hs hfit harg1 harg2 h
  obtain ⟨⟨left, g₁⟩, hleft, h⟩ := Option.bind_eq_some_iff.mp h
  obtain ⟨⟨right, g₂⟩, hright, h⟩ := Option.bind_eq_some_iff.mp h
  obtain ⟨g₃, hroot, h⟩ := Option.bind_eq_some_iff.mp h
  obtain ⟨⟨node, g₄⟩, hins, h⟩ := Option.bind_eq_some_iff.mp h
  obtain ⟨g₅, hmove, h⟩ := Option.bind_eq_some_iff.mp h
  cases h
  have hs₄ : Sound w g₄ := hsound _ (by simp)
  obtain ⟨h₁, h₂, -⟩ := reads_operands hs hfit harg1 harg2 hleft hright
  have hnew := newGraphRoot_newRoot h₂.sound hop (getNode_isSome h₁.node hright) h₂.node hroot
  exact ((((getNode_adds hleft).trans (getNode_adds hright)).trans hnew.adds).trans
    (insertRoot_adds hins)).trans (moveVar_adds hs₄.null hmove)

/-- What is read of a quadruple, and what it sets. -/
lemma optimizeQuadr_adds {w : ℕ} {q : Quadr ν β} {a : ℕ × ℕ × ℕ} {ms : List (Dag ν β)}
    (hs : Sound w g) (hq : Formed q) (hop : isNodeOp q.op) (hfit : Fits g q)
    (h : optimizeQuadr w g q a = some ms) : ∃ v reads, q.result = .var v ∧
      Adds g (ms.getLastD g) reads [v] ∧
      ∀ arg, arg ∈ reads ↔ arg = q.arg1 ∨ q.op ≠ .copy ∧ arg = q.arg2 := by
  obtain ⟨op, result, arg1, arg2⟩ := q
  unfold Fits at hfit
  cases op with
  | add | sub | div | mul | mod =>
      obtain ⟨⟨v, rfl⟩, harg1, harg2⟩ := hq
      exact ⟨v, [arg1, arg2], rfl, optimizeArith_adds hs rfl hfit harg1 harg2 h, by simp⟩
  | copy =>
      obtain ⟨⟨v, rfl⟩, harg1⟩ := hq
      exact ⟨v, [arg1], rfl, optimizeCopy_adds hs hfit harg1 h, by simp⟩
  | _ => cases hop

/-! ## The block -/

/-- Two states agree on the variables in `S` and on the world. -/
def AgreeOn (S : ν → Prop) (s s' : (ν → V) × W) : Prop :=
  (∀ v, S v → s.1 v = s'.1 v) ∧ s.2 = s'.2

omit [DecidableEq β] in
/-- A quadruple that only uses such variables keeps the agreement. -/
lemma runQuadr_agreeOn (M : Machine β V W) {S : ν → Prop} {s s' : (ν → V) × W} {q : Quadr ν β}
    (hq : ∀ v, usedInQuadr q v → S v) (h : AgreeOn S s s') :
    AgreeOn S (runQuadr M s q) (runQuadr M s' q) := by
  have hsame := sameOperands_of_used h.2 fun v hv => h.1 v (hq v hv)
  refine ⟨fun v hv => ?_, ?_⟩
  · rw [runQuadr_fst, runQuadr_fst, hsame.value, h.1 v hv]
  · rw [runQuadr_snd, runQuadr_snd, hsame.effect]

omit [DecidableEq β] in
/-- The machine executes the quadruples of the graph as the arithmetic says. -/
lemma runQuadr_eq_execute {M : Machine β V W} {C : Context ν} {A : Arith V} {q : Quadr ν β}
    (other : Quadr ν β → (ν → V) → ν → V) (hf : Follows M C A) (hq : Formed q)
    (hop : isNodeOp q.op) (ρ σ : ν → V) (world : W) :
    runQuadr M (σ, world) q = ((execute A other (ρ, σ) q).2, world) := by
  obtain ⟨op, result, arg1, arg2⟩ := q
  cases op with
  | add | sub | div | mul | mod =>
      obtain ⟨⟨v, rfl⟩, harg1, harg2⟩ := hq
      obtain ⟨x, hx⟩ := argValue_of_operand A σ harg1
      obtain ⟨y, hy⟩ := argValue_of_operand A σ harg2
      unfold execute
      dsimp only
      rw [hx, hy]
      rw [runQuadr_of_target rfl]
      refine Prod.ext (congrArg (Function.update σ v) ?_) rfl
      refine hf.op _ _ _ x y world rfl ?_ ?_
      · rw [argValue_evalArg, hx]
      · rw [argValue_evalArg, hy]
  | copy =>
      obtain ⟨⟨v, rfl⟩, harg1⟩ := hq
      obtain ⟨x, hx⟩ := argValue_of_operand A σ harg1
      unfold execute
      dsimp only
      rw [hx]
      rw [runQuadr_of_target rfl]
      refine Prod.ext (congrArg (Function.update σ v) ?_) rfl
      refine hf.copy _ _ x world ?_
      rw [argValue_evalArg, hx]
  | _ => cases hop

section Correct

variable {M : Machine β V W} {C : Context ν} {A : Arith V} {w k : ℕ}

omit [DecidableEq ν] [DecidableEq β] in
lemma Old.mono {v : ν} {k' : ℕ} (h : Old C k v) (hk : k ≤ k') : Old C k' v :=
  fun j hj => h j (hk.trans hj)

omit [DecidableEq ν] [DecidableEq β] in
lemma built_start (C : Context ν) (A : Arith V) (w : ℕ) (τ : ν → V) (k : ℕ) :
    Built C A w (resetGraph : Dag ν β) τ τ k :=
  ⟨sound_resetGraph w, ready_resetGraph, represents_resetGraph A τ, fun _ h => absurd rfl h⟩

omit [DecidableEq ν] [DecidableEq β] in
lemma not_listed_resetGraph (v : ν) : ¬ Listed (resetGraph : Dag ν β) v := by
  rintro ⟨a, n, hn, -⟩
  cases hn

/-- A quadruple that is put into the graph. -/
lemma readQuadr_built {s : Optimizer ν β} {ρ σ : ν → V} {q : Quadr ν β} {a : ℕ × ℕ × ℕ}
    {ms : List (Dag ν β)} (hw : 32 ≤ w) (hb : Built C A w s.dag ρ σ s.nextVar)
    (hk : k ≤ s.nextVar) (hq : QuadrFits C k q) (hop : isNodeOp q.op)
    (hfit : Fits s.dag q) (h : optimizeQuadr w s.dag q a = some ms) :
    ∃ s', readQuadr w s q a = some s' ∧ s'.dag = ms.getLastD s.dag ∧ s'.nextVar = s.nextVar ∧
      s'.errors = s.errors ∧
      Built C A w s'.dag ρ (execute A (fun _ ρ => ρ) (ρ, σ) q).2 s'.nextVar ∧
      ∀ v, Listed s'.dag v → Listed s.dag v ∨ assignedInQuadr q v := by
  obtain ⟨v, reads, hresult, hadds, hreads⟩ := optimizeQuadr_adds hb.sound hq.formed hop hfit h
  have htarget := (target_of_isNodeOp hop hresult).1
  refine ⟨{ s with dag := ms.getLastD s.dag }, ?_, rfl, rfl, rfl,
    ⟨?_, optimizeQuadr_ready hw hb.sound hq.formed hfit h hb.ready, ?_, fun u hu => ?_⟩,
    fun u hu => ?_⟩
  · unfold readQuadr
    rw [h]
    rfl
  · show Sound w (ms.getLastD s.dag)
    rw [List.getLastD_eq_getLast?]
    cases hl : ms.getLast? with
    | none => exact hb.sound
    | some m => exact optimizeQuadr_sound hb.sound hq.formed hfit h m (List.mem_of_getLast? hl)
  · have hr := optimizeQuadr_represents (fun _ ρ => ρ) hw hb.sound hq.formed hfit hq.plain
      hb.represents h
    -- reading a quadruple changes the values that are due, not those at entry
    have hfirst := execute_fst A (fun _ ρ => ρ) hop ⟨v, hresult⟩ ρ σ
    rw [show execute A (fun _ ρ => ρ) (ρ, σ) q =
      (ρ, (execute A (fun _ ρ => ρ) (ρ, σ) q).2) from Prod.ext hfirst rfl] at hr
    exact hr
  · obtain hu | hu | hu := hadds.var u hu
    · exact hb.old u hu
    · refine Old.mono (hq.used u ?_) hk
      obtain hu | ⟨-, hu⟩ := (hreads _).mp hu
      · simp [usedInQuadr, ← hu, QuadrArg.isVar]
      · simp [usedInQuadr, ← hu, QuadrArg.isVar]
    · rw [List.mem_singleton.mp hu]
      exact (hq.assigned v (assigned_iff.mpr htarget)).mono hk
  · refine (hadds.listed u hu).imp_right fun hu => ?_
    rw [List.mem_singleton.mp hu]
    exact assigned_iff.mpr htarget

omit [DecidableEq ν] [DecidableEq β] in
lemma Assigns.resultFits {q : Quadr ν β} (h : Assigns C g k q) : ResultFits q := by
  obtain ⟨v, hv, hop, -⟩ := h
  obtain ⟨op, result, arg1, arg2⟩ := q
  cases op with
  | add | sub | div | mul | mod | copy => exact ⟨v, hv⟩
  | _ => cases hop

omit [DecidableEq ν] [DecidableEq β] in
lemma Assigns.ne_call {q : Quadr ν β} (h : Assigns C g k q) : q.op ≠ .call := by
  obtain ⟨-, -, hop, -⟩ := h
  rintro heq
  rw [heq] at hop
  cases hop

omit [DecidableEq β] in
lemma Assigns.assigned {q : Quadr ν β} {v : ν} (h : Assigns C g k q) (hv : assignedInQuadr q v) :
    ¬ Old C k v ∨ Listed g v := by
  obtain ⟨u, hu, hop, hold⟩ := h
  have htarget := assigned_iff.mp hv
  rw [(target_of_isNodeOp hop hu).1, Option.some.injEq] at htarget
  exact htarget ▸ hold

/-- The quadruples that `optimize_local` gives for what has been read into the graph and the rest
of the block. -/
structure Rebuilt (M : Machine β V W) (C : Context ν) (A : Arith V) (k : ℕ) (g : Dag ν β)
    (block lst : List (Quadr ν β)) (msgs : List String) : Prop where
  result : ∀ q ∈ lst, ResultFits q
  assigned : ∀ q ∈ lst, ∀ v, assignedInQuadr q v → ¬ Old C k v ∨ Listed g v ∨
    ∃ q' ∈ block, assignedInQuadr q' v
  calls : CallsKept block → CallsKept lst
  runs : msgs = [] → ∀ (ρ σ : ν → V) (s : (ν → V) × W), Represents A (ρ, σ) g →
    AgreeOn (Old C k) (σ, s.2) s →
    AgreeOn (Old C k) (runBlock M lst (ρ, s.2)) (runBlock M block s)

omit [DecidableEq β] in
/-- The code of the graph, where the block or the graph ends. -/
lemma rebuilt_graph {s : Optimizer ν β} {ρ σ : ν → V} (hf : Follows M C A)
    (hb : Built C A w s.dag ρ σ s.nextVar) (htidy : Tidy s.dag) (hsafe : Untrapped s.dag)
    (hk : k ≤ s.nextVar) : ∃ lst k' msgs,
      gencodeFromGraph C s = some (lst, .start k' (s.errors ++ msgs)) ∧ k ≤ k' ∧
      (∀ q ∈ lst, Assigns C s.dag s.nextVar q) ∧ Rebuilt M C A k s.dag [] lst msgs := by
  obtain ⟨lst, k', msgs, hcode, hk', hassigns, -⟩ :=
    gencodeFromGraph_correct hf ⟨hb, htidy, hsafe⟩
  refine ⟨lst, k', msgs, hcode, hk.trans hk', hassigns,
    fun q hq => (hassigns q hq).resultFits, fun q hq v hv => ?_, fun _ => ?_, ?_⟩
  · obtain hv | hv := (hassigns q hq).assigned hv
    · exact .inl fun hold => hv (hold.mono hk)
    · exact .inr (.inl hv)
  · refine List.pairwise_iff_forall_sublist.mpr fun {q q'} hsub hcall => ?_
    exact absurd hcall (hassigns q (hsub.subset List.mem_cons_self)).ne_call
  · rintro hmsgs ρ' σ' s' hr ⟨hagree, -⟩
    obtain ⟨lst', k'', msgs', hcode', -, -, hruns⟩ :=
      gencodeFromGraph_correct hf ⟨{ hb with represents := hr }, htidy, hsafe⟩
    rw [hcode, Option.some.injEq, Prod.mk.injEq] at hcode'
    obtain ⟨rfl, hstart⟩ := hcode'
    have herrors : s.errors ++ msgs = s.errors ++ msgs' := congrArg Optimizer.errors hstart
    obtain ⟨τ, hrun, hτ⟩ := hruns ((List.append_cancel_left herrors).symm.trans hmsgs) s'.2
    rw [hrun]
    exact ⟨fun v hv => (hτ v (hv.mono hk)).trans (hagree v hv), rfl⟩

omit [DecidableEq β] in
lemma optimizeQuadr_other {q : Quadr ν β} {a : ℕ × ℕ × ℕ} (hop : ¬ isNodeOp q.op) :
    optimizeQuadr w g q a = some [resetGraph] := by
  obtain ⟨op, result, arg1, arg2⟩ := q
  cases op with
  | add | sub | div | mul | mod | copy => exact absurd rfl hop
  | _ => rfl

omit [DecidableEq β] in
/-- A quadruple that is read into the graph adds nothing to the code by itself. -/
lemma Rebuilt.read {q : Quadr ν β} {block lst : List (Quadr ν β)} {msgs : List String}
    {g' : Dag ν β} (h : Rebuilt M C A k g' block lst msgs)
    (hlisted : ∀ v, Listed g' v → Listed g v ∨ assignedInQuadr q v)
    (hstep : ∀ (ρ σ : ν → V) (s : (ν → V) × W), Represents A (ρ, σ) g →
      AgreeOn (Old C k) (σ, s.2) s → ∃ σ', Represents A (ρ, σ') g' ∧
        AgreeOn (Old C k) (σ', s.2) (runQuadr M s q)) :
    Rebuilt M C A k g (q :: block) lst msgs where
  result := h.result
  assigned p hp v hv := by
    obtain hv | hv | ⟨q', hq', hv⟩ := h.assigned p hp v hv
    · exact .inl hv
    · obtain hv | hv := hlisted v hv
      · exact .inr (.inl hv)
      · exact .inr (.inr ⟨q, List.mem_cons_self, hv⟩)
    · exact .inr (.inr ⟨q', List.mem_cons_of_mem _ hq', hv⟩)
  calls hcalls := h.calls (List.pairwise_cons.mp hcalls).2
  runs hmsgs ρ σ s hr hagree := by
    obtain ⟨σ', hr', hagree'⟩ := hstep ρ σ s hr hagree
    have hworld : s.2 = (runQuadr M s q).2 := hagree'.2
    have hrun := h.runs hmsgs ρ σ' (runQuadr M s q) hr'
    rw [← hworld] at hrun
    exact hrun hagree'

omit [DecidableEq β] in
/-- A quadruple that has no node stands between the code of the graph and that of the rest. -/
lemma Rebuilt.append {q : Quadr ν β} {block lst₁ lst₂ : List (Quadr ν β)}
    {msgs₁ msgs₂ : List String} (h₁ : Rebuilt M C A k g [] lst₁ msgs₁)
    (hcall₁ : ∀ p ∈ lst₁, p.op ≠ .call) (hq : QuadrFits C k q)
    (h₂ : Rebuilt M C A k resetGraph block lst₂ msgs₂) :
    Rebuilt M C A k g (q :: block) (lst₁ ++ q :: lst₂) (msgs₁ ++ msgs₂) where
  result p hp := by
    -- before the quadruple, the quadruple itself, or after it
    obtain hp | rfl | hp := (List.mem_append.mp hp).imp_right List.mem_cons.mp
    · exact h₁.result p hp
    · exact hq.result
    · exact h₂.result p hp
  assigned p hp v hv := by
    obtain hp | rfl | hp := (List.mem_append.mp hp).imp_right List.mem_cons.mp
    · obtain hv | hv | ⟨_, h, -⟩ := h₁.assigned p hp v hv
      · exact .inl hv
      · exact .inr (.inl hv)
      · cases h
    · exact .inr (.inr ⟨p, List.mem_cons_self, hv⟩)
    · obtain hv | hv | ⟨q', hq', hv⟩ := h₂.assigned p hp v hv
      · exact .inl hv
      · exact absurd hv (not_listed_resetGraph v)
      · exact .inr (.inr ⟨q', List.mem_cons_of_mem _ hq', hv⟩)
  calls hcalls := by
    obtain ⟨hcall, hcalls⟩ := List.pairwise_cons.mp hcalls
    refine List.pairwise_append.mpr ⟨h₁.calls .nil,
      List.pairwise_cons.mpr ⟨fun p hp hop v hv hpv => ?_, h₂.calls hcalls⟩,
      fun p hp _ _ hop => absurd hop (hcall₁ p hp)⟩
    obtain hno | hno | ⟨q', hq', hv'⟩ := h₂.assigned p hp v hpv
    · exact hno (hq.assigned v hv)
    · exact not_listed_resetGraph v hno
    · exact hcall q' hq' hop v hv hv'
  runs hmsgs ρ σ s hr hagree := by
    obtain ⟨rfl, rfl⟩ := List.append_eq_nil_iff.mp hmsgs
    have hstep := runQuadr_agreeOn M hq.used (h₁.runs rfl ρ σ s hr hagree)
    have hrun := h₂.runs rfl _ _ (runQuadr M s q)
      (represents_resetGraph A (runQuadr M (runBlock M lst₁ (ρ, s.2)) q).1) ⟨hstep.1, rfl⟩
    rw [← show _ = (runQuadr M s q).2 from hstep.2] at hrun
    unfold runBlock at hrun ⊢
    rw [List.foldl_append, List.foldl_cons]
    exact hrun

/-- **`optimize_local`**: the rest of the block. -/
theorem rebuildBlock_correct (hw : 32 ≤ w) (hf : Follows M C A)
    (block : List (Quadr ν β × ℕ × ℕ × ℕ)) :
    ∀ {s : Optimizer ν β} {ρ σ : ν → V} {t : Known ν β} {ms : List (Dag ν β)},
      Built C A w s.dag ρ σ s.nextVar → Tracks t s.dag → k ≤ s.nextVar →
      (∀ qa ∈ block, QuadrFits C k qa.1) → AllFit w s.dag block →
      Suits t (block.map Prod.fst) → optimizeLocal w s.dag block = some ms → ∃ lst k' msgs,
        rebuildBlock C w s block = some (lst, .start k' (s.errors ++ msgs)) ∧ k ≤ k' ∧
        Rebuilt M C A k s.dag (block.map Prod.fst) lst msgs := by
  induction block with
  | nil =>
      intro s ρ σ t ms hb ht hk _ _ hset _
      obtain ⟨lst, k', msgs, hcode, hk', -, hrebuilt⟩ :=
        rebuilt_graph hf hb (ht.tidy hb.ready hset) ht.untrapped hk
      exact ⟨lst, k', msgs, hcode, hk', hrebuilt⟩
  | cons qa block ih =>
      obtain ⟨q, a⟩ := qa
      intro s ρ σ t ms hb ht hk hfits hsmall hsuits h
      obtain ⟨ms₁, hturn, h⟩ := Option.bind_eq_some_iff.mp h
      obtain ⟨ms₂, hrest, h⟩ := Option.bind_eq_some_iff.mp h
      have hq := hfits (q, a) List.mem_cons_self
      have hfits' : ∀ qa ∈ block, QuadrFits C k qa.1 :=
        fun qa hqa => hfits qa (List.mem_cons_of_mem _ hqa)
      by_cases hop : isNodeOp q.op
      · -- the graph grows by the quadruple
        rw [List.map_cons, Suits, if_pos hop] at hsuits
        obtain ⟨s', hread, hdag, hnext, herrors, hb', hlisted⟩ :=
          readQuadr_built hw hb hk hq hop hsmall.1 hturn
        have ht' : Tracks (t.read q) s'.dag := by
          have hs' := hb'.sound
          have hr' := hb'.ready
          rw [hdag] at hs' hr' ⊢
          exact ht.read hw hb.sound hs' hr' hq.formed hop hsmall.1 hq.plain hturn hsuits.1
        obtain ⟨lst, k', msgs, hcode, hk', hrebuilt⟩ := ih hb' ht' (hnext ▸ hk) hfits'
          (hdag ▸ hsmall.2 _ hturn) hsuits.2 (hdag ▸ hrest)
        refine ⟨lst, k', msgs, ?_, hk', hrebuilt.read hlisted fun ρ' σ' s₀ hr hagree => ?_⟩
        · unfold rebuildBlock
          rw [if_pos hop, hread, ← herrors]
          exact hcode
        · obtain ⟨s'', hread', -, -, -, hb'', -⟩ :=
            readQuadr_built hw { hb with represents := hr } hk hq hop hsmall.1 hturn
          rw [hread, Option.some.injEq] at hread'
          subst hread'
          have hstep := runQuadr_agreeOn M hq.used hagree
          rw [runQuadr_eq_execute (fun _ ρ => ρ) hf hq.formed hop ρ' σ' s₀.2] at hstep
          exact ⟨_, hb''.represents, hstep⟩
      · -- the graph ends, and the next one begins behind the quadruple
        rw [List.map_cons, Suits, if_neg hop] at hsuits
        obtain ⟨lst₁, k₁, msgs₁, hcode₁, hk₁, hassigns₁, hrebuilt₁⟩ :=
          rebuilt_graph hf hb (ht.tidy hb.ready hsuits.1) ht.untrapped hk
        rw [optimizeQuadr_other hop, Option.some.injEq] at hturn
        subst hturn
        obtain ⟨lst₂, k₂, msgs₂, hcode₂, hk₂, hrebuilt₂⟩ := ih (s := .start k₁ (s.errors ++ msgs₁))
          (built_start C A w ρ k₁) tracks_start hk₁ hfits' (hsmall.2 _ (optimizeQuadr_other hop))
          hsuits.2 hrest
        refine ⟨lst₁ ++ q :: lst₂, k₂, msgs₁ ++ msgs₂, ?_, hk₂,
          hrebuilt₁.append (fun p hp => (hassigns₁ p hp).ne_call) hq hrebuilt₂⟩
        unfold rebuildBlock
        rw [if_neg hop, hcode₁]
        dsimp only [Option.bind_eq_bind, Option.bind_some]
        rw [hcode₂, ← List.append_assoc]
        rfl

/-- A block that comes out of both optimizations does what it did. -/
lemma optimizeBlock_correct {nextVar : ℕ} {block : List (Quadr ν β × ℕ × ℕ × ℕ)} (hw : 32 ≤ w)
    (hf : Follows M C A) (hk : k ≤ nextVar) (h : BlockFits C w k block) (errors : List String) :
    ∃ lst k' msgs, optimizeBlock C w nextVar errors block =
        some (lst, .start k' (errors ++ msgs)) ∧ k ≤ k' ∧
      (msgs = [] → ∀ s s' : (ν → V) × W, AgreeOn (Old C k) s s' →
        AgreeOn (Old C k) (runBlock M lst s) (runBlock M (block.map Prod.fst) s')) := by
  obtain ⟨ms, hms⟩ := h.addresses
  obtain ⟨lst, k', msgs, hcode, hk', hrebuilt⟩ := rebuildBlock_correct hw hf block
    (s := .start nextVar errors) (built_start C A w (fun _ => A.int 0) nextVar) tracks_start hk
    h.quadrs h.small h.suits hms
  refine ⟨optimizeLocal2 lst, k', msgs, ?_, hk', fun hmsgs s s' hagree => ?_⟩
  · unfold optimizeBlock
    rw [hcode]
    rfl
  · rw [optimizeLocal2_runs M lst hrebuilt.result (hrebuilt.calls h.calls)]
    have hrun := hrebuilt.runs hmsgs s.1 s.1 s' (represents_resetGraph A s.1) ⟨hagree.1, rfl⟩
    rwa [← hagree.2] at hrun

omit [DecidableEq β] in
/-- Blocks that do the same make functions that do the same. -/
lemma runFunc_agreeOn {S : ν → Prop} {blocks blocks' : List (List (Quadr ν β))}
    (h : ∀ i, ∀ s s' : (ν → V) × W, AgreeOn S s s' →
      AgreeOn S (runBlock M (blocks.getD i []) s) (runBlock M (blocks'.getD i []) s'))
    (next : ℕ → W → Option ℕ) (n : ℕ) : ∀ (i : ℕ) (s s' : (ν → V) × W), AgreeOn S s s' →
      (runFunc M next blocks n i s).1 = (runFunc M next blocks' n i s').1 ∧
        AgreeOn S (runFunc M next blocks n i s).2 (runFunc M next blocks' n i s').2 := by
  induction n with
  | zero => exact fun i s s' hagree => ⟨rfl, hagree⟩
  | succ n ih =>
      intro i s s' hagree
      have hblock := h i s s' hagree
      unfold runFunc
      dsimp only
      rw [hblock.2]
      split
      · exact ⟨rfl, hblock⟩
      · exact ih _ _ _ hblock

end Correct

/-! ## A function -/

/-- A compiler whose variables are numbered. -/
def intContext : Context ℕ where
  name := "f"
  newVar j := j
  double op d e := (intArith.op op (d.setWidth 32) (e.setWidth 32)).setWidth 64

/-- The machine that computes with integers and keeps the operands of everything else it does. -/
def intMachine : Machine Unit (BitVec 32) (List (QuadrArg (BitVec 32) Unit)) where
  value
    | .copy, a, _, _ => (argValue intArith id a).getD 0
    | op, a, b, _ => intArith.op op ((argValue intArith id a).getD 0)
        ((argValue intArith id b).getD 0)
  effect _ r a b record := record ++ [r, a, b]
  copy _ _ _ := rfl

lemma follows_intMachine : Follows intMachine intContext intArith where
  op o a b x y w ho hx hy := by
    cases o with
    | add | sub | div | mul | mod => simp [intMachine, hx, hy]
    | _ => cases ho
  copy a b x w hx := by simp [intMachine, hx]
  foldInt o i j k h := by
    cases o with
    | add | sub | mul =>
        cases h
        rfl
    | div | mod =>
        unfold foldInt at h
        dsimp only at h
        split at h
        · cases h
        · split at h <;> cases h
          rfl
    | _ => cases h
  foldDouble o d e f h := by
    -- the folded constant is that of the context's own operation
    have hvalue : f = intContext.double o d e := by
      cases o with
      | add | sub | mul =>
          cases h
          rfl
      | div =>
          unfold foldDouble at h
          dsimp only at h
          split at h <;> cases h
          rfl
      | _ => cases h
    rw [hvalue]
    simp [intContext, intArith]
  newVar := fun _ _ h => h

/-- A variable is set to a constant and computed from it twice, at last with a product of
constants, and given back. -/
def foldBlock : List (Quadr ℕ Unit × ℕ × ℕ × ℕ) :=
  [(⟨.mul, .var 2, .int 3, .int 4⟩, 1, 2, 3), (⟨.copy, .var 1, .int 5, .none⟩, 4, NULL, NULL),
    (⟨.add, .var 1, .var 0, .var 1⟩, 5, NULL, 6), (⟨.div, .var 1, .var 1, .var 2⟩, NULL, NULL, 7),
    (⟨.copy, .var 0, .var 1, .none⟩, NULL, NULL, NULL),
    (⟨.ret, .none, .var 0, .none⟩, NULL, NULL, NULL)]

lemma blockFits_foldBlock : BlockFits intContext 64 10 foldBlock where
  quadrs qa hqa := by
    -- the temporaries start at 10, above the three variables of the block
    have hold : ∀ v, v ≤ 2 → Old intContext 10 v := by
      rintro v hv j hj rfl
      exact absurd (hj.trans hv) (by decide)
    have hvars : ∀ v, usedInQuadr qa.1 v ∨ assignedInQuadr qa.1 v → v ≤ 2 := by
      intro v hv
      simp only [foldBlock, List.mem_cons, List.not_mem_nil, or_false] at hqa
      rcases hqa with rfl | rfl | rfl | rfl | rfl | rfl <;>
        simp [usedInQuadr, assignedInQuadr, QuadrArg.isVar] at hv <;> omega
    refine ⟨?_, ?_, ?_, fun v hv => hold v (hvars v (.inl hv)),
      fun v hv => hold v (hvars v (.inr hv))⟩
    all_goals
      simp only [foldBlock, List.mem_cons, List.not_mem_nil, or_false] at hqa
    · rcases hqa with rfl | rfl | rfl | rfl | rfl | rfl
      · exact ⟨⟨_, rfl⟩, trivial, trivial⟩
      · exact ⟨⟨_, rfl⟩, trivial⟩
      · exact ⟨⟨_, rfl⟩, trivial, trivial⟩
      · exact ⟨⟨_, rfl⟩, trivial, trivial⟩
      · exact ⟨⟨_, rfl⟩, trivial⟩
      · trivial
    · rcases hqa with rfl | rfl | rfl | rfl | rfl | rfl
      · exact ⟨_, rfl⟩
      · exact ⟨_, rfl⟩
      · exact ⟨_, rfl⟩
      · exact ⟨_, rfl⟩
      · exact ⟨_, rfl⟩
      · rfl
    · rcases hqa with rfl | rfl | rfl | rfl | rfl | rfl <;> exact ⟨trivial, trivial⟩
  small := by
    refine ⟨by unfold Fits; decide, fun ms h => ?_⟩
    cases h
    refine ⟨by unfold Fits; decide, fun ms h => ?_⟩
    cases h
    refine ⟨by unfold Fits; decide, fun ms h => ?_⟩
    cases h
    refine ⟨by unfold Fits; decide, fun ms h => ?_⟩
    cases h
    refine ⟨by unfold Fits; decide, fun ms h => ?_⟩
    cases h
    refine ⟨by unfold Fits; decide, fun ms h => ?_⟩
    cases h
    trivial
  suits := by
    refine ⟨by rintro v ⟨⟩; decide, by rintro v ⟨⟩; decide, by rintro v ⟨⟩; decide,
      by rintro v ⟨⟩; decide, by rintro v ⟨⟩; decide, fun p hp => ?_, fun p hp => ?_⟩
    · obtain rfl := List.mem_singleton.mp hp
      decide
    · cases hp
  calls := by simp [CallsKept, foldBlock, assignedInQuadr, QuadrArg.isVar]
  addresses := ⟨_, rfl⟩

/-- The block after the optimizations. -/
def foldedBlock : List (Quadr ℕ Unit) :=
  [⟨.copy, .var 10, .var 0, .none⟩, ⟨.copy, .var 11, .int 5, .none⟩,
    ⟨.add, .var 12, .var 11, .var 0⟩, ⟨.copy, .var 13, .int 3, .none⟩,
    ⟨.copy, .var 14, .int 4, .none⟩, ⟨.copy, .var 2, .int 12, .none⟩,
    ⟨.copy, .var 15, .var 2, .none⟩, ⟨.div, .var 0, .var 12, .var 2⟩,
    ⟨.copy, .var 1, .var 0, .none⟩, ⟨.copy, .var 16, .var 0, .none⟩, ⟨.ret, .none, .var 0, .none⟩]

-- the least integer divided by -1 kills the compiler
example : performLocalOptimizations intContext 64 10 []
    [[((⟨.div, .var 0, .int 0x80000000, .int 0xFFFFFFFF⟩ : Quadr ℕ Unit), 1, 2, 3)]] = none := by
  decide +kernel

/-- `int j = i; j = j + 1; return j;` -/
def unsettledBlock : List (Quadr ℕ Unit × ℕ × ℕ × ℕ) :=
  [(⟨.copy, .var 1, .var 0, .none⟩, 1, NULL, NULL), (⟨.add, .var 1, .var 1, .int 1⟩, NULL, 2, 3),
    (⟨.ret, .none, .var 1, .none⟩, NULL, NULL, NULL)]

-- what comes out gives back `i`, which the last assignment sets `j` to
example : (performLocalOptimizations intContext 64 10 [] [unsettledBlock]).map (fun r =>
    (runFunc intMachine (fun _ _ => none) r.1 1 0 (fun _ => 5, [])).2.2) =
      some [.none, .var 5, .none] := by
  decide +kernel

end Javalette.Opt
