import Javalette.Opt.Emit
import Javalette.Opt.Listed

/-!
# Which blocks can be optimized

`optimize_local` and `gencode_from_graph` work out only for some blocks.  A constant that is
divided must not make the compiler divide the least integer by -1, which kills it.  And because
`remove_var` does nothing for a leaf, a variable that has been set by a copy of a constant or of
the first value of a variable stays on the list of that leaf.  It is set once more when the code
of the leaf is generated, which comes after all operations if the leaf is that of a variable, and
before an operation only if the operation needs the constant.

Both can be told from the block: what the compiler knows of the values of the variables
(`folding`), and which constants and first values they come from (`origins`), are two more
arithmetics, so the graph represents the values of the block in them as well.
-/

namespace Javalette.Opt

open Rbtree

variable {ν β V : Type}

/-! ## Constants that are known -/

/-- What the compiler knows of a value: it is a constant, or computing it raises a signal. -/
inductive Folded
  | unknown
  | int (i : BitVec 32)
  | double
  | trap
  deriving DecidableEq

/-- What becomes of an operation on constants. -/
def foldOp (op : QuadrOp) : Folded → Folded → Folded
  | .int i, .int j =>
      match foldInt op i j with
      | some (k, _) => .int k
      | none => .trap
  | .double, .double => if op = .mod then .trap else .double
  | _, _ => .unknown

lemma foldInt_comm {op : QuadrOp} (h : isCommutative op) (i j : BitVec 32) :
    foldInt op i j = foldInt op j i := by
  cases op with
  | add =>
      unfold foldInt
      rw [BitVec.add_comm]
  | mul =>
      unfold foldInt
      rw [BitVec.mul_comm]
  | _ => cases h

/-- The operations on what the compiler knows. -/
def folding : Arith Folded where
  op := foldOp
  int i := .int i
  double _ := .double
  comm o x y h := by
    cases x with
    | int i =>
        cases y with
        | int j =>
            unfold foldOp
            dsimp only
            rw [foldInt_comm h]
        | _ => rfl
    | _ => cases y <;> rfl

/-- Nothing is known. -/
def unknown : ν → Folded := fun _ => .unknown

/-! ## Where values come from -/

/-- Where a value comes from: it is a constant or the first value of a variable, or it has been
computed from those that `from` holds of. -/
inductive Origin (ν β : Type)
  | leaf (arg : QuadrArg ν β)
  | operation (source : QuadrArg ν β → Bool)

section Origins

variable [DecidableEq ν] [DecidableEq β]

/-- The value is `arg` or has been computed from it. -/
def Origin.uses (x : Origin ν β) (arg : QuadrArg ν β) : Bool :=
  match x with
  | .leaf arg' => arg' = arg
  | .operation source => source arg

/-- The operations on what values come from. -/
def origins : Arith (Origin ν β) where
  op _ x y := .operation fun arg => x.uses arg || y.uses arg
  int i := .leaf (.int i)
  double d := .leaf (.double d)
  comm _ _ _ _ := congrArg _ (funext fun _ => Bool.or_comm _ _)

end Origins

/-- Each variable comes from its first value. -/
def ownOrigin : ν → Origin ν β := fun v => .leaf (.var v)

/-! ## What is known at a quadruple -/

/-- What is known of the variables since the graph was begun: of their values, where they come
from, and which constants and first values the variables have been set to by copies. -/
structure Known (ν β : Type) where
  value : ν → Folded
  origin : ν → Origin ν β
  given : List (ν × QuadrArg ν β)

/-- What is known when a graph is begun. -/
def Known.start : Known ν β := ⟨unknown, ownOrigin, []⟩

/-- Each variable still has what a copy has given it, or, if that is a constant, a value computed
from it.  A variable that has got its own first value can be set again. -/
def Known.Settled [DecidableEq ν] [DecidableEq β] (t : Known ν β) : Prop :=
  ∀ p ∈ t.given, match p.2 with
    | .var u => u = p.1 ∨ t.origin p.1 = .leaf (.var u)
    | arg => (t.origin p.1).uses arg

section Known

variable [DecidableEq ν] [DecidableEq β]

/-- What is known after a quadruple that is put into the graph. -/
def Known.read (t : Known ν β) (q : Quadr ν β) : Known ν β :=
  let origin := (execute origins (fun _ ρ => ρ) (ownOrigin, t.origin) q).2
  { value := (execute folding (fun _ ρ => ρ) (unknown, t.value) q).2
    origin := origin
    given :=
      match q.result with
      | .var v =>
          match origin v with
          | .leaf arg => (v, arg) :: t.given
          | .operation _ => t.given
      | _ => t.given }

lemma Known.given_read {t : Known ν β} {p : ν × QuadrArg ν β} (q : Quadr ν β) (h : p ∈ t.given) :
    p ∈ (t.read q).given := by
  unfold Known.read
  dsimp only
  split
  · split
    · exact List.mem_cons_of_mem _ h
    · exact h
  · exact h

lemma Known.mem_given_read {t : Known ν β} {q : Quadr ν β} {v : ν} {arg : QuadrArg ν β}
    (hv : q.result = .var v) (h : (t.read q).origin v = .leaf arg) :
    (v, arg) ∈ (t.read q).given := by
  unfold Known.read at h ⊢
  dsimp only at h ⊢
  rw [hv]
  dsimp only
  rw [h]
  exact List.mem_cons_self

/-- The rest of the block can be optimized: no operation on constants raises a signal, and the
variables are settled wherever a graph ends. -/
def Suits : Known ν β → List (Quadr ν β) → Prop
  | t, [] => t.Settled
  | t, q :: block =>
      if isNodeOp q.op then
        (∀ v, q.result = .var v → (t.read q).value v ≠ .trap) ∧ Suits (t.read q) block
      else t.Settled ∧ Suits .start block

end Known

/-! ## The graph -/

/-- The node at `b` is below the node at `a`. -/
inductive Below (pool : ℕ → Option (GraphNode ν β)) : ℕ → ℕ → Prop
  | operand {a b : ℕ} {n : GraphNode ν β} (ha : pool a = some n) (h : n.Uses b) : Below pool a b
  | trans {a b c : ℕ} (h : Below pool a b) (h' : Below pool b c) : Below pool a c

/-- The leaf of a variable. -/
def GraphNode.IsVarLeaf (n : GraphNode ν β) : Prop := ∃ v, n.u = .inl (.var v)

/-- A variable on the list of a node that it has left is set again after that: the node is the
leaf of a constant, and the node of the variable is computed from it. -/
def Tidy (g : Dag ν β) : Prop :=
  ∀ a n v, g.pool a = some n → v ∈ n.varList → n.u ≠ .inl (.var v) → g.varNode v ≠ a →
    ¬ n.IsVarLeaf ∧ Below g.pool (g.varNode v) a

/-- No operation of the graph raises a signal when it is carried out. -/
def Untrapped (g : Dag ν β) : Prop := ∀ a, ¬ Denotes folding unknown g.pool a .trap

/-- A graph that has grown by at most one operation, at `node`, and in which at most the variable
`v` has been put on a list that is not its own, that of `node`. -/
structure Grows (node : ℕ) (v : ν) (g g' : Dag ν β) : Prop where
  embeds : Embeds g.pool g'.pool
  operation : ∀ b n, g'.pool b = some n → n.tag ≠ .leaf → (g.pool b).isSome ∨ b = node
  listed : ∀ b n arg u, g'.pool b = some n → n.u = .inl arg → u ∈ n.varList →
    arg = .var u ∨ b = node ∧ u = v ∨ ∃ m, g.pool b = some m ∧ u ∈ m.varList

section Grows

variable {node : ℕ} {v : ν} {g g' g'' : Dag ν β} {a b x : ℕ}

lemma Grows.trans (h : Grows node v g g') (h' : Grows node v g' g'') : Grows node v g g'' := by
  refine ⟨h.embeds.trans h'.embeds, fun b n hb hn => ?_, fun b n arg u hb hu hmem => ?_⟩
  · obtain hsome | hnode := h'.operation b n hb hn
    · obtain ⟨m, hm⟩ := Option.isSome_iff_exists.mp hsome
      obtain ⟨n', hn', hfix⟩ := h'.embeds b m hm
      cases hb.symm.trans hn'
      exact h.operation b m hm (mt (leaf_iff_of_fixed hfix).mpr hn)
    · exact .inr hnode
  · obtain harg | hnode | ⟨m, hm, hmem'⟩ := h'.listed b n arg u hb hu hmem
    · exact .inl harg
    · exact .inr (.inl hnode)
    · obtain ⟨n', hn', hfix⟩ := h'.embeds b m hm
      cases hb.symm.trans hn'
      exact h.listed b m arg u hm ((u_eq_of_fixed hfix).symm.trans hu) hmem'

/-- A change of what the lists and the operations do not depend on. -/
lemma grows_of_pool (hpool : SameLists g.pool g'.pool) : Grows node v g g' := by
  refine ⟨hpool.sameNodes.embeds, fun b n hb _ => ?_, fun b n arg u hb hu hmem => ?_⟩
  · obtain ⟨m, hm, -⟩ := hpool.at hb
    exact .inl (Option.isSome_of_mem hm)
  · obtain ⟨m, hm, -, hlist⟩ := hpool.at hb
    exact .inr (.inr ⟨m, hm, hlist ▸ hmem⟩)

lemma newGraphLeaf_grows {arg : QuadrArg ν β} (h : newGraphLeaf g arg a = some g') :
    Grows node v g g' := by
  refine ⟨embeds_alloc h, fun b n hb hn => ?_, fun b n arg u hb hu hmem => ?_⟩
  · obtain ⟨-, htag, -⟩ | hb := newGraphLeaf_cases h hb
    · exact absurd htag hn
    · exact .inl (Option.isSome_of_mem hb)
  · obtain ⟨-, -, -, hnil⟩ | hb := newGraphLeaf_cases h hb
    · rw [hnil] at hmem
      cases hmem
    · exact .inr (.inr ⟨n, hb, hmem⟩)

lemma NewRoot.grows (h : NewRoot g a g') : Grows a v g g' := by
  refine ⟨fun b m hb => ?_, fun b n hb _ => ?_, fun b n arg u hb hu hmem => ?_⟩
  · obtain ⟨-, m', hm', hfix, -⟩ := h.kept hb
    exact ⟨m', hm', hfix⟩
  · obtain ⟨rfl, -⟩ | ⟨-, k, hk, -⟩ := h.cases hb
    · exact .inr rfl
    · exact .inl (Option.isSome_of_mem hk)
  · obtain ⟨-, -, hnil, -⟩ | ⟨-, k, hk, -, hlist, -⟩ := h.cases hb
    · rw [hnil] at hmem
      cases hmem
    · exact .inr (.inr ⟨k, hk, hlist ▸ hmem⟩)

/-- The new operation with `rb_insert_if_absent`: it stays, or a node that was there stands for
it. -/
lemma insertRoot_grows (h : NewRoot g a g') (hins : insertRoot g' a = some (b, g'')) :
    Grows b v g g'' := by
  obtain ⟨n, hn, hins⟩ := Option.bind_eq_some_iff.mp hins
  split at hins
  · obtain ⟨g₁, hfree, hins⟩ := Option.bind_eq_some_iff.mp hins
    obtain ⟨m, -, hfree⟩ := Option.bind_eq_some_iff.mp hfree
    cases hfree
    cases hins
    refine grows_of_pool fun c => ?_
    dsimp only
    obtain rfl | hne := eq_or_ne c a
    · rw [Function.update_self, h.fresh]
    · rw [Function.update_of_ne hne, h.old c hne]
  · cases hins
    exact h.grows.trans (grows_of_pool fun _ => rfl)

variable [DecidableEq ν]

lemma addVar_grows (h : addVar g a v = some g') : Grows a v g g' := by
  refine ⟨(addVar_keeps h).pool.embeds, fun b n hb _ => ?_, fun b n arg u hb _ hmem => ?_⟩
  all_goals
    rw [addVar_pool h] at hb
    obtain ⟨m, hm, rfl⟩ := Option.map_eq_some_iff.mp hb
  · exact .inl (Option.isSome_of_mem hm)
  · split at hmem
    · next hba =>
        obtain rfl | hmem := List.mem_cons.mp hmem
        · exact .inr (.inl ⟨hba, rfl⟩)
        · exact .inr (.inr ⟨m, hm, hmem⟩)
    · exact .inr (.inr ⟨m, hm, hmem⟩)

/-- A variable is put on the list of its own leaf. -/
lemma addVar_own_grows {u : ν} (hown : ∀ n, g.pool a = some n → n.u = .inl (.var u))
    (h : addVar g a u = some g') : Grows node v g g' := by
  have hgrow := addVar_grows h
  have hself : (g.pool a).isSome := by
    obtain ⟨n, hn, -⟩ := Option.bind_eq_some_iff.mp h
    exact Option.isSome_of_mem hn
  refine ⟨hgrow.embeds, fun b n hb hn => .inl ?_, fun b n arg u' hb hu hmem => ?_⟩
  · obtain hsome | rfl := hgrow.operation b n hb hn
    · exact hsome
    · exact hself
  · obtain harg | ⟨rfl, rfl⟩ | hold := hgrow.listed b n arg u' hb hu hmem
    · exact .inl harg
    · obtain ⟨m, hm, hfix⟩ := (addVar_keeps h).pool.at hb
      exact .inl (Sum.inl.inj (hu.symm.trans ((u_eq_of_fixed hfix).symm.trans (hown m hm))))
    · exact .inr (.inr hold)

lemma moveVar_grows {res : ℕ} (hnull : g.pool NULL = none) (h : moveVar g res a v = some g') :
    Grows a v g g' := by
  refine ⟨(moveVar_keeps h).pool.embeds, fun b n hb _ => ?_, fun b n arg u hb _ hmem => ?_⟩
  all_goals
    rw [moveVar_pool hnull h] at hb
    obtain ⟨m, hm, rfl⟩ := Option.map_eq_some_iff.mp hb
  · exact .inl (Option.isSome_of_mem hm)
  · obtain rfl | hne := eq_or_ne u v
    · unfold movedList at hmem
      dsimp only at hmem
      split at hmem
      · next hba => exact .inr (.inl ⟨hba, rfl⟩)
      · split at hmem
        · exact .inr (.inr ⟨m, hm, List.mem_of_mem_erase hmem⟩)
        · exact .inr (.inr ⟨m, hm, hmem⟩)
    · exact .inr (.inr ⟨m, hm, (mem_movedList hne).mp hmem⟩)

lemma getNode_grows {arg : QuadrArg ν β} (h : getNode g arg a = some (x, g')) :
    Grows node v g g' := by
  cases arg with
  | int i | double d =>
      unfold getNode at h
      dsimp only at h
      split at h
      · obtain ⟨g₁, hleaf, h⟩ := Option.bind_eq_some_iff.mp h
        cases h
        exact (newGraphLeaf_grows hleaf).trans (grows_of_pool fun _ => rfl)
      · cases h
        exact grows_of_pool fun _ => rfl
  | var u =>
      unfold getNode at h
      dsimp only at h
      split at h
      · obtain ⟨g₁, hleaf, h⟩ := Option.bind_eq_some_iff.mp h
        obtain ⟨g₂, hadd, h⟩ := Option.bind_eq_some_iff.mp h
        cases h
        -- the leaf of a variable lists the variable itself, which is no copy
        have hown : Grows node v { g₁ with varLeaves := g₁.varLeaves ++ [a] } g' := by
          refine addVar_own_grows (fun n hn => ?_) hadd
          have hself : g₁.pool a = some n := hn
          rw [alloc_self hleaf, Option.some.injEq] at hself
          rw [← hself]
        have henter : Grows node v g₁ { g₁ with varLeaves := g₁.varLeaves ++ [a] } :=
          grows_of_pool fun _ => rfl
        exact ((newGraphLeaf_grows hleaf).trans henter).trans hown
      · cases h
        exact grows_of_pool fun _ => rfl
  | none =>
      cases h
      exact grows_of_pool fun _ => rfl
  | label | str | func => cases h

/-! ## The turns of the loop -/

lemma optimizeCopy_grows {w : ℕ} {arg1 : QuadrArg ν β} {ms : List (Dag ν β)} (hs : Sound w g)
    (hfit : g.nextId + absent g arg1 ≤ 2 ^ 13) (harg1 : Formed.Operand arg1)
    (h : optimizeCopy g v arg1 a = some ms) :
    Grows ((ms.getLastD g).varNode v) v g (ms.getLastD g) := by
  obtain ⟨⟨node, g₁⟩, hread, h⟩ := Option.bind_eq_some_iff.mp h
  obtain ⟨g₂, hmove, h⟩ := Option.bind_eq_some_iff.mp h
  have h₁ := getNode_reads hs hfit harg1 hread
  cases h
  show Grows (g₂.varNode v) v g g₂
  rw [moveVar_varNode hmove, Function.update_self]
  exact (getNode_grows hread).trans (moveVar_grows h₁.sound.null hmove)

variable [DecidableEq β]

lemma optimizeArith_grows {w : ℕ} {op : QuadrOp} {arg1 arg2 : QuadrArg ν β} {a₁ a₂ a₃ : ℕ}
    {ms : List (Dag ν β)} (hs : Sound w g) (hop : isArith op)
    (hfit : g.nextId + (absent g arg1 + (if arg1 = arg2 then 0 else absent g arg2) + 1) ≤ 2 ^ 13)
    (harg1 : Formed.Operand arg1) (harg2 : Formed.Operand arg2)
    (h : optimizeArith w g op v arg1 arg2 a₁ a₂ a₃ = some ms) :
    Grows ((ms.getLastD g).varNode v) v g (ms.getLastD g) := by
  have hsound := optimizeArith_sound hs hfit harg1 harg2 h
  obtain ⟨⟨left, g₁⟩, hleft, h⟩ := Option.bind_eq_some_iff.mp h
  obtain ⟨⟨right, g₂⟩, hright, h⟩ := Option.bind_eq_some_iff.mp h
  obtain ⟨g₃, hroot, h⟩ := Option.bind_eq_some_iff.mp h
  obtain ⟨⟨node, g₄⟩, hins, h⟩ := Option.bind_eq_some_iff.mp h
  obtain ⟨g₅, hmove, h⟩ := Option.bind_eq_some_iff.mp h
  cases h
  have hs₄ : Sound w g₄ := hsound _ (by simp)
  obtain ⟨h₁, h₂, -⟩ := reads_operands hs hfit harg1 harg2 hleft hright
  have hnew := newGraphRoot_newRoot h₂.sound hop (getNode_isSome h₁.node hright) h₂.node hroot
  show Grows (g₅.varNode v) v g g₅
  rw [moveVar_varNode hmove, Function.update_self]
  exact (((getNode_grows hleft).trans (getNode_grows hright)).trans
    (insertRoot_grows hnew hins)).trans (moveVar_grows hs₄.null hmove)

/-- A turn of the loop makes at most the operation that is the node of the variable it sets. -/
lemma optimizeQuadr_grows {w : ℕ} {q : Quadr ν β} {a : ℕ × ℕ × ℕ} {ms : List (Dag ν β)}
    (hs : Sound w g) (hq : Formed q) (hop : isNodeOp q.op) (hfit : Fits g q)
    (h : optimizeQuadr w g q a = some ms) : ∃ v, q.result = .var v ∧
      Grows ((ms.getLastD g).varNode v) v g (ms.getLastD g) := by
  obtain ⟨op, result, arg1, arg2⟩ := q
  unfold Fits at hfit
  cases op with
  | add | sub | div | mul | mod =>
      obtain ⟨⟨v, rfl⟩, harg1, harg2⟩ := hq
      exact ⟨v, rfl, optimizeArith_grows hs rfl hfit harg1 harg2 h⟩
  | copy =>
      obtain ⟨⟨v, rfl⟩, harg1⟩ := hq
      exact ⟨v, rfl, optimizeCopy_grows hs hfit harg1 h⟩
  | _ => cases hop

end Grows

/-! ## What the block says about the graph -/

section Tracks

variable [DecidableEq ν] [DecidableEq β] {t : Known ν β} {g : Dag ν β} {w : ℕ}

/-- What is known agrees with the graph. -/
structure Tracks (t : Known ν β) (g : Dag ν β) : Prop where
  value : Represents folding (unknown, t.value) g
  origin : Represents origins (ownOrigin, t.origin) g
  untrapped : Untrapped g
  listed : ∀ a n arg v, g.pool a = some n → n.u = .inl arg → v ∈ n.varList →
    arg = .var v ∨ (v, arg) ∈ t.given

lemma tracks_start : Tracks (.start : Known ν β) resetGraph where
  value := represents_resetGraph folding unknown
  origin := represents_resetGraph origins ownOrigin
  untrapped a h := by cases h.isSome
  listed a n arg v h := by cases h

omit [DecidableEq ν] [DecidableEq β] in
/-- A leaf raises no signal. -/
lemma argValue_ne_trap (arg : QuadrArg ν β) : argValue folding unknown arg ≠ some .trap := by
  cases arg with
  | var | int | double => exact fun h => by cases h
  | _ => nofun

lemma argValue_origins {arg : QuadrArg ν β} {x : Origin ν β}
    (h : argValue origins ownOrigin arg = some x) : x = .leaf arg := by
  cases arg with
  | var | int | double =>
      cases h
      rfl
  | _ => cases h

/-- The node of a value that is a leaf is a leaf. -/
lemma Denotes.leaf_of_origin {pool : ℕ → Option (GraphNode ν β)} {a : ℕ} {arg : QuadrArg ν β}
    (h : Denotes origins ownOrigin pool a (.leaf arg)) : ∃ n, pool a = some n ∧ n.u = .inl arg := by
  generalize hx : Origin.leaf arg = x at h
  cases h with
  | leaf ha hu hy =>
      cases hx.trans (argValue_origins hy)
      exact ⟨_, ha, hu⟩
  | operation => cases hx

/-- What a value comes from is in the graph, at the node or below it. -/
lemma Denotes.below_of_uses {pool : ℕ → Option (GraphNode ν β)} {a : ℕ} {x : Origin ν β}
    {arg : QuadrArg ν β}
    (hleaf : ∀ b n, pool b = some n → n.tag = .leaf → ∃ arg, n.u = .inl arg)
    (h : Denotes origins ownOrigin pool a x) (hx : x.uses arg) :
    ∃ b n, (b = a ∨ Below pool a b) ∧ pool b = some n ∧ n.u = .inl arg := by
  induction h with
  | leaf ha hu hy =>
      rw [argValue_origins hy] at hx
      obtain rfl := of_decide_eq_true hx
      exact ⟨_, _, .inl rfl, ha, hu⟩
  | @operation c n op y z ha hu _ _ ihy ihz =>
      have htag : n.tag ≠ .leaf := by
        intro htag
        obtain ⟨arg', harg'⟩ := hleaf c n ha htag
        cases hu.symm.trans harg'
      have hbelow : ∀ d, n.Uses d → (∃ b m, (b = d ∨ Below pool d b) ∧ pool b = some m ∧
          m.u = .inl arg) → ∃ b m, (b = c ∨ Below pool c b) ∧ pool b = some m ∧ m.u = .inl arg := by
        rintro d hd ⟨b, m, rfl | hb, hm⟩
        · exact ⟨b, m, .inr (.operand ha hd), hm⟩
        · exact ⟨b, m, .inr (.trans (.operand ha hd) hb), hm⟩
      obtain hx | hx := Bool.or_eq_true_iff.mp hx
      · exact hbelow n.left ⟨htag, .inl rfl⟩ (ihy hx)
      · exact hbelow n.right ⟨htag, .inr rfl⟩ (ihz hx)

omit [DecidableEq ν] [DecidableEq β] in
/-- A node that stands for the signal is an operation. -/
lemma Denotes.operation_of_trap {pool : ℕ → Option (GraphNode ν β)} {a : ℕ}
    (h : Denotes folding unknown pool a .trap) : ∃ n op, pool a = some n ∧ n.u = .inr op := by
  generalize hx : Folded.trap = x at h
  cases h with
  | leaf ha hu hy => exact absurd (hx ▸ hy) (argValue_ne_trap _)
  | operation ha hu => exact ⟨_, _, ha, hu⟩

omit [DecidableEq ν] [DecidableEq β] in
lemma Sound.operand_of_leaf (hs : Sound w g) (hr : Ready g) {a : ℕ} {n : GraphNode ν β}
    {arg : QuadrArg ν β} (hn : g.pool a = some n) (hu : n.u = .inl arg) :
    Formed.Operand arg := by
  have htag : n.tag = .leaf := by
    by_contra htag
    obtain ⟨op, _, _, hop, -⟩ := hs.keyed a n hn htag
    cases hu.symm.trans hop
  obtain ⟨arg', hu', harg⟩ := hr.leaves.leaf a n hn htag
  cases hu.symm.trans hu'
  exact harg

omit [DecidableEq β] in
/-- The quadruples of the graph keep the values that the graph was begun with. -/
lemma execute_fst (A : Arith V) (other : Quadr ν β → (ν → V) → ν → V) {q : Quadr ν β}
    (hop : isNodeOp q.op) (hv : ∃ v, q.result = .var v) (ρ σ : ν → V) :
    (execute A other (ρ, σ) q).1 = ρ := by
  obtain ⟨op, result, arg1, arg2⟩ := q
  obtain ⟨v, rfl⟩ := hv
  unfold execute
  cases op with
  | add | sub | div | mul | mod | copy =>
      dsimp only
      split <;> rfl
  | _ => cases hop

/-- What is known follows the graph for a quadruple that is put into it. -/
lemma Tracks.read {q : Quadr ν β} {a : ℕ × ℕ × ℕ} {ms : List (Dag ν β)} (hw : 32 ≤ w)
    (hs : Sound w g) (hs' : Sound w (ms.getLastD g)) (hr' : Ready (ms.getLastD g))
    (hq : Formed q) (hop : isNodeOp q.op) (hfit : Fits g q)
    (hplain : PlainConstant q.arg1 ∧ PlainConstant q.arg2)
    (h : optimizeQuadr w g q a = some ms) (ht : Tracks t g)
    (hsafe : ∀ v, q.result = .var v → (t.read q).value v ≠ .trap) :
    Tracks (t.read q) (ms.getLastD g) := by
  obtain ⟨v, hv, hgrows⟩ := optimizeQuadr_grows hs hq hop hfit h
  have hvalue := optimizeQuadr_represents (fun _ ρ => ρ) hw hs hq hfit hplain ht.value h
  have horigin := optimizeQuadr_represents (fun _ ρ => ρ) hw hs hq hfit hplain ht.origin h
  have hfirst : ∀ {V : Type} (A : Arith V) (ρ σ : ν → V),
      execute A (fun _ ρ => ρ) (ρ, σ) q = (ρ, (execute A (fun _ ρ => ρ) (ρ, σ) q).2) :=
    fun A ρ σ => Prod.ext (execute_fst A _ hop ⟨v, hv⟩ ρ σ) rfl
  rw [hfirst] at hvalue horigin
  refine ⟨hvalue, horigin, fun b hb => ?_, fun b n arg u hb hu hmem => ?_⟩
  · obtain ⟨n, op, hn, hu⟩ := hb.operation_of_trap
    have htag : n.tag ≠ .leaf := by
      intro htag
      obtain ⟨arg, harg, -⟩ := hr'.leaves.leaf b n hn htag
      cases hu.symm.trans harg
    -- an operation of before, or the one for this quadruple
    obtain hold | rfl := hgrows.operation b n hn htag
    · obtain ⟨x, hx⟩ := ht.value.nodes b hold
      exact ht.untrapped b ((hx.mono hgrows.embeds).unique hb ▸ hx)
    · exact hsafe v hv ((hvalue.var v (hb.ne_null hs'.null)).unique hb)
  · obtain harg | ⟨rfl, rfl⟩ | ⟨m, hm, hmem'⟩ := hgrows.listed b n arg u hb hu hmem
    · exact .inl harg
    · obtain ⟨x, hx⟩ := argValue_of_operand (origins : Arith (Origin ν β)) ownOrigin
        (hs'.operand_of_leaf hr' hb hu)
      have hleaf : Denotes origins ownOrigin (ms.getLastD g).pool ((ms.getLastD g).varNode u) x :=
        .leaf hb hu hx
      -- a copy of a constant has that constant for its origin
      have heq : (t.read q).origin u = .leaf arg :=
        ((horigin.var u (hleaf.ne_null hs'.null)).unique hleaf).trans (argValue_origins hx)
      exact .inr (Known.mem_given_read hv heq)
    · obtain ⟨n', hn', hfix⟩ := hgrows.embeds b m hm
      cases hb.symm.trans hn'
      exact (ht.listed b m arg u hm ((u_eq_of_fixed hfix).symm.trans hu) hmem').imp_right
        (Known.given_read q)

/-- Where the variables are settled, the graph is tidy. -/
lemma Tracks.tidy (hr : Ready g) (ht : Tracks t g) (hset : t.Settled) : Tidy g := by
  intro a n v hn hmem hown hne
  have htag : n.tag = .leaf := by
    by_contra htag
    exact hne (hr.lists.current a n v hn htag hmem)
  obtain ⟨arg, hu, harg⟩ := hr.leaves.leaf a n hn htag
  have hvar : arg ≠ .var v := fun heq => hown (heq ▸ hu)
  have hgiven := hset _ ((ht.listed a n arg v hn hu hmem).resolve_left hvar)
  have hdenotes := ht.origin.var v (hr.lists.touched a n v hn hmem)
  have hconstant : (∀ u, arg ≠ .var u) → (t.origin v).uses arg →
      ¬ n.IsVarLeaf ∧ Below g.pool (g.varNode v) a := by
    intro hconst huses
    refine ⟨fun ⟨u, hu'⟩ => hconst u (Sum.inl.inj (hu.symm.trans hu')), ?_⟩
    obtain ⟨b, m, hb, hm, hmu⟩ := hdenotes.below_of_uses
      (fun b m hm htag => (hr.leaves.leaf b m hm htag).imp fun _ h => h.1) huses
    obtain rfl := hr.leaves.unique a b n m arg hn hm hu hmu
    exact hb.resolve_left (Ne.symm hne)
  cases arg with
  | var u =>
      obtain heq | heq := hgiven
      · exact absurd (congrArg _ heq) hvar
      · -- the variable still has what the copy has given it
        dsimp only at hdenotes
        rw [heq] at hdenotes
        obtain ⟨m, hm, hmu⟩ := hdenotes.leaf_of_origin
        exact absurd (hr.leaves.unique a _ n m _ hn hm hu hmu) (Ne.symm hne)
  | int i | double d => exact hconstant nofun hgiven
  | none | label | str | func => exact harg.elim

end Tracks

end Javalette.Opt
