import Javalette.Opt.Copies
import Mathlib.Data.List.Basic

/-!
# `optimize_local_2` preserves the meaning of a block

A state of the machine gives values to the variables and has a world, which is all that the
quadruples do besides: parameters, calls, writes through pointers, jumps and returns, in their
order and with their operands.  The value of an array, which only `Q_GET_ADDR` may read, is its
address.  Operations have a value for all operands, so the results are about blocks that run
without a fault.

The block that `optimize_local_2` gives back leads from every state to the same state as the
block it got, as long as no quadruple assigns the result of a call that comes before it: a dead
assignment is removed whatever else the quadruple does.
-/

namespace Javalette.Opt

variable {ν β V W : Type}

/-- The argument with the value of its variable. -/
def evalArg (ρ : ν → V) : QuadrArg ν β → QuadrArg V β
  | .none => .none
  | .var v => .var (ρ v)
  | .int i => .int i
  | .double d => .double d
  | .label b => .label b
  | .str s => .str s
  | .func f => .func f

/-- The operators that do nothing but assign a value. -/
def isPure : QuadrOp → Bool
  | .add | .sub | .div | .mul | .mod | .copy | .readPtr | .getAddr => true
  | _ => false

/-- What the operators compute, and what they do to the world. -/
structure Machine (β V W : Type) where
  value : QuadrOp → QuadrArg V β → QuadrArg V β → W → V
  effect : QuadrOp → QuadrArg V β → QuadrArg V β → QuadrArg V β → W → W
  copy : ∀ x b w, value .copy (.var x) b w = x

/-- The variable that the quadruple assigns. -/
def target (q : Quadr ν β) : Option ν :=
  match q.op, q.result with
  | .writePtr, _ => none
  | _, .var v => some v
  | _, _ => none

/-- The result as an operand: the pointer of `Q_WRITE_PTR`, the label of a jump. -/
def evalResult (ρ : ν → V) (q : Quadr ν β) : QuadrArg V β :=
  if (target q).isSome then .none else evalArg ρ q.result

/-- The value that the quadruple computes. -/
def quadrValue (M : Machine β V W) (s : (ν → V) × W) (q : Quadr ν β) : V :=
  M.value q.op (evalArg s.1 q.arg1) (evalArg s.1 q.arg2) s.2

/-- The world after the quadruple. -/
def quadrEffect (M : Machine β V W) (s : (ν → V) × W) (q : Quadr ν β) : W :=
  if isPure q.op then s.2
  else M.effect q.op (evalResult s.1 q) (evalArg s.1 q.arg1) (evalArg s.1 q.arg2) s.2

section Run

variable [DecidableEq ν]

/-- One quadruple. -/
def runQuadr (M : Machine β V W) (s : (ν → V) × W) (q : Quadr ν β) : (ν → V) × W :=
  match target q with
  | none => (s.1, quadrEffect M s q)
  | some v => (Function.update s.1 v (quadrValue M s q), quadrEffect M s q)

/-- A block. -/
def runBlock (M : Machine β V W) (block : List (Quadr ν β)) (s : (ν → V) × W) : (ν → V) × W :=
  block.foldl (runQuadr M) s

/-- The quadruples that are left in a table. -/
def runTable (M : Machine β V W) (t : Table ν β) (s : (ν → V) × W) : (ν → V) × W :=
  runBlock M (quadrs t) s

end Run

/-- The result is of the kind that `quadr.h` describes. -/
def ResultFits (q : Quadr ν β) : Prop :=
  match q.op with
  | .add | .sub | .div | .mul | .mod | .copy | .readPtr | .writePtr | .getAddr =>
      ∃ v, q.result = .var v
  | .call => q.result = .none ∨ ∃ v, q.result = .var v
  | .ifEq | .ifNe | .ifLt | .ifGt | .ifLe | .ifGe | .goto => ∃ b, q.result = .label b
  | .ret | .param | .none => q.result = .none

/-- No quadruple assigns the result of a call that comes before it. -/
def CallsKept [DecidableEq ν] (block : List (Quadr ν β)) : Prop :=
  block.Pairwise fun q q' => q.op = .call → ∀ v, assignedInQuadr q v → ¬ assignedInQuadr q' v

variable [DecidableEq ν] {M : Machine β V W} {s s' : (ν → V) × W} {q q' : Quadr ν β}
  {t : Table ν β}

/-! ## Quadruples -/

lemma assigned_iff {v : ν} : assignedInQuadr q v = true ↔ target q = some v := by
  obtain ⟨op, result, arg1, arg2⟩ := q
  unfold assignedInQuadr target
  cases op <;> cases result <;> simp [QuadrArg.isVar]

/-- Two quadruples whose operands have the same values, in two states. -/
structure SameOperands (s s' : (ν → V) × W) (q q' : Quadr ν β) : Prop where
  op : q'.op = q.op
  result : evalResult s'.1 q' = evalResult s.1 q
  arg1 : evalArg s'.1 q'.arg1 = evalArg s.1 q.arg1
  arg2 : evalArg s'.1 q'.arg2 = evalArg s.1 q.arg2
  world : s'.2 = s.2

omit [DecidableEq ν] in
lemma SameOperands.value (h : SameOperands s s' q q') : quadrValue M s' q' = quadrValue M s q := by
  unfold quadrValue
  rw [h.op, h.arg1, h.arg2, h.world]

omit [DecidableEq ν] in
lemma SameOperands.effect (h : SameOperands s s' q q') :
    quadrEffect M s' q' = quadrEffect M s q := by
  unfold quadrEffect
  rw [h.op, h.result, h.arg1, h.arg2, h.world]

lemma runQuadr_of_target {v : ν} (h : target q = some v) :
    runQuadr M s q = (Function.update s.1 v (quadrValue M s q), quadrEffect M s q) := by
  unfold runQuadr
  rw [h]

lemma runQuadr_of_none (h : target q = none) : runQuadr M s q = (s.1, quadrEffect M s q) := by
  unfold runQuadr
  rw [h]

lemma runQuadr_fst (M : Machine β V W) (s : (ν → V) × W) (q : Quadr ν β) (u : ν) :
    (runQuadr M s q).1 u = if target q = some u then quadrValue M s q else s.1 u := by
  cases h : target q with
  | none => rw [runQuadr_of_none h, if_neg (by simp)]
  | some v =>
      rw [runQuadr_of_target h]
      dsimp only
      rw [Function.update_apply]
      simp only [Option.some.injEq, eq_comm]

lemma runQuadr_snd (M : Machine β V W) (s : (ν → V) × W) (q : Quadr ν β) :
    (runQuadr M s q).2 = quadrEffect M s q := by
  unfold runQuadr
  split <;> rfl

omit [DecidableEq ν] in
lemma evalArg_congr {ρ ρ' : ν → V} {a : QuadrArg ν β} (h : ∀ v, a = .var v → ρ' v = ρ v) :
    evalArg ρ' a = evalArg ρ a := by
  cases a with
  | var v => exact congrArg QuadrArg.var (h v rfl)
  | none | int | double | label | str | func => exact rfl

/-- The operands depend on the variables that are used. -/
lemma sameOperands_of_used (hw : s'.2 = s.2) (h : ∀ v, usedInQuadr q v → s'.1 v = s.1 v) :
    SameOperands s s' q q where
  op := rfl
  result := by
    unfold evalResult
    split
    · rfl
    · next hnone =>
        apply evalArg_congr
        intro v hv
        apply h
        obtain ⟨op, result, arg1, arg2⟩ := q
        dsimp only at hv
        subst hv
        by_cases hop : op = .writePtr
        · simp [usedInQuadr, hop, QuadrArg.isVar]
        · simp [target] at hnone
  arg1 := evalArg_congr fun v hv => h v (by simp [usedInQuadr, hv, QuadrArg.isVar])
  arg2 := evalArg_congr fun v hv => h v (by simp [usedInQuadr, hv, QuadrArg.isVar])
  world := hw

/-- A copy of a variable. -/
lemma runQuadr_copy {var0 var1 : ν} (h : copyOperands q = some (var0, var1)) :
    runQuadr M s q = (Function.update s.1 var0 (s.1 var1), s.2) := by
  obtain ⟨op, result, arg1, arg2⟩ := q
  unfold copyOperands at h
  split at h
  · next hop hresult harg1 =>
      dsimp only at hop hresult harg1
      subst hop hresult harg1
      cases h
      simp [runQuadr, target, quadrValue, quadrEffect, evalArg, isPure, M.copy]
  · cases h

lemma runQuadr_copy_eq {var0 var1 : ν} (h : copyOperands q = some (var0, var1)) :
    (runQuadr M s q).1 var0 = (runQuadr M s q).1 var1 := by
  rw [runQuadr_copy h]
  dsimp only
  rw [Function.update_self, Function.update_apply]
  split <;> rfl

lemma runTable_cons (e : Option (Quadr ν β)) (t : Table ν β) :
    runTable M (e :: t) s = runTable M t (runTable M [e] s) := by
  cases e <;> rfl

lemma runTable_some (q : Quadr ν β) (t : Table ν β) :
    runTable M (some q :: t) s = runTable M t (runQuadr M s q) := rfl

lemma runTable_none (t : Table ν β) : runTable M (none :: t) s = runTable M t s := rfl

lemma runTable_append (t t' : Table ν β) :
    runTable M (t ++ t') s = runTable M t' (runTable M t s) := by
  unfold runTable runBlock quadrs
  rw [List.filterMap_append, List.foldl_append]

/-- **`remove_redundant_copy`** removes what does nothing. -/
lemma runTable_removeRedundantCopy (e : Option (Quadr ν β)) (t : Table ν β) :
    runTable M (removeRedundantCopy e :: t) s = runTable M (e :: t) s := by
  cases e with
  | none => rfl
  | some q =>
      dsimp only [removeRedundantCopy]
      split
      · next var0 var1 hcopy =>
          split
          · next heq =>
              rw [runTable_some, runQuadr_copy hcopy, heq, Function.update_eq_self]
              rfl
          · rfl
      · rfl

/-! ## Dead assignments -/

/-- A variable that is assigned before it is used may have any value. -/
lemma runTable_of_reassigned {v : ν} (h : reassigned v t) (hw : s'.2 = s.2)
    (hne : ∀ u, u ≠ v → s'.1 u = s.1 u) : runTable M t s' = runTable M t s := by
  induction t generalizing s s' with
  | nil => cases h
  | cons e t ih =>
      cases e with
      | none => exact ih h hw hne
      | some q =>
          unfold reassigned at h
          split at h
          · cases h
          next hused =>
          -- until `v` is assigned again nothing reads it
          have hsame : SameOperands s s' q q := by
            apply sameOperands_of_used hw
            rintro u hu
            apply hne
            rintro rfl
            exact hused hu
          rw [runTable_some, runTable_some]
          split at h
          · next hassigned =>
              have hequal : runQuadr M s' q = runQuadr M s q := by
                refine Prod.ext (funext fun u => ?_) ?_
                · rw [runQuadr_fst, runQuadr_fst, hsame.value, assigned_iff.mp hassigned]
                  split
                  · rfl
                  · next hu => exact hne u fun huv => hu (congrArg some huv.symm)
                · rw [runQuadr_snd, runQuadr_snd, hsame.effect]
              rw [hequal]
          · next hassigned =>
              apply ih h
              · rw [runQuadr_snd, runQuadr_snd, hsame.effect]
              · intro u hu
                rw [runQuadr_fst, runQuadr_fst, hsame.value, hne u hu]

omit [DecidableEq ν] in
/-- A quadruple that assigns a variable is a call or does nothing else. -/
lemma isPure_or_call {v : ν} (hq : ResultFits q) (h : target q = some v) :
    isPure q.op ∨ q.op = .call := by
  obtain ⟨op, result, arg1, arg2⟩ := q
  cases op with
  | add | sub | div | mul | mod | copy | readPtr | getAddr => exact .inl rfl
  | call => exact .inr rfl
  | writePtr => cases h
  | ret | param | none =>
      cases show result = .none from hq
      cases h
  | ifEq | ifNe | ifLt | ifGt | ifLe | ifGe | goto =>
      obtain ⟨b, hb⟩ := hq
      cases show result = .label b from hb
      cases h

lemma reassigned_mem {v : ν} (h : reassigned v t) : ∃ q ∈ quadrs t, assignedInQuadr q v := by
  induction t with
  | nil => cases h
  | cons e t ih =>
      cases e with
      | none => exact ih h
      | some q =>
          unfold reassigned at h
          split at h
          · cases h
          split at h
          · next hassigned => exact ⟨q, List.mem_cons_self, hassigned⟩
          · obtain ⟨q', hq', hv⟩ := ih h
            exact ⟨q', List.mem_cons_of_mem q hq', hv⟩

lemma runTable_of_isDead (hq : ResultFits q) (hcalls : CallsKept (q :: quadrs t))
    (h : isDead q t) : runTable M t (runQuadr M s q) = runTable M t s := by
  unfold isDead at h
  split at h
  · next v _ =>
      rw [Bool.and_eq_true] at h
      have htarget := assigned_iff.mp h.1
      have hpure : isPure q.op := by
        apply (isPure_or_call hq htarget).resolve_right
        intro hcall
        obtain ⟨q', hq', hv⟩ := reassigned_mem h.2
        exact (List.pairwise_cons.mp hcalls).1 q' hq' hcall v h.1 hv
      rw [runQuadr_of_target htarget]
      apply runTable_of_reassigned h.2
      · exact if_pos hpure
      · intro u hu
        exact Function.update_of_ne hu _ _
  · cases h

/-- One sweep. -/
lemma runTable_sweepDead (hfits : ∀ q ∈ quadrs t, ResultFits q) (hcalls : CallsKept (quadrs t))
    (s : (ν → V) × W) : runTable M (sweepDead t).1 s = runTable M t s := by
  induction t generalizing s with
  | nil => rfl
  | cons e t ih =>
      cases e with
      | none => exact ih hfits hcalls s
      | some q =>
          have hfits' : ∀ q' ∈ quadrs t, ResultFits q' := fun q' hq' =>
            hfits q' (List.mem_cons_of_mem q hq')
          have hcalls' : CallsKept (quadrs t) := (List.pairwise_cons.mp hcalls).2
          unfold sweepDead
          split
          · next hdead =>
              rw [runTable_none, ih hfits' hcalls', runTable_some]
              exact (runTable_of_isDead (hfits q List.mem_cons_self) hcalls hdead).symm
          · rw [runTable_some, runTable_some]
            exact ih hfits' hcalls' _

/-- **`remove_dead_assignments`**. -/
theorem runTable_removeDeadAssignments (hfits : ∀ q ∈ quadrs t, ResultFits q)
    (hcalls : CallsKept (quadrs t)) (s : (ν → V) × W) :
    runTable M (removeDeadAssignments t) s = runTable M t s := by
  fun_induction removeDeadAssignments t with
  | case1 t h ih =>
      have hsub := sweepDead_sublist t
      rw [ih (fun q hq => hfits q (hsub.subset hq)) (List.Pairwise.sublist hsub hcalls),
        runTable_sweepDead hfits hcalls]
  | case2 t h => exact runTable_sweepDead hfits hcalls s

/-! ## Forward propagation -/

lemma evalArg_replaceVar (ρ : ν → V) (v w : ν) (a : QuadrArg ν β) :
    evalArg ρ (replaceVar v w a) = evalArg (fun u => ρ (if u = v then w else u)) a := by
  cases a <;> rfl

/-- The exchange of variables that have the same value. -/
lemma evalArg_replaceVar_of_eq {ρ : ν → V} {v w : ν} (h : ρ v = ρ w) (a : QuadrArg ν β) :
    evalArg ρ (replaceVar v w a) = evalArg ρ a := by
  rw [evalArg_replaceVar]
  apply evalArg_congr
  intro u _
  split
  · next hu => rw [hu, h]
  · rfl

lemma target_replaceResult (v w : ν) (q : Quadr ν β) :
    target (replaceResult v w q) = (target q).map fun u => if u = v then w else u := by
  obtain ⟨op, result, arg1, arg2⟩ := q
  cases op <;> cases result <;> rfl

lemma sameOperands_replaceArgs {v w : ν} (h : s.1 v = s.1 w) (q : Quadr ν β) :
    SameOperands s s q (replaceArgs v w q) where
  op := rfl
  result := rfl
  arg1 := evalArg_replaceVar_of_eq h q.arg1
  arg2 := evalArg_replaceVar_of_eq h q.arg2
  world := rfl

lemma sameOperands_replaceResult {v w : ν} (h : s.1 v = s.1 w) (q : Quadr ν β) :
    SameOperands s s q (replaceResult v w q) where
  op := rfl
  result := by
    unfold evalResult
    rw [target_replaceResult, Option.isSome_map]
    split
    · rfl
    · exact evalArg_replaceVar_of_eq h q.result
  arg1 := rfl
  arg2 := rfl
  world := rfl

lemma runQuadr_replaceArgs {v w : ν} (h : s.1 v = s.1 w) (q : Quadr ν β) :
    runQuadr M s (replaceArgs v w q) = runQuadr M s q := by
  have hsame := sameOperands_replaceArgs h q
  refine Prod.ext (funext fun u => ?_) ?_
  · rw [runQuadr_fst, runQuadr_fst, hsame.value]
    rfl
  · rw [runQuadr_snd, runQuadr_snd, hsame.effect]

lemma quadrValue_of_copiesEither {var0 var1 : ν} (heq : s.1 var0 = s.1 var1)
    (h : copiesEither var0 var1 q) : quadrValue M s q = s.1 var0 := by
  simp only [copiesEither, Bool.and_eq_true, decide_eq_true_eq, Bool.or_eq_true,
    QuadrArg.isVar_iff] at h
  obtain ⟨hop, harg | harg⟩ := h
  · rw [quadrValue, hop, harg, evalArg, M.copy, heq]
  · rw [quadrValue, hop, harg, evalArg, M.copy]

/-- A quadruple that assigns one of two equal variables the value of the other: the one may be
exchanged for the other, and they stay equal. -/
lemma runQuadr_replaceResult {var0 var1 : ν} (heq : s.1 var0 = s.1 var1)
    (h : ∀ v, target q = some v → v = var0 ∨ v = var1 → quadrValue M s q = s.1 v) :
    runQuadr M s (replaceResult var0 var1 q) = runQuadr M s q ∧
      (runQuadr M s q).1 var0 = (runQuadr M s q).1 var1 := by
  have hsame := sameOperands_replaceResult heq q
  constructor
  · refine Prod.ext (funext fun u => ?_) ?_
    · simp only [runQuadr_fst, hsame.value, target_replaceResult]
      cases htarget : target q with
      | none => rfl
      | some v =>
          simp only [Option.map_some, Option.some.injEq]
          by_cases hv : v = var0
          · rw [h v htarget (.inl hv)]
            subst hv
            simp only [if_true]
            split_ifs with h₁ h₀ h₀
            · rfl
            · rw [heq, h₁]
            · rw [h₀]
            · rfl
          · simp only [if_neg hv]
    · rw [runQuadr_snd, runQuadr_snd, hsame.effect]
  · rw [runQuadr_fst, runQuadr_fst]
    split_ifs with h₀ h₁ h₁
    · rfl
    · rw [h var0 h₀ (.inl rfl), heq]
    · rw [h var1 h₁ (.inr rfl), heq]
    · exact heq

/-- **`propagate_forwards`**, when the two variables are equal. -/
theorem runTable_propagateForwards {var0 var1 : ν} (heq : s.1 var0 = s.1 var1) (t : Table ν β) :
    runTable M (propagateForwards var0 var1 t) s = runTable M t s := by
  induction t generalizing s with
  | nil => rfl
  | cons e t ih =>
      cases e with
      | none => exact ih heq
      | some q =>
          have hargs := runQuadr_replaceArgs (M := M) heq q
          unfold propagateForwards
          dsimp only
          split
          · rw [runTable_some, runTable_some, hargs]
          split
          · rw [runTable_some, runTable_some, hargs]
          next h₀ h₁ =>
          have hcopies : ∀ v, target (replaceArgs var0 var1 q) = some v → v = var0 ∨ v = var1 →
              quadrValue M s (replaceArgs var0 var1 q) = s.1 v := by
            rintro v hv (rfl | rfl)
            · apply quadrValue_of_copiesEither heq
              simpa [assigned_iff.mpr hv] using h₀
            · rw [← heq]
              apply quadrValue_of_copiesEither heq
              simpa [assigned_iff.mpr hv] using h₁
          obtain ⟨hrun, hequal⟩ := runQuadr_replaceResult (M := M) heq hcopies
          rw [runTable_removeRedundantCopy, runTable_some, runTable_some, hrun, ih hequal, hargs]

/-- **`copy_propagation`**. -/
theorem runTable_copyPropagation (t : Table ν β) (s : (ν → V) × W) :
    runTable M (copyPropagation t) s = runTable M t s := by
  fun_induction copyPropagation t generalizing s with
  | case1 => rfl
  | case2 e t hnone ih =>
      rw [runTable_none, ih, ← runTable_removeRedundantCopy e, hnone, runTable_none]
  | case3 e t q hq hcopy ih =>
      rw [runTable_some, ih, ← runTable_removeRedundantCopy e, hq, runTable_some]
  | case4 e t q hq var0 var1 hcopy ih =>
      rw [← runTable_removeRedundantCopy e, hq, runTable_some, runTable_some, ih]
      exact runTable_propagateForwards (runQuadr_copy_eq hcopy) _

/-! ## Backward propagation -/

/-- The second state has in `var0` what the first one has in `var1`. -/
structure Exchanged (var0 var1 : ν) (s s' : (ν → V) × W) : Prop where
  world : s'.2 = s.2
  value : s'.1 var0 = s.1 var1
  others : ∀ u, u ≠ var0 → u ≠ var1 → s'.1 u = s.1 u

variable {var0 var1 : ν}

lemma Exchanged.evalArg (h : Exchanged var0 var1 s s') {a : QuadrArg ν β} (ha : a ≠ .var var0) :
    Opt.evalArg s'.1 (replaceVar var1 var0 a) = Opt.evalArg s.1 a := by
  rw [evalArg_replaceVar]
  apply evalArg_congr
  intro u hu
  split
  · next hu₁ => rw [hu₁, h.value]
  · next hu₁ =>
      apply h.others u ?_ hu₁
      rintro rfl
      exact ha hu

/-- The assignment of `var1` assigns `var0` instead. -/
lemma exchanged_of_assigned (s : (ν → V) × W) (h : target q = some var1) :
    Exchanged var0 var1 (runQuadr M s q) (runQuadr M s (replaceResult var1 var0 q)) := by
  have htarget : target (replaceResult var1 var0 q) = some var0 := by
    rw [target_replaceResult, h, Option.map_some, if_pos rfl]
  have hsame : SameOperands s s q (replaceResult var1 var0 q) := by
    refine ⟨rfl, ?_, rfl, rfl, rfl⟩
    rw [evalResult, evalResult, htarget, h]
    rfl
  constructor
  · rw [runQuadr_snd, runQuadr_snd, hsame.effect]
  · rw [runQuadr_fst, runQuadr_fst, if_pos htarget, if_pos h, hsame.value]
  · intro u h₀ h₁
    rw [runQuadr_fst, runQuadr_fst, htarget, h, if_neg, if_neg]
    · rintro ⟨⟩
      exact h₁ rfl
    · rintro ⟨⟩
      exact h₀ rfl

/-- A quadruple between the assignment of `var1` and the copy uses `var0` instead of `var1`. -/
lemma Exchanged.runQuadr (h : Exchanged var0 var1 s s') (h₁ : target q ≠ some var1)
    (h₀ : target q ≠ some var0) (hused : usedInQuadr q var0 = false) :
    Exchanged var0 var1 (runQuadr M s q)
      (runQuadr M s' (replaceArgs var1 var0 (replaceResult var1 var0 q))) := by
  set q' := replaceArgs var1 var0 (replaceResult var1 var0 q) with hq'
  have htarget : target q' = target q := by
    change target (replaceResult var1 var0 q) = _
    rw [target_replaceResult]
    cases ht : target q with
    | none => rfl
    | some v => rw [Option.map_some, if_neg fun hv => h₁ (ht.trans (congrArg some hv))]
  have hargs : q.arg1 ≠ .var var0 ∧ q.arg2 ≠ .var var0 ∧
      (q.op = .writePtr → q.result ≠ .var var0) := by
    refine ⟨fun heq => ?_, fun heq => ?_, fun hop heq => ?_⟩
    · simp [usedInQuadr, heq, QuadrArg.isVar] at hused
    · simp [usedInQuadr, heq, QuadrArg.isVar] at hused
    · simp [usedInQuadr, hop, heq, QuadrArg.isVar] at hused
  -- no operand is `var0`, and those that are `var1` now read `var0`
  have hsame : SameOperands s s' q q' := by
    refine ⟨rfl, ?_, h.evalArg hargs.1, h.evalArg hargs.2.1, h.world⟩
    unfold evalResult
    rw [htarget]
    split
    · rfl
    · next hnone =>
        apply h.evalArg
        intro hres
        apply hargs.2.2 ?_ hres
        obtain ⟨op, result, arg1, arg2⟩ := q
        dsimp only at hres
        subst hres
        by_contra hop
        simp [target] at hnone
  constructor
  · rw [runQuadr_snd, runQuadr_snd, hsame.effect]
  · rw [runQuadr_fst, runQuadr_fst, htarget, if_neg h₀, if_neg h₁, h.value]
  · intro u hu₀ hu₁
    rw [runQuadr_fst, runQuadr_fst, htarget, hsame.value, h.others u hu₀ hu₁]

/-- **`propagate_backwards`** from a point where `can_backpropagate` holds. -/
theorem exchanged_propagateBackwards (h : canBackpropagate var0 var1 t) (s : (ν → V) × W) :
    Exchanged var0 var1 (runTable M t.reverse s)
      (runTable M (propagateBackwards var0 var1 t).reverse s) := by
  induction t with
  | nil => cases h
  | cons e t ih =>
      cases e with
      | none =>
          unfold propagateBackwards
          rw [List.reverse_cons, List.reverse_cons, runTable_append, runTable_append]
          exact ih h
      | some q =>
          unfold canBackpropagate at h
          unfold propagateBackwards
          dsimp only
          split at h
          · next hassigned =>
              -- the last assignment to the copied variable is reached, and its target is replaced
              have htarget := assigned_iff.mp hassigned
              rw [if_pos, List.reverse_cons, List.reverse_cons, runTable_append, runTable_append]
              · exact exchanged_of_assigned _ htarget
              · rw [assigned_iff, target_replaceResult, htarget, Option.map_some, if_pos rfl]
          next hassigned =>
          split at h
          · cases h
          next hfree =>
          simp only [Bool.or_eq_true, not_or, Bool.not_eq_true] at hfree
          -- the quadruple neither uses `var0` nor assigns either of the two
          have h₁ : target q ≠ some var1 := fun ht => hassigned (assigned_iff.mpr ht)
          have h₀ : target q ≠ some var0 := by
            intro ht
            rw [assigned_iff.mpr ht] at hfree
            exact Bool.true_eq_false.mp hfree.2
          rw [if_neg, List.reverse_cons, List.reverse_cons, runTable_append, runTable_append,
            runTable_removeRedundantCopy]
          · exact (ih h).runQuadr h₁ h₀ hfree.1
          · rw [assigned_iff, target_replaceResult]
            cases ht : target q with
            | none => simp
            | some v =>
                rw [Option.map_some, if_neg fun hv => h₁ (ht.trans (congrArg some hv)), ← ht]
                exact h₀

/-- The copy turned round. -/
lemma Exchanged.copy (h : Exchanged var0 var1 s s') (hq : copyOperands q = some (var0, var1)) :
    Opt.runQuadr M s' { q with result := .var var1, arg1 := .var var0 } = Opt.runQuadr M s q := by
  have hop : q.op = .copy := by
    unfold copyOperands at hq
    split at hq
    · assumption
    · cases hq
  have hq' : copyOperands { q with result := .var var1, arg1 := .var var0 } =
      some (var1, var0) := by
    unfold copyOperands
    rw [hop]
  rw [runQuadr_copy hq, runQuadr_copy hq']
  refine Prod.ext (funext fun u => ?_) h.world
  dsimp only
  rw [Function.update_apply, Function.update_apply, h.value]
  split_ifs with h₁ h₀ h₀
  · rfl
  · rw [h₁]
  · rw [h₀, h.value]
  · exact h.others u h₀ h₁

/-- **`copy_backpropagation`**. -/
theorem runTable_copyBackpropagation (below t : Table ν β) (s : (ν → V) × W) :
    runTable M (copyBackpropagation below t) s = runTable M (below.reverse ++ t) s := by
  have hcons : ∀ (e : Option (Quadr ν β)) (below t : Table ν β),
      runTable M ((e :: below).reverse ++ t) s =
        runTable M (below.reverse ++ removeRedundantCopy e :: t) s := by
    intro e below t
    rw [List.reverse_cons, List.append_assoc, List.singleton_append, runTable_append,
      runTable_append, runTable_removeRedundantCopy]
  fun_induction copyBackpropagation below t with
  | case1 t => rfl
  | case2 t e below hnone ih => rw [ih, hcons, hnone]
  | case3 t e below q hq hcopy ih => rw [ih, hcons, hq]
  | case4 t e below q hq var0 var1 hcopy hcan ih =>
      rw [ih, hcons, hq, runTable_append, runTable_append, runTable_some, runTable_some,
        (exchanged_propagateBackwards hcan s).copy hcopy]
      apply runTable_propagateForwards
      exact (runQuadr_copy_eq hcopy).symm
  | case5 t e below q hq var0 var1 hcopy hcan ih => rw [ih, hcons, hq]

/-! ## The pass -/

lemma runTable_removeRedundantCopies (t : Table ν β) (s : (ν → V) × W) :
    runTable M (removeRedundantCopies t) s = runTable M t s := by
  induction t generalizing s with
  | nil => rfl
  | cons e t ih =>
      change runTable M (removeRedundantCopy e :: removeRedundantCopies t) s = _
      rw [runTable_removeRedundantCopy, runTable_cons, ih, ← runTable_cons]

lemma removeRedundantCopies_sublist (t : Table ν β) :
    (quadrs (removeRedundantCopies t)).Sublist (quadrs t) := by
  induction t with
  | nil => exact List.Sublist.slnil
  | cons e t ih =>
      cases e with
      | none => exact ih
      | some q =>
          change (quadrs (removeRedundantCopy (some q) :: removeRedundantCopies t)).Sublist _
          dsimp only [removeRedundantCopy]
          split
          · split
            · exact ih.cons q
            · exact ih.cons_cons q
          · exact ih.cons_cons q

omit [DecidableEq ν] in
lemma quadrs_map_some (block : List (Quadr ν β)) : quadrs (block.map some) = block := by
  simp [quadrs, List.filterMap_map]

/-- **`optimize_local_2`.**  The block that it gives back does the same to the variables and to
the world, from every state. -/
theorem optimizeLocal2_runs (M : Machine β V W) (block : List (Quadr ν β))
    (hfits : ∀ q ∈ block, ResultFits q) (hcalls : CallsKept block) (s : (ν → V) × W) :
    runBlock M (optimizeLocal2 block) s = runBlock M block s := by
  have hsub := removeRedundantCopies_sublist (block.map some)
  rw [quadrs_map_some] at hsub
  change runTable M (copyPropagation (copyBackpropagation
    (removeDeadAssignments (removeRedundantCopies (block.map some))).reverse [])) s = _
  rw [runTable_copyPropagation, runTable_copyBackpropagation, List.reverse_reverse,
    List.append_nil, runTable_removeDeadAssignments (fun q hq => hfits q (hsub.subset hq))
      (List.Pairwise.sublist hsub hcalls), runTable_removeRedundantCopies]
  unfold runTable
  rw [quadrs_map_some]

/-- The machine that records the operands of what it does, where a call returns the length of the
record. -/
def recorder : Machine ℕ ℕ (List (QuadrOp × QuadrArg ℕ ℕ × QuadrArg ℕ ℕ)) where
  value
    | .call, _, _, w => w.length
    | _, .var x, _, _ => x
    | _, _, _, _ => 0
  effect op _ arg1 arg2 w := (op, arg1, arg2) :: w
  copy _ _ _ := rfl

/-- The result of a call is copied twice and then passed on. -/
def callBlock : List (Quadr ℕ ℕ) :=
  [⟨.call, .var 0, .func 0, .none⟩, ⟨.copy, .var 1, .var 0, .none⟩,
    ⟨.copy, .var 2, .var 1, .none⟩, ⟨.param, .none, .var 2, .none⟩]

/-- The call assigns the variable that is passed on. -/
theorem optimizeLocal2_runs_callBlock :
    optimizeLocal2 callBlock =
      [⟨.call, .var 2, .func 0, .none⟩, ⟨.copy, .var 0, .var 2, .none⟩,
        ⟨.copy, .var 1, .var 2, .none⟩, ⟨.param, .none, .var 2, .none⟩] ∧
    runBlock recorder (optimizeLocal2 callBlock) (fun _ => 0, []) =
      runBlock recorder callBlock (fun _ => 0, []) := by
  refine ⟨by decide +kernel, optimizeLocal2_runs recorder callBlock ?_ ?_ (fun _ => 0, [])⟩
  · intro q hq
    simp only [callBlock, List.mem_cons, List.not_mem_nil, or_false] at hq
    rcases hq with rfl | rfl | rfl | rfl
    · exact .inr ⟨0, rfl⟩
    · exact ⟨1, rfl⟩
    · exact ⟨2, rfl⟩
    · exact rfl
  · simp [CallsKept, callBlock, assignedInQuadr, QuadrArg.isVar]

end Javalette.Opt
