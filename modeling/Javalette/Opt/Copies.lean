import Javalette.Quadr.Syntax
import Mathlib.Data.Nat.Notation
import Mathlib.Logic.Function.Basic

/-!
# `opt.cpp`: the copies of a basic block

`optimize_local_2` puts the quadruples of a block into a table, removes copies of a variable to
itself and assignments that are overwritten before they are used, and propagates copies, first
backwards to the assignment of the copied variable and then forwards.  A quadruple that has been
freed is `none` in the table.

The loops that start at an index and go up the table are recursions over the part of the table
from there on, those that go down are recursions over the part below, in reverse order.
-/

namespace Javalette.Opt

variable {ν β : Type} [DecidableEq ν]

/-- `qtab`. -/
abbrev Table (ν β : Type) := List (Option (Quadr ν β))

/-- The variables of a copy from variable to variable: `var0` and `var1`. -/
def copyOperands (q : Quadr ν β) : Option (ν × ν) :=
  match q.op, q.result, q.arg1 with
  | .copy, .var var0, .var var1 => some (var0, var1)
  | _, _, _ => none

/-- `remove_redundant_copy`. -/
def removeRedundantCopy : Option (Quadr ν β) → Option (Quadr ν β)
  | none => none
  | some q =>
      match copyOperands q with
      | some (var0, var1) => if var0 = var1 then none else some q
      | none => some q

/-- `remove_redundant_copies`. -/
def removeRedundantCopies (t : Table ν β) : Table ν β := t.map removeRedundantCopy

/-! ## Dead assignments -/

/-- The loop over `j` of `remove_dead_assignments`: the variable is assigned before it is used. -/
def reassigned (v : ν) : Table ν β → Bool
  | [] => false
  | none :: t => reassigned v t
  | some q :: t =>
      if usedInQuadr q v then false
      else if assignedInQuadr q v then true
      else reassigned v t

/-- The quadruple assigns a variable that the rest `t` of the table assigns before it uses it. -/
def isDead (q : Quadr ν β) (t : Table ν β) : Bool :=
  match q.result with
  | .var v => assignedInQuadr q v && reassigned v t
  | _ => false

/-- The loop over `i` of `remove_dead_assignments`: the table, and `changed`. -/
def sweepDead : Table ν β → Table ν β × Bool
  | [] => ([], false)
  | none :: t => (none :: (sweepDead t).1, (sweepDead t).2)
  | some q :: t =>
      if isDead q t then (none :: (sweepDead t).1, true)
      else (some q :: (sweepDead t).1, (sweepDead t).2)

/-- The quadruples of the table. -/
def quadrs (t : Table ν β) : List (Quadr ν β) := t.filterMap id

omit [DecidableEq ν] in
@[simp] lemma quadrs_nil : quadrs ([] : Table ν β) = [] := rfl

omit [DecidableEq ν] in
@[simp] lemma quadrs_none (t : Table ν β) : quadrs (none :: t) = quadrs t := rfl

omit [DecidableEq ν] in
@[simp] lemma quadrs_some (q : Quadr ν β) (t : Table ν β) :
    quadrs (some q :: t) = q :: quadrs t := rfl

/-- A sweep only removes quadruples. -/
lemma sweepDead_sublist (t : Table ν β) : (quadrs (sweepDead t).1).Sublist (quadrs t) := by
  induction t with
  | nil => exact List.Sublist.slnil
  | cons e t ih =>
      cases e with
      | none => exact ih
      | some q =>
          unfold sweepDead
          split
          · exact ih.cons q
          · exact ih.cons_cons q

/-- A sweep that has changed the table has removed a quadruple. -/
lemma sweepDead_length (t : Table ν β) (h : (sweepDead t).2) :
    (quadrs (sweepDead t).1).length < (quadrs t).length := by
  induction t with
  | nil => cases h
  | cons e t ih =>
      cases e with
      | none => exact ih h
      | some q =>
          unfold sweepDead at h ⊢
          split
          · exact Nat.lt_succ_of_le (sweepDead_sublist t).length_le
          · next hdead =>
              rw [if_neg hdead] at h
              exact Nat.succ_lt_succ (ih h)

/-- `remove_dead_assignments`. -/
def removeDeadAssignments (t : Table ν β) : Table ν β :=
  if _ : (sweepDead t).2 then removeDeadAssignments (sweepDead t).1 else (sweepDead t).1
termination_by (quadrs t).length
decreasing_by exact sweepDead_length t ‹_›

/-! ## Propagation -/

/-- The variable `v` is exchanged for `w` in an argument. -/
def replaceVar (v w : ν) : QuadrArg ν β → QuadrArg ν β
  | .var u => .var (if u = v then w else u)
  | a => a

/-- The variable `v` is exchanged for `w` in `arg1` and `arg2`. -/
def replaceArgs (v w : ν) (q : Quadr ν β) : Quadr ν β :=
  { q with arg1 := replaceVar v w q.arg1, arg2 := replaceVar v w q.arg2 }

/-- The variable `v` is exchanged for `w` in the result. -/
def replaceResult (v w : ν) (q : Quadr ν β) : Quadr ν β :=
  { q with result := replaceVar v w q.result }

/-- `can_backpropagate`; the table is the part below the index, the last entry first. -/
def canBackpropagate (var0 var1 : ν) : Table ν β → Bool
  | [] => false
  | none :: t => canBackpropagate var0 var1 t
  | some q :: t =>
      if assignedInQuadr q var1 then true
      else if usedInQuadr q var0 || assignedInQuadr q var0 then false
      else canBackpropagate var0 var1 t

/-- `propagate_backwards`; the table is the part below the index, the last entry first. -/
def propagateBackwards (var0 var1 : ν) : Table ν β → Table ν β
  | [] => []
  | none :: t => none :: propagateBackwards var0 var1 t
  | some q :: t =>
      let q := replaceResult var1 var0 q
      if assignedInQuadr q var0 then some q :: t
      else removeRedundantCopy (some (replaceArgs var1 var0 q)) :: propagateBackwards var0 var1 t

/-- The quadruple copies `var0` or `var1`. -/
def copiesEither (var0 var1 : ν) (q : Quadr ν β) : Bool :=
  q.op = .copy && (q.arg1.isVar var1 || q.arg1.isVar var0)

/-- `propagate_forwards`. -/
def propagateForwards (var0 var1 : ν) : Table ν β → Table ν β
  | [] => []
  | none :: t => none :: propagateForwards var0 var1 t
  | some q :: t =>
      let q := replaceArgs var0 var1 q
      if assignedInQuadr q var0 && !copiesEither var0 var1 q then some q :: t
      else if assignedInQuadr q var1 && !copiesEither var0 var1 q then some q :: t
      else removeRedundantCopy (some (replaceResult var0 var1 q)) :: propagateForwards var0 var1 t

@[simp] lemma propagateBackwards_length (var0 var1 : ν) (t : Table ν β) :
    (propagateBackwards var0 var1 t).length = t.length := by
  fun_induction propagateBackwards var0 var1 t <;> simp_all

@[simp] lemma propagateForwards_length (var0 var1 : ν) (t : Table ν β) :
    (propagateForwards var0 var1 t).length = t.length := by
  fun_induction propagateForwards var0 var1 t <;> simp_all

/-- `copy_backpropagation`: the part of the table below the index, the last entry first, and the
part from there on. -/
def copyBackpropagation : Table ν β → Table ν β → Table ν β
  | [], t => t
  | e :: below, t =>
      match removeRedundantCopy e with
      | none => copyBackpropagation below (none :: t)
      | some q =>
          match copyOperands q with
          | none => copyBackpropagation below (some q :: t)
          | some (var0, var1) =>
              if canBackpropagate var0 var1 below then
                copyBackpropagation (propagateBackwards var0 var1 below)
                  (some { q with result := .var var1, arg1 := .var var0 } ::
                    propagateForwards var1 var0 t)
              else copyBackpropagation below (some q :: t)
termination_by below => below.length

/-- `copy_propagation`. -/
def copyPropagation : Table ν β → Table ν β
  | [] => []
  | e :: t =>
      match removeRedundantCopy e with
      | none => none :: copyPropagation t
      | some q =>
          match copyOperands q with
          | none => some q :: copyPropagation t
          | some (var0, var1) => some q :: copyPropagation (propagateForwards var0 var1 t)
termination_by t => t.length

/-- `optimize_local_2`. -/
def optimizeLocal2 (block : List (Quadr ν β)) : List (Quadr ν β) :=
  let t := removeDeadAssignments (removeRedundantCopies (block.map some))
  quadrs (copyPropagation (copyBackpropagation t.reverse []))

end Javalette.Opt
