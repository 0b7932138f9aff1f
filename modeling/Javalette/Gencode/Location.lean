import Javalette.Gencode.Stack
import Mathlib.Logic.Function.Basic

/-!
# `gencode.c`: where the variables are

The tables of the code generator: the locations of each variable, the variables in each register,
and the stack, with the functions that only look at them or change them without writing code.  A
location is what `eq_loc` compares; the list `var->loc` adds the two flags to it.

The general-purpose registers and those of the FPU are one table here, `regs` and `fpu_regs` in
one, since most of the code treats them alike.  The double constants come from literals, so that
comparing them and comparing their bits is the same.
-/

namespace Javalette.Gencode

/-- A place in `regs` or in `fpu_regs`, which have `R` and `F` entries. -/
inductive RegName (R F : ℕ)
  | gp (r : Fin R)
  | fpu (r : Fin F)
  deriving DecidableEq, Repr

/-- `LOC_REG` and `LOC_FPU_REG` where they stand for a kind of register. -/
inductive RegTag
  | gp | fpu
  deriving DecidableEq, Repr

/-- The kind of a register. -/
def RegName.tag {R F : ℕ} : RegName R F → RegTag
  | .gp _ => .gp
  | .fpu _ => .fpu

/-- What a location says, without the links and the flags. -/
inductive Loc (R F : ℕ)
  | stack (se : ℕ)
  | reg (r : RegName R F)
  | int (n : BitVec 32)
  | double (d : BitVec 64)
  deriving DecidableEq, Repr

namespace Loc

variable {R F : ℕ}

/-- `loc->tag == LOC_STACK`. -/
def isStack : Loc R F → Bool
  | .stack _ => true
  | .reg _ => false
  | .int _ => false
  | .double _ => false

/-- `loc_is_reg`. -/
def isReg : Loc R F → Bool
  | .stack _ => false
  | .reg _ => true
  | .int _ => false
  | .double _ => false

/-- `loc_is_const`. -/
def isConst : Loc R F → Bool
  | .stack _ => false
  | .reg _ => false
  | .int _ => true
  | .double _ => true

/-- Whether the tag of a location is the given one. -/
def hasTag (tag : RegTag) : Loc R F → Bool
  | .stack _ => false
  | .reg r => r.tag = tag
  | .int _ => false
  | .double _ => false

end Loc

/-- An entry of the list `var->loc`. -/
structure LocNode (R F : ℕ) where
  loc : Loc R F
  permanent : Bool
  dirty : Bool
  deriving DecidableEq, Repr

/-- An entry as `init_loc` makes it. -/
def LocNode.fresh {R F : ℕ} (l : Loc R F) : LocNode R F :=
  ⟨l, false, false⟩

/-- `var_type_t`. -/
inductive VarType
  | int | double | ptr | array
  deriving DecidableEq, Repr

/-- What the generator asks of a variable and does not change: its type, its size, and, for the
current quadruple, `used_in_quadr` and `nearest_use_distance`. -/
structure Vars (ν : Type) where
  qtype : ν → VarType
  size : ν → ℤ
  used : ν → Bool
  nearestUse : ν → ℤ

/-- `reg_type`. -/
def Vars.regType {ν : Type} (V : Vars ν) (v : ν) : RegTag :=
  if V.qtype v = .double then .fpu else .gp

/-- The globals of `gencode.c`, the code written so far, and the static variables of the
backend. -/
structure State (ν ι σ : Type) (R F : ℕ) where
  loc : ν → List (LocNode R F)
  live : ν → Bool
  regs : RegName R F → List ν
  deny : RegName R F → Bool
  stack : Stack ν
  code : List ι
  own : σ

/-- `regs` or `fpu_regs` from the first register to the last. -/
def regNames (R F : ℕ) : RegTag → List (RegName R F)
  | .gp => (List.finRange R).map .gp
  | .fpu => (List.finRange F).map .fpu

@[simp] lemma mem_regNames {R F : ℕ} {tag : RegTag} {r : RegName R F} :
    r ∈ regNames R F tag ↔ r.tag = tag := by
  cases r <;> cases tag <;> simp [regNames, RegName.tag]

/-- `LOC_ERASE`: permanent locations stay and become dirty. -/
def locErase {R F : ℕ} (l : Loc R F) : List (LocNode R F) → List (LocNode R F)
  | [] => []
  | n :: ns =>
      if n.loc = l then
        if n.permanent then { n with dirty := true } :: locErase l ns else locErase l ns
      else n :: locErase l ns

/-- `vl_erase`, which asserts that the list is not empty. -/
def vlErase {ν : Type} [B : Build] [DecidableEq ν] (vl : List ν) (v : ν) : Option (List ν) :=
  if B.ndebug = false ∧ vl = [] then none else some (vl.erase v)

/-- The entry that `find_loc` finds ceases to be dirty. -/
def cleanLoc {R F : ℕ} (l : Loc R F) : List (LocNode R F) → List (LocNode R F)
  | [] => []
  | n :: ns => if n.loc = l then { n with dirty := false } :: ns else n :: cleanLoc l ns

/-- The next register to the left, round the FPU. -/
def rolReg {F : ℕ} (i : Fin F) : Fin F :=
  ⟨(i.val + (F - 1)) % F, Nat.mod_lt _ (Nat.zero_lt_of_lt i.isLt)⟩

/-- The next register to the right, round the FPU. -/
def rorReg {F : ℕ} (i : Fin F) : Fin F :=
  ⟨(i.val + 1) % F, Nat.mod_lt _ (Nat.zero_lt_of_lt i.isLt)⟩

/-- A location after the registers of the FPU have been renamed. -/
def Loc.mapFpu {R F : ℕ} (f : Fin F → Fin F) : Loc R F → Loc R F
  | .stack se => .stack se
  | .reg (.gp r) => .reg (.gp r)
  | .reg (.fpu i) => .reg (.fpu (f i))
  | .int n => .int n
  | .double d => .double d

namespace State

variable {ν ι σ : Type} {R F : ℕ}

/-- `writeln`. -/
def emit (s : State ν ι σ R F) (is : List ι) : State ν ι σ R F :=
  { s with code := s.code ++ is }

/-! ## Queries -/

/-- The variables the tables list for a location. -/
def varsAt (s : State ν ι σ R F) : Loc R F → List ν
  | .stack se => ((s.stack.elem? se).map (·.vars)).getD []
  | .reg r => s.regs r
  | .int _ => []
  | .double _ => []

/-- `loc_num`. -/
def locNum (s : State ν ι σ R F) (v : ν) : ℕ :=
  (s.loc v).countP fun n => !n.dirty

/-- `ref_num`. -/
def refNum (s : State ν ι σ R F) (l : Loc R F) : ℕ :=
  if l.isConst then 1 else (s.varsAt l).countP fun v => s.locNum v = 1

/-- `var_loc_count_tags` for a kind of register. -/
def countTags (s : State ν ι σ R F) (tag : RegTag) (v : ν) : ℕ :=
  (s.loc v).countP fun n => n.loc.hasTag tag

/-- `loc_is_allowed`. -/
def isAllowed (s : State ν ι σ R F) : Loc R F → Bool
  | .stack _ => true
  | .reg r => !s.deny r
  | .int _ => true
  | .double _ => true

/-- `available_regs_num`. -/
def available (s : State ν ι σ R F) (tag : RegTag) : ℕ :=
  (regNames R F tag).countP fun r => (s.regs r).isEmpty && !s.deny r

/-- `std_find_best_src_loc`. -/
def bestSrc (s : State ν ι σ R F) (v : ν) : Option (Loc R F) :=
  let find (p : LocNode R F → Bool) := (s.loc v).find? p
  ((find fun n => !n.dirty && n.loc.isReg).or
    ((find fun n => !n.dirty && n.loc.isConst).or
      ((find fun n => n.permanent && !n.dirty).or (s.loc v).head?))).map (·.loc)

/-- `std_find_best_dest_loc`. -/
def bestDest (s : State ν ι σ R F) (v : ν) : Option (Loc R F) :=
  let find (p : LocNode R F → Bool) := (s.loc v).find? p
  ((find fun n => n.permanent && n.loc.isReg).or
    ((find fun n => n.loc.isReg).or
      ((find fun n => n.permanent).or (s.loc v).head?))).map (·.loc)

/-- `should_save_var`: the variable is live and has no other valid location that is allowed. -/
def shouldSave (s : State ν ι σ R F) (v : ν) (l : Loc R F) : Bool :=
  s.live v && !(s.loc v).any fun n => !n.dirty && n.loc ≠ l && s.isAllowed n.loc

/-! ## Changes of the tables -/

section Update

variable [DecidableEq ν]

/-- Assign to `var->loc`. -/
def setLoc (s : State ν ι σ R F) (v : ν) (ns : List (LocNode R F)) : State ν ι σ R F :=
  { s with loc := Function.update s.loc v ns }

/-- Assign to `var->live`. -/
def setLive (s : State ν ι σ R F) (v : ν) (b : Bool) : State ν ι σ R F :=
  { s with live := Function.update s.live v b }

/-- Assign to an entry of `regs` or `fpu_regs`. -/
def setRegs (s : State ν ι σ R F) (r : RegName R F) (vl : List ν) : State ν ι σ R F :=
  { s with regs := Function.update s.regs r vl }

/-- `deny_reg` and `allow_reg`. -/
def setDeny (s : State ν ι σ R F) (r : RegName R F) (b : Bool) : State ν ι σ R F :=
  { s with deny := Function.update s.deny r b }

/-- `deny_all` and `allow_all`. -/
def setDenyAll (s : State ν ι σ R F) (tag : RegTag) (b : Bool) : State ν ι σ R F :=
  { s with deny := fun r => if r.tag = tag then b else s.deny r }

/-- `loc_erase_reg`, `loc_erase_fpu_reg` and `loc_erase_stack`. -/
def eraseLoc (s : State ν ι σ R F) (v : ν) (l : Loc R F) : State ν ι σ R F :=
  s.setLoc v (locErase l (s.loc v))

/-- The variable leaves the list of a location; its own list does not change. -/
def leave [Build] (s : State ν ι σ R F) (v : ν) : Loc R F → Option (State ν ι σ R F)
  | .stack se => (s.stack.erase se v).map fun stack => { s with stack := stack }
  | .reg r => (vlErase (s.regs r) v).map fun vl => s.setRegs r vl
  | .int _ => some s
  | .double _ => some s

/-- The variable enters the list of a location: the new state, and whether it was not there
before. -/
def enter [Build] (V : Vars ν) (s : State ν ι σ R F) (v : ν) :
    Loc R F → Option (State ν ι σ R F × Bool)
  | .stack se => (s.stack.insert se v (V.size v)).map fun p => ({ s with stack := p.1 }, p.2)
  | .reg r =>
      if v ∈ s.regs r then some (s, false) else some (s.setRegs r (v :: s.regs r), true)
  | .int _ => some (s, true)
  | .double _ => some (s, true)

/-- `update_var_loc` for a location that is not permanent. -/
def updateVarLoc [Build] (V : Vars ν) (s : State ν ι σ R F) (v : ν) (l : Loc R F) :
    Option (State ν ι σ R F) :=
  (s.enter V v l).map fun p =>
    if p.2 then
      if (s.loc v).any fun n => n.loc = l then p.1.setLoc v (cleanLoc l (s.loc v))
      else p.1.setLoc v (.fresh l :: s.loc v)
    else p.1

/-- The loop of `rol_fpu_regs` and `ror_fpu_regs`: the lists move, and with them the locations of
every variable in one of them. -/
def rotateFpu (s : State ν ι σ R F) (dst src : Fin F → Fin F) : State ν ι σ R F :=
  { s with
    regs := fun r => match r with
      | .gp r => s.regs (.gp r)
      | .fpu i => s.regs (.fpu (src i))
    loc := fun v =>
      if (List.finRange F).any fun i => v ∈ s.regs (.fpu i) then
        (s.loc v).map fun n => { n with loc := n.loc.mapFpu dst }
      else s.loc v }

/-- `rol_fpu_regs`. -/
def rolFpuRegs (s : State ν ι σ R F) : State ν ι σ R F :=
  s.rotateFpu rolReg rorReg

/-- `ror_fpu_regs`. -/
def rorFpuRegs (s : State ν ι σ R F) : State ν ι σ R F :=
  s.rotateFpu rorReg rolReg

/-- A loop of `swap_loc`: every entry for the one location becomes one for the other. -/
def renameLoc (s : State ν ι σ R F) (vl : List ν) (l l' : Loc R F) : State ν ι σ R F :=
  { s with
    loc := fun v =>
      if v ∈ vl then (s.loc v).map fun n => if n.loc = l then .fresh l' else n else s.loc v }

end Update

end State

end Javalette.Gencode
