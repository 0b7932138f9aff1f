import Javalette.Gencode.Location
import Mathlib

/-!
# `gencode.c`: saving and moving variables

The functions that free, allocate and load registers.  They call one another, and the backend's
`gen_mov` calls some of them again, so each takes as an argument the two calls that close the
circle, `save_var_not_to_loc` and `move_to_reg`; `Target.calls` ties the knot, with a bound on the
depth of the recursion.

`none` is a failing assertion, a null pointer that is followed, or the bound.
-/

namespace Javalette.Gencode

/-- The two functions through which the recursion goes. -/
structure Calls (ν ι σ : Type) (R F : ℕ) where
  saveVarNotToLoc : ν → Option (Loc R F) → State ν ι σ R F → Option (State ν ι σ R F)
  moveToReg : ν → State ν ι σ R F → Option (State ν ι σ R F)

/-- The constants of a backend and the callbacks that call nothing back. -/
structure Backend (ν ι σ : Type) (R F : ℕ) where
  fpuStack : Bool
  fpuRegFree : Fin F → State ν ι σ R F → State ν ι σ R F
  genFpuLoad : ν → State ν ι σ R F → Option (State ν ι σ R F)
  genFpuStore : Loc R F → State ν ι σ R F → Option (State ν ι σ R F)
  genFpuPop : Bool → State ν ι σ R F → Option (State ν ι σ R F)

/-- A backend with the callbacks that may need a register. -/
structure Target (ν ι σ : Type) (R F : ℕ) extends Backend ν ι σ R F where
  genMov : Calls ν ι σ R F → Loc R F → ν → State ν ι σ R F → Option (State ν ι σ R F)
  genSwap : Calls ν ι σ R F → Loc R F → Loc R F → State ν ι σ R F → Option (State ν ι σ R F)

/-! ## Choosing a register -/

section Choice

variable {ν ι σ : Type} {R F : ℕ} [Build] (V : Vars ν)

/-- `find_free_reg`. -/
def findFreeReg (s : State ν ι σ R F) (tag : RegTag) : Option (RegName R F) :=
  (regNames R F tag).find? fun r => (s.regs r).isEmpty && !s.deny r

/-- What a variable adds to `refs`, if it has no other copy in a register. -/
def spillRefs (s : State ν ι σ R F) (v : ν) : ℕ :=
  if 1 < (s.loc v).head?.elim 0 (fun n => s.refNum n.loc) then 1 else 2

/-- The inner loop of the first loop of `do_bellady_ra`, over the variables in a register: `refs`,
or nothing if `for_next` becomes true, as the register holds the only copy of an argument of the
current quadruple. -/
def countRefs (s : State ν ι σ R F) (tag : RegTag) : List ν → Option (Option ℕ)
  | [] => some (some 0)
  | v :: vl =>
      let count := s.countTags tag v
      if Build.ndebug = false ∧ count = 0 then none
      else if V.used v ∧ count = 1 then some none
      else (countRefs s tag vl).map fun refs =>
        refs.map (· + if count = 1 then spillRefs s v else 0)

/-- The first loop of `do_bellady_ra`, which ends with `min_refs`. -/
def findMinRefs (s : State ν ι σ R F) (tag : RegTag) :
    List (RegName R F) → ℕ → Option ℕ
  | [], minRefs => some minRefs
  | r :: rs, minRefs =>
      if s.deny r then findMinRefs s tag rs minRefs
      else if s.regs r = [] then none
      else
        (countRefs V s tag (s.regs r)).bind fun refs =>
          findMinRefs s tag rs (refs.elim minRefs (min · minRefs))

/-- `nud_avg` and `count` for a register.  The sum is of type `int`. -/
def nextUses (s : State ν ι σ R F) (tag : RegTag) (r : RegName R F) : ℤ × ℕ :=
  let vl := (s.regs r).filter fun v => s.countTags tag v = 1
  (vl.foldl (fun sum v => toInt (sum + V.nearestUse v)) 0, vl.length)

/-- The second loop of `do_bellady_ra`. -/
def farthestUse (s : State ν ι σ R F) (tag : RegTag) :
    List (RegName R F) → ℚ → Option (RegName R F) → Option (RegName R F)
  | [], _, bestI => bestI
  | r :: rs, best, bestI =>
      if s.deny r then farthestUse s tag rs best bestI
      else
        let p := nextUses V s tag r
        if p.2 = 0 then some r
        else
          let avg := Build.quotient p.1 p.2
          if best < avg then farthestUse s tag rs avg (some r) else farthestUse s tag rs best bestI

/-- `do_bellady_ra`.  The second loop does not use `min_refs`.  The type of `best_i` is unsigned, so
that the assertion `best_i > -1` at the end fails whatever register has been chosen; without it,
`-1` stands for a register that there is not. -/
def doBelladyRa (s : State ν ι σ R F) (tag : RegTag) : Option (RegName R F) :=
  match findFreeReg s tag with
  | some r => some r
  | none =>
      (findMinRefs V s tag (regNames R F tag) 100000).bind fun minRefs =>
        if Build.ndebug = false ∧ 100000 ≤ minRefs then none
        else (farthestUse V s tag (regNames R F tag) (-1) none).bind fun bestI =>
          if Build.ndebug = false then none else some bestI

end Choice

/-! ## Freeing registers -/

section Free

variable {ν ι σ : Type} {R F : ℕ} [DecidableEq ν] [Build]
variable (B : Backend ν ι σ R F) (K : Calls ν ι σ R F) (V : Vars ν)

/-- The loop of `FREE_VL`. -/
def freeVl (l : Loc R F) : List ν → State ν ι σ R F → Option (State ν ι σ R F)
  | [], s => some s
  | v :: vl, s =>
      (if s.shouldSave v l then K.saveVarNotToLoc v none s else some s).bind fun s =>
        freeVl l vl (s.eraseLoc v l)

/-- `FREE_VL` between `deny_reg` and `allow_reg`. -/
def emptyReg (r : RegName R F) (s : State ν ι σ R F) : Option (State ν ι σ R F) :=
  (freeVl K (.reg r) (s.regs r) (s.setDeny r true)).map fun s' =>
    (s'.setRegs r []).setDeny r (s.deny r)

/-- `free_reg`. -/
def freeReg (r : Fin R) (s : State ν ι σ R F) : Option (State ν ι σ R F) :=
  emptyReg K (.gp r) s

/-- `free_fpu_reg`. -/
def freeFpuReg (r : Fin F) (physicalFree : Bool) (s : State ν ι σ R F) :
    Option (State ν ι σ R F) :=
  if s.regs (.fpu r) = [] then some s
  else (emptyReg K (.fpu r) s).map fun s => if physicalFree then B.fpuRegFree r s else s

/-- `free_reg` and `free_fpu_reg` with physical freeing. -/
def freeRegister : RegName R F → State ν ι σ R F → Option (State ν ι σ R F)
  | .gp r, s => freeReg K r s
  | .fpu r, s => freeFpuReg B K r true s

/-- The loop of `flush_loc` over the variables in an element of the stack. -/
def flushVl (l : Loc R F) : List ν → State ν ι σ R F → Option (State ν ι σ R F)
  | [], s => some s
  | v :: vl, s =>
      (if s.shouldSave v l then K.saveVarNotToLoc v (some l) s else some s).bind fun s =>
        flushVl l vl (s.eraseLoc v l)

/-- `flush_loc`. -/
def flushLoc (l : Loc R F) (s : State ν ι σ R F) : Option (State ν ι σ R F) :=
  match l with
  | .stack se => (flushVl K l (s.varsAt l) s).bind fun s =>
      (s.stack.flush se).map fun stack => { s with stack := stack }
  | .reg (.gp r) => freeReg K r s
  | .reg (.fpu r) => freeFpuReg B K r false s
  | .int _ => none
  | .double _ => none

/-- A loop of `update_var_loc` over a list of variables. -/
def updateVarLocs (l : Loc R F) : List ν → State ν ι σ R F → Option (State ν ι σ R F)
  | [], s => some s
  | v :: vl, s => (s.updateVarLoc V v l).bind (updateVarLocs l vl)

/-- `fpu_store`. -/
def fpuStore [NeZero F] (l : Loc R F) (s : State ν ι σ R F) : Option (State ν ι σ R F) :=
  (flushLoc B K l s).bind fun s =>
    (updateVarLocs V l (s.regs (.fpu 0)) s).bind fun s => B.genFpuStore l s

/-- `fpu_pop`. -/
def fpuPop [NeZero F] (s : State ν ι σ R F) : Option (State ν ι σ R F) :=
  (freeFpuReg B K 0 false s).bind fun s' =>
    B.genFpuPop (s.regs (.fpu 0)).isEmpty s'.rolFpuRegs

/-- `bellady_ra`. -/
def belladyRa (tag : RegTag) (s : State ν ι σ R F) : Option (RegName R F × State ν ι σ R F) :=
  (doBelladyRa V s tag).bind fun r => (freeRegister B K r s).map fun s => (r, s)

/-- The last register of the FPU. -/
def maxReg [NeZero F] : Fin F :=
  ⟨F - 1, Nat.sub_lt (Nat.pos_of_ne_zero (NeZero.ne F)) Nat.one_pos⟩

/-- `stack_ra`. -/
def stackRa [NeZero F] (s : State ν ι σ R F) : Option (RegName R F × State ν ι σ R F) :=
  if s.regs (.fpu maxReg) = [] then some (.fpu maxReg, s)
  else
    (doBelladyRa V s .fpu).bind fun r =>
      match r with
      | .gp _ => none
      | .fpu i =>
          if i = maxReg then (freeFpuReg B K i true s).map fun s => (.fpu maxReg, s)
          else
            (freeFpuReg B K i false s).bind fun s =>
              (fpuStore B K V (.reg (.fpu i)) s).bind fun s =>
                (fpuPop B K s).map fun s => (.fpu maxReg, s)

/-- `alloc_reg`: the general-purpose registers are allocated by `bellady_ra`, and those of an FPU
that is a stack by `stack_ra`. -/
def allocReg [NeZero F] (tag : RegTag) (s : State ν ι σ R F) :
    Option (RegName R F × State ν ι σ R F) :=
  if tag = .fpu ∧ B.fpuStack = true then stackRa B K V s else belladyRa B K V tag s

/-- `do_free_all`. -/
def doFreeAll (tag : RegTag) (s : State ν ι σ R F) : Option (State ν ι σ R F) :=
  ((regNames R F tag).foldlM (fun s r => freeRegister B K r s) (s.setDenyAll tag true)).map
    fun s => s.setDenyAll tag false

/-- The number of pops in `free_all_fpu_regs`: the registers up to the last one in use. -/
def popsNeeded (s : State ν ι σ R F) : ℕ :=
  (((List.finRange F).reverse.find? fun i => !(s.regs (.fpu i)).isEmpty).map
    fun i => i.val + 1).getD 0

/-- A number of `fpu_pop`s. -/
def fpuPops [NeZero F] : ℕ → State ν ι σ R F → Option (State ν ι σ R F)
  | 0, s => some s
  | n + 1, s => (fpuPop B K s).bind (fpuPops n)

/-- `free_all_fpu_regs`. -/
def freeAllFpuRegs [NeZero F] (s : State ν ι σ R F) : Option (State ν ι σ R F) :=
  (fpuPops B K (popsNeeded s) (s.setDenyAll .fpu true)).map fun s => s.setDenyAll .fpu false

/-- `free_all`. -/
def freeAll [NeZero F] (tag : RegTag) (s : State ν ι σ R F) : Option (State ν ι σ R F) :=
  if tag = .fpu ∧ B.fpuStack = true then freeAllFpuRegs B K s else doFreeAll B K tag s

/-! ## Discarding variables -/

/-- The loop of `discard_var0`: the permanent locations are left, the other ones are given up. -/
def discardLocs (v : ν) (physicalFree : Bool) :
    List (LocNode R F) → State ν ι σ R F → Option (State ν ι σ R F)
  | [], s => some s
  | n :: ns, s =>
      if n.permanent then discardLocs v physicalFree ns s
      else
        (s.leave v n.loc).bind fun s =>
          discardLocs v physicalFree ns <|
            match n.loc with
            | .reg (.fpu r) =>
                if s.regs (.fpu r) = [] ∧ physicalFree = true then B.fpuRegFree r s else s
            | _ => s

/-- `discard_var0`. -/
def discardVar0 (v : ν) (physicalFree : Bool) (s : State ν ι σ R F) :
    Option (State ν ι σ R F) :=
  (discardLocs B v physicalFree (s.loc v) s).map fun s' =>
    s'.setLoc v (((s.loc v).filter fun n => n.permanent).reverse.map fun n =>
      { n with dirty := true })

/-- `discard_var`. -/
def discardVar (v : ν) (s : State ν ι σ R F) : Option (State ν ι σ R F) :=
  discardVar0 B v true s

end Free

/-! ## Saving and moving variables -/

section Move

variable {ν ι σ : Type} {R F : ℕ} [DecidableEq ν] [Build] [NeZero F]
variable (T : Target ν ι σ R F) (K : Calls ν ι σ R F) (V : Vars ν)

/-- `save_var_to_loc`. -/
def saveVarToLoc (v : ν) (l : Loc R F) (s : State ν ι σ R F) : Option (State ν ι σ R F) :=
  if l.isConst = true ∨ v ∈ s.varsAt l then some s
  else
    (flushLoc T.toBackend K l s).bind fun s =>
      if (s.loc v).any fun n => n.loc = l then some s
      else (T.genMov K l v s).bind fun s => s.updateVarLoc V v l

/-- A permanent location that is used again: it is brought up to date if it is dirty. -/
def saveToPermanent (v : ν) (n : LocNode R F) (s : State ν ι σ R F) : Option (State ν ι σ R F) :=
  if n.dirty then saveVarToLoc T K V v n.loc s else some s

/-- Whether `save_var_not_to_loc` sends a variable to a register rather than to memory. -/
def savesToReg (v : ν) (s : State ν ι σ R F) : Bool :=
  let n := s.available (V.regType v)
  !(V.regType v = .fpu && T.fpuStack) && 0 < n && V.nearestUse v ≤ (4 + n * n / 2 : ℕ)

/-- The variable is put into a new element of the stack. -/
def saveToNewSlot (v : ν) (s : State ν ι σ R F) : Option (State ν ι σ R F) :=
  (s.stack.insertNew v (V.size v)).bind fun p =>
    (T.genMov K (.stack p.2) v { s with stack := p.1 }).map fun s =>
      s.setLoc v (.fresh (.stack p.2) :: s.loc v)

/-- `save_var_not_to_loc`. -/
def saveVarNotToLoc (v : ν) (dloc : Option (Loc R F)) (s : State ν ι σ R F) :
    Option (State ν ι σ R F) :=
  if (s.loc v).isEmpty then none
  else
    match (s.loc v).find? fun n =>
      n.permanent && n.loc.hasTag (V.regType v) && s.isAllowed n.loc && some n.loc ≠ dloc with
    | some n => saveToPermanent T K V v n s
    | none =>
        if savesToReg T V v s then
          (allocReg T.toBackend K V (V.regType v) s).bind fun p =>
            saveVarToLoc T K V v (.reg p.1) p.2
        else
          match (s.loc v).find? fun n => n.permanent && some n.loc ≠ dloc with
          | some n => saveToPermanent T K V v n s
          | none =>
              if (s.loc v).any fun n => n.loc.isStack && some n.loc ≠ dloc then some s
              else saveToNewSlot T K V v s

/-- `fpu_load`. -/
def fpuLoad (v : ν) (s : State ν ι σ R F) : Option (State ν ι σ R F) :=
  (if s.regs (.fpu maxReg) = [] then some s
    else (allocReg T.toBackend K V .fpu s).map Prod.snd).bind fun s =>
      (T.genFpuLoad v s).bind fun s => s.rorFpuRegs.updateVarLoc V v (.reg (.fpu 0))

/-- `move_to_loc` for a kind of register. -/
def moveToRegTag (v : ν) (tag : RegTag) (s : State ν ι σ R F) : Option (State ν ι σ R F) :=
  if (s.loc v).isEmpty then none
  else if (s.loc v).any fun n => n.loc.hasTag tag && !n.dirty then some s
  else
    match (s.loc v).find? fun n => n.loc.hasTag tag && n.permanent with
    | some n => saveVarToLoc T K V v n.loc s
    | none =>
        if tag = .fpu ∧ T.fpuStack = true then fpuLoad T K V v s
        else
          (allocReg T.toBackend K V tag s).bind fun p =>
            saveVarToLoc T K V v (.reg p.1) p.2

/-- `move_to_reg`. -/
def moveToReg (v : ν) (s : State ν ι σ R F) : Option (State ν ι σ R F) :=
  moveToRegTag T K V v (V.regType v) s

/-- The functions that close the circle, to a depth of recursion. -/
def Target.calls : ℕ → Calls ν ι σ R F
  | 0 => ⟨fun _ _ _ => none, fun _ _ => none⟩
  | depth + 1 =>
      ⟨saveVarNotToLoc T (calls depth) V, moveToReg T (calls depth) V⟩

/-- A list of a location, after it has been exchanged. -/
def setVarsAt (s : State ν ι σ R F) (l : Loc R F) (vl : List ν) : State ν ι σ R F :=
  match l with
  | .stack se => { s with stack := { s.stack with elems := Stack.setVars s.stack.elems se vl } }
  | .reg r => s.setRegs r vl
  | .int _ => s
  | .double _ => s

/-- `swap_loc`. -/
def swapLoc (l₁ l₂ : Loc R F) (s : State ν ι σ R F) : Option (State ν ι σ R F) :=
  if l₁.isConst = true ∨ l₂.isConst = true then none
  else
    let vl₁ := s.varsAt l₁
    let vl₂ := s.varsAt l₂
    let s := (s.renameLoc vl₁ l₁ l₂).renameLoc vl₂ l₂ l₁
    T.genSwap K l₁ l₂ (setVarsAt (setVarsAt s l₁ vl₂) l₂ vl₁)

/-- `swap_fpu_regs`. -/
def swapFpuRegs (r₁ r₂ : Fin F) (s : State ν ι σ R F) : Option (State ν ι σ R F) :=
  swapLoc T K (.reg (.fpu r₁)) (.reg (.fpu r₂)) s

end Move

end Javalette.Gencode
