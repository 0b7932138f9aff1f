import Mathlib.Logic.Function.Basic
import Mathlib.Data.Nat.Notation
import Mathlib.Data.Int.Notation

/-!
# The target machine of the i386 backend

The part of the 32-bit x86 that `i386_backend.c` emits code for: the seven general registers it
allocates, the stack pointer, the memory as a map from byte addresses to aligned double words,
the sign flag, and the x87 as eight tagged registers with a top pointer.

An instruction is what `writeln` is called with.  Its operands are the texts `loc_str` returns:
a stack slot is still the marker `[@FP@n@]`, which `fix_stack` turns into
`[esp + (stack_size - n)]` once the size of the frame is known, so an instruction is executed in
the context of that size.

The x87 runs with its exceptions masked, as `finit` leaves it: an operand that is tagged empty
counts as the indefinite quiet NaN, and so does what `fld` pushes onto a register in use.  The
four operations on doubles are left open.
-/

namespace Javalette.X86

/-- The registers `reg32_str` knows. -/
inductive Reg32
  | eax | ebx | ecx | edx | edi | esi | ebp
  deriving DecidableEq, Repr

/-- The operations of the x87 that the backend uses. -/
inductive FpuOp
  | add | sub | mul | div
  deriving DecidableEq, Repr

/-- An operand: a register, an immediate, a stack slot of `size` bytes, memory relative to
`esp`, a double constant of the data section, or a register of the x87. -/
inductive Operand
  | reg (r : Reg32)
  | imm (i : BitVec 32)
  | slot (size : ℕ) (n : ℤ)
  | esp (size : ℕ) (disp : ℤ)
  | dconst (d : BitVec 64)
  | st (i : Fin 8)
  deriving DecidableEq, Repr

/-- The instructions. -/
inductive Instr
  | mov (dst src : Operand)
  | xchg (dst src : Operand)
  | sar (dst : Operand) (cnt : ℕ)
  | neg (dst : Operand)
  | and (dst : Operand) (mask : BitVec 32)
  | xor (r s : Reg32)
  | test (r s : Reg32)
  | sets (r : Reg32)
  | idiv (src : Operand)
  | push (src : Operand)
  | addEsp (n : ℤ)
  | subEsp (n : ℤ)
  | fld (src : Operand)
  | fldz
  | fld1
  | fst (dst : Operand)
  | fstp (dst : Operand)
  | fxch (i : Fin 8)
  | fincstp
  | fdecstp
  | ffree (i : Fin 8)
  | finit
  | farith (op : FpuOp) (rev : Bool) (src : Operand)
  | farithTo (op : FpuOp) (rev : Bool) (i : Fin 8)
  deriving DecidableEq, Repr

/-- The state. -/
structure Machine where
  reg : Reg32 → BitVec 32
  esp : ℤ
  mem : ℤ → BitVec 32
  sf : Bool
  top : Fin 8
  phys : Fin 8 → Option (BitVec 64)

/-- What the code of a function is executed in: the size of its frame and the meaning of the
operations on doubles. -/
structure Ctx where
  frame : ℤ
  arith : FpuOp → BitVec 64 → BitVec 64 → BitVec 64

/-! ## The stack of the x87 -/

/-- The register `i` places after `t`, round the eight of them. -/
def rot (t i : Fin 8) : Fin 8 :=
  ⟨(t.val + i.val) % 8, Nat.mod_lt _ (by decide)⟩

lemma rot_right_inj {t i j : Fin 8} : rot t i = rot t j ↔ i = j := by
  constructor
  · intro h
    have h := congrArg Fin.val h
    simp only [rot] at h
    exact Fin.ext (by omega)
  · rintro rfl
    rfl

lemma rot_assoc (t i j : Fin 8) : rot (rot t i) j = rot t (rot i j) := by
  apply Fin.ext
  simp only [rot]
  omega

/-- The numbers of `st0` and of `st7`. -/
def st0 : Fin 8 := ⟨0, by decide⟩

@[inherit_doc st0]
def st7 : Fin 8 := ⟨7, by decide⟩

/-- One place on; one place back is `st7`. -/
def st1 : Fin 8 := ⟨1, by decide⟩

/-- The real indefinite. -/
def indefinite : BitVec 64 := 0xFFF8000000000000

namespace Machine

/-- `st(i)`: what it holds, or that it is tagged empty. -/
def st (m : Machine) (i : Fin 8) : Option (BitVec 64) :=
  m.phys (rot m.top i)

/-- `st(i)` as an operand. -/
def stVal (m : Machine) (i : Fin 8) : BitVec 64 :=
  (m.st i).getD indefinite

/-- Write or empty `st(i)`. -/
def setSt (m : Machine) (i : Fin 8) (v : Option (BitVec 64)) : Machine :=
  { m with phys := Function.update m.phys (rot m.top i) v }

/-- Move the top of the stack `k` registers on. -/
def rotTop (m : Machine) (k : Fin 8) : Machine :=
  { m with top := rot m.top k }

lemma st_setSt (m : Machine) (i j : Fin 8) (v : Option (BitVec 64)) :
    (m.setSt i v).st j = if j = i then v else m.st j := by
  simp only [st, setSt, Function.update_apply, rot_right_inj]

@[simp] lemma st_setSt_self (m : Machine) (i : Fin 8) (v : Option (BitVec 64)) :
    (m.setSt i v).st i = v := by
  rw [st_setSt, if_pos rfl]

@[simp] lemma st_rotTop (m : Machine) (k i : Fin 8) : (m.rotTop k).st i = m.st (rot k i) := by
  simp only [st, rotTop, rot_assoc]

/-- Push `v`: onto a register in use the indefinite goes instead. -/
def fpush (m : Machine) (v : BitVec 64) : Machine :=
  let m := m.rotTop st7
  match m.st st0 with
  | none => m.setSt st0 (some v)
  | some _ => m.setSt st0 (some indefinite)

/-- Pop. -/
def fpop (m : Machine) : Machine :=
  (m.setSt st0 none).rotTop st1

/-! ## Operands -/

/-- The double word at the address `a`. -/
def load64 (m : Machine) (a : ℤ) : BitVec 64 :=
  m.mem (a + 4) ++ m.mem a

/-- Store a quad word at the address `a`, the low half first. -/
def store64 (m : Machine) (a : ℤ) (v : BitVec 64) : Machine :=
  let lo : BitVec 32 := v.extractLsb' 0 32
  let hi : BitVec 32 := v.extractLsb' 32 32
  { m with mem := Function.update (Function.update m.mem a lo) (a + 4) hi }

/-- Store a double word at the address `a`. -/
def store32 (m : Machine) (a : ℤ) (v : BitVec 32) : Machine :=
  { m with mem := Function.update m.mem a v }

/-- Write a general register. -/
def setReg (m : Machine) (r : Reg32) (v : BitVec 32) : Machine :=
  { m with reg := Function.update m.reg r v }

/-- The address of `[@FP@n@]`. -/
def slotAddr (c : Ctx) (m : Machine) (n : ℤ) : ℤ :=
  m.esp + (c.frame - n)

/-- Read a 32-bit operand. -/
def read32 (c : Ctx) (m : Machine) : Operand → Option (BitVec 32)
  | .reg r => some (m.reg r)
  | .imm i => some i
  | .slot size n => if size = 4 then some (m.mem (m.slotAddr c n)) else none
  | .esp size d => if size = 4 then some (m.mem (m.esp + d)) else none
  | .dconst _ => none
  | .st _ => none

/-- Write a 32-bit operand. -/
def write32 (c : Ctx) (m : Machine) (v : BitVec 32) : Operand → Option Machine
  | .reg r => some (m.setReg r v)
  | .imm _ => none
  | .slot size n => if size = 4 then some (m.store32 (m.slotAddr c n) v) else none
  | .esp size d => if size = 4 then some (m.store32 (m.esp + d) v) else none
  | .dconst _ => none
  | .st _ => none

/-- Read an operand of the x87. -/
def read64 (c : Ctx) (m : Machine) : Operand → Option (BitVec 64)
  | .reg _ => none
  | .imm _ => none
  | .slot size n => if size = 8 then some (m.load64 (m.slotAddr c n)) else none
  | .esp size d => if size = 8 then some (m.load64 (m.esp + d)) else none
  | .dconst d => some d
  | .st i => some (m.stVal i)

/-- Write an operand of the x87. -/
def write64 (c : Ctx) (m : Machine) (v : BitVec 64) : Operand → Option Machine
  | .reg _ => none
  | .imm _ => none
  | .slot size n => if size = 8 then some (m.store64 (m.slotAddr c n) v) else none
  | .esp size d => if size = 8 then some (m.store64 (m.esp + d) v) else none
  | .dconst _ => none
  | .st i => some (m.setSt i (some v))

end Machine

/-- Whether an operand is in memory. -/
def Operand.isMem : Operand → Bool
  | .reg _ => false
  | .imm _ => false
  | .slot _ _ => true
  | .esp _ _ => true
  | .dconst _ => true
  | .st _ => false

/-! ## Execution -/

/-- `idiv`: the 64-bit dividend `edx:eax` by the operand.  A divisor of zero, or a quotient that
does not fit, raises the divide error. -/
def execIdiv (m : Machine) (d : BitVec 32) : Option Machine :=
  let n : ℤ := (m.reg .edx ++ m.reg .eax : BitVec 64).toInt
  let q := n.tdiv d.toInt
  if d = 0 then none
  else if q < -2147483648 ∨ 2147483647 < q then none
  else some ((m.setReg .eax (BitVec.ofInt 32 q)).setReg .edx (BitVec.ofInt 32 (n.tmod d.toInt)))

/-- The operation on two registers of the x87, one of which may be empty. -/
def Ctx.arithSt (c : Ctx) (op : FpuOp) (rev : Bool) (a b : Option (BitVec 64)) : BitVec 64 :=
  match a, b with
  | some x, some y => if rev then c.arith op y x else c.arith op x y
  | _, _ => indefinite

/-- The right operand of an operation whose left one is `st0`. -/
def readArith (c : Ctx) (m : Machine) : Operand → Option (Option (BitVec 64))
  | .st i => some (m.st i)
  | o => (m.read64 c o).map some

open Machine in
/-- One instruction; `none` for the divide error and for operands that no encoding exists
for. -/
def exec (c : Ctx) (m : Machine) : Instr → Option Machine
  | .mov dst src =>
      if dst.isMem && src.isMem then none
      else (m.read32 c src).bind fun v => m.write32 c v dst
  | .xchg dst src =>
      if dst.isMem && src.isMem then none
      else (m.read32 c dst).bind fun v => (m.read32 c src).bind fun w =>
        (m.write32 c w dst).bind fun m' => m'.write32 c v src
  | .sar dst cnt => (m.read32 c dst).bind fun v =>
      ({ m with sf := (v.sshiftRight cnt).msb }).write32 c (v.sshiftRight cnt) dst
  | .neg dst => (m.read32 c dst).bind fun v => ({ m with sf := (-v).msb }).write32 c (-v) dst
  | .and dst mask => (m.read32 c dst).bind fun v =>
      ({ m with sf := (v &&& mask).msb }).write32 c (v &&& mask) dst
  | .xor r s =>
      some (({ m with sf := (m.reg r ^^^ m.reg s).msb }).setReg r (m.reg r ^^^ m.reg s))
  | .test r s => some { m with sf := (m.reg r &&& m.reg s).msb }
  | .sets r => some (m.setReg r ((m.reg r).extractLsb' 8 24 ++ (if m.sf then 1#8 else 0#8)))
  | .idiv src => (m.read32 c src).bind fun d => execIdiv m d
  | .push src => (m.read32 c src).map fun v =>
      ({ m with esp := m.esp - 4 }).store32 (m.esp - 4) v
  | .addEsp n => some { m with esp := m.esp + n }
  | .subEsp n => some { m with esp := m.esp - n }
  | .fld src => (m.read64 c src).map fun v => m.fpush v
  | .fldz => some (m.fpush 0)
  | .fld1 => some (m.fpush 0x3FF0000000000000)
  | .fst dst => m.write64 c (m.stVal st0) dst
  | .fstp dst => (m.write64 c (m.stVal st0) dst).map fpop
  | .fxch i => some ((m.setSt st0 (some (m.stVal i))).setSt i (some (m.stVal st0)))
  | .fincstp => some (m.rotTop st1)
  | .fdecstp => some (m.rotTop st7)
  | .ffree i => some (m.setSt i none)
  | .finit => some { m with top := st0, phys := fun _ => none }
  | .farith op rev src => (readArith c m src).map fun v =>
      m.setSt st0 (some (c.arithSt op rev (m.st st0) v))
  | .farithTo op rev i => some (m.setSt i (some (c.arithSt op rev (m.st i) (m.st st0))))

/-- A sequence of instructions. -/
def run (c : Ctx) : Machine → List Instr → Option Machine
  | m, [] => some m
  | m, i :: is => (exec c m i).bind fun m' => run c m' is

@[simp] lemma run_nil (c : Ctx) (m : Machine) : run c m [] = some m := rfl

@[simp] lemma run_cons (c : Ctx) (m : Machine) (i : Instr) (is : List Instr) :
    run c m (i :: is) = (exec c m i).bind fun m' => run c m' is := rfl

lemma run_append (c : Ctx) (m : Machine) (is js : List Instr) :
    run c m (is ++ js) = (run c m is).bind fun m' => run c m' js := by
  induction is generalizing m with
  | nil => rfl
  | cons i is ih =>
      simp only [List.cons_append, run_cons, Option.bind_assoc]
      cases exec c m i with
      | none => rfl
      | some m' => exact ih m'

end Javalette.X86
