import Mathlib.Algebra.Group.Int.Defs
import Mathlib.Algebra.Group.Nat.Defs
import Mathlib.Data.Rat.Defs

/-!
# `gencode.c`: the stack frame of a function

The list of stack elements that starts at `stack`, with `first_stack_free`, `stack_size` and
`max_stack_size`, and the functions that work on it.  An element is known by its number, which
stands for its address; `new_stack_elem` numbers them in turn, and no element is given back
before the function is finished.  The last element is the `sentry' of size `-1`.

The sizes of the variables are parameters of the operations: `var->size` does not change.  The
`while` loops here walk along the `next` pointers and are searches in a list.  Sizes and offsets
are of type `int`, and their sums wrap.  A failing assertion yields `none`, and so does a null
pointer that is followed.
-/

namespace Javalette.Gencode

/-- How the compiler has been built: with `NDEBUG` there are no assertions.  `quotient` is the
division of two whole numbers of type `double`, with whatever rounding. -/
class Build where
  ndebug : Bool
  quotient : ℤ → ℕ → ℚ

/-- A build without assertions, which is the default. -/
@[reducible] def release : Build := ⟨true, fun a b => a / b⟩

/-- A build with assertions. -/
@[reducible] def debug : Build := ⟨false, fun a b => a / b⟩

/-- The `int` that a number becomes. -/
def toInt (n : ℤ) : ℤ := n.bmod (2 ^ 32)

/-- `stack_elem_t`. -/
structure StackElem (ν : Type) where
  id : ℕ
  vars : List ν
  size : ℤ
  offset : ℤ
  deriving DecidableEq, Repr

/-- The globals of the stack. -/
structure Stack (ν : Type) where
  elems : List (StackElem ν)
  firstFree : Option ℕ
  stackSize : ℤ
  maxStackSize : ℤ
  nextId : ℕ
  deriving DecidableEq, Repr

namespace Stack

variable {ν : Type}

/-- The stack `gencode` starts with. -/
def init : Stack ν where
  elems := [⟨0, [], -1, 0⟩]
  firstFree := some 0
  stackSize := 0
  maxStackSize := -1
  nextId := 1

/-- The element `se` points to. -/
def elem? (s : Stack ν) (se : ℕ) : Option (StackElem ν) :=
  s.elems.find? fun e => e.id = se

/-- The list from the element `se` on. -/
def suffixAt (elems : List (StackElem ν)) (se : ℕ) : List (StackElem ν) :=
  elems.dropWhile fun e => e.id ≠ se

/-- Assign to `se->vars`. -/
def setVars (elems : List (StackElem ν)) (se : ℕ) (vars : List ν) : List (StackElem ν) :=
  elems.map fun e => if e.id = se then { e with vars := vars } else e

/-- `first_stack_free` after the element `se` has been taken: if it was the first free one, the
pointer goes on to the next element without variables. -/
def advanceFree (elems : List (StackElem ν)) (first : Option ℕ) (se : ℕ) : Option ℕ :=
  if first = some se then ((suffixAt elems se).find? fun e => e.vars.isEmpty).map (·.id)
  else first

variable [B : Build]

/-- `stack_erase`.  `vl_erase` asserts that the list is not empty. -/
def erase [DecidableEq ν] (s : Stack ν) (se : ℕ) (v : ν) : Option (Stack ν) :=
  (s.elem? se).bind fun e =>
    if B.ndebug = false ∧ e.vars = [] then none
    else
      let elems := setVars s.elems se (e.vars.erase v)
      let lower : Bool := match s.firstFree.bind s.elem? with
        | none => true
        | some f => e.offset < f.offset
      some { s with
        elems := elems
        firstFree := if e.vars.erase v = [] ∧ lower then some se else s.firstFree }

/-- Where the loop of `stack_insert_new` stops. -/
def fits (size : ℤ) (e : StackElem ν) : Bool :=
  !((e.size < size ∨ e.vars ≠ []) ∧ e.size ≠ -1)

/-- The sentry `se` becomes an element of the size of the variable, and a new sentry follows. -/
def grow (s : Stack ν) (se : StackElem ν) (size : ℤ) : Stack ν :=
  let stackSize := toInt (s.stackSize + size)
  { s with
    elems := s.elems.flatMap fun e =>
      if e.id = se.id then [{ e with size := size }, ⟨s.nextId, [], -1, toInt (e.offset + size)⟩]
      else [e]
    stackSize := stackSize
    maxStackSize := if s.maxStackSize < stackSize then stackSize else s.maxStackSize
    nextId := s.nextId + 1 }

/-- The variable takes the element `se`. -/
def occupy (s : Stack ν) (se : ℕ) (vars : List ν) : Stack ν :=
  let elems := setVars s.elems se vars
  { s with elems := elems, firstFree := advanceFree elems s.firstFree se }

/-- `stack_insert_new`: the new stack and the element the variable was put into. -/
def insertNew (s : Stack ν) (v : ν) (size : ℤ) : Option (Stack ν × ℕ) :=
  s.firstFree.bind fun f => (s.elem? f).bind fun se =>
    if B.ndebug = false ∧ (size < se.size ∨ se.vars ≠ []) then none
    else ((suffixAt s.elems f).find? (fits size)).bind fun se =>
      if se.size = -1 then
        if B.ndebug = false ∧ (s.elems.getLast?.map (·.id) ≠ some se.id ∨ se.vars ≠ []) then none
        else some ((s.grow se size).occupy se.id [v], se.id)
      else if B.ndebug = false ∧ (se.vars ≠ [] ∨ se.size < size) then none
      else some (s.occupy se.id [v], se.id)

/-- `stack_insert`: the new stack, and whether the variable was not there before. -/
def insert [DecidableEq ν] (s : Stack ν) (se : ℕ) (v : ν) (size : ℤ) : Option (Stack ν × Bool) :=
  (s.elem? se).bind fun e =>
    if B.ndebug = false ∧ e.size ≠ size then none
    else if v ∈ e.vars then some (s, false)
    else some (s.occupy se (v :: e.vars), true)

/-- The end of `flush_loc` for an element of the stack: the variables have been saved elsewhere,
and the list is set to `NULL`. -/
def flush (s : Stack ν) (se : ℕ) : Option (Stack ν) :=
  (s.elem? se).map fun _ => { s with elems := setVars s.elems se [] }

/-- The loop of `stack_param` that looks for the place of an offset above that of the first
element. -/
def insertAfter (e : StackElem ν) : List (StackElem ν) → List (StackElem ν)
  | [] => []
  | [a] => [a, e]
  | a :: b :: l => if b.offset < e.offset then a :: insertAfter e (b :: l) else a :: e :: b :: l

/-- `stack_param`. -/
def param (s : Stack ν) (v : ν) (size off : ℤ) : Option (Stack ν) :=
  let se2 : StackElem ν := ⟨s.nextId, [v], size, off⟩
  match s.elems with
  | [] => none
  | a :: l =>
      some { s with
        elems := if off ≤ a.offset then se2 :: a :: l else insertAfter se2 (a :: l)
        nextId := s.nextId + 1 }

/-- `var->size` of an array: its number of elements times the size of one of them. -/
def arraySize (a : ν × ℕ × ℕ) : ℤ := toInt ((a.2.1 * a.2.2 : ℕ) : ℤ)

/-- The loop of `gencode` that gives each array its place.  An array comes with the number and the
size of its elements. -/
def insertArrays : Stack ν → List (ν × ℕ × ℕ) → Option (Stack ν)
  | s, [] => some s
  | s, a :: l => (s.insertNew a.1 (arraySize a)).bind fun p => insertArrays p.1 l

/-- The loop of `start_func`: the parameters that are not passed in registers, with their sizes.
`off` is the distance of the last parameter from the bottom of the frame so far; it starts at `4`
in the i386 backend, where the return address lies below the parameters, and at `0` in the
quadruple backend, where every size is `1`. -/
def insertParams : Stack ν → ℕ → List (ν × ℕ) → Option (Stack ν)
  | s, _, [] => some s
  | s, off, (v, size) :: l =>
      (s.param v size (toInt (-((off + size : ℕ) : ℤ)))).bind fun s => insertParams s (off + size) l

/-- The stack at the start of the code of a function. -/
def prologue (arrays : List (ν × ℕ × ℕ)) (base : ℕ) (params : List (ν × ℕ)) : Option (Stack ν) :=
  (init.insertArrays arrays).bind fun s => s.insertParams base params

end Stack

end Javalette.Gencode
