import Mathlib.Algebra.Ring.Int.Defs
import Mathlib.Data.List.Basic
import Mathlib.Logic.Function.Basic

/-!
# `outbuf.c`: the output buffer

The buffer is a doubly linked list of lines in a heap.  A text is the list of its characters; in
the array `line_buf2`, `none` is the character that ends a string.  The array keeps what the last
line has left in it, and has anything at all at first.

`malloc` is a parameter that finds a free cell.  The conversion of `snprintf` is a parameter too:
`format d` is what comes out for the number `d`.  With `ndebug`, as in the default build, the
program has been compiled without its assertions.  A failing assertion, `xabort`, an access outside
of an array, a number that does not fit an `int` and a read through a null pointer yield `none`.
-/

namespace Javalette.Output

/-- A string, less the character that ends it. -/
abbrev Text := List Char

/-- `line_t`. -/
structure Line (α : Type) where
  prev : Option α
  next : Option α
  str : Text
  deriving DecidableEq, Repr

/-- `outbuf_t`, with the heap; the buffer of `write` plays no part here. -/
structure Outbuf (α : Type) where
  heap : α → Option (Line α)
  head : Option α
  tail : Option α

/-- `MAX_LINE_LEN`. -/
def maxLineLen : ℕ := 512

section Lines

variable {α : Type} [DecidableEq α] (malloc : (α → Option (Line α)) → α)

/-- The part of `do_insertln` that links the line `nl` to the one before it; also `nl->next`. -/
def linkAfter (buf : Outbuf α) (nl : α) (str : Text) :
    Option α → Option (Outbuf α × Option α)
  | some a =>
      (buf.heap a).map fun l =>
        let heap := Function.update buf.heap nl (some ⟨some a, l.next, str⟩)
        ({ buf with heap := Function.update heap a (some { l with next := some nl }) }, l.next)
  | none =>
      some ({ buf with
        heap := Function.update buf.heap nl (some ⟨none, buf.head, str⟩)
        head := some nl }, buf.head)

/-- An assignment through a pointer to a line, unless it is null. -/
def modifyLine (heap : α → Option (Line α)) (f : Line α → Line α) :
    Option α → Option (α → Option (Line α))
  | none => some heap
  | some a => (heap a).map fun l => Function.update heap a (some (f l))

/-- `do_insertln`. -/
def doInsertln (buf : Outbuf α) (line : Option α) (str : Text) : Option (Outbuf α) := do
  let nl := malloc buf.heap
  let (buf, next) ← linkAfter buf nl str line
  let tail := if line = buf.tail then some nl else buf.tail
  let heap ← modifyLine buf.heap (fun n => { n with prev := some nl }) next
  return ⟨heap, buf.head, tail⟩

/-- The inner loop of `FOR_ALL_LINES`, when `i` characters are in `line_buf`: the rest of the line
and what is left of `str`. -/
def readLine : ℕ → Text → Option (Text × Text)
  | _, [] => some ([], [])
  | i, c :: str =>
      if c = '\n' then some ([], c :: str)
      else if i = maxLineLen then none
      else (readLine (i + 1) str).map fun r => (c :: r.1, r.2)

/-- The line after the one that has been inserted after `line`. -/
def advance (buf : Outbuf α) : Option α → Option (Option α)
  | some a => (buf.heap a).map Line.next
  | none => some buf.head

/-- `insertln`: the loop of `FOR_ALL_LINES` with `do_insertln`. -/
def insertln : ℕ → Outbuf α → Option α → Text → Option (Outbuf α)
  | 0, _, _, _ => none
  | _ + 1, buf, _, [] => some buf
  | fuel + 1, buf, line, c :: str => do
      let (l, rest) ← readLine 0 (c :: str)
      let buf ← doInsertln malloc buf line l
      let line ← advance buf line
      insertln fuel buf line rest.tail

/-- `removeln`. -/
def removeln (buf : Outbuf α) (line : α) : Option (Outbuf α) := do
  let l ← buf.heap line
  let heap ← modifyLine buf.heap (fun p => { p with next := l.next }) l.prev
  let heap ← modifyLine heap (fun n => { n with prev := l.prev }) l.next
  let head := if buf.head = some line then l.next else buf.head
  let tail := if buf.tail = some line then l.prev else buf.tail
  return ⟨Function.update heap line none, head, tail⟩

/-- `changeln`. -/
def changeln (buf : Outbuf α) (line : α) (str : Text) : Option (Outbuf α) := do
  let l ← buf.heap line
  let buf ← removeln buf line
  insertln malloc (str.length + 1) buf l.prev str

end Lines

/-! ## The substitution -/

/-- `@P@`. -/
def markP : Text := ['@', 'P', '@']

/-- `@E@`. -/
def markE : Text := ['@', 'E', '@']

/-- `@FP@`. -/
def markFP : Text := ['@', 'F', 'P', '@']

/-- `strstr`: the number of characters before the first occurrence. -/
def strstr (needle : Text) : Text → Option ℕ
  | [] => if needle.isEmpty then some 0 else none
  | c :: str =>
      if needle.isPrefixOf (c :: str) then some 0 else (strstr needle str).map (· + 1)

/-- The value of a list of digits. -/
def digitsVal (ds : Text) : ℕ := ds.foldl (fun n c => 10 * n + (c.toNat - '0'.toNat)) 0

/-- Whether a number fits an `int`. -/
def fitsInt (d : ℤ) : Bool := -2 ^ 31 ≤ d ∧ d < 2 ^ 31

/-- What `sscanf` makes of an optional sign and the digits after it; without a digit the variable
is not assigned. -/
def scanSigned : Text → Option ℤ
  | '-' :: str =>
      let ds := str.takeWhile Char.isDigit
      if ds.isEmpty then none else some (-digitsVal ds)
  | str =>
      let ds := (if str.head? = some '+' then str.tail else str).takeWhile Char.isDigit
      if ds.isEmpty then none else some (digitsVal ds)

/-- `isspace`. -/
def isSpace (c : Char) : Bool := c ∈ [' ', '\t', '\n', '\x0b', '\x0c', '\r']

/-- The conversion `%d` of `sscanf`, which skips white space first. -/
def scanInt (str : Text) : Option ℤ := (scanSigned (str.dropWhile isSpace)).filter fitsInt

/-- An array of characters. -/
abbrev CharArray := List (Option Char)

/-- `strncpy(buf + i, src, n)`. -/
def strncpy (buf : CharArray) (i : ℕ) (src : Text) (n : ℕ) : Option CharArray :=
  if i + n ≤ buf.length then
    some (buf.take i ++ (src.map some ++ List.replicate n none).take n ++ buf.drop (i + n))
  else none

/-- `snprintf(buf + i, n, sp_format, d)`, where `text` is what comes out. -/
def snprintf (buf : CharArray) (i n : ℕ) (text : Text) : CharArray :=
  if n = 0 then buf
  else
    let written := (text.take (n - 1)).map some ++ [none]
    buf.take i ++ written ++ buf.drop (i + written.length)

/-- The string in an array. -/
def cString (buf : CharArray) : Option Text :=
  if none ∈ buf then some ((buf.takeWhile Option.isSome).filterMap id) else none

section FixStack

variable (ndebug : Bool) (stackSize : BitVec 32) (prologue epilogue : Text) (format : ℤ → Text)

/-- What the `else` branch of `fix_stack` writes to `line_buf2`, where `@FP@` is at index `i`. -/
def substitute (buf : CharArray) (str : Text) (i : ℕ) : Option CharArray := do
  let s2 := str.drop (i + 4)
  let off0 ← scanInt s2
  let s2 := s2.dropWhile (· ≠ '@')
  if s2.isEmpty then none
  else
    let off := stackSize.toInt - off0
    if fitsInt off then
      let buf ← strncpy buf 0 str i
      let buf := snprintf buf i (maxLineLen - i) (format off)
      let i := i + (format off).length
      if maxLineLen < i then none else strncpy buf i s2.tail (maxLineLen - i)
    else none

/-- The text that `fix_stack` changes a line into, if it does, and what it leaves in
`line_buf2`. -/
def replacement (buf : CharArray) (str : Text) : Option (Option Text × CharArray) :=
  if str = markP then some (some prologue, buf)
  else if str = markE then some (some epilogue, buf)
  else if ndebug || str.length < maxLineLen then
    match strstr markFP str with
    | none => some (none, buf)
    | some i => do
        let buf ← substitute stackSize format buf str i
        let str ← cString buf
        return (some str, buf)
  else none

variable {α : Type} [DecidableEq α] (malloc : (α → Option (Line α)) → α)

/-- `changeln`, for a line that changes. -/
def changeTo (buf : Outbuf α) (line : α) : Option Text → Option (Outbuf α)
  | none => some buf
  | some str => changeln malloc buf line str

/-- The loop of `fix_stack`. -/
def fixLoop : ℕ → Outbuf α → CharArray → Option α → Option (Outbuf α)
  | 0, _, _, _ => none
  | _ + 1, buf, _, none => some buf
  | fuel + 1, buf, lineBuf2, some line => do
      let l ← buf.heap line
      let (new, lineBuf2) ← replacement ndebug stackSize prologue epilogue format lineBuf2 l.str
      let buf ← changeTo malloc buf line new
      fixLoop fuel buf lineBuf2 l.next

/-- `fix_stack`; `lineBuf2` is what happens to be in the array when it begins. -/
def fixStack (fuel : ℕ) (buf : Outbuf α) (lineBuf2 : CharArray) : Option (Outbuf α) :=
  fixLoop ndebug stackSize prologue epilogue format malloc fuel buf lineBuf2 buf.head

end FixStack

end Javalette.Output
