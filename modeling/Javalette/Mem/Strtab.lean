import Javalette.Mem.Alloc
import Mathlib.Logic.Function.Basic
import Mathlib.Data.UInt

/-!
# `mem.c`: the string table

The first `hash_size` nodes of the array `hashtab` are the buckets; the other nodes are taken from
the rest of the array when a bucket is in use.  A pointer to a node is an address in the array:
the block and the index of the node.  `realloc` either extends the block of the array or moves the
array to another block; which it does for an array of a given size is a parameter.  A pointer into
a block that has been freed cannot be followed.  What C leaves undefined yields `none`.
-/

namespace Javalette.Mem

/-- A string, less the character that ends it. -/
abbrev CString := {bytes : List UInt8 // 0 ∉ bytes}

/-- One round of the loop of `fnv_hash`. -/
def fnvStep (hval : UInt32) (c : UInt8) : UInt32 :=
  (hval + ((hval <<< 1) + (hval <<< 4) + (hval <<< 7) + (hval <<< 8) + (hval <<< 24))) ^^^
    c.toUInt32

/-- `fnv_hash`. -/
def fnvHash (str : CString) : UInt32 := str.val.foldl fnvStep 0x811c9dc5

/-- `hash_node_t`. -/
structure HashNode where
  hash : UInt32
  str : Option Addr
  data : Option Addr
  next : Option Addr
  deriving DecidableEq, Repr

/-- What `memset` makes of a node. -/
def HashNode.zero : HashNode := ⟨0, none, none, none⟩

/-- `strtab_t`, less `hash_log`, with the memory that belongs to it: the nodes of the array, of
which some have never been written, the characters, and the number of blocks. -/
structure Strtab where
  strbuf : Alloc
  databuf : Alloc
  elemSize : ℕ
  hashSize : ℕ
  hashNodesSize : ℕ
  hashNodesFree : ℕ
  hashtab : ℕ
  nodes : ℕ → Option HashNode
  chars : Addr → UInt8
  blocks : ℕ

/-- The loop of `new_strtab`. -/
def hashSizeLoop (hashSize hashSizeLog : ℕ) (carry : Bool) : ℕ × Bool :=
  if h : hashSize > 0 then
    hashSizeLoop (hashSize / 2) (hashSizeLog + 1) (hashSize % 2 = 1 || carry)
  else (hashSizeLog, carry)
  termination_by hashSize
  decreasing_by omega

/-- `new_strtab`; `chars` is what happens to be in the memory. -/
def newStrtab (chars : Addr → UInt8) (stringsSize dataSize dataElemSize : ℕ) : Option Strtab :=
  if dataElemSize = 0 then none
  else
    let (hashSizeLog, carry) := hashSizeLoop (dataSize / dataElemSize) 0 false
    let hashSizeLog := hashSizeLog + carry.toNat
    -- `1 << hash_size_log` has to fit an `int`
    if hashSizeLog < 31 then
      let hashSize := 2 ^ hashSizeLog
      some {
        strbuf := newAllocNode 0 stringsSize
        databuf := newAllocNode 1 dataSize
        elemSize := dataElemSize
        hashSize := hashSize
        hashNodesSize := hashSize + hashSize / 2
        hashNodesFree := hashSize
        hashtab := 2
        nodes := fun i => if i < hashSize then some HashNode.zero else none
        chars := chars
        blocks := 3 }
    else none

namespace Strtab

/-- A node is read through a pointer. -/
def read (t : Strtab) (p : Addr) : Option HashNode :=
  if p.1 = t.hashtab ∧ p.2 < t.hashNodesSize then t.nodes p.2 else none

/-- A node is written through a pointer. -/
def write (t : Strtab) (p : Addr) (n : HashNode) : Option Strtab :=
  if p.1 = t.hashtab ∧ p.2 < t.hashNodesSize then
    some { t with nodes := Function.update t.nodes p.2 (some n) }
  else none

end Strtab

/-- `strcmp(p, str) == 0`. -/
def strcmp (chars : Addr → UInt8) (p : Addr) : List UInt8 → Bool
  | [] => chars p == 0
  | c :: str => chars p == c && strcmp chars (p.1, p.2 + 1) str

/-- `strcpy`. -/
def strcpy (chars : Addr → UInt8) (p : Addr) : List UInt8 → Addr → UInt8
  | [] => Function.update chars p 0
  | c :: str => strcpy (Function.update chars p c) (p.1, p.2 + 1) str

/-- What the search in a bucket ends with: the node of the string, or a pointer to the last
node. -/
inductive Search
  | found (node : HashNode)
  | last (prev : Addr)

/-- Whether a node is that of the string. -/
def HashNode.isFor (n : HashNode) (chars : Addr → UInt8) (hash : UInt32) (str : CString) :
    Option Bool :=
  if n.hash = hash then n.str.map fun s => strcmp chars s str.val else some false

/-- The loop of `add_str`.  A list with more nodes than there are in the array has a cycle. -/
def findNode (t : Strtab) (hash : UInt32) (str : CString) : ℕ → Addr → Option Search
  | 0, _ => none
  | fuel + 1, node => do
      let n ← t.read node
      let same ← n.isFor t.chars hash str
      if same then some (.found n)
      else
        match n.next with
        | none => some (.last node)
        | some next => findNode t hash str fuel next

section Realloc

variable (inPlace : ℕ → Bool)

/-- `new_hash_node`; `inPlace` says whether `xrealloc` extends the array to that many nodes where
it is. -/
def newHashNode (t : Strtab) : Strtab × Addr :=
  let t :=
    if t.hashNodesFree = t.hashNodesSize then
      let size := t.hashNodesSize * 2
      if inPlace size then { t with hashNodesSize := size }
      else { t with hashNodesSize := size, hashtab := t.blocks, blocks := t.blocks + 1 }
    else t
  ({ t with hashNodesFree := t.hashNodesFree + 1 }, (t.hashtab, t.hashNodesFree))

/-- What `add_str` returns, and what it stores through `pstr` and `pdata`. -/
structure Added where
  ret : ℕ
  pstr : Option Addr
  pdata : Option Addr
  deriving DecidableEq, Repr

/-- The end of `add_str`, where the node is filled in. -/
def fillNode (t : Strtab) (node : Addr) (hash : UInt32) (str : CString) :
    Option (Strtab × Added) :=
  let (s, strbuf, blocks) := alloc t.strbuf t.blocks (str.val.length + 1)
  let chars := strcpy t.chars s str.val
  let (data, databuf, blocks) := alloc t.databuf blocks t.elemSize
  ({ t with strbuf, databuf, chars, blocks }.write node ⟨hash, some s, some data, none⟩).map
    fun t => (t, ⟨1, some s, some data⟩)

/-- The node for a string that is not in its bucket: a new one, linked to the last node. -/
def appendNode (t : Strtab) (prev : Addr) : Option (Strtab × Addr) := do
  let (t, node) := newHashNode inPlace t
  let p ← t.read prev
  let t ← t.write prev { p with next := some node }
  return (t, node)

/-- `add_str`. -/
def addStr (t : Strtab) (str : CString) : Option (Strtab × Added) := do
  let hash := fnvHash str
  let index := hash.toNat &&& (t.hashSize - 1)
  let node := (t.hashtab, index)
  let n ← t.read node
  if n.hash ≠ 0 then
    match ← findNode t hash str t.hashNodesFree node with
    | .found n => return (t, ⟨0, n.str, n.data⟩)
    | .last prev =>
        let (t, node) ← appendNode inPlace t prev
        fillNode t node hash str
  else fillNode t node hash str

/-- Strings are added one after the other. -/
def addStrs (t : Strtab) : List CString → Option (Strtab × List Added)
  | [] => some (t, [])
  | str :: strs => do
      let (t, r) ← addStr inPlace t str
      let (t, rs) ← addStrs t strs
      return (t, r :: rs)

end Realloc

end Javalette.Mem
