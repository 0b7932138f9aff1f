import Mathlib.Order.Basic
import Mathlib.Data.Nat.Notation
import Mathlib.Order.Nat

/-!
# `mem.c`: small objects that are never freed

`malloc` numbers the blocks of memory that it hands out, and an address is an offset in a block.
Sizes are natural numbers: memory does not run out here.
-/

namespace Javalette.Mem

/-- An address: a block and an offset in it. -/
abbrev Addr := ℕ × ℕ

/-- `alloc_t`: the node `first_free`, which is the last one.  The nodes before it are only there to
be freed. -/
structure Alloc where
  pool : ℕ
  poolSize : ℕ
  poolFree : ℕ
  deriving DecidableEq, Repr

/-- `new_alloc_node`, for the next block. -/
def newAllocNode (blocks poolSize : ℕ) : Alloc := ⟨blocks, poolSize, 0⟩

/-- `alloc`, with the number of blocks so far. -/
def alloc (alc : Alloc) (blocks size : ℕ) : Addr × Alloc × ℕ :=
  let (node, blocks) :=
    if alc.poolFree + size > alc.poolSize then
      (newAllocNode blocks (max size (alc.poolSize * 2)), blocks + 1)
    else (alc, blocks)
  ((node.pool, node.poolFree), { node with poolFree := node.poolFree + size }, blocks)

/-- The `n` bytes at `p` and the `m` bytes at `q` have none in common. -/
def Apart (p : Addr) (n : ℕ) (q : Addr) (m : ℕ) : Prop :=
  p.1 ≠ q.1 ∨ p.2 + n ≤ q.2 ∨ q.2 + m ≤ p.2

lemma Apart.symm {p q : Addr} {n m : ℕ} (h : Apart p n q m) : Apart q m p n :=
  h.imp Ne.symm Or.symm

namespace Alloc

/-- The `n` bytes at `p` are not free: they are in the used part of the last pool, or in a pool
before it. -/
def Used (alc : Alloc) (blocks : ℕ) (p : Addr) (n : ℕ) : Prop :=
  p.1 = alc.pool ∧ p.2 + n ≤ alc.poolFree ∨ p.1 ≠ alc.pool ∧ p.1 < blocks

variable {alc : Alloc} {blocks : ℕ} {p : Addr} {n : ℕ}

lemma Used.mono (h : alc.Used blocks p n) {blocks' : ℕ} (hle : blocks ≤ blocks') :
    alc.Used blocks' p n :=
  h.imp_right fun ⟨hne, hlt⟩ => ⟨hne, lt_of_lt_of_le hlt hle⟩

/-- What `alloc` does: the bytes that it returns were free, and what was not free stays so. -/
structure Grants (alc : Alloc) (blocks size : ℕ) (p : Addr) (alc' : Alloc) (blocks' : ℕ) :
    Prop where
  le : blocks ≤ blocks'
  pool : alc'.pool < blocks'
  used : alc'.Used blocks' p size
  keeps : ∀ q n, alc.Used blocks q n → alc'.Used blocks' q n
  apart : ∀ q n, alc.Used blocks q n → Apart q n p size

lemma alloc_grants (hpool : alc.pool < blocks) (size : ℕ) :
    alc.Grants blocks size (alloc alc blocks size).1 (alloc alc blocks size).2.1
      (alloc alc blocks size).2.2 := by
  unfold alloc
  by_cases hfull : alc.poolFree + size > alc.poolSize
  · -- a new pool
    simp only [if_pos hfull, newAllocNode]
    have hold : ∀ q n, alc.Used blocks q n → q.1 < blocks := by
      rintro q n (⟨hq, -⟩ | ⟨-, hq⟩)
      · exact hq ▸ hpool
      · exact hq
    refine ⟨Nat.le_succ _, Nat.lt_succ_self _, .inl ⟨rfl, le_rfl⟩, fun q n h => ?_, fun q n h => ?_⟩
    · exact .inr ⟨(hold q n h).ne, Nat.lt_succ_of_lt (hold q n h)⟩
    · exact .inl (hold q n h).ne
  · simp only [if_neg hfull]
    refine ⟨le_rfl, hpool, .inl ⟨rfl, le_rfl⟩, fun q n h => ?_, fun q n h => ?_⟩
    · exact h.imp_left fun ⟨hq, hle⟩ => ⟨hq, hle.trans (Nat.le_add_right _ _)⟩
    · exact h.elim (fun ⟨_, hle⟩ => .inr (.inl hle)) fun ⟨hne, _⟩ => .inl hne

end Alloc

end Javalette.Mem
