import Javalette.Library.LinkedList
import Mathlib.Data.List.Nodup
import Mathlib.Data.List.Range

/-!
# `mem.c`: the pool of objects of one size

A free slot of a node holds the address of the next free one.  The nodes stay in the order of
`nodes`, where new ones come last, and a node is its number in it; those that are not full are
linked by `next_free` from `first_free` on, in another order.  The field of a full node keeps its
old value.

A word of memory is an address or null, and what the users of the pool write into their slots is
arbitrary.  Sizes are natural numbers, and memory does not run out; the data of a new node is at
an address that `malloc` chooses.  Following a null pointer yields `none`.
-/

namespace Javalette.Mem

/-- The words of memory. -/
abbrev Words := ℕ → Option ℕ

/-- `pool_node_t`, less the link to the next node. -/
structure PoolNode where
  size : ℕ
  data : ℕ
  firstFree : Option ℕ
  nextFree : Option ℕ

/-- `pool_t`, with the memory it is in. -/
structure Pool where
  elemSize : ℕ
  firstFree : Option ℕ
  nodes : List PoolNode
  words : Words

/-- The loop of `make_free_list`. -/
def linkSlots (elemSize stop : ℕ) : ℕ → Words → ℕ → Option Words
  | 0, _, _ => none
  | fuel + 1, words, ptr =>
      if ptr = stop then some words
      else
        let next := ptr + elemSize
        linkSlots elemSize stop fuel (Function.update words ptr (some next)) next

/-- `make_free_list`. -/
def makeFreeList (fuel : ℕ) (words : Words) (ptr stop elemSize : ℕ) : Option Words := do
  let words ← linkSlots elemSize stop fuel words ptr
  return Function.update words (stop - elemSize) none

/-- `new_pool_node`, with the data at the address `data`. -/
def newPoolNode (words : Words) (data size elemSize : ℕ) : Option (PoolNode × Words) := do
  let bytes := size * elemSize
  let words ← makeFreeList (size + 1) words data (data + bytes) elemSize
  return (⟨bytes, data, some data, none⟩, words)

/-- `new_pool`, where a pointer has `ptrSize` bytes. -/
def newPool (ptrSize : ℕ) (words : Words) (data size elemSize : ℕ) : Option Pool := do
  let elemSize := if elemSize < ptrSize then ptrSize else elemSize
  let elemSize := elemSize + (ptrSize - 1)
  let elemSize := elemSize - (elemSize &&& (ptrSize - 1))
  let (node, words) ← newPoolNode words data size elemSize
  return ⟨elemSize, some 0, [node], words⟩

/-- `palloc`, with the address for the data of a new node. -/
def palloc (pool : Pool) (data : ℕ) : Option (ℕ × Pool) := do
  let i ← pool.firstFree
  let pn ← pool.nodes[i]?
  let ret ← pn.firstFree
  let next := pool.words ret
  let nodes := pool.nodes.set i { pn with firstFree := next }
  if next.isSome then return (ret, { pool with nodes := nodes })
  else if pn.nextFree.isSome then
    return (ret, { pool with nodes := nodes, firstFree := pn.nextFree })
  else do
    let last ← (nodes.drop i).getLast?
    let (node, words) ← newPoolNode pool.words data (last.size <<< 1) pool.elemSize
    return (ret, { pool with
      nodes := nodes ++ [node], firstFree := some nodes.length, words := words })

/-- `pfree`, with its assertion. -/
def pfree (pool : Pool) (ptr : ℕ) : Option Pool := do
  let i ← pool.nodes.findIdx? fun pn => pn.data ≤ ptr ∧ ptr < pn.data + pn.size
  let pn ← pool.nodes[i]?
  let next := pn.firstFree
  let words := Function.update pool.words ptr next
  if next.isSome then
    return { pool with nodes := pool.nodes.set i { pn with firstFree := some ptr }, words := words }
  else
    let pn := { pn with firstFree := some ptr, nextFree := pool.firstFree }
    return { pool with nodes := pool.nodes.set i pn, firstFree := some i, words := words }

/-! ## Runs -/

/-- The address `p` is that of a slot of the node. -/
def PoolNode.IsSlot (elemSize : ℕ) (pn : PoolNode) (p : ℕ) : Prop :=
  ∃ j, p = pn.data + j * elemSize ∧ p + elemSize ≤ pn.data + pn.size

/-- `malloc` would give the address `data` to the data of the next node. -/
def Pool.Fresh (pool : Pool) (data : ℕ) : Prop :=
  ∀ last ∈ pool.nodes.getLast?, ∀ pn ∈ pool.nodes,
    data + last.size * 2 * pool.elemSize ≤ pn.data ∨ pn.data + pn.size ≤ data

instance (pool : Pool) (data : ℕ) : Decidable (pool.Fresh data) :=
  inferInstanceAs (Decidable (∀ last ∈ pool.nodes.getLast?, ∀ pn ∈ pool.nodes,
    data + last.size * 2 * pool.elemSize ≤ pn.data ∨ pn.data + pn.size ≤ data))

/-- The pool and the slots in use, in any run on a new pool.  Between the calls the users of the
slots write what they like into them. -/
inductive PoolRun (ptrSize size elemSize : ℕ) : Pool → List ℕ → Prop
  | new (words : Words) (data : ℕ) {pool : Pool} :
      newPool ptrSize words data size elemSize = some pool →
        PoolRun ptrSize size elemSize pool []
  | palloc {pool pool' : Pool} {live : List ℕ} {data p : ℕ} :
      PoolRun ptrSize size elemSize pool live → pool.Fresh data →
        palloc pool data = some (p, pool') → PoolRun ptrSize size elemSize pool' (p :: live)
  | pfree {pool pool' : Pool} {live : List ℕ} {p : ℕ} :
      PoolRun ptrSize size elemSize pool live → p ∈ live → pfree pool p = some pool' →
        PoolRun ptrSize size elemSize pool' (live.erase p)
  | write {pool : Pool} {live : List ℕ} {p a : ℕ} {w : Option ℕ} :
      PoolRun ptrSize size elemSize pool live → p ∈ live → p ≤ a → a < p + pool.elemSize →
        PoolRun ptrSize size elemSize { pool with words := Function.update pool.words a w } live

/-- The slots at `p` and `q` have no byte in common. -/
def SlotsApart (elemSize p q : ℕ) : Prop := p + elemSize ≤ q ∨ q + elemSize ≤ p

/-- The list of nodes that starts at `first_free`. -/
def Pool.FreeNodes (pool : Pool) (l : List ℕ) : Prop :=
  LinkedList.Segment id (fun _ next => next) (fun i => pool.nodes[i]?.map PoolNode.nextFree)
    pool.firstFree l none

/-- The node has a slot that is not in use. -/
def Pool.HasFree (pool : Pool) (live : List ℕ) (i : ℕ) : Prop :=
  ∃ pn, pool.nodes[i]? = some pn ∧ ∃ p, pn.IsSlot pool.elemSize p ∧ p ∉ live

/-! ## Free lists -/

/-- The slots at `q` and before it, as addresses. -/
def slotsFrom (elemSize data : ℕ) : ℕ → List ℕ
  | 0 => []
  | k + 1 => data :: slotsFrom elemSize (data + elemSize) k

/-- The free slots `l` are linked from `p` on, up to `q`. -/
def Linked (words : Words) (p : Option ℕ) (l : List ℕ) (q : Option ℕ) : Prop :=
  LinkedList.Segment id (fun _ next => next) (fun a => some (words a)) p l q

section Lists

variable {elemSize data k : ℕ} {words words' : Words} {p q : Option ℕ} {l : List ℕ}

@[simp] lemma linked_nil : Linked words p [] q ↔ p = q := Iff.rfl

@[simp] lemma linked_cons {a : ℕ} :
    Linked words p (a :: l) q ↔ p = some a ∧ Linked words (words a) l q := by
  simp [Linked, LinkedList.Segment]

lemma Linked.congr (h : Linked words p l q) (heq : ∀ a ∈ l, words' a = words a) :
    Linked words' p l q :=
  LinkedList.Segment.congr h fun a ha => congrArg some (heq a ha)

lemma mem_slotsFrom {a : ℕ} :
    a ∈ slotsFrom elemSize data k ↔ ∃ j < k, a = data + j * elemSize := by
  induction k generalizing data with
  | zero => simp [slotsFrom]
  | succ k ih =>
      rw [slotsFrom, List.mem_cons, ih]
      constructor
      · rintro (rfl | ⟨j, hj, rfl⟩)
        · exact ⟨0, k.succ_pos, by simp⟩
        · exact ⟨j + 1, by omega, by rw [Nat.succ_mul]; omega⟩
      · rintro ⟨j, hj, rfl⟩
        cases j with
        | zero => simp
        | succ j => exact .inr ⟨j, by omega, by rw [Nat.succ_mul]; omega⟩

lemma nodup_slotsFrom (h : 0 < elemSize) : (slotsFrom elemSize data k).Nodup := by
  induction k generalizing data with
  | zero => exact List.nodup_nil
  | succ k ih =>
      refine List.nodup_cons.mpr ⟨fun hmem => ?_, ih⟩
      obtain ⟨j, -, heq⟩ := mem_slotsFrom.mp hmem
      omega

lemma slotsFrom_succ : slotsFrom elemSize data (k + 1) =
    slotsFrom elemSize data k ++ [data + k * elemSize] := by
  induction k generalizing data with
  | zero => simp [slotsFrom]
  | succ k ih =>
      have hlast : data + elemSize + k * elemSize = data + (k + 1) * elemSize := by
        rw [Nat.succ_mul]
        omega
      rw [slotsFrom, ih, slotsFrom, hlast]
      rfl

/-- The loop links the slots up to its end, and leaves the other words alone. -/
lemma linkSlots_spec (h : 0 < elemSize) (k data : ℕ) (words : Words) :
    ∃ words', linkSlots elemSize (data + k * elemSize) (k + 1) words data = some words' ∧
      Linked words' (some data) (slotsFrom elemSize data k) (some (data + k * elemSize)) ∧
      ∀ a, a ∉ slotsFrom elemSize data k → words' a = words a := by
  induction k generalizing data words with
  | zero => exact ⟨words, by simp [linkSlots], by simp [slotsFrom], fun _ _ => rfl⟩
  | succ k ih =>
      have hstop : data + (k + 1) * elemSize = data + elemSize + k * elemSize := by
        rw [Nat.succ_mul]
        omega
      obtain ⟨words', heq, hl, hframe⟩ :=
        ih (data + elemSize) (Function.update words data (some (data + elemSize)))
      have hnot : data ∉ slotsFrom elemSize (data + elemSize) k := fun hmem => by
        obtain ⟨j, -, heq⟩ := mem_slotsFrom.mp hmem
        omega
      have hne : data ≠ data + elemSize + k * elemSize := by omega
      refine ⟨words', ?_, ?_, fun a ha => ?_⟩
      · rw [linkSlots, hstop, if_neg hne]
        exact heq
      · rw [slotsFrom, linked_cons, hframe data hnot, Function.update_self, hstop]
        exact ⟨rfl, hl⟩
      · rw [slotsFrom, List.mem_cons, not_or] at ha
        rw [hframe a ha.2, Function.update_of_ne ha.1]

/-- **The list of a new node** has all its slots. -/
lemma makeFreeList_spec (h : 0 < elemSize) (k data : ℕ) (words : Words) :
    ∃ words', makeFreeList (k + 2) words data (data + (k + 1) * elemSize) elemSize =
        some words' ∧
      Linked words' (some data) (slotsFrom elemSize data (k + 1)) none ∧
      ∀ a, a ∉ slotsFrom elemSize data (k + 1) → words' a = words a := by
  obtain ⟨words', heq, hl, hframe⟩ := linkSlots_spec h (k + 1) data words
  have hlast : data + (k + 1) * elemSize - elemSize = data + k * elemSize := by
    rw [Nat.succ_mul]
    omega
  have hnd : (slotsFrom elemSize data (k + 1)).Nodup := nodup_slotsFrom h
  rw [slotsFrom_succ] at hl hframe hnd ⊢
  rw [makeFreeList, heq, hlast]
  refine ⟨_, rfl, ?_, fun a ha => ?_⟩
  · obtain ⟨r, hl, hr, next, -, -⟩ := LinkedList.segment_append.mp hl
    refine LinkedList.segment_append.mpr ⟨r, Linked.congr hl fun a ha => ?_, hr, none, ?_, rfl⟩
    · refine Function.update_of_ne ?_ _ _
      rintro rfl
      exact (List.nodup_append.mp hnd).2.2 _ ha _ (List.mem_singleton_self _) rfl
    · exact congrArg some (Function.update_self ..)
  · rw [List.mem_append, List.mem_singleton, not_or] at ha
    rw [Function.update_of_ne ha.2]
    exact hframe a (by simpa using ha)

end Lists

/-! ## The slots of the nodes -/

/-- The data of the two nodes have no byte in common. -/
def PoolNode.Apart (pn pn' : PoolNode) : Prop :=
  pn.data + pn.size ≤ pn'.data ∨ pn'.data + pn'.size ≤ pn.data

/-- The data is made up of slots, and the free list has those that are not in use. -/
structure PoolNode.Sound (elemSize : ℕ) (words : Words) (live : List ℕ) (pn : PoolNode) : Prop where
  size : ∃ k, pn.size = (k + 1) * elemSize
  free : ∃ l, Linked words pn.firstFree l none ∧ l.Nodup ∧
    ∀ p, p ∈ l ↔ pn.IsSlot elemSize p ∧ p ∉ live

/-- Each node keeps its slots, and there are no other slots in use. -/
structure Slots (elemSize : ℕ) (nodes : List PoolNode) (words : Words) (live : List ℕ) : Prop where
  pos : 0 < elemSize
  sound : ∀ (i : ℕ) (pn : PoolNode), nodes[i]? = some pn → pn.Sound elemSize words live
  apart : ∀ (i j : ℕ) (pn pn' : PoolNode), nodes[i]? = some pn → nodes[j]? = some pn' → i ≠ j →
    pn.Apart pn'
  isSlot : ∀ p ∈ live, ∃ (i : ℕ) (pn : PoolNode), nodes[i]? = some pn ∧ pn.IsSlot elemSize p
  nodup : live.Nodup

namespace PoolNode

variable {elemSize : ℕ} {pn pn' : PoolNode} {words words' : Words} {live live' : List ℕ} {p q : ℕ}

lemma IsSlot.le (h : pn.IsSlot elemSize p) :
    pn.data ≤ p ∧ p + elemSize ≤ pn.data + pn.size := by
  obtain ⟨j, rfl, hle⟩ := h
  exact ⟨Nat.le_add_right _ _, hle⟩

/-- The slots depend on where the data is, not on the lists. -/
lemma IsSlot.congr (h : pn.IsSlot elemSize p) (hdata : pn'.data = pn.data)
    (hsize : pn'.size = pn.size) : pn'.IsSlot elemSize p := by
  obtain ⟨j, hp, hle⟩ := h
  exact ⟨j, hdata ▸ hp, by rw [hdata, hsize]; exact hle⟩

lemma isSlot_iff {k : ℕ} (hpos : 0 < elemSize) (hsize : pn.size = k * elemSize) :
    pn.IsSlot elemSize p ↔ p ∈ slotsFrom elemSize pn.data k := by
  rw [mem_slotsFrom]
  constructor
  · rintro ⟨j, rfl, hle⟩
    have hmul : (j + 1) * elemSize ≤ k * elemSize := by
      rw [Nat.succ_mul, ← hsize]
      omega
    exact ⟨j, Nat.le_of_mul_le_mul_right hmul hpos, rfl⟩
  · rintro ⟨j, hj, rfl⟩
    have hmul : (j + 1) * elemSize ≤ k * elemSize := Nat.mul_le_mul_right _ hj
    refine ⟨j, rfl, ?_⟩
    rw [Nat.succ_mul] at hmul
    omega

/-- Two slots of one node. -/
lemma IsSlot.slotsApart (h : pn.IsSlot elemSize p) (h' : pn.IsSlot elemSize q) (hne : p ≠ q) :
    SlotsApart elemSize p q := by
  obtain ⟨i, rfl, -⟩ := h
  obtain ⟨j, rfl, -⟩ := h'
  rcases lt_trichotomy i j with hij | rfl | hij
  · have := Nat.mul_le_mul_right elemSize (Nat.succ_le_of_lt hij)
    rw [Nat.succ_mul] at this
    exact .inl (by omega)
  · exact absurd rfl hne
  · have := Nat.mul_le_mul_right elemSize (Nat.succ_le_of_lt hij)
    rw [Nat.succ_mul] at this
    exact .inr (by omega)

/-- What happens in the slots of other nodes does not concern a node. -/
lemma Sound.congr (h : pn.Sound elemSize words live)
    (hwords : ∀ p, pn.IsSlot elemSize p → p ∉ live → words' p = words p)
    (hlive : ∀ p, pn.IsSlot elemSize p → (p ∈ live' ↔ p ∈ live)) :
    pn.Sound elemSize words' live' := by
  obtain ⟨l, hl, hnd, hmem⟩ := h.free
  refine ⟨h.size, l, hl.congr fun p hp => ?_, hnd, fun p => ?_⟩
  · exact hwords p ((hmem p).mp hp).1 ((hmem p).mp hp).2
  · rw [hmem]
    exact and_congr_right fun hp => not_congr (hlive p hp).symm

/-- A node keeps its place when one of the nodes gets other lists. -/
lemma of_set {nodes : List PoolNode} {i j : ℕ} {pj : PoolNode} (hi : nodes[i]? = some pn)
    (hdata : pn'.data = pn.data) (hsize : pn'.size = pn.size)
    (hj : (nodes.set i pn')[j]? = some pj) :
    ∃ pj₀ : PoolNode, nodes[j]? = some pj₀ ∧ pj.data = pj₀.data ∧ pj.size = pj₀.size := by
  by_cases hij : i = j
  · subst hij
    rw [List.getElem?_set_self (List.getElem?_eq_some_iff.mp hi).1] at hj
    obtain rfl := Option.some.inj hj
    exact ⟨pn, hi, hdata, hsize⟩
  · rw [List.getElem?_set_ne hij] at hj
    exact ⟨pj, hj, rfl, rfl⟩

end PoolNode

namespace Slots

variable {elemSize : ℕ} {nodes : List PoolNode} {words : Words} {live : List ℕ} {pn pn' : PoolNode}
  {p q i j : ℕ}

/-- A slot belongs to one node. -/
lemma index_eq (h : Slots elemSize nodes words live) (hi : nodes[i]? = some pn)
    (hj : nodes[j]? = some pn') (hp : pn.IsSlot elemSize p) (hp' : pn'.IsSlot elemSize p) :
    i = j := by
  by_contra hne
  have hpos := h.pos
  have hle := hp.le
  have hle' := hp'.le
  rcases h.apart i j pn pn' hi hj hne with ha | ha
  · omega
  · omega

/-- Two slots. -/
lemma slotsApart (h : Slots elemSize nodes words live) (hi : nodes[i]? = some pn)
    (hj : nodes[j]? = some pn') (hp : pn.IsSlot elemSize p) (hq : pn'.IsSlot elemSize q)
    (hne : p ≠ q) : SlotsApart elemSize p q := by
  by_cases hij : i = j
  · subst hij
    obtain rfl := Option.some.inj (hi.symm.trans hj)
    exact hp.slotsApart hq hne
  · have hle := hp.le
    have hle' := hq.le
    rcases h.apart i j pn pn' hi hj hij with ha | ha
    · exact .inl (by omega)
    · exact .inr (by omega)

/-- A node gets other lists, and nothing happens outside its slots. -/
lemma set (h : Slots elemSize nodes words live) (hi : nodes[i]? = some pn) {words' : Words}
    {live' : List ℕ} (hdata : pn'.data = pn.data) (hsize : pn'.size = pn.size)
    (hpn : pn'.Sound elemSize words' live')
    (hwords : ∀ q, ¬pn.IsSlot elemSize q → words' q = words q)
    (hlive : ∀ q, ¬pn.IsSlot elemSize q → (q ∈ live' ↔ q ∈ live)) (hnd : live'.Nodup) :
    Slots elemSize (nodes.set i pn') words' live' := by
  have hlt : i < nodes.length := (List.getElem?_eq_some_iff.mp hi).1
  have hself : (nodes.set i pn')[i]? = some pn' := List.getElem?_set_self hlt
  have hother : ∀ {j}, i ≠ j → (nodes.set i pn')[j]? = nodes[j]? :=
    fun hne => List.getElem?_set_ne hne
  refine ⟨h.pos, fun j pj hj => ?_, fun j k pj pk hj hk hne => ?_, fun q hq => ?_, hnd⟩
  · by_cases hij : i = j
    · subst hij
      obtain rfl := Option.some.inj (hself.symm.trans hj)
      exact hpn
    · rw [hother hij] at hj
      -- the slots of two nodes are apart, so the other nodes keep their words
      have hnot : ∀ q, pj.IsSlot elemSize q → ¬pn.IsSlot elemSize q :=
        fun q hq hq' => hij (h.index_eq hi hj hq' hq)
      exact (h.sound j pj hj).congr (fun q hq _ => hwords q (hnot q hq))
        fun q hq => hlive q (hnot q hq)
  · obtain ⟨pj₀, hj₀, hdj, hsj⟩ := PoolNode.of_set hi hdata hsize hj
    obtain ⟨pk₀, hk₀, hdk, hsk⟩ := PoolNode.of_set hi hdata hsize hk
    have hap := h.apart j k pj₀ pk₀ hj₀ hk₀ hne
    rw [PoolNode.Apart] at hap ⊢
    rw [hdj, hsj, hdk, hsk]
    exact hap
  · by_cases hslot : pn.IsSlot elemSize q
    · exact ⟨i, pn', hself, hslot.congr hdata hsize⟩
    · obtain ⟨j, pj, hj, hqj⟩ := h.isSlot q ((hlive q hslot).mp hq)
      have hij : i ≠ j := by
        rintro rfl
        obtain rfl := Option.some.inj (hi.symm.trans hj)
        exact hslot hqj
      exact ⟨j, pj, (hother hij).trans hj, hqj⟩

/-- **Taking** the first free slot of a node. -/
lemma take (h : Slots elemSize nodes words live) (hi : nodes[i]? = some pn)
    (hp : pn.firstFree = some p) :
    Slots elemSize (nodes.set i { pn with firstFree := words p }) words (p :: live) ∧
      pn.IsSlot elemSize p ∧ p ∉ live := by
  obtain ⟨l, hl, hnd, hmem⟩ := (h.sound i pn hi).free
  cases l with
  | nil => cases hp.symm.trans hl
  | cons a l =>
      obtain ⟨ha, hl⟩ := linked_cons.mp hl
      obtain rfl := Option.some.inj (hp.symm.trans ha)
      obtain ⟨hslot, hnot⟩ := (hmem p).mp List.mem_cons_self
      obtain ⟨hpl, hnd⟩ := List.nodup_cons.mp hnd
      refine ⟨h.set hi rfl rfl ⟨(h.sound i pn hi).size, l, hl, hnd, fun q => ?_⟩ (fun _ _ => rfl)
        (fun q hq => ?_) (List.nodup_cons.mpr ⟨hnot, h.nodup⟩), hslot, hnot⟩
      · have hq := hmem q
        rw [List.mem_cons] at hq ⊢
        constructor
        · intro hql
          obtain ⟨hs, hn⟩ := hq.mp (.inr hql)
          refine ⟨hs.congr rfl rfl, not_or.mpr ⟨?_, hn⟩⟩
          rintro rfl
          exact hpl hql
        · rintro ⟨hs, hn⟩
          rw [not_or] at hn
          exact (hq.mpr ⟨hs.congr rfl rfl, hn.2⟩).resolve_left hn.1
      · rw [List.mem_cons]
        refine or_iff_right ?_
        rintro rfl
        exact hq hslot

/-- **Giving back** a slot to its node. -/
lemma give (h : Slots elemSize nodes words live) (hi : nodes[i]? = some pn) (hp : p ∈ live)
    (hslot : pn.IsSlot elemSize p) (next : Option ℕ) :
    Slots elemSize (nodes.set i { pn with firstFree := some p, nextFree := next })
      (Function.update words p pn.firstFree) (live.erase p) := by
  obtain ⟨l, hl, hnd, hmem⟩ := (h.sound i pn hi).free
  have hpl : p ∉ l := fun hpl => ((hmem p).mp hpl).2 hp
  have herase : ∀ q, q ∈ live.erase p ↔ q ≠ p ∧ q ∈ live := fun q => h.nodup.mem_erase_iff
  refine h.set hi rfl rfl ⟨(h.sound i pn hi).size, p :: l, ?_, List.nodup_cons.mpr ⟨hpl, hnd⟩,
    fun q => ?_⟩ (fun q hq => ?_) (fun q hq => ?_) (h.nodup.erase p)
  · refine linked_cons.mpr ⟨rfl, ?_⟩
    rw [Function.update_self]
    refine hl.congr fun a ha => Function.update_of_ne ?_ _ _
    rintro rfl
    exact hpl ha
  · rw [List.mem_cons, hmem, herase]
    constructor
    · rintro (rfl | ⟨hs, hn⟩)
      · exact ⟨hslot.congr rfl rfl, fun hc => hc.1 rfl⟩
      · exact ⟨hs.congr rfl rfl, fun hc => hn hc.2⟩
    · rintro ⟨hs, hn⟩
      by_cases hqp : q = p
      · exact .inl hqp
      · exact .inr ⟨hs.congr rfl rfl, fun hc => hn ⟨hqp, hc⟩⟩
  · refine Function.update_of_ne ?_ _ _
    rintro rfl
    exact hq hslot
  · rw [herase]
    refine and_iff_right ?_
    rintro rfl
    exact hq hslot

/-- **A new node** after the others. -/
lemma add (h : Slots elemSize nodes words live) {words' : Words}
    (hpn : pn.Sound elemSize words' []) (hfresh : ∀ pn' ∈ nodes, pn.Apart pn')
    (hwords : ∀ q, ¬pn.IsSlot elemSize q → words' q = words q) :
    Slots elemSize (nodes ++ [pn]) words' live := by
  have hpos := h.pos
  -- an index of the longer list is one of before or that of the new node
  have hlast : ∀ {j : ℕ} {pj : PoolNode}, (nodes ++ [pn])[j]? = some pj →
      nodes[j]? = some pj ∨ j = nodes.length ∧ pj = pn := by
    intro j pj hj
    rcases lt_or_ge j nodes.length with hlt | hge
    · exact .inl ((List.getElem?_append_left hlt).symm.trans hj)
    · rw [List.getElem?_append_right hge] at hj
      have hlt := (List.getElem?_eq_some_iff.mp hj).1
      rw [List.length_singleton] at hlt
      exact .inr ⟨by omega, List.mem_singleton.mp (List.mem_of_getElem? hj)⟩
  have hnew : ∀ {j : ℕ} {pj : PoolNode}, nodes[j]? = some pj → pn.Apart pj :=
    fun hj => hfresh _ (List.mem_of_getElem? hj)
  have hout : ∀ {j : ℕ} {pj : PoolNode} {q : ℕ}, nodes[j]? = some pj → pj.IsSlot elemSize q →
      ¬pn.IsSlot elemSize q := by
    intro j pj q hj hq hq'
    have hle := hq.le
    have hle' := hq'.le
    rcases hnew hj with ha | ha <;> omega
  refine ⟨h.pos, fun j pj hj => ?_, fun j k pj pk hj hk hne => ?_, fun q hq => ?_, h.nodup⟩
  · rcases hlast hj with hj | ⟨-, rfl⟩
    · exact (h.sound j pj hj).congr (fun q hq _ => hwords q (hout hj hq)) fun _ _ => Iff.rfl
    · refine hpn.congr (fun _ _ _ => rfl) fun q hq => ?_
      simp only [List.not_mem_nil, iff_false]
      intro hlive
      obtain ⟨i, pi, hi, hqi⟩ := h.isSlot q hlive
      exact hout hi hqi hq
  · rcases hlast hj with hj' | ⟨hj', heq⟩
    · rcases hlast hk with hk' | ⟨-, heq⟩
      · exact h.apart j k pj pk hj' hk' hne
      · exact heq ▸ (hnew hj').symm
    · rcases hlast hk with hk' | ⟨hk', -⟩
      · exact heq ▸ hnew hk'
      · exact absurd (hj'.trans hk'.symm) hne
  · obtain ⟨i, pi, hi, hqi⟩ := h.isSlot q hq
    refine ⟨i, pi, ?_, hqi⟩
    rw [List.getElem?_append_left (List.getElem?_eq_some_iff.mp hi).1]
    exact hi

/-- **Writing** into a slot in use. -/
lemma write (h : Slots elemSize nodes words live) (hp : p ∈ live) {a : ℕ} (hle : p ≤ a)
    (hlt : a < p + elemSize) (w : Option ℕ) :
    Slots elemSize nodes (Function.update words a w) live := by
  obtain ⟨i, pi, hi, hpi⟩ := h.isSlot p hp
  have hpos := h.pos
  refine ⟨h.pos, fun j pj hj => ?_, h.apart, h.isSlot, h.nodup⟩
  refine (h.sound j pj hj).congr (fun q hq hnot => ?_) fun _ _ => Iff.rfl
  refine Function.update_of_ne ?_ _ _
  rintro rfl
  have hne : p ≠ q := by
    rintro rfl
    exact hnot hp
  rcases h.slotsApart hi hj hpi hq hne with ha | ha <;> omega

/-- A node is full exactly when all its slots are in use. -/
lemma firstFree_ne_none (h : Slots elemSize nodes words live) (hi : nodes[i]? = some pn) :
    pn.firstFree ≠ none ↔ ∃ p, pn.IsSlot elemSize p ∧ p ∉ live := by
  obtain ⟨l, hl, -, hmem⟩ := (h.sound i pn hi).free
  cases l with
  | nil =>
      have hnone : pn.firstFree = none := hl
      rw [hnone]
      exact iff_of_false (fun hne => hne rfl) fun ⟨p, hp⟩ => List.not_mem_nil ((hmem p).mpr hp)
  | cons p l =>
      obtain ⟨hp, -⟩ := linked_cons.mp hl
      exact iff_of_true (by rw [hp]; simp) ⟨p, (hmem p).mp List.mem_cons_self⟩

end Slots

/-- A new node, all of whose slots are free. -/
lemma newPoolNode_spec {elemSize : ℕ} (h : 0 < elemSize) (words : Words) (data k : ℕ) :
    ∃ pn words', newPoolNode words data (k + 1) elemSize = some (pn, words') ∧
      pn.data = data ∧ pn.size = (k + 1) * elemSize ∧ pn.firstFree = some data ∧
      pn.nextFree = none ∧ pn.Sound elemSize words' [] ∧
      ∀ q, ¬pn.IsSlot elemSize q → words' q = words q := by
  obtain ⟨words', heq, hl, hframe⟩ := makeFreeList_spec h k data words
  refine ⟨⟨(k + 1) * elemSize, data, some data, none⟩, words', ?_, rfl, rfl, rfl, rfl, ⟨⟨k, rfl⟩, _,
    hl, nodup_slotsFrom h, fun p => ?_⟩, fun q hq => hframe q fun hmem => hq ?_⟩
  · rw [newPoolNode, heq]
    rfl
  · rw [PoolNode.isSlot_iff h rfl]
    simp
  · exact (PoolNode.isSlot_iff h rfl).mpr hmem

/-! ## The list of the nodes that are not full -/

/-- The list from `first` on has the nodes that are not full, and there is one. -/
def Chain (nodes : List PoolNode) (first : Option ℕ) : Prop :=
  ∃ l, LinkedList.Segment id (fun _ next => next) (fun i => nodes[i]?.map PoolNode.nextFree)
      first l none ∧ l.Nodup ∧ l ≠ [] ∧
    ∀ i, i ∈ l ↔ ∃ pn, nodes[i]? = some pn ∧ pn.firstFree ≠ none

namespace Chain

variable {nodes : List PoolNode} {first : Option ℕ} {pn pn' : PoolNode} {i : ℕ}

/-- The first node of the list, and the rest. -/
lemma cons (h : Chain nodes first) : ∃ (i : ℕ) (pn : PoolNode) (p : ℕ), first = some i ∧
    nodes[i]? = some pn ∧ pn.firstFree = some p := by
  obtain ⟨l, hl, -, hne, hmem⟩ := h
  cases l with
  | nil => exact absurd rfl hne
  | cons i l =>
      obtain ⟨pn, hi, hfree⟩ := (hmem i).mp List.mem_cons_self
      obtain ⟨p, hp⟩ := Option.ne_none_iff_exists'.mp hfree
      exact ⟨i, pn, p, hl.1, hi, hp⟩

/-- Which nodes are not full, after one node has changed. -/
lemma free_set (hi : nodes[i]? = some pn) {j : ℕ} :
    (∃ pj, (nodes.set i pn')[j]? = some pj ∧ pj.firstFree ≠ none) ↔
      if j = i then pn'.firstFree ≠ none
      else ∃ pj, nodes[j]? = some pj ∧ pj.firstFree ≠ none := by
  have hlt : i < nodes.length := (List.getElem?_eq_some_iff.mp hi).1
  split
  · rename_i hj
    subst hj
    rw [List.getElem?_set_self hlt]
    simp
  · rename_i hj
    rw [List.getElem?_set_ne (Ne.symm hj)]

/-- A node that is not full and stays so. -/
lemma keep (h : Chain nodes first) (hi : nodes[i]? = some pn) (hfree : pn.firstFree ≠ none)
    (hfree' : pn'.firstFree ≠ none) (hnext : pn'.nextFree = pn.nextFree) :
    Chain (nodes.set i pn') first := by
  obtain ⟨l, hl, hnd, hne, hmem⟩ := h
  have hlt : i < nodes.length := (List.getElem?_eq_some_iff.mp hi).1
  refine ⟨l, LinkedList.Segment.congr hl fun j _ => ?_, hnd, hne, fun j => ?_⟩
  · by_cases hj : i = j
    · subst hj
      simp [List.getElem?_set_self hlt, hi, hnext]
    · simp [List.getElem?_set_ne hj]
  · rw [free_set hi, hmem]
    split
    · rename_i hj
      subst hj
      exact iff_of_true ⟨pn, hi, hfree⟩ hfree'
    · rfl

/-- The first node is full now, and there are others. -/
lemma drop (h : Chain nodes (some i)) (hi : nodes[i]? = some pn) (hnext : pn.nextFree ≠ none)
    (hfull : pn'.firstFree = none) : Chain (nodes.set i pn') pn.nextFree := by
  obtain ⟨l, hl, hnd, hne, hmem⟩ := h
  cases l with
  | nil => exact absurd rfl hne
  | cons j l =>
      obtain ⟨hij, next, hj, hl⟩ := hl
      obtain rfl : i = j := Option.some.inj hij
      obtain ⟨hil, hnd⟩ := List.nodup_cons.mp hnd
      have hnext' : next = pn.nextFree := by simpa [hi] using hj.symm
      rw [← hnext']
      refine ⟨l, LinkedList.Segment.congr hl fun j hj => ?_, hnd, ?_, fun j => ?_⟩
      · have hne : i ≠ j := by
          rintro rfl
          exact hil hj
        simp [List.getElem?_set_ne hne]
      · rintro rfl
        exact hnext (hnext' ▸ hl)
      · rw [free_set hi]
        have hmemj := hmem j
        rw [List.mem_cons] at hmemj
        split
        · rename_i hj
          subst hj
          exact iff_of_false hil fun hc => hc hfull
        · rename_i hj
          rw [← hmemj]
          exact (or_iff_right hj).symm

/-- The only node of the list is full now, and a new one is the only one. -/
lemma grow (h : Chain nodes (some i)) (hi : nodes[i]? = some pn) (hnext : pn.nextFree = none)
    (hfull : pn'.firstFree = none) {new : PoolNode} (hnew : new.firstFree ≠ none)
    (hlast : new.nextFree = none) :
    Chain (nodes.set i pn' ++ [new]) (some (nodes.set i pn').length) := by
  obtain ⟨l, hl, hnd, hne, hmem⟩ := h
  -- the chain had the one node `i`, which is full now
  have honly : ∀ j, (∃ pj, nodes[j]? = some pj ∧ pj.firstFree ≠ none) ↔ j = i := by
    cases l with
    | nil => exact absurd rfl hne
    | cons j l =>
        obtain ⟨hij, next, hj, hl⟩ := hl
        obtain rfl : i = j := Option.some.inj hij
        have hnext' : next = none := by simpa [hi, hnext] using hj.symm
        rw [hnext'] at hl
        cases l with
        | nil =>
            intro j
            rw [← hmem, List.mem_singleton]
        | cons k l => cases hl.1
  have hget : (nodes.set i pn' ++ [new])[(nodes.set i pn').length]? = some new := by simp
  refine ⟨[(nodes.set i pn').length], ⟨rfl, none, ?_, rfl⟩, List.nodup_singleton _, by simp,
    fun j => ?_⟩
  · simp [hlast]
  · rw [List.mem_singleton]
    rcases lt_trichotomy j (nodes.set i pn').length with hlt | rfl | hgt
    · rw [List.getElem?_append_left hlt, free_set hi, honly]
      refine iff_of_false hlt.ne ?_
      split
      · exact fun hc => hc hfull
      · assumption
    · exact iff_of_true rfl ⟨new, hget, hnew⟩
    · have hnone : (nodes.set i pn' ++ [new])[j]? = none := by
        rw [List.getElem?_eq_none_iff, List.length_append, List.length_singleton]
        omega
      exact iff_of_false hgt.ne' fun ⟨pj, hj, _⟩ => Option.some_ne_none pj (hj.symm.trans hnone)

/-- A full node gets a free slot, and becomes the first one. -/
lemma push (h : Chain nodes first) (hi : nodes[i]? = some pn) (hfull : pn.firstFree = none)
    (hfree : pn'.firstFree ≠ none) (hnext : pn'.nextFree = first) :
    Chain (nodes.set i pn') (some i) := by
  obtain ⟨l, hl, hnd, hne, hmem⟩ := h
  have hlt : i < nodes.length := (List.getElem?_eq_some_iff.mp hi).1
  have hil : i ∉ l := by
    rw [hmem]
    rintro ⟨pn₀, hi₀, hfree₀⟩
    obtain rfl := Option.some.inj (hi.symm.trans hi₀)
    exact hfree₀ hfull
  refine ⟨i :: l, ⟨rfl, first, ?_, LinkedList.Segment.congr hl fun j hj => ?_⟩,
    List.nodup_cons.mpr ⟨hil, hnd⟩, List.cons_ne_nil i l, fun j => ?_⟩
  · simp [List.getElem?_set_self hlt, hnext]
  · have hij : i ≠ j := by
      rintro rfl
      exact hil hj
    simp [List.getElem?_set_ne hij]
  · rw [free_set hi, List.mem_cons, hmem]
    split
    · rename_i hj
      exact iff_of_true (.inl hj) hfree
    · rename_i hj
      exact or_iff_right hj

end Chain

/-! ## The calls -/

/-- The invariant of a pool. -/
structure Pool.Sound (pool : Pool) (live : List ℕ) : Prop where
  slots : Slots pool.elemSize pool.nodes pool.words live
  chain : Chain pool.nodes pool.firstFree

/-- `new_pool`. -/
lemma newPool_spec {ptrSize k : ℕ} (hptr : 0 < ptrSize) (words : Words) (data elemSize : ℕ) :
    ∃ pool, newPool ptrSize words data (k + 1) elemSize = some pool ∧ pool.Sound [] := by
  obtain ⟨size, hsize⟩ : ∃ size, (if elemSize < ptrSize then ptrSize else elemSize) = size :=
    ⟨_, rfl⟩
  have hle : ptrSize ≤ size := by
    rw [← hsize]
    split <;> omega
  have hpos : 0 < size + (ptrSize - 1) - (size + (ptrSize - 1) &&& (ptrSize - 1)) := by
    have hand : size + (ptrSize - 1) &&& (ptrSize - 1) ≤ ptrSize - 1 := Nat.and_le_right
    omega
  obtain ⟨pn, words', heq, hdata, -, hfree, hnext, hsound, -⟩ :=
    newPoolNode_spec hpos words data k
  refine ⟨⟨_, some 0, [pn], words'⟩, ?_, ⟨hpos, fun i pi hi => ?_, fun i j pi pj hi hj hne => ?_,
    fun p hp => absurd hp List.not_mem_nil, List.nodup_nil⟩, [0], ⟨rfl, none, ?_, rfl⟩,
    List.nodup_singleton _, by simp, fun i => ?_⟩
  · simp only [newPool, hsize, heq]
    rfl
  · rw [List.mem_singleton.mp (List.mem_of_getElem? hi)]
    exact hsound
  · have hi' := (List.getElem?_eq_some_iff.mp hi).1
    have hj' := (List.getElem?_eq_some_iff.mp hj).1
    simp only [List.length_singleton] at hi' hj'
    omega
  · simp [hnext]
  · cases i with
    | zero => simp [hfree]
    | succ i => simp

/-- **`palloc`** returns a free slot. -/
lemma palloc_spec {pool : Pool} {live : List ℕ} (h : pool.Sound live) {data : ℕ}
    (hfresh : pool.Fresh data) :
    ∃ p pool', palloc pool data = some (p, pool') ∧ pool'.Sound (p :: live) ∧ p ∉ live ∧
      ∃ pn ∈ pool.nodes, pn.IsSlot pool.elemSize p := by
  obtain ⟨i, pn, p, hfirst, hi, hp⟩ := h.chain.cons
  obtain ⟨hslots, hslot, hnot⟩ := h.slots.take hi hp
  have hlt : i < pool.nodes.length := (List.getElem?_eq_some_iff.mp hi).1
  have hchain := hfirst ▸ h.chain
  have hret : p ∉ live ∧ ∃ pn ∈ pool.nodes, pn.IsSlot pool.elemSize p :=
    ⟨hnot, pn, List.mem_of_getElem? hi, hslot⟩
  cases hnext : pool.words p with
  | some q =>
      -- the node is not full
      refine ⟨p, { pool with nodes := pool.nodes.set i { pn with firstFree := pool.words p } }, ?_,
        ⟨hslots, ?_⟩, hret⟩
      · simp [palloc, hfirst, hi, hp, hnext]
      · exact h.chain.keep hi (by rw [hp]; simp) (by simp [hnext]) rfl
  | none =>
      cases hfree : pn.nextFree with
      | some j =>
          -- the node is full, but it is not the last of the list
          refine ⟨p, { pool with
            nodes := pool.nodes.set i { pn with firstFree := pool.words p }
            firstFree := pn.nextFree }, ?_, ⟨hslots, ?_⟩, hret⟩
          · simp [palloc, hfirst, hi, hp, hnext, hfree]
          · exact hchain.drop hi (by rw [hfree]; simp) hnext
      | none =>
          -- all nodes are full
          have hlen : (pool.nodes.set i { pn with firstFree := pool.words p }).length =
              pool.nodes.length := List.length_set
          obtain ⟨last, hlast⟩ : ∃ last, (pool.nodes.set i
              { pn with firstFree := pool.words p })[pool.nodes.length - 1]? = some last :=
            ⟨_, List.getElem?_eq_getElem (by omega)⟩
          obtain ⟨last₀, hlast₀, -, hsize⟩ := PoolNode.of_set hi (by rfl) (by rfl) hlast
          have hdrop : ((pool.nodes.set i { pn with firstFree := pool.words p }).drop i).getLast? =
              some last := by
            rw [List.getLast?_drop, if_neg (by rw [hlen]; omega), List.getLast?_eq_getElem?, hlen]
            exact hlast
          obtain ⟨m, hm⟩ := (h.slots.sound _ last₀ hlast₀).size
          obtain ⟨k, hk⟩ : ∃ k, last.size <<< 1 = k + 1 := by
            have hpos : 0 < (m + 1) * pool.elemSize := Nat.mul_pos m.succ_pos h.slots.pos
            rw [Nat.shiftLeft_eq, hsize, hm]
            exact ⟨(m + 1) * pool.elemSize * 2 - 1, by omega⟩
          obtain ⟨new, words', heq, hdata, hsize', hfirst', hnext', hsound, hwords⟩ :=
            newPoolNode_spec h.slots.pos pool.words data k
          refine ⟨p, { pool with
            nodes := pool.nodes.set i { pn with firstFree := pool.words p } ++ [new]
            firstFree := some (pool.nodes.set i { pn with firstFree := pool.words p }).length
            words := words' }, ?_, ⟨hslots.add hsound (fun pj hpj => ?_) hwords, ?_⟩, hret⟩
          · rw [hnext, hfree] at hdrop
            simp [palloc, hfirst, hi, hp, hnext, hfree, hdrop, hk, heq]
          · obtain ⟨j, hj⟩ := List.mem_iff_getElem?.mp hpj
            obtain ⟨pj₀, hj₀, hdj, hsj⟩ := PoolNode.of_set hi (by rfl) (by rfl) hj
            have hap := hfresh last₀ (by rw [List.getLast?_eq_getElem?]; exact hlast₀) pj₀
              (List.mem_of_getElem? hj₀)
            have hshift : last₀.size * 2 = k + 1 := by rw [← hk, hsize, Nat.shiftLeft_eq]
            rw [hshift] at hap
            rw [PoolNode.Apart, hdata, hsize', hdj, hsj]
            exact hap
          · exact hchain.grow hi hfree hnext (by rw [hfirst']; simp) hnext'

/-- **`pfree`** of a slot in use. -/
lemma pfree_spec {pool : Pool} {live : List ℕ} (h : pool.Sound live) {p : ℕ} (hp : p ∈ live) :
    ∃ pool', pfree pool p = some pool' ∧ pool'.Sound (live.erase p) := by
  obtain ⟨j, pj, hj, hslot⟩ := h.slots.isSlot p hp
  have hpos := h.slots.pos
  have hin : ∀ {i : ℕ} {pi : PoolNode}, pool.nodes[i]? = some pi → pi.data ≤ p →
      p < pi.data + pi.size → i = j := by
    intro i pi hi hle hlt
    by_contra hne
    have hsl := hslot.le
    rcases h.slots.apart i j pi pj hi hj hne with ha | ha <;> omega
  have hfind : pool.nodes.findIdx? (fun pn => pn.data ≤ p ∧ p < pn.data + pn.size) = some j := by
    have hjlt := (List.getElem?_eq_some_iff.mp hj).1
    have hjget := (List.getElem?_eq_some_iff.mp hj).2
    have hsl := hslot.le
    rw [List.findIdx?_eq_some_iff_getElem]
    refine ⟨hjlt, ?_, fun i hij => ?_⟩
    · rw [hjget, decide_eq_true_eq]
      omega
    · rw [decide_eq_true_eq]
      rintro ⟨hle, hlt⟩
      exact hij.ne (hin (List.getElem?_eq_getElem (hij.trans hjlt)) hle hlt)
  -- a node that was full is put in front of the chain of nodes with room
  cases hfree : pj.firstFree with
  | some q =>
      refine ⟨{ pool with
        nodes := pool.nodes.set j { pj with firstFree := some p }
        words := Function.update pool.words p pj.firstFree }, ?_, ?_, ?_⟩
      · rw [pfree, hfind]
        simp [hj, hfree]
      · exact h.slots.give hj hp hslot pj.nextFree
      · exact h.chain.keep hj (by rw [hfree]; simp) (by simp) rfl
  | none =>
      refine ⟨{ pool with
        nodes := pool.nodes.set j { pj with firstFree := some p, nextFree := pool.firstFree }
        firstFree := some j
        words := Function.update pool.words p pj.firstFree }, ?_, ?_, ?_⟩
      · rw [pfree, hfind]
        simp [hj, hfree]
      · exact h.slots.give hj hp hslot pool.firstFree
      · exact h.chain.push hj hfree (by simp) rfl

/-- The invariant holds in every run. -/
lemma PoolRun.sound {ptrSize size elemSize : ℕ} (hptr : 0 < ptrSize) (hsize : 0 < size)
    {pool : Pool} {live : List ℕ} (h : PoolRun ptrSize size elemSize pool live) :
    pool.Sound live := by
  induction h with
  | new words data h =>
      obtain ⟨k, rfl⟩ : ∃ k, size = k + 1 := ⟨size - 1, by omega⟩
      obtain ⟨pool', heq, hsound⟩ := newPool_spec (k := k) hptr words data elemSize
      obtain rfl := Option.some.inj (heq.symm.trans h)
      exact hsound
  | palloc _ hfresh h ih =>
      obtain ⟨p', pool', heq, hsound, -⟩ := palloc_spec ih hfresh
      obtain ⟨rfl, rfl⟩ := Prod.mk.inj (Option.some.inj (heq.symm.trans h))
      exact hsound
  | pfree _ hp h ih =>
      obtain ⟨pool', heq, hsound⟩ := pfree_spec ih hp
      obtain rfl := Option.some.inj (heq.symm.trans h)
      exact hsound
  | write _ hp hle hlt ih => exact ⟨ih.slots.write hp hle hlt _, ih.chain⟩

/-- What the users of a pool rely on. -/
structure Pool.Safe (pool : Pool) (live : List ℕ) : Prop where
  palloc : ∀ data, pool.Fresh data → ∃ p pool', palloc pool data = some (p, pool') ∧
    (∃ pn ∈ pool.nodes, pn.IsSlot pool.elemSize p) ∧ p ∉ live
  pfree : ∀ p ∈ live, ∃ pool', pfree pool p = some pool'
  apart : live.Pairwise (SlotsApart pool.elemSize)
  freeNodes : ∃ l, pool.FreeNodes l ∧ l.Nodup ∧ l ≠ [] ∧ ∀ i, i ∈ l ↔ pool.HasFree live i

lemma Pool.Sound.safe {pool : Pool} {live : List ℕ} (h : pool.Sound live) : pool.Safe live where
  palloc data hfresh := by
    obtain ⟨p, pool', heq, -, hnot, hslot⟩ := palloc_spec h hfresh
    exact ⟨p, pool', heq, hslot, hnot⟩
  pfree p hp := by
    obtain ⟨pool', heq, -⟩ := pfree_spec h hp
    exact ⟨pool', heq⟩
  apart := by
    refine h.slots.nodup.imp_of_mem fun {p q} hp hq hne => ?_
    obtain ⟨i, pi, hi, hpi⟩ := h.slots.isSlot p hp
    obtain ⟨j, pj, hj, hqj⟩ := h.slots.isSlot q hq
    exact h.slots.slotsApart hi hj hpi hqj hne
  freeNodes := by
    obtain ⟨l, hl, hnd, hne, hmem⟩ := h.chain
    refine ⟨l, hl, hnd, hne, fun i => (hmem i).trans ?_⟩
    constructor
    · rintro ⟨pn, hi, hfree⟩
      exact ⟨pn, hi, (h.slots.firstFree_ne_none hi).mp hfree⟩
    · rintro ⟨pn, hi, hfree⟩
      exact ⟨pn, hi, (h.slots.firstFree_ne_none hi).mpr hfree⟩

/-- **The pool** never hands out a slot that is in use, and always has one to hand out. -/
theorem pool_safe {ptrSize size elemSize : ℕ} (hptr : 0 < ptrSize) (hsize : 0 < size) {pool : Pool}
    {live : List ℕ} (h : PoolRun ptrSize size elemSize pool live) : pool.Safe live :=
  (h.sound hptr hsize).safe

/-- With no elements at all, the end of the free list is written before the data of the node, and
the first slot that is handed out is none of its slots. -/
theorem pool_unsafe_empty : ¬∀ (ptrSize size elemSize : ℕ) (pool : Pool) (live : List ℕ),
    0 < ptrSize → PoolRun ptrSize size elemSize pool live → pool.Safe live := by
  intro h
  have hrun : PoolRun 8 0 8 ⟨8, some 0, [⟨0, 64, some 64, none⟩],
      Function.update (fun _ => none) 56 none⟩ [] := .new (fun _ => none) 64 rfl
  obtain ⟨p, pool', -, ⟨pn, hpn, hslot⟩, -⟩ :=
    (h 8 0 8 _ [] (by decide) hrun).palloc 1000 (by decide)
  obtain rfl := List.mem_singleton.mp hpn
  obtain ⟨hle, hle'⟩ := hslot.le
  dsimp only at hle hle'
  omega

/-- A pool for one element of four bytes on a machine whose pointers have eight: the first slot
fills the node, the next two are in a second one, and of the three the first two are given back.
The slot that is handed out then is the one of the first node. -/
theorem pool_safe_twoNodes : ∃ pool : Pool, PoolRun 8 1 4 pool [64, 1008] ∧
    pool.nodes.map PoolNode.data = [64, 1000] ∧ pool.Safe [64, 1008] := by
  have hnew : PoolRun 8 1 4 _ [] := .new (fun _ => none) 64 rfl
  have hfirst : PoolRun 8 1 4 _ [64] := .palloc hnew (show Pool.Fresh _ 1000 by decide) rfl
  have hsecond : PoolRun 8 1 4 _ [1000, 64] := .palloc hfirst (show Pool.Fresh _ 2000 by decide) rfl
  have hthird : PoolRun 8 1 4 _ [1008, 1000, 64] :=
    .palloc hsecond (show Pool.Fresh _ 2000 by decide) rfl
  have hback : PoolRun 8 1 4 _ [1008, 1000] := .pfree hthird (p := 64) (by decide) rfl
  have hback' : PoolRun 8 1 4 _ [1008] := .pfree hback (p := 1000) (by decide) rfl
  have hagain : PoolRun 8 1 4 _ [64, 1008] := .palloc hback' (show Pool.Fresh _ 2000 by decide) rfl
  exact ⟨_, hagain, rfl, pool_safe (by decide) (by decide) hagain⟩

end Javalette.Mem
