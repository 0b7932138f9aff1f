import Javalette.Mem.Strtab
import Javalette.Library.LinkedList
import Mathlib.Data.List.Nodup
import Mathlib.Data.List.Perm.Subperm
import Mathlib.Data.List.Infix
import Mathlib.Data.List.Pairwise

/-!
# What the string table keeps

`Chained` is the invariant of the nodes, where every bucket in use begins a linked list, and
`Stored` that of the strings and the records.  `addStr_known` and `addStr_new` are what one call
does, and `addStrs_faithful_iff` says for which runs the table is a map.

Two slips limit it: a hash of zero marks a free bucket, and a pointer to the last node of a list
is used after the array has been reallocated.
-/

namespace Javalette.Mem

open LinkedList

/-! ## Characters in the memory -/

/-- `strcpy` writes the characters of the string and the one that ends it. -/
lemma strcpy_apply_of_outside {chars : Addr → UInt8} {p q : Addr} {str : List UInt8}
    (h : q.1 ≠ p.1 ∨ q.2 < p.2 ∨ p.2 + str.length < q.2) : strcpy chars p str q = chars q := by
  induction str generalizing chars p with
  | nil =>
      rw [strcpy]
      apply Function.update_of_ne
      rintro rfl
      rcases h with h | h | h <;> simp at h
  | cons c str ih =>
      rw [List.length_cons] at h
      have hrest : q.1 ≠ p.1 ∨ q.2 < p.2 + 1 ∨ p.2 + 1 + str.length < q.2 := by omega
      rw [strcpy, ih hrest]
      apply Function.update_of_ne
      rintro rfl
      rcases h with h | h | h
      · exact h rfl
      · exact lt_irrefl _ h
      · omega

lemma strcmp_strcpy (chars : Addr → UInt8) (p : Addr) (str : List UInt8) :
    strcmp (strcpy chars p str) p str = true := by
  induction str generalizing chars p with
  | nil => simp [strcmp, strcpy]
  | cons c str ih =>
      have hfirst : strcpy chars p (c :: str) p = c := by
        rw [strcpy, strcpy_apply_of_outside (.inr (.inl (Nat.lt_succ_self _)))]
        exact Function.update_self _ _ _
      rw [strcmp, hfirst, beq_self_eq_true, Bool.true_and]
      exact ih _ _

lemma strcmp_congr {chars chars' : Addr → UInt8} {p : Addr} {str : List UInt8}
    (h : ∀ k ≤ str.length, chars' (p.1, p.2 + k) = chars (p.1, p.2 + k)) :
    strcmp chars' p str = strcmp chars p str := by
  induction str generalizing p with
  | nil =>
      have h₀ := h 0 (Nat.zero_le _)
      rw [strcmp, strcmp, show chars' p = chars p from h₀]
  | cons c str ih =>
      have h₀ : chars' p = chars p := h 0 (Nat.zero_le _)
      rw [strcmp, strcmp, h₀, ih fun k hk => ?_]
      have hk' := h (k + 1) (by rw [List.length_cons]; omega)
      rwa [show p.2 + (k + 1) = p.2 + 1 + k by omega] at hk'

/-- There is one string at an address. -/
lemma strcmp_unique {chars : Addr → UInt8} {p : Addr} {s s' : List UInt8} (hs : 0 ∉ s)
    (hs' : 0 ∉ s') (h : strcmp chars p s = true) (h' : strcmp chars p s' = true) : s = s' := by
  induction s generalizing p s' with
  | nil =>
      cases s' with
      | nil => rfl
      | cons c' s' =>
          rw [strcmp, beq_iff_eq] at h
          rw [strcmp, Bool.and_eq_true, beq_iff_eq, h] at h'
          exact absurd (h'.1 ▸ List.mem_cons_self) hs'
  | cons c s ih =>
      rw [strcmp, Bool.and_eq_true, beq_iff_eq] at h
      cases s' with
      | nil =>
          rw [strcmp, beq_iff_eq, h.1] at h'
          exact absurd (h' ▸ List.mem_cons_self) hs
      | cons c' s' =>
          rw [strcmp, Bool.and_eq_true, beq_iff_eq] at h'
          obtain rfl : c = c' := h.1.symm.trans h'.1
          rw [ih (fun hm => hs (List.mem_cons_of_mem _ hm))
            (fun hm => hs' (List.mem_cons_of_mem _ hm)) h.2 h'.2]

/-! ## The entries of a table -/

/-- A string of the table: the address of its node, and what the node points to. -/
structure Entry where
  addr : Addr
  str : CString
  pstr : Addr
  pdata : Addr

/-- The node of an entry. -/
def Entry.cell (e : Entry) (next : Option Addr) : HashNode :=
  ⟨fnvHash e.str, some e.pstr, some e.pdata, next⟩

/-- The bucket of a string. -/
def bucket (hashSize : ℕ) (str : CString) : ℕ := (fnvHash str).toNat &&& (hashSize - 1)

lemma bucket_lt {hashSize : ℕ} (h : 0 < hashSize) (str : CString) :
    bucket hashSize str < hashSize :=
  lt_of_le_of_lt Nat.and_le_right (Nat.sub_lt h Nat.one_pos)

/-- The entries of a bucket. -/
def chain (hashSize : ℕ) (es : List Entry) (b : ℕ) : List Entry :=
  es.filter fun e => bucket hashSize e.str = b

lemma mem_chain {hashSize b : ℕ} {es : List Entry} {e : Entry} :
    e ∈ chain hashSize es b ↔ e ∈ es ∧ bucket hashSize e.str = b := by
  rw [chain, List.mem_filter, decide_eq_true_eq]

lemma chain_append_self {hashSize : ℕ} (es : List Entry) (e : Entry) :
    chain hashSize (es ++ [e]) (bucket hashSize e.str) =
      chain hashSize es (bucket hashSize e.str) ++ [e] := by
  rw [chain, List.filter_append, List.filter_cons_of_pos (by simp), List.filter_nil, chain]

lemma chain_append_of_ne {hashSize b : ℕ} (es : List Entry) {e : Entry}
    (h : bucket hashSize e.str ≠ b) : chain hashSize (es ++ [e]) b = chain hashSize es b := by
  rw [chain, List.filter_append, List.filter_cons_of_neg (by simpa using h), List.filter_nil,
    List.append_nil, chain]

/-- The strings and the records of the entries are in memory that is in use. -/
structure Stored (t : Strtab) (es : List Entry) : Prop where
  strPool : t.strbuf.pool < t.blocks
  dataPool : t.databuf.pool < t.blocks
  text : ∀ e ∈ es, strcmp t.chars e.pstr e.str.val = true
  strUsed : ∀ e ∈ es, t.strbuf.Used t.blocks e.pstr (e.str.val.length + 1)
  dataUsed : ∀ e ∈ es, t.databuf.Used t.blocks e.pdata t.elemSize
  apart : es.Pairwise fun e e' => Apart e.pdata t.elemSize e'.pdata t.elemSize

/-- The entries are linked in their buckets.  An entry that is not the first of its bucket is
behind the buckets. -/
structure Chained (t : Strtab) (es : List Entry) : Prop where
  pos : 0 < t.hashSize
  free : t.hashSize ≤ t.hashNodesFree
  size : t.hashNodesFree ≤ t.hashNodesSize
  block : t.hashtab < t.blocks
  strs : (es.map Entry.str).Nodup
  addrs : (es.map Entry.addr).Nodup
  inArray : ∀ e ∈ es, e.addr.1 = t.hashtab ∧ e.addr.2 < t.hashNodesFree
  first : ∀ e ∈ es, e.addr.2 < t.hashSize → e.addr.2 = bucket t.hashSize e.str
  vacant : ∀ b < t.hashSize, chain t.hashSize es b = [] → t.nodes b = some HashNode.zero
  linked : ∀ b < t.hashSize, chain t.hashSize es b ≠ [] →
    Segment Entry.addr Entry.cell t.read (some (t.hashtab, b)) (chain t.hashSize es b) none
  marked : ∀ b < t.hashSize, ∀ e ∈ (chain t.hashSize es b).head?, fnvHash e.str ≠ 0

/-! ## The search -/

section Search

variable {t : Strtab} {str : CString}

lemma isFor_cell {chars : Addr → UInt8} {e : Entry}
    (h : strcmp chars e.pstr e.str.val = true) (next : Option Addr) (str : CString) :
    (e.cell next).isFor chars (fnvHash str) str = some (decide (e.str = str)) := by
  rw [HashNode.isFor, Entry.cell]
  by_cases hstr : e.str = str
  · subst hstr
    rw [if_pos rfl, Option.map_some, h, decide_eq_true rfl]
  · rw [decide_eq_false hstr]
    split
    · rw [Option.map_some, Option.some.injEq, ← Bool.not_eq_true]
      exact fun h' => hstr (Subtype.ext (strcmp_unique e.str.2 str.2 h h'))
    · rfl

/-- A list of other strings is passed over. -/
lemma findNode_skip {p : Addr} {x y : Entry} {xs : List Entry} {fuel : ℕ}
    (h : Segment Entry.addr Entry.cell t.read (some p) (x :: y :: xs) none)
    (htext : strcmp t.chars x.pstr x.str.val = true) (hx : x.str ≠ str) :
    findNode t (fnvHash str) str (fuel + 1) p = findNode t (fnvHash str) str fuel y.addr ∧
      Segment Entry.addr Entry.cell t.read (some y.addr) (y :: xs) none := by
  obtain ⟨hp, next, hread, h⟩ := h
  obtain rfl : p = x.addr := Option.some.inj hp
  obtain rfl : next = some y.addr := h.head
  refine ⟨?_, h⟩
  rw [findNode, hread]
  simp only [Option.bind_eq_bind, Option.bind_some, isFor_cell htext, decide_eq_false hx]
  rfl

lemma findNode_found {p : Addr} {xs ys : List Entry} {e : Entry} {fuel : ℕ}
    (h : Segment Entry.addr Entry.cell t.read (some p) (xs ++ e :: ys) none)
    (htext : ∀ x ∈ xs ++ e :: ys, strcmp t.chars x.pstr x.str.val = true)
    (hxs : ∀ x ∈ xs, x.str ≠ e.str) (hfuel : xs.length < fuel) :
    ∃ next, findNode t (fnvHash e.str) e.str fuel p = some (.found (e.cell next)) := by
  induction xs generalizing p fuel with
  | nil =>
      obtain ⟨fuel, rfl⟩ : ∃ k, fuel = k + 1 := ⟨fuel - 1, by omega⟩
      obtain ⟨hp, next, hread, -⟩ := h
      obtain rfl : p = e.addr := Option.some.inj hp
      refine ⟨next, ?_⟩
      rw [findNode, hread]
      simp only [Option.bind_eq_bind, Option.bind_some,
        isFor_cell (htext e List.mem_cons_self), decide_true, if_true]
  | cons x xs ih =>
      obtain ⟨fuel, rfl⟩ : ∃ k, fuel = k + 1 := ⟨fuel - 1, by omega⟩
      rw [List.length_cons] at hfuel
      have hx := hxs x List.mem_cons_self
      have hxtext := htext x List.mem_cons_self
      obtain ⟨y, zs, hys⟩ : ∃ y zs, xs ++ e :: ys = y :: zs :=
        List.exists_cons_of_ne_nil (by simp)
      rw [List.cons_append, hys] at h
      obtain ⟨hskip, hrest⟩ := findNode_skip h hxtext hx
      rw [hskip]
      rw [← hys] at hrest
      exact ih hrest (fun z hz => htext z (List.mem_cons_of_mem _ hz))
        (fun z hz => hxs z (List.mem_cons_of_mem _ hz)) (by omega)

lemma findNode_last {p : Addr} {xs : List Entry} {e : Entry} {fuel : ℕ}
    (h : Segment Entry.addr Entry.cell t.read (some p) (xs ++ [e]) none)
    (htext : ∀ x ∈ xs ++ [e], strcmp t.chars x.pstr x.str.val = true)
    (hxs : ∀ x ∈ xs ++ [e], x.str ≠ str) (hfuel : xs.length < fuel) :
    findNode t (fnvHash str) str fuel p = some (.last e.addr) := by
  induction xs generalizing p fuel with
  | nil =>
      obtain ⟨fuel, rfl⟩ : ∃ k, fuel = k + 1 := ⟨fuel - 1, by omega⟩
      obtain ⟨hp, next, hread, hnext⟩ := h
      obtain rfl : p = e.addr := Option.some.inj hp
      obtain rfl : next = none := hnext
      rw [findNode, hread]
      simp only [Option.bind_eq_bind, Option.bind_some, isFor_cell (htext e List.mem_cons_self),
        decide_eq_false (hxs e List.mem_cons_self)]
      rfl
  | cons x xs ih =>
      obtain ⟨fuel, rfl⟩ : ∃ k, fuel = k + 1 := ⟨fuel - 1, by omega⟩
      rw [List.length_cons] at hfuel
      have hx := hxs x List.mem_cons_self
      have hxtext := htext x List.mem_cons_self
      obtain ⟨y, zs, hys⟩ : ∃ y zs, xs ++ [e] = y :: zs := List.exists_cons_of_ne_nil (by simp)
      rw [List.cons_append, hys] at h
      obtain ⟨hskip, hrest⟩ := findNode_skip h hxtext hx
      rw [hskip]
      rw [← hys] at hrest
      exact ih hrest (fun z hz => htext z (List.mem_cons_of_mem _ hz))
        (fun z hz => hxs z (List.mem_cons_of_mem _ hz)) (by omega)

end Search

/-! ## One call -/

section Call

variable {inPlace : ℕ → Bool} {t : Strtab} {es : List Entry} {str : CString}

lemma read_eq {p : Addr} (h₁ : p.1 = t.hashtab) (h₂ : p.2 < t.hashNodesSize) :
    t.read p = t.nodes p.2 :=
  if_pos ⟨h₁, h₂⟩

/-- One more node is in use. -/
def taken (t : Strtab) (size : ℕ) : Strtab :=
  { t with hashNodesSize := size, hashNodesFree := t.hashNodesFree + 1 }

/-- Either there is a node left, or the array is extended where it is. -/
lemma newHashNode_eq (hsize : t.hashNodesFree ≤ t.hashNodesSize) (hpos : 0 < t.hashNodesFree)
    (hroom : t.hashNodesFree = t.hashNodesSize → inPlace (t.hashNodesSize * 2) = true) :
    ∃ size, t.hashNodesFree < size ∧
      newHashNode inPlace t = (taken t size, (t.hashtab, t.hashNodesFree)) := by
  by_cases hfull : t.hashNodesFree = t.hashNodesSize
  · refine ⟨t.hashNodesSize * 2, by omega, ?_⟩
    simp only [newHashNode, if_pos hfull, hroom hfull, if_true, taken]
  · refine ⟨t.hashNodesSize, by omega, ?_⟩
    simp only [newHashNode, if_neg hfull, taken]

/-- When the array moves, the pointer to the last node cannot be followed any more. -/
lemma appendNode_eq_none (hblock : t.hashtab < t.blocks)
    (hfull : t.hashNodesFree = t.hashNodesSize) (hmove : inPlace (t.hashNodesSize * 2) = false)
    {prev : Addr} (hprev : prev.1 = t.hashtab) : appendNode inPlace t prev = none := by
  have hread : (newHashNode inPlace t).1.read prev = none := by
    apply if_neg
    simp only [newHashNode, if_pos hfull, hmove, hprev]
    exact fun h => hblock.ne h.1
  rw [appendNode]
  simp only [hread, Option.bind_eq_bind, Option.bind_none]

/-- The table after a node has been filled in. -/
def filled (t : Strtab) (i : ℕ) (hash : UInt32) (str : CString) : Strtab :=
  let s := alloc t.strbuf t.blocks (str.val.length + 1)
  let d := alloc t.databuf s.2.2 t.elemSize
  { t with
    strbuf := s.2.1
    databuf := d.2.1
    chars := strcpy t.chars s.1 str.val
    blocks := d.2.2
    nodes := Function.update t.nodes i (some ⟨hash, some s.1, some d.1, none⟩) }

/-- The entry for it. -/
def newEntry (t : Strtab) (node : Addr) (str : CString) : Entry where
  addr := node
  str := str
  pstr := (alloc t.strbuf t.blocks (str.val.length + 1)).1
  pdata := (alloc t.databuf (alloc t.strbuf t.blocks (str.val.length + 1)).2.2 t.elemSize).1

lemma fillNode_eq {node : Addr} (h₁ : node.1 = t.hashtab) (h₂ : node.2 < t.hashNodesSize)
    (str : CString) : fillNode t node (fnvHash str) str =
      some (filled t node.2 (fnvHash str) str,
        ⟨1, some (newEntry t node str).pstr, some (newEntry t node str).pdata⟩) := by
  rw [fillNode]
  dsimp only
  rw [Strtab.write, if_pos ⟨h₁, h₂⟩]
  rfl

lemma read_filled {p : Addr} (h₁ : p.1 = t.hashtab) (h₂ : p.2 < t.hashNodesSize) (i : ℕ)
    (node : Addr) : (filled t i (fnvHash str) str).read p =
      Function.update t.nodes i (some ((newEntry t node str).cell none)) p.2 :=
  if_pos ⟨h₁, h₂⟩

/-- The allocators keep what is stored, and a string and its record are added. -/
lemma Stored.filled (h : Stored t es) (node : Addr) (i : ℕ) (hash : UInt32) (str : CString) :
    Stored (filled t i hash str) (es ++ [newEntry t node str]) := by
  have hs := Alloc.alloc_grants h.strPool (str.val.length + 1)
  have hd := Alloc.alloc_grants (lt_of_lt_of_le h.dataPool hs.le) t.elemSize
  have hused : ∀ e ∈ es, t.databuf.Used _ e.pdata t.elemSize := fun e he =>
    (h.dataUsed e he).mono hs.le
  refine ⟨lt_of_lt_of_le hs.pool hd.le, hd.pool, fun e he => ?_, fun e he => ?_, fun e he => ?_, ?_⟩
  · rcases List.mem_append.mp he with he | he
    · have hold : strcmp (strcpy t.chars (newEntry t node str).pstr str.val) e.pstr e.str.val =
          strcmp t.chars e.pstr e.str.val := by
        apply strcmp_congr
        intro k hk
        apply strcpy_apply_of_outside
        -- the new string is in another block, before the old one or behind it
        rcases hs.apart _ _ (h.strUsed e he) with hap | hap | hap
        · exact .inl hap
        · exact .inr (.inl (lt_of_lt_of_le (by dsimp only; omega) hap))
        · exact .inr (.inr (lt_of_lt_of_le (Nat.lt_of_succ_le hap) (Nat.le_add_right _ _)))
      exact hold.trans (h.text e he)
    · obtain rfl := List.mem_singleton.mp he
      exact strcmp_strcpy _ _ _
  · rcases List.mem_append.mp he with he | he
    · exact (hs.keeps _ _ (h.strUsed e he)).mono hd.le
    · obtain rfl := List.mem_singleton.mp he
      exact hs.used.mono hd.le
  · rcases List.mem_append.mp he with he | he
    · exact hd.keeps _ _ (hused e he)
    · obtain rfl := List.mem_singleton.mp he
      exact hd.used
  · refine List.pairwise_append.mpr ⟨h.apart, List.pairwise_singleton _ _, fun e he e' he' => ?_⟩
    obtain rfl := List.mem_singleton.mp he'
    exact hd.apart _ _ (hused e he)

lemma le_blocks_filled (h : Stored t es) (i : ℕ) (hash : UInt32) (str : CString) :
    t.blocks ≤ (filled t i hash str).blocks := by
  have hs := Alloc.alloc_grants h.strPool (str.val.length + 1)
  exact hs.le.trans (Alloc.alloc_grants (lt_of_lt_of_le h.dataPool hs.le) t.elemSize).le

/-- An entry is put at the end of its bucket. -/
lemma Chained.extend (h : Chained t es) {t' : Strtab} {e : Entry}
    (hhash : t'.hashSize = t.hashSize) (htab : t'.hashtab = t.hashtab)
    (hblocks : t.blocks ≤ t'.blocks) (hfree : t.hashNodesFree ≤ t'.hashNodesFree)
    (hsize : t'.hashNodesFree ≤ t'.hashNodesSize) (hstr : e.str ∉ es.map Entry.str)
    (haddr : e.addr ∉ es.map Entry.addr)
    (harray : e.addr.1 = t.hashtab ∧ e.addr.2 < t'.hashNodesFree)
    (hfirst : e.addr.2 < t.hashSize → e.addr.2 = bucket t.hashSize e.str)
    (hvacant : ∀ b < t.hashSize, b ≠ bucket t.hashSize e.str → t'.nodes b = t.nodes b)
    (hread : ∀ x ∈ es, bucket t.hashSize x.str ≠ bucket t.hashSize e.str →
      t'.read x.addr = t.read x.addr)
    (hlink : Segment Entry.addr Entry.cell t'.read (some (t.hashtab, bucket t.hashSize e.str))
      (chain t.hashSize es (bucket t.hashSize e.str) ++ [e]) none)
    (hmark : chain t.hashSize es (bucket t.hashSize e.str) = [] → fnvHash e.str ≠ 0) :
    Chained t' (es ++ [e]) := by
  refine ⟨hhash ▸ h.pos, hhash ▸ h.free.trans hfree, hsize,
    htab ▸ lt_of_lt_of_le h.block hblocks, ?_, ?_, fun x hx => ?_, fun x hx => ?_,
    fun b hb hempty => ?_, fun b hb hne => ?_, fun b hb x hx => ?_⟩
  · rw [List.map_append, List.map_singleton, List.nodup_append_comm]
    exact List.nodup_cons.mpr ⟨hstr, h.strs⟩
  · rw [List.map_append, List.map_singleton, List.nodup_append_comm]
    exact List.nodup_cons.mpr ⟨haddr, h.addrs⟩
  · rw [htab]
    rcases List.mem_append.mp hx with hx | hx
    · exact ⟨(h.inArray x hx).1, lt_of_lt_of_le (h.inArray x hx).2 hfree⟩
    · exact List.mem_singleton.mp hx ▸ harray
  · rw [hhash]
    rcases List.mem_append.mp hx with hx | hx
    · exact h.first x hx
    · exact List.mem_singleton.mp hx ▸ hfirst
  · rw [hhash] at hb hempty
    -- only the chain of the new string's bucket changes
    by_cases hbe : bucket t.hashSize e.str = b
    · rw [← hbe, chain_append_self] at hempty
      exact absurd hempty (by simp)
    · rw [chain_append_of_ne es hbe] at hempty
      rw [hvacant b hb (Ne.symm hbe)]
      exact h.vacant b hb hempty
  · rw [hhash] at hb hne ⊢
    rw [htab]
    by_cases hbe : bucket t.hashSize e.str = b
    · rw [← hbe, chain_append_self]
      exact hlink
    · rw [chain_append_of_ne es hbe] at hne ⊢
      apply (h.linked b hb hne).congr
      intro x hx
      obtain ⟨hx, hxb⟩ := mem_chain.mp hx
      exact hread x hx (hxb ▸ Ne.symm hbe)
  · rw [hhash] at hb hx
    by_cases hbe : bucket t.hashSize e.str = b
    · rw [← hbe, chain_append_self] at hx
      -- a first string of its bucket must not have hash 0, or the node would count as free
      cases hc : chain t.hashSize es (bucket t.hashSize e.str) with
      | nil =>
          rw [hc] at hx
          obtain rfl : e = x := Option.some.inj hx
          exact hmark hc
      | cons y ys =>
          rw [hc] at hx
          obtain rfl : y = x := Option.some.inj hx
          exact h.marked _ (bucket_lt h.pos _) y (by rw [hc]; rfl)
    · rw [chain_append_of_ne es hbe] at hx
      exact h.marked b hb x hx

/-- The table holds the entries. -/
structure Represents (t : Strtab) (es : List Entry) : Prop where
  chained : Chained t es
  stored : Stored t es

/-- There are not more entries than nodes. -/
lemma Chained.length_le (h : Chained t es) : es.length ≤ t.hashNodesFree := by
  have hnd : (es.map fun e => e.addr.2).Nodup := by
    refine List.Nodup.map_on (fun x hx y hy hxy => ?_) (List.Nodup.of_map _ h.addrs)
    have haddr : x.addr = y.addr :=
      Prod.ext ((h.inArray x hx).1.trans (h.inArray y hy).1.symm) hxy
    exact List.inj_on_of_nodup_map h.addrs hx hy haddr
  have hsub : (es.map fun e => e.addr.2) ⊆ List.range t.hashNodesFree := by
    intro i hi
    obtain ⟨e, he, rfl⟩ := List.mem_map.mp hi
    exact List.mem_range.mpr (h.inArray e he).2
  simpa using (List.subperm_of_subset hnd hsub).length_le

lemma Chained.chain_length_le (h : Chained t es) (b : ℕ) :
    (chain t.hashSize es b).length ≤ t.hashNodesFree :=
  (List.length_filter_le _ _).trans h.length_le

/-- The first node of a bucket that is in use. -/
lemma Chained.read_first (h : Chained t es) {b : ℕ} (hb : b < t.hashSize) {x : Entry}
    {xs : List Entry} (hc : chain t.hashSize es b = x :: xs) :
    ∃ next, t.read (t.hashtab, b) = some (x.cell next) ∧ fnvHash x.str ≠ 0 := by
  have hlink := h.linked b hb (hc ▸ List.cons_ne_nil _ _)
  rw [hc] at hlink
  obtain ⟨hp, next, hread, -⟩ := hlink
  exact ⟨next, Option.some.inj hp ▸ hread, h.marked b hb x (by rw [hc]; rfl)⟩

lemma Chained.read_vacant (h : Chained t es) {b : ℕ} (hb : b < t.hashSize)
    (hc : chain t.hashSize es b = []) : t.read (t.hashtab, b) = some HashNode.zero := by
  rw [read_eq rfl (lt_of_lt_of_le hb (h.free.trans h.size))]
  exact h.vacant b hb hc

/-- A string that is in the table is found. -/
theorem addStr_known (h : Represents t es) {e : Entry} (he : e ∈ es) :
    addStr inPlace t e.str = some (t, ⟨0, some e.pstr, some e.pdata⟩) := by
  have hb := bucket_lt h.chained.pos e.str
  have hmem : e ∈ chain t.hashSize es (bucket t.hashSize e.str) := mem_chain.mpr ⟨he, rfl⟩
  obtain ⟨xs, ys, hsplit⟩ := List.append_of_mem hmem
  obtain ⟨x, zs, hc⟩ := List.exists_cons_of_ne_nil (List.ne_nil_of_mem hmem)
  obtain ⟨next, hread, hmark⟩ := h.chained.read_first hb hc
  have hlink := h.chained.linked _ hb (List.ne_nil_of_mem hmem)
  have hother : ∀ x ∈ xs, x.str ≠ e.str := by
    intro x hx hxe
    have hnd : ((xs ++ e :: ys).map Entry.str).Nodup :=
      hsplit ▸ h.chained.strs.sublist (List.filter_sublist.map _)
    rw [List.map_append, List.map_cons, List.nodup_middle, List.nodup_cons] at hnd
    exact hnd.1 (List.mem_append_left _ (hxe ▸ List.mem_map_of_mem hx))
  have hlen := h.chained.chain_length_le (bucket t.hashSize e.str)
  rw [hsplit] at hlink hlen
  rw [List.length_append, List.length_cons] at hlen
  have hfuel : xs.length < t.hashNodesFree := by omega
  obtain ⟨next', hfound⟩ := findNode_found hlink
    (fun z hz => h.stored.text z (mem_chain.mp (hsplit ▸ hz)).1) hother hfuel
  rw [addStr]
  simp only [Option.bind_eq_bind]
  rw [show ((fnvHash e.str).toNat &&& (t.hashSize - 1)) = bucket t.hashSize e.str from rfl, hread,
    Option.bind_some, if_pos (show (x.cell next).hash ≠ 0 from hmark), hfound]
  rfl

/-- The string goes to a bucket that is free. -/
lemma addStr_vacant (h : Represents t es) (hc : chain t.hashSize es (bucket t.hashSize str) = []) :
    addStr inPlace t str =
      some (filled t (bucket t.hashSize str) (fnvHash str) str,
        ⟨1, some (newEntry t (t.hashtab, bucket t.hashSize str) str).pstr,
          some (newEntry t (t.hashtab, bucket t.hashSize str) str).pdata⟩) := by
  have hb := bucket_lt h.chained.pos str
  have hsize := h.chained.free.trans h.chained.size
  rw [addStr]
  simp only [Option.bind_eq_bind]
  rw [show ((fnvHash str).toNat &&& (t.hashSize - 1)) = bucket t.hashSize str from rfl,
    h.chained.read_vacant hb hc, Option.bind_some, if_neg (fun hz => hz rfl)]
  exact fillNode_eq rfl (lt_of_lt_of_le hb hsize) str

/-- The string goes behind the last one of its bucket. -/
lemma addStr_occupied (h : Represents t es) (hstr : str ∉ es.map Entry.str) {xs : List Entry}
    {l : Entry} (hc : chain t.hashSize es (bucket t.hashSize str) = xs ++ [l]) :
    addStr inPlace t str =
      (appendNode inPlace t l.addr).bind fun r => fillNode r.1 r.2 (fnvHash str) str := by
  have hb := bucket_lt h.chained.pos str
  have hne : chain t.hashSize es (bucket t.hashSize str) ≠ [] := by simp [hc]
  obtain ⟨x, zs, hcons⟩ := List.exists_cons_of_ne_nil hne
  obtain ⟨next, hread, hmark⟩ := h.chained.read_first hb hcons
  have hlink := h.chained.linked _ hb hne
  have hlen := h.chained.chain_length_le (bucket t.hashSize str)
  rw [hc] at hlink hlen
  rw [List.length_append, List.length_singleton] at hlen
  have hin : ∀ z ∈ xs ++ [l], z ∈ es := fun z hz => (mem_chain.mp (hc ▸ hz)).1
  have hfuel : xs.length < t.hashNodesFree := by omega
  have hother : ∀ z ∈ xs ++ [l], z.str ≠ str := by
    rintro z hz rfl
    exact hstr (List.mem_map_of_mem (hin z hz))
  have hlast := findNode_last hlink (fun z hz => h.stored.text z (hin z hz)) hother hfuel
  rw [addStr]
  simp only [Option.bind_eq_bind]
  rw [show ((fnvHash str).toNat &&& (t.hashSize - 1)) = bucket t.hashSize str from rfl, hread,
    Option.bind_some, if_pos (show (x.cell next).hash ≠ 0 from hmark), hlast]
  rfl

/-- The table with the new node linked to the node of `l`. -/
def linked (t : Strtab) (size : ℕ) (l : Entry) : Strtab :=
  { taken t size with
    nodes := Function.update t.nodes l.addr.2 (some (l.cell (some (t.hashtab, t.hashNodesFree)))) }

lemma appendNode_eq (h : Chained t es) {b : ℕ} (hb : b < t.hashSize) {xs : List Entry} {l : Entry}
    (hc : chain t.hashSize es b = xs ++ [l])
    (hroom : t.hashNodesFree = t.hashNodesSize → inPlace (t.hashNodesSize * 2) = true) :
    ∃ size, t.hashNodesFree < size ∧
      appendNode inPlace t l.addr = some (linked t size l, (t.hashtab, t.hashNodesFree)) := by
  obtain ⟨size, hlt, hnew⟩ := newHashNode_eq h.size (lt_of_lt_of_le h.pos h.free) hroom
  have hl : l ∈ es := (mem_chain.mp (show l ∈ chain t.hashSize es b by simp [hc])).1
  obtain ⟨hl₁, hl₂⟩ := h.inArray l hl
  have hnode : t.nodes l.addr.2 = some (l.cell none) := by
    rw [← read_eq hl₁ (lt_of_lt_of_le hl₂ h.size)]
    have hlink := h.linked b hb (by simp [hc])
    rw [hc] at hlink
    exact hlink.get
  have hread : (taken t size).read l.addr = some (l.cell none) :=
    (if_pos ⟨hl₁, lt_trans hl₂ hlt⟩).trans hnode
  have hwrite : (taken t size).write l.addr (l.cell (some (t.hashtab, t.hashNodesFree))) =
      some (linked t size l) := if_pos ⟨hl₁, lt_trans hl₂ hlt⟩
  refine ⟨size, hlt, ?_⟩
  rw [appendNode, hnew]
  simp only [hread, Option.bind_eq_bind, Option.bind_some]
  exact congrArg (fun o => o.bind fun t' => some (t', (t.hashtab, t.hashNodesFree))) hwrite

lemma Represents.vacant (h : Represents t es) (hstr : str ∉ es.map Entry.str)
    (hc : chain t.hashSize es (bucket t.hashSize str) = []) (hmark : fnvHash str ≠ 0) :
    Represents (filled t (bucket t.hashSize str) (fnvHash str) str)
      (es ++ [newEntry t (t.hashtab, bucket t.hashSize str) str]) := by
  have hb := bucket_lt h.chained.pos str
  have hother : ∀ x ∈ es, x.addr ≠ (t.hashtab, bucket t.hashSize str) := by
    intro x hx hxa
    have hxb := h.chained.first x hx (hxa ▸ hb)
    have hmem : x ∈ chain t.hashSize es (bucket t.hashSize str) :=
      mem_chain.mpr ⟨hx, hxb.symm.trans (congrArg Prod.snd hxa)⟩
    rw [hc] at hmem
    cases hmem
  refine ⟨h.chained.extend rfl rfl (le_blocks_filled h.stored _ _ _) le_rfl h.chained.size hstr
    (fun hmem => ?_) ⟨rfl, lt_of_lt_of_le hb h.chained.free⟩ (fun _ => rfl) (fun b _ hbe => ?_)
    (fun x hx _ => ?_) ?_ fun _ => hmark, h.stored.filled _ _ _ _⟩
  · obtain ⟨x, hx, hxa⟩ := List.mem_map.mp hmem
    exact hother x hx hxa
  · exact Function.update_of_ne hbe _ _
  · obtain ⟨hx₁, hx₂⟩ := h.chained.inArray x hx
    have hxsize := lt_of_lt_of_le hx₂ h.chained.size
    have hne : x.addr.2 ≠ bucket t.hashSize str := fun he => hother x hx (Prod.ext hx₁ he)
    rw [read_filled hx₁ hxsize _ x.addr, read_eq hx₁ hxsize]
    exact Function.update_of_ne hne _ _
  · rw [show (newEntry t (t.hashtab, bucket t.hashSize str) str).str = str from rfl, hc]
    have hsize := lt_of_lt_of_le hb (h.chained.free.trans h.chained.size)
    exact ⟨rfl, none, (read_filled rfl hsize _ _).trans (Function.update_self _ _ _), rfl⟩

lemma Represents.linked (h : Represents t es) (hstr : str ∉ es.map Entry.str) {xs : List Entry}
    {l : Entry} (hc : chain t.hashSize es (bucket t.hashSize str) = xs ++ [l]) {size : ℕ}
    (hlt : t.hashNodesFree < size) :
    Represents (filled (linked t size l) t.hashNodesFree (fnvHash str) str)
      (es ++ [newEntry (linked t size l) (t.hashtab, t.hashNodesFree) str]) := by
  have hb := bucket_lt h.chained.pos str
  have hstored : Stored (Mem.linked t size l) es :=
    ⟨h.stored.strPool, h.stored.dataPool, h.stored.text, h.stored.strUsed, h.stored.dataUsed,
      h.stored.apart⟩
  have hlmem : l ∈ chain t.hashSize es (bucket t.hashSize str) := by simp [hc]
  obtain ⟨hl, hlb⟩ := mem_chain.mp hlmem
  obtain ⟨hl₁, hl₂⟩ := h.chained.inArray l hl
  -- the new nodes are the only ones that change
  have hkeep : ∀ x ∈ es, x ≠ l →
      (filled (Mem.linked t size l) t.hashNodesFree (fnvHash str) str).read x.addr =
        t.read x.addr := by
    intro x hx hxl
    obtain ⟨hx₁, hx₂⟩ := h.chained.inArray x hx
    have hne : x.addr.2 ≠ l.addr.2 := fun he =>
      hxl (List.inj_on_of_nodup_map h.chained.addrs hx hl (Prod.ext (hx₁.trans hl₁.symm) he))
    rw [read_eq hx₁ (lt_of_lt_of_le hx₂ h.chained.size)]
    refine (read_filled (t := Mem.linked t size l) hx₁ (lt_trans hx₂ hlt) _ x.addr).trans ?_
    exact (Function.update_of_ne hx₂.ne _ _).trans (Function.update_of_ne hne _ _)
  refine ⟨h.chained.extend rfl rfl (le_blocks_filled hstored _ _ _) (Nat.le_succ _) hlt hstr
    (fun hmem => ?_) ⟨rfl, Nat.lt_succ_self _⟩ (fun hlow => ?_) (fun b hb' hbe => ?_)
    (fun x hx hxb => hkeep x hx ?_) ?_ (fun hnil => ?_), hstored.filled _ _ _ _⟩
  · obtain ⟨x, hx, hxa⟩ := List.mem_map.mp hmem
    have hx₂ := (h.chained.inArray x hx).2
    rw [hxa] at hx₂
    exact lt_irrefl _ hx₂
  · exact absurd hlow (not_lt.mpr h.chained.free)
  · refine (Function.update_of_ne (lt_of_lt_of_le hb' h.chained.free).ne _ _).trans
      (Function.update_of_ne ?_ _ _)
    rintro rfl
    exact hbe ((h.chained.first l hl hb').trans hlb)
  · rintro rfl
    exact hxb hlb
  · have hlink := h.chained.linked _ hb (by simp [hc])
    rw [show (newEntry (Mem.linked t size l) (t.hashtab, t.hashNodesFree) str).str = str from rfl,
      hc, List.append_assoc, List.singleton_append, ← List.append_nil (xs ++ _)]
    rw [hc] at hlink
    refine hlink.splice _ (fun x hx => hkeep x ?_ ?_) (fun x hx => by cases hx)
      ⟨rfl, some (t.hashtab, t.hashNodesFree), ?_, rfl, none, ?_, rfl⟩
    · exact (mem_chain.mp (hc ▸ List.mem_append_left _ hx)).1
    · rintro rfl
      have hnd : (xs ++ [x]).Nodup := hc ▸ (List.Nodup.of_map _ h.chained.addrs).filter _
      exact (List.nodup_append.mp hnd).2.2 x hx x (List.mem_singleton_self _) rfl
    · refine (read_filled (t := Mem.linked t size l) hl₁ (lt_trans hl₂ hlt) _ l.addr).trans ?_
      exact (Function.update_of_ne hl₂.ne _ _).trans (Function.update_self _ _ _)
    · exact (read_filled (t := Mem.linked t size l) rfl hlt _ _).trans
        (Function.update_self _ _ _)
  · rw [show (newEntry (Mem.linked t size l) (t.hashtab, t.hashNodesFree) str).str = str from rfl,
      hc] at hnil
    exact absurd hnil (by simp)

/-- A string that is not in the table is added, unless its hash is zero and it would be the first
of its bucket, or the array would have to move. -/
theorem addStr_new (h : Represents t es) (hstr : str ∉ es.map Entry.str)
    (hmark : chain t.hashSize es (bucket t.hashSize str) = [] → fnvHash str ≠ 0)
    (hroom : chain t.hashSize es (bucket t.hashSize str) ≠ [] →
      t.hashNodesFree = t.hashNodesSize → inPlace (t.hashNodesSize * 2) = true) :
    ∃ t' e, addStr inPlace t str = some (t', ⟨1, some e.pstr, some e.pdata⟩) ∧ e.str = str ∧
      Represents t' (es ++ [e]) ∧ t'.hashSize = t.hashSize ∧ t'.elemSize = t.elemSize := by
  rcases List.eq_nil_or_concat' (chain t.hashSize es (bucket t.hashSize str)) with hc | ⟨xs, l, hc⟩
  · exact ⟨_, _, addStr_vacant h hc, rfl, h.vacant hstr hc (hmark hc), rfl, rfl⟩
  · obtain ⟨size, hlt, happend⟩ :=
      appendNode_eq h.chained (bucket_lt h.chained.pos str) hc (hroom (by simp [hc]))
    refine ⟨_, _, ?_, rfl, h.linked hstr hc hlt, rfl, rfl⟩
    rw [addStr_occupied h hstr hc, happend, Option.bind_some]
    exact fillNode_eq rfl hlt str

lemma fillNode_ret {node : Addr} {hash : UInt32} {t' : Strtab} {r : Added}
    (h : fillNode t node hash str = some (t', r)) : r.ret = 1 := by
  unfold fillNode at h
  obtain ⟨t'', -, heq⟩ := Option.map_eq_some_iff.mp h
  exact (congrArg (fun p => p.2.ret) heq).symm

/-- A node whose hash is zero is taken for a free one. -/
lemma addStr_unmarked {n : HashNode} (hread : t.read (t.hashtab, bucket t.hashSize str) = some n)
    (hn : n.hash = 0) {t' : Strtab} {r : Added} (h : addStr inPlace t str = some (t', r)) :
    r.ret = 1 := by
  rw [addStr] at h
  simp only [Option.bind_eq_bind] at h
  rw [show ((fnvHash str).toNat &&& (t.hashSize - 1)) = bucket t.hashSize str from rfl, hread,
    Option.bind_some, if_neg (not_not.mpr hn)] at h
  exact fillNode_ret h

end Call

/-! ## Runs -/

section Runs

variable (inPlace : ℕ → Bool)

/-- The table is a map from the strings that have been added to their records: the calls of
`add_str` have returned `1` for a string that was not added before and `0` otherwise, they have
stored the addresses of the string and its record, the records are disjoint, and a string that is
added once more is found. -/
structure Interned (t : Strtab) (strs : List CString) (text data : CString → Addr) (t' : Strtab)
    (rs : List Added) : Prop where
  run : addStrs inPlace t strs = some (t', rs)
  length : rs.length = strs.length
  results : ∀ i s, strs[i]? = some s →
    rs[i]? = some (Added.mk (if s ∈ strs.take i then 0 else 1) (some (text s)) (some (data s)))
  stored : ∀ s ∈ strs, strcmp t'.chars (text s) s.val = true
  apart : ∀ s ∈ strs, ∀ s' ∈ strs, s ≠ s' → Apart (data s) t'.elemSize (data s') t'.elemSize
  kept : ∀ s ∈ strs, ∃ t'', addStr inPlace t' s = some (t'', ⟨0, some (text s), some (data s)⟩)

/-- The table is a map in every state of the run. -/
def Faithful (t : Strtab) (strs : List CString) : Prop :=
  ∀ pre, pre <+: strs → ∃ text data t' rs, Interned inPlace t pre text data t' rs

/-- A string can be added after others: it is not the first of its bucket with a hash of zero, and
if another node is needed when all are in use, the array is extended where it is. -/
structure Fits (t : Strtab) (pre : List CString) (str : CString) : Prop where
  marked : fnvHash str = 0 → ∃ s ∈ pre, bucket t.hashSize s = bucket t.hashSize str
  room : str ∉ pre → (∃ s ∈ pre, bucket t.hashSize s = bucket t.hashSize str) →
    ∀ t' rs, addStrs inPlace t pre = some (t', rs) → t'.hashNodesFree = t'.hashNodesSize →
      inPlace (t'.hashNodesSize * 2) = true

/-- What `add_str` returns for the string of an entry, after the strings `pre`. -/
def Entry.added (e : Entry) (pre : List CString) : Added :=
  ⟨if e.str ∈ pre then 0 else 1, some e.pstr, some e.pdata⟩

/-- The entries of the table that a run has reached. -/
structure Reached (t : Strtab) (pre : List CString) (t' : Strtab) (rs : List Added)
    (es : List Entry) : Prop where
  run : addStrs inPlace t pre = some (t', rs)
  represents : Represents t' es
  mem : ∀ s, s ∈ es.map Entry.str ↔ s ∈ pre
  hashSize : t'.hashSize = t.hashSize
  length : rs.length = pre.length
  results : ∀ e ∈ es, ∀ i, pre[i]? = some e.str →
    rs[i]? = some (e.added (pre.take i))

variable {inPlace} {t t' : Strtab} {pre strs : List CString} {str : CString} {rs : List Added}
  {es : List Entry}

lemma addStrs_concat (t : Strtab) (pre : List CString) (str : CString) :
    addStrs inPlace t (pre ++ [str]) = (addStrs inPlace t pre).bind fun r =>
      (addStr inPlace r.1 str).map fun a => (a.1, r.2 ++ [a.2]) := by
  induction pre generalizing t with
  | nil =>
      simp only [List.nil_append, addStrs, Option.bind_eq_bind, Option.bind_some, Option.pure_def]
      cases addStr inPlace t str <;> rfl
  | cons s pre ih =>
      rw [List.cons_append, addStrs, addStrs]
      simp only [Option.bind_eq_bind, Option.pure_def, ih]
      cases addStr inPlace t s with
      | none => rfl
      | some a =>
          simp only [Option.bind_some]
          cases addStrs inPlace a.1 pre with
          | none => rfl
          | some r =>
              simp only [Option.bind_some]
              cases addStr inPlace r.1 str <;> rfl

lemma Reached.chain_eq_nil (h : Reached inPlace t pre t' rs es) {b : ℕ} :
    chain t'.hashSize es b = [] ↔ ∀ s ∈ pre, bucket t.hashSize s ≠ b := by
  rw [chain, List.filter_eq_nil_iff, h.hashSize]
  constructor
  · intro hnil s hs hb
    obtain ⟨e, he, rfl⟩ := List.mem_map.mp ((h.mem s).mpr hs)
    exact hnil e he (decide_eq_true hb)
  · intro hpre e he hb
    exact hpre e.str ((h.mem _).mp (List.mem_map_of_mem he)) (of_decide_eq_true hb)

/-- The results of one more call. -/
lemma results_concat {e : Entry} {r : Added} (hlen : rs.length = pre.length)
    (h : ∀ i, pre[i]? = some e.str →
      rs[i]? = some (e.added (pre.take i)))
    (hr : str = e.str → r = e.added pre) (i : ℕ) (hi : (pre ++ [str])[i]? = some e.str) :
    (rs ++ [r])[i]? = some (e.added ((pre ++ [str]).take i)) := by
  rcases lt_trichotomy i pre.length with hlt | rfl | hgt
  · rw [List.getElem?_append_left hlt] at hi
    rw [List.getElem?_append_left (hlen ▸ hlt), List.take_append_of_le_length hlt.le]
    exact h i hi
  · rw [List.getElem?_concat_length] at hi
    rw [← hlen, List.getElem?_concat_length, hlen, List.take_left, hr (Option.some.inj hi)]
  · rw [List.getElem?_eq_none (by rw [List.length_append, List.length_singleton]; omega)] at hi
    cases hi

/-- **One step** of a run. -/
lemma Reached.step (h : Reached inPlace t pre t' rs es) (hfits : Fits inPlace t pre str) :
    ∃ t'' rs' es', Reached inPlace t (pre ++ [str]) t'' rs' es' := by
  -- a string seen before is found, any other one is put at the end of its chain
  by_cases hmem : str ∈ pre
  · obtain ⟨e, he, rfl⟩ := List.mem_map.mp ((h.mem str).mpr hmem)
    refine ⟨t', rs ++ [⟨0, some e.pstr, some e.pdata⟩], es, ?_, h.represents, fun s => ?_,
      h.hashSize, by simp [h.length], fun x hx => results_concat h.length (h.results x hx) ?_⟩
    · rw [addStrs_concat, h.run, Option.bind_some, addStr_known h.represents he]
      rfl
    · rw [h.mem, List.mem_append, List.mem_singleton]
      exact ⟨.inl, fun hs => hs.elim id fun hs => hs ▸ hmem⟩
    · intro hxe
      obtain rfl := List.inj_on_of_nodup_map h.represents.chained.strs he hx hxe
      rw [Entry.added, if_pos hmem]
  · have hnew : str ∉ es.map Entry.str := fun hs => hmem ((h.mem str).mp hs)
    have hmark : chain t'.hashSize es (bucket t'.hashSize str) = [] → fnvHash str ≠ 0 := by
      intro hnil hz
      obtain ⟨s, hs, hb⟩ := hfits.marked hz
      exact h.chain_eq_nil.mp hnil s hs (h.hashSize ▸ hb)
    have hroom : chain t'.hashSize es (bucket t'.hashSize str) ≠ [] →
        t'.hashNodesFree = t'.hashNodesSize → inPlace (t'.hashNodesSize * 2) = true := by
      intro hne
      refine hfits.room hmem ?_ t' rs h.run
      by_contra hno
      exact hne (h.chain_eq_nil.mpr fun s hs hb => hno ⟨s, hs, h.hashSize ▸ hb⟩)
    obtain ⟨t'', e, hadd, rfl, hrep, hhash, -⟩ := addStr_new h.represents hnew hmark hroom
    refine ⟨t'', rs ++ [⟨1, some e.pstr, some e.pdata⟩], es ++ [e], ?_, hrep, fun s => ?_,
      hhash.trans h.hashSize, by simp [h.length], fun x hx => ?_⟩
    · rw [addStrs_concat, h.run, Option.bind_some, hadd]
      rfl
    · rw [List.map_append, List.mem_append, List.mem_append, h.mem]
      rfl
    · rcases List.mem_append.mp hx with hx | hx
      · refine results_concat h.length (h.results x hx) fun hxe => ?_
        exact absurd (hxe ▸ List.mem_map_of_mem hx) hnew
      · obtain rfl := List.mem_singleton.mp hx
        refine results_concat h.length (fun i hi => ?_) fun _ => by rw [Entry.added, if_neg hmem]
        exact absurd (List.mem_of_getElem? hi) hmem

/-- The entries make the table a map. -/
lemma Reached.interned (h : Reached inPlace t pre t' rs es) :
    ∃ text data, Interned inPlace t pre text data t' rs := by
  have hentry : ∀ s, ∃ a b, s ∈ pre → ∃ e ∈ es, e.str = s ∧ e.pstr = a ∧ e.pdata = b := by
    intro s
    by_cases hs : s ∈ pre
    · obtain ⟨e, he, hes⟩ := List.mem_map.mp ((h.mem s).mpr hs)
      exact ⟨e.pstr, e.pdata, fun _ => ⟨e, he, hes, rfl, rfl⟩⟩
    · exact ⟨(0, 0), (0, 0), fun hs' => absurd hs' hs⟩
  choose text data hes using hentry
  refine ⟨text, data, h.run, h.length, fun i s hi => ?_, fun s hs => ?_, fun s hs s' hs' hne => ?_,
    fun s hs => ?_⟩
  · obtain ⟨e, he, rfl, htext, hdata⟩ := hes s (List.mem_of_getElem? hi)
    rw [← htext, ← hdata]
    exact h.results e he i hi
  · obtain ⟨e, he, rfl, htext, -⟩ := hes s hs
    exact htext ▸ h.represents.stored.text e he
  · obtain ⟨e, he, rfl, -, hdata⟩ := hes s hs
    obtain ⟨e', he', rfl, -, hdata'⟩ := hes s' hs'
    rw [← hdata, ← hdata']
    have hsymm : Std.Symm fun x y : Entry => Apart x.pdata t'.elemSize y.pdata t'.elemSize :=
      ⟨fun _ _ => Apart.symm⟩
    exact h.represents.stored.apart.forall he he' fun hee => hne (congrArg Entry.str hee)
  · obtain ⟨e, he, rfl, htext, hdata⟩ := hes s hs
    exact ⟨t', htext ▸ hdata ▸ addStr_known h.represents he⟩

/-- **A run** in which every string fits. -/
lemma reached (h₀ : Represents t [])
    (hfits : ∀ pre str, pre ++ [str] <+: strs → Fits inPlace t pre str) (hpre : pre <+: strs) :
    ∃ t' rs es, Reached inPlace t pre t' rs es := by
  induction pre using List.reverseRecOn with
  | nil =>
      refine ⟨t, [], [], rfl, h₀, fun s => Iff.rfl, rfl, rfl, fun e he => ?_⟩
      cases he
  | append_singleton pre str ih =>
      obtain ⟨t', rs, es, h⟩ := ih ((List.prefix_append _ _).trans hpre)
      exact h.step (hfits pre str hpre)

/-- A string after which the table is a map has fitted. -/
lemma Reached.fits (h : Reached inPlace t pre t' rs es)
    (hnext : ∃ text data t'' rs', Interned inPlace t (pre ++ [str]) text data t'' rs') :
    Fits inPlace t pre str := by
  obtain ⟨text, data, t'', rs', hnext⟩ := hnext
  have hadd : ∃ r, addStr inPlace t' str = some (t'', r) := by
    have hrun := hnext.run
    rw [addStrs_concat, h.run, Option.bind_some] at hrun
    obtain ⟨a, ha, heq⟩ := Option.map_eq_some_iff.mp hrun
    exact ⟨a.2, ha.trans (congrArg some (Prod.ext (Prod.mk.inj heq).1 rfl))⟩
  obtain ⟨r, hadd⟩ := hadd
  refine ⟨fun hz => ?_, fun hmem ⟨s, hs, hb⟩ t₁ rs₁ hrun hfull => ?_⟩
  · by_contra hno
    have hnil : chain t'.hashSize es (bucket t'.hashSize str) = [] :=
      h.chain_eq_nil.mpr fun s hs hb => hno ⟨s, hs, h.hashSize ▸ hb⟩
    -- the string cannot be found, as its node counts as free
    rw [addStr_vacant h.represents hnil] at hadd
    obtain ⟨rfl, -⟩ := Prod.mk.inj (Option.some.inj hadd)
    obtain ⟨t₃, hkept⟩ := hnext.kept str (List.mem_append_right _ (List.mem_singleton_self _))
    have hb := bucket_lt h.represents.chained.pos str
    have hsize := h.represents.chained.free.trans h.represents.chained.size
    have hread : (filled t' (bucket t'.hashSize str) (fnvHash str) str).read
        (t'.hashtab, bucket t'.hashSize str) = some ((newEntry t' (0, 0) str).cell none) :=
      (read_filled rfl (lt_of_lt_of_le hb hsize) _ _).trans (Function.update_self _ _ _)
    exact absurd (addStr_unmarked hread hz hkept) Nat.zero_ne_one
  · obtain ⟨rfl, rfl⟩ := Prod.mk.inj (Option.some.inj (h.run.symm.trans hrun))
    by_contra hmove
    rw [Bool.not_eq_true] at hmove
    rcases List.eq_nil_or_concat' (chain t'.hashSize es (bucket t'.hashSize str)) with
      hc | ⟨xs, l, hc⟩
    · exact h.chain_eq_nil.mp hc s hs (h.hashSize ▸ hb)
    · have hl : l ∈ es := by
        have hmem : l ∈ chain t'.hashSize es (bucket t'.hashSize str) := by simp [hc]
        exact (mem_chain.mp hmem).1
      rw [addStr_occupied h.represents (fun hs => hmem ((h.mem str).mp hs)) hc,
        appendNode_eq_none h.represents.chained.block hfull hmove
          (h.represents.chained.inArray l hl).1] at hadd
      cases hadd

lemma newStrtab_represents {chars : Addr → UInt8} {stringsSize dataSize dataElemSize : ℕ}
    (h : newStrtab chars stringsSize dataSize dataElemSize = some t) : Represents t [] := by
  unfold newStrtab at h
  split at h
  · cases h
  · dsimp only at h
    split at h
    · obtain rfl := Option.some.inj h
      have hpos : 0 < 2 ^ ((hashSizeLoop (dataSize / dataElemSize) 0 false).1 +
        (hashSizeLoop (dataSize / dataElemSize) 0 false).2.toNat) := Nat.two_pow_pos _
      have hblocks : 0 < 3 ∧ 1 < 3 ∧ 2 < 3 := by decide
      refine ⟨⟨hpos, le_rfl, Nat.le_add_right _ _, hblocks.2.2, List.nodup_nil, List.nodup_nil,
        by simp, by simp, fun b hb _ => if_pos hb, fun b _ hne => absurd rfl hne, by simp [chain]⟩,
        ⟨hblocks.1, hblocks.2.1, by simp, by simp, by simp, List.Pairwise.nil⟩⟩
    · cases h

/-- **The string table is a map** in every state of a run, if and only if every string fits. -/
theorem addStrs_faithful_iff {chars : Addr → UInt8} {stringsSize dataSize dataElemSize : ℕ}
    (h : newStrtab chars stringsSize dataSize dataElemSize = some t) (strs : List CString) :
    Faithful inPlace t strs ↔ ∀ pre str, pre ++ [str] <+: strs → Fits inPlace t pre str := by
  have h₀ := newStrtab_represents h
  constructor
  · intro hf
    have hfits : ∀ pre₀, pre₀ <+: strs → ∀ pre str, pre ++ [str] <+: pre₀ →
        Fits inPlace t pre str := by
      intro pre₀
      -- by induction on the strings that have been added
      induction pre₀ using List.reverseRecOn with
      | nil =>
          intro _ pre str hp
          exact absurd (List.prefix_nil.mp hp) (by simp)
      | append_singleton pre₀ s ih =>
          intro hpre₀ pre str hp
          have hfits := ih ((List.prefix_append _ _).trans hpre₀)
          rcases List.prefix_concat_iff.mp hp with heq | hp
          · obtain ⟨rfl, hs⟩ := List.append_inj' heq rfl
            obtain ⟨t', rs, es, hr⟩ := reached h₀ hfits (List.prefix_refl _)
            exact hr.fits (hf _ (heq ▸ hpre₀))
          · exact hfits pre str hp
    exact hfits strs (List.prefix_refl _)
  · intro hfits pre hpre
    obtain ⟨t', rs, es, hr⟩ := reached h₀ hfits hpre
    obtain ⟨text, data, hi⟩ := hr.interned
    exact ⟨text, data, t', rs, hi⟩

end Runs

/-! ## A small table -/

/-- The string `xzfwvwa`. -/
def zeroName : CString := ⟨[120, 122, 102, 119, 118, 119, 97], by decide⟩

/-- A string of one character. -/
def letter (c : UInt8) (h : c ≠ 0) : CString := ⟨[c], by simpa using h.symm⟩

/-- Strings of one bucket in a table with four buckets: `a`, `e`, `i` and `m`. -/
def letters : List CString :=
  [letter 97 (by decide), letter 101 (by decide), letter 105 (by decide), letter 109 (by decide)]

/-- The table, with four buckets and two other nodes. -/
lemma newStrtab_small : ∃ t, newStrtab (fun _ => 0) 64 16 16 = some t := by
  have h : (newStrtab (fun _ => 0) 64 16 16).isSome = true := by decide +kernel
  exact Option.isSome_iff_exists.mp h

/-- **A string is added twice** when its hash is zero, and the third string behind the first of a
bucket makes the array move. -/
theorem addStrs_zero_hash : ∃ t, newStrtab (fun _ => 0) 64 16 16 = some t ∧
    (addStrs (fun _ => true) t [zeroName, zeroName]).map Prod.snd =
      some [⟨1, some (0, 0), some (1, 0)⟩, ⟨1, some (0, 8), some (3, 0)⟩] ∧
    (addStrs (fun _ => false) t letters).map Prod.snd = none ∧
    ¬Faithful (fun _ => true) t [zeroName, zeroName] ∧ ¬Faithful (fun _ => false) t letters := by
  obtain ⟨t, ht⟩ := newStrtab_small
  have htwice : ((newStrtab (fun _ => 0) 64 16 16).bind fun t =>
      (addStrs (fun _ => true) t [zeroName, zeroName]).map Prod.snd) =
        some [⟨1, some (0, 0), some (1, 0)⟩, ⟨1, some (0, 8), some (3, 0)⟩] := by decide +kernel
  have hmoves : ((newStrtab (fun _ => 0) 64 16 16).bind fun t =>
      (addStrs (fun _ => false) t letters).map Prod.snd) = none := by decide +kernel
  rw [ht, Option.bind_some] at htwice hmoves
  refine ⟨t, ht, htwice, hmoves, fun hf => ?_, fun hf => ?_⟩
  · obtain ⟨text, data, t', rs, hi⟩ := hf _ (List.prefix_refl _)
    rw [hi.run, Option.map_some, Option.some.injEq] at htwice
    have hret := hi.results 1 zeroName rfl
    rw [show rs = _ from htwice] at hret
    have hone := congrArg Added.ret (Option.some.inj hret)
    rw [if_pos (by decide)] at hone
    cases hone
  · obtain ⟨text, data, t', rs, hi⟩ := hf _ (List.prefix_refl _)
    rw [hi.run] at hmoves
    cases hmoves

theorem addStrs_faithful_iff_letters : ∃ t, newStrtab (fun _ => 0) 64 16 16 = some t ∧
    Faithful (fun _ => true) t (letters ++ letters) := by
  obtain ⟨t, ht⟩ := newStrtab_small
  have hhash : ∀ s ∈ letters ++ letters, fnvHash s ≠ 0 := by decide +kernel
  refine ⟨t, ht, (addStrs_faithful_iff ht _).mpr fun pre str hp => ⟨fun hz => ?_, ?_⟩⟩
  · exact absurd hz (hhash str (hp.subset (by simp)))
  · exact fun _ _ _ _ _ _ => rfl

end Javalette.Mem
