import Javalette.Scope.Model
import Mathlib.Data.List.Range
import Mathlib.Data.List.Induction

/-!
# The table behind `decls`

`Scope.Model` has the declared symbols in a list.  In `tree.c` they are in a block of memory that
`decl_init` makes room for `decls_size` entries in, and that `declare` lets `xrealloc` enlarge when
it is full.  `decl_init` gives the size in bytes, and `declare` the number of entries.

`Table` is the state with that block, and `p` is `sizeof(sym_t*)`.  As long as the block is not
enlarged the table does what the list does (`Table.Agrees`); `table_room_iff` says that this is
also as long as there is room in it.
-/

namespace Javalette.Scope

variable {σ α τ υ : Type}

/-! ## Blocks of memory -/

/-- A block of memory for pointers to symbols, of a number of bytes; an entry that has never been
written, or lies outside, is unknown. -/
structure Block (σ : Type) where
  bytes : ℕ
  entry : ℕ → Option σ

/-- The entry lies inside the block. -/
def Block.Inside (p : ℕ) (b : Block σ) (i : ℕ) : Prop := (i + 1) * p ≤ b.bytes

instance (p : ℕ) (b : Block σ) (i : ℕ) : Decidable (b.Inside p i) :=
  inferInstanceAs (Decidable (_ ≤ _))

/-- `xmalloc`. -/
def xmalloc (n : ℕ) : Block σ := ⟨n, fun _ => none⟩

/-- `xrealloc`: what lies inside the old block and the new one is kept. -/
def xrealloc (p : ℕ) (b : Block σ) (n : ℕ) : Block σ :=
  ⟨n, fun i => if b.Inside p i ∧ (i + 1) * p ≤ n then b.entry i else none⟩

/-- How an operation can fail: it gives up, it reads or writes outside of the block, it reads an
entry that is unknown, or a symbol has no declaration. -/
inductive TableError
  | abort | outside | unknown | null
  deriving DecidableEq, Repr

/-- `decls[i]` as a value. -/
def Block.read (p : ℕ) (b : Block σ) (i : ℕ) : Except TableError σ :=
  if b.Inside p i then
    match b.entry i with
    | some sym => .ok sym
    | none => .error .unknown
  else .error .outside

/-- `decls[i] = sym`. -/
def Block.write (p : ℕ) (b : Block σ) (i : ℕ) (sym : σ) : Except TableError (Block σ) :=
  if b.Inside p i then .ok { b with entry := Function.update b.entry i (some sym) }
  else .error .outside

/-! ## The table -/

/-- The static variables of the section, with the block that `decls` points to. -/
structure Table (σ α τ υ : Type) where
  decl : σ → Option α
  heap : α → Option (Decl α τ υ)
  decls : Block σ
  declsSize : ℕ
  declsFree : ℕ
  scopes : ℕ → ℕ
  curScope : ℕ
  errors : List (SrcPos × String)

namespace Table

/-- The state with the symbols in the list. -/
def withList (t : Table σ α τ υ) (syms : List σ) : State σ α τ υ :=
  ⟨t.decl, t.heap, syms, t.scopes, t.curScope, t.errors⟩

/-- `decl_init`. -/
def declInit (p : ℕ) : Table σ α τ υ where
  decl _ := none
  heap _ := none
  decls := xmalloc (p * 1024)
  declsSize := 1024
  declsFree := 0
  scopes _ := 0
  curScope := 0
  errors := []

/-- `push_scope`. -/
def pushScope (t : Table σ α τ υ) : Except TableError (Table σ α τ υ) :=
  if t.curScope + 1 ≥ maxScopes then .error .abort
  else .ok { t with
    curScope := t.curScope + 1
    scopes := Function.update t.scopes (t.curScope + 1) t.declsFree }

section

variable [DecidableEq σ] [DecidableEq α]

/-- A turn of the loop of `pop_scope`. -/
def popDecl (p : ℕ) (t : Table σ α τ υ) (i : ℕ) : Except TableError (Table σ α τ υ) := do
  let sym ← t.decls.read p i
  match Scope.popDecl (t.withList []) sym with
  | some s => .ok { t with decl := s.decl, heap := s.heap }
  | none => .error .null

/-- `pop_scope`. -/
def popScope (p : ℕ) (t : Table σ α τ υ) : Except TableError (Table σ α τ υ) :=
  if t.curScope = 0 then .error .abort
  else do
    let first := t.scopes t.curScope
    let t ← (List.range' first (t.declsFree - first)).foldlM (popDecl p) t
    return { t with
      declsFree := t.scopes t.curScope
      curScope := t.curScope - 1 }

/-- The block is full, and `declare` enlarges it. -/
def grow (p : ℕ) (t : Table σ α τ υ) : Table σ α τ υ :=
  if t.declsFree = t.declsSize then
    { t with declsSize := 2 * t.declsSize, decls := xrealloc p t.decls (2 * t.declsSize) }
  else t

/-- `decls[decls_free++] = sym`. -/
def store (p : ℕ) (t : Table σ α τ υ) (sym : σ) : Except TableError (Table σ α τ υ) := do
  let b ← t.decls.write p t.declsFree sym
  return { t with decls := b, declsFree := t.declsFree + 1 }

/-- `declare`, where `palloc` hands out the cell `a`. -/
def declare (p : ℕ) (t : Table σ α τ υ) (sym : σ) (type : τ) (srcPos : SrcPos) (a : α) :
    Except TableError (Table σ α τ υ) :=
  match declaredHere (t.withList []) sym with
  | none => .error .null
  | some true => .ok { t with errors := t.errors ++ [(srcPos, "duplicate identifier")] }
  | some false =>
      let t := { t with
        decl := Function.update t.decl sym (some a)
        heap := Function.update t.heap a (some ⟨type, t.curScope, false, none, t.decl sym⟩) }
      store p (grow p t) sym

/-- One action. -/
def perform (p : ℕ) (t : Table σ α τ υ) : Action σ α τ → Except TableError (Table σ α τ υ)
  | .push => pushScope t
  | .declare sym type srcPos a => declare p t sym type srcPos a
  | .pop => popScope p t

/-- A sequence of actions. -/
def performAll (p : ℕ) (t : Table σ α τ υ) (acts : List (Action σ α τ)) :
    Except TableError (Table σ α τ υ) :=
  acts.foldlM (perform p) t

end

/-! ## What is to hold -/

/-- There has been room for all that has been read and written by now, the block is as large as
`decls_size` says, and no entry has got lost. -/
def Room (p : ℕ) (r : Except TableError (Table σ α τ υ)) : Prop :=
  r ≠ .error .outside ∧
    ∀ t, r = .ok t → t.declsSize * p ≤ t.decls.bytes ∧
      ∀ i < t.declsFree, t.decls.Inside p i ∧ (t.decls.entry i).isSome = true

/-- The table has not been enlarged, and the symbols are its entries. -/
structure Agrees (p : ℕ) (t : Table σ α τ υ) (syms : List σ) : Prop where
  size : t.declsSize = 1024
  bytes : t.decls.bytes = p * 1024
  free : t.declsFree = syms.length
  limit : syms.length ≤ 1024
  entry : ∀ i < syms.length, t.decls.entry i = syms[i]?
  nested : ∀ j k, j ≤ k → k ≤ t.curScope → t.scopes j ≤ t.scopes k
  top : t.scopes t.curScope ≤ syms.length

/-! ## Without enlargement -/

section

variable {p i : ℕ} {t : Table σ α τ υ} {syms : List σ} {sym : σ}

lemma Agrees.inside (h : Agrees p t syms) (hi : i < 1024) : t.decls.Inside p i := by
  rw [Block.Inside, h.bytes, Nat.mul_comm]
  exact Nat.mul_le_mul_left p hi

lemma Agrees.read (h : Agrees p t syms) (hi : syms[i]? = some sym) :
    t.decls.read p i = .ok sym := by
  have hlt : i < syms.length := (List.getElem?_eq_some_iff.mp hi).1
  rw [Block.read, if_pos (h.inside (Nat.lt_of_lt_of_le hlt h.limit)), h.entry i hlt, hi]

lemma agrees_declInit : Agrees p (declInit p : Table σ α τ υ) [] :=
  ⟨rfl, rfl, rfl, Nat.zero_le _, fun _ h => absurd h (Nat.not_lt_zero _),
    fun _ _ _ _ => Nat.le_refl _, Nat.le_refl _⟩

/-- There is room as long as the table has not been enlarged. -/
lemma Agrees.room (h : Agrees p t syms) : Room p (.ok t) := by
  refine ⟨nofun, ?_⟩
  rintro _ ⟨⟩
  refine ⟨by rw [h.size, h.bytes, Nat.mul_comm], fun i hi => ?_⟩
  rw [h.free] at hi
  refine ⟨h.inside (Nat.lt_of_lt_of_le hi h.limit), ?_⟩
  rw [h.entry i hi, List.getElem?_eq_getElem hi]
  rfl

/-- The cell of a symbol is in the table what it is in the state. -/
lemma Agrees.congr {t' : Table σ α τ υ} (h : Agrees p t syms) (hsize : t'.declsSize = t.declsSize)
    (hdecls : t'.decls = t.decls) (hfree : t'.declsFree = t.declsFree)
    (hscopes : t'.scopes = t.scopes) (hcur : t'.curScope = t.curScope) : Agrees p t' syms :=
  ⟨hsize.trans h.size, hdecls ▸ h.bytes, hfree.trans h.free, h.limit, hdecls ▸ h.entry,
    by rw [hscopes, hcur]; exact h.nested, by rw [hscopes, hcur]; exact h.top⟩

end

/-- The block and the scopes are the same. -/
structure Frame (t t' : Table σ α τ υ) : Prop where
  decls : t'.decls = t.decls
  size : t'.declsSize = t.declsSize
  free : t'.declsFree = t.declsFree
  scopes : t'.scopes = t.scopes
  cur : t'.curScope = t.curScope

lemma Frame.refl (t : Table σ α τ υ) : Frame t t := ⟨rfl, rfl, rfl, rfl, rfl⟩

lemma Frame.trans {t t' t'' : Table σ α τ υ} (h : Frame t t') (h' : Frame t' t'') : Frame t t'' :=
  ⟨h'.decls.trans h.decls, h'.size.trans h.size, h'.free.trans h.free, h'.scopes.trans h.scopes,
    h'.cur.trans h.cur⟩

lemma Agrees.push {p : ℕ} {t : Table σ α τ υ} {syms : List σ} (h : Agrees p t syms) :
    Agrees p { t with
      curScope := t.curScope + 1
      scopes := Function.update t.scopes (t.curScope + 1) t.declsFree } syms := by
  refine ⟨h.size, h.bytes, h.free, h.limit, h.entry, fun j k hjk hk => ?_, ?_⟩
  · have hk' : k ≤ t.curScope + 1 := hk
    show Function.update t.scopes (t.curScope + 1) t.declsFree j ≤
      Function.update t.scopes (t.curScope + 1) t.declsFree k
    rcases Nat.lt_or_eq_of_le hk' with hlt | rfl
    · rw [Function.update_of_ne (Nat.ne_of_lt hlt), Function.update_of_ne (by omega)]
      exact h.nested j k hjk (Nat.le_of_lt_succ hlt)
    · rw [Function.update_self, h.free]
      rcases Nat.lt_or_eq_of_le hjk with hlt | rfl
      · rw [Function.update_of_ne (Nat.ne_of_lt hlt)]
        exact Nat.le_trans (h.nested j _ (Nat.le_of_lt_succ hlt) (Nat.le_refl _)) h.top
      · rw [Function.update_self]
  · show Function.update t.scopes (t.curScope + 1) t.declsFree (t.curScope + 1) ≤ _
    rw [Function.update_self, h.free]

/-- The symbols of the innermost scope are gone. -/
lemma Agrees.take {p : ℕ} {t t' : Table σ α τ υ} {syms : List σ} (h : Agrees p t syms)
    (hframe : Frame t t') :
    Agrees p { t' with
      declsFree := t'.scopes t'.curScope
      curScope := t'.curScope - 1 } (syms.take (t'.scopes t'.curScope)) := by
  have hscope : t'.scopes t'.curScope = t.scopes t.curScope := by rw [hframe.scopes, hframe.cur]
  have hlen : (syms.take (t.scopes t.curScope)).length = t.scopes t.curScope := by
    rw [List.length_take, Nat.min_eq_left h.top]
  rw [hscope]
  refine ⟨hframe.size.trans h.size, ?_, hlen.symm, ?_, ?_, ?_, ?_⟩
  · show t'.decls.bytes = _
    rw [hframe.decls, h.bytes]
  · exact Nat.le_trans (List.length_take_le' _ _) h.limit
  · intro i hi
    show t'.decls.entry i = _
    rw [hlen] at hi
    rw [hframe.decls, h.entry i (Nat.lt_of_lt_of_le hi h.top)]
    exact (List.getElem?_take_of_lt hi).symm
  · intro j k hjk hk
    show t'.scopes j ≤ t'.scopes k
    have hk' : k ≤ t'.curScope - 1 := hk
    rw [hframe.cur] at hk'
    rw [hframe.scopes]
    exact h.nested j k hjk (Nat.le_trans hk' (Nat.sub_le _ _))
  · show t'.scopes (t'.curScope - 1) ≤ _
    rw [hlen, hframe.scopes, hframe.cur]
    exact h.nested _ _ (Nat.sub_le _ _) (Nat.le_refl _)

/-- The table follows the state: it fails if the state does, for another reason than the block, and
else it has the symbols of the state or has run out of the block. -/
def Follows (p : ℕ) (r : Except TableError (Table σ α τ υ)) : Option (State σ α τ υ) → Prop
  | none => ∃ e, r = .error e ∧ e ≠ .outside
  | some s =>
      if s.decls.length ≤ 1024 then ∃ t, r = .ok t ∧ s = t.withList s.decls ∧ Agrees p t s.decls
      else r = .error .outside

lemma Agrees.follows {p : ℕ} {t : Table σ α τ υ} {syms : List σ} (h : Agrees p t syms) :
    Follows p (.ok t) (some (t.withList syms)) :=
  (if_pos h.limit).mpr ⟨t, rfl, rfl, h⟩

lemma Follows.room {p : ℕ} {r : Except TableError (Table σ α τ υ)} {o : Option (State σ α τ υ)}
    (h : Follows p r o) (hlimit : ∀ s, o = some s → s.decls.length ≤ 1024) : Room p r := by
  cases o with
  | none =>
    obtain ⟨e, rfl, hne⟩ := h
    exact ⟨fun he => hne (Except.error.inj he), nofun⟩
  | some s =>
    obtain ⟨t, rfl, -, hagrees⟩ := (if_pos (hlimit s rfl)).mp h
    exact hagrees.room

/-- After too many declarations something has been written outside of the block. -/
lemma Follows.outside {p : ℕ} {r : Except TableError (Table σ α τ υ)} {s : State σ α τ υ}
    (h : Follows p r (some s)) (hlong : 1024 < s.decls.length) : r = .error .outside :=
  (if_neg (Nat.not_le.mpr hlong)).mp h

lemma follows_push {p : ℕ} {t : Table σ α τ υ} {syms : List σ} (h : Agrees p t syms) :
    Follows p (pushScope t) (Scope.pushScope (t.withList syms)) := by
  unfold pushScope Scope.pushScope
  by_cases hmax : t.curScope + 1 ≥ maxScopes
  · rw [if_pos hmax, if_pos (show (t.withList syms).curScope + 1 ≥ maxScopes from hmax)]
    exact ⟨.abort, rfl, nofun⟩
  · rw [if_neg hmax, if_neg (show ¬(t.withList syms).curScope + 1 ≥ maxScopes from hmax)]
    rw [show (t.withList syms).decls.length = t.declsFree from h.free.symm]
    exact h.push.follows

lemma follows_store {p : ℕ} {t : Table σ α τ υ} {syms : List σ} {sym : σ} (h : Agrees p t syms)
    (hp : 1 < p) :
    Follows p (store p (grow p t) sym) (some (t.withList (syms ++ [sym]))) := by
  show if (syms ++ [sym]).length ≤ 1024 then _ else _
  have hlen : (syms ++ [sym]).length = syms.length + 1 := List.length_append
  split
  · rename_i hlimit
    have hlt : syms.length < 1024 := by omega
    have hgrow : grow p t = t := if_neg (by rw [h.free, h.size]; exact Nat.ne_of_lt hlt)
    have hinside : t.decls.Inside p t.declsFree := h.inside (h.free ▸ hlt)
    rw [hgrow, store, Block.write, if_pos hinside]
    refine ⟨_, rfl, rfl, h.size, h.bytes, ?_, hlimit, fun i hi => ?_, h.nested, ?_⟩
    · show t.declsFree + 1 = _
      rw [h.free]
      exact hlen.symm
    · show Function.update t.decls.entry t.declsFree (some sym) i = _
      rw [h.free]
      rcases Nat.lt_or_eq_of_le (Nat.le_of_lt_succ (hlen ▸ hi)) with hi | rfl
      · rw [Function.update_of_ne (Nat.ne_of_lt hi), h.entry i hi]
        exact (List.getElem?_append_left hi).symm
      · rw [Function.update_self]
        exact List.getElem?_concat_length.symm
    · exact Nat.le_trans h.top (hlen ▸ Nat.le_succ _)
  · rename_i hlimit
    -- the block has as many bytes as there are to be entries
    have hfull : syms.length = 1024 := by
      have := h.limit
      omega
    have hgrow : grow p t = { t with
        declsSize := 2 * t.declsSize
        decls := xrealloc p t.decls (2 * t.declsSize) } := if_pos (by rw [h.free, h.size, hfull])
    rw [hgrow, store]
    have houtside : ¬(xrealloc p t.decls (2 * t.declsSize)).Inside p t.declsFree := by
      show ¬(t.declsFree + 1) * p ≤ 2 * t.declsSize
      rw [h.free, h.size, hfull]
      omega
    rw [Block.write, if_neg houtside]
    rfl

section

variable [DecidableEq σ] [DecidableEq α] {p : ℕ} {t : Table σ α τ υ} {syms : List σ}

lemma popDecl_eq (syms : List σ) {i : ℕ} {sym : σ} (hread : t.decls.read p i = .ok sym) :
    match Scope.popDecl (t.withList syms) sym with
    | none => popDecl p t i = .error .null
    | some s => ∃ t', popDecl p t i = .ok t' ∧ s = t'.withList syms ∧ Frame t t' := by
  have hpop : popDecl p t i = match Scope.popDecl (t.withList []) sym with
      | some s => .ok { t with decl := s.decl, heap := s.heap }
      | none => .error .null := by
    rw [popDecl, hread]
    rfl
  rw [hpop]
  simp only [Scope.popDecl, withList]
  cases t.decl sym with
  | none => rfl
  | some a =>
    simp only [Option.bind_eq_bind, Option.bind_some]
    cases t.heap a with
    | none => rfl
    | some d => exact ⟨_, rfl, rfl, rfl, rfl, rfl, rfl, rfl⟩

/-- The loop of `pop_scope` reads the symbols of the scope off the block. -/
lemma foldlM_popDecl (syms suffix : List σ) : ∀ (first : ℕ) (t : Table σ α τ υ),
    (∀ j sym, suffix[j]? = some sym → t.decls.read p (first + j) = .ok sym) →
    match suffix.foldlM Scope.popDecl (t.withList syms) with
    | none => (List.range' first suffix.length).foldlM (popDecl p) t = .error .null
    | some s => ∃ t', (List.range' first suffix.length).foldlM (popDecl p) t = .ok t' ∧
        s = t'.withList syms ∧ Frame t t' := by
  induction suffix with
  | nil =>
    intro first t _
    exact ⟨t, rfl, rfl, .refl t⟩
  | cons sym suffix ih =>
    intro first t hread
    have hfirst := popDecl_eq syms (hread 0 sym rfl)
    rw [Nat.add_zero] at hfirst
    simp only [List.length_cons, List.range'_succ, List.foldlM_cons, Option.bind_eq_bind]
    cases hpop : Scope.popDecl (t.withList syms) sym with
    | none =>
      rw [hpop] at hfirst
      exact congrArg (· >>= _) hfirst
    | some s =>
      rw [hpop] at hfirst
      obtain ⟨t₁, ht₁, rfl, hframe⟩ := hfirst
      rw [ht₁]
      -- the decls array is not written, so the rest of the indices reads as before
      have hrest := ih (first + 1) t₁ fun j sym' hj => by
        rw [hframe.decls, Nat.add_assoc, Nat.add_comm 1 j]
        exact hread (j + 1) sym' hj
      simp only [Option.bind_some]
      cases hfold : suffix.foldlM Scope.popDecl (t₁.withList syms) with
      | none =>
        rw [hfold] at hrest
        exact hrest
      | some s =>
        rw [hfold] at hrest
        obtain ⟨t₂, ht₂, hs, hframe₂⟩ := hrest
        exact ⟨t₂, ht₂, hs, hframe.trans hframe₂⟩

lemma follows_pop (h : Agrees p t syms) :
    Follows p (popScope p t) (Scope.popScope (t.withList syms)) := by
  unfold popScope Scope.popScope
  by_cases hcur : t.curScope = 0
  · rw [if_pos hcur, if_pos (show (t.withList syms).curScope = 0 from hcur)]
    exact ⟨.abort, rfl, nofun⟩
  · rw [if_neg hcur, if_neg (show ¬(t.withList syms).curScope = 0 from hcur)]
    let first := t.scopes t.curScope
    have hloop := foldlM_popDecl (p := p) syms (syms.drop first) first t
      fun j sym hj => h.read (by rwa [List.getElem?_drop] at hj)
    rw [List.length_drop, ← h.free] at hloop
    show Follows p (((List.range' first (t.declsFree - first)).foldlM (popDecl p) t) >>= _)
      (((syms.drop first).foldlM Scope.popDecl (t.withList syms)) >>= _)
    cases hfold : (syms.drop first).foldlM Scope.popDecl (t.withList syms) with
    | none =>
      rw [hfold] at hloop
      exact ⟨.null, congrArg (· >>= _) hloop, nofun⟩
    | some s =>
      rw [hfold] at hloop
      obtain ⟨t', ht', rfl, hframe⟩ := hloop
      rw [ht']
      -- the list is cut off where the scope begins
      have hlen : (syms.take (t'.scopes t'.curScope)).length ≤ 1024 :=
        Nat.le_trans (List.length_take_le' _ _) h.limit
      exact (if_pos hlen).mpr ⟨_, rfl, rfl, h.take hframe⟩

lemma follows_declare {sym : σ} {type : τ} {srcPos : SrcPos} {a : α} (h : Agrees p t syms)
    (hp : 1 < p) :
    Follows p (declare p t sym type srcPos a)
      (Scope.declare (t.withList syms) sym type srcPos a) := by
  unfold declare Scope.declare
  have hhere : declaredHere (t.withList syms) sym = declaredHere (t.withList []) sym := rfl
  rw [hhere]
  cases declaredHere (t.withList []) sym with
  | none => exact ⟨.null, rfl, nofun⟩
  | some here =>
    cases here with
    | true =>
      have hsame : Agrees p { t with
          errors := t.errors ++ [(srcPos, "duplicate identifier")] } syms :=
        h.congr rfl rfl rfl rfl rfl
      exact hsame.follows
    | false =>
      exact follows_store (t := { t with
        decl := Function.update t.decl sym (some a)
        heap := Function.update t.heap a (some ⟨type, t.curScope, false, none, t.decl sym⟩) })
        (h.congr rfl rfl rfl rfl rfl) hp

/-- One action. -/
lemma follows_perform (h : Agrees p t syms) (hp : 1 < p) (act : Action σ α τ) :
    Follows p (perform p t act) (Scope.perform (t.withList syms) act) := by
  cases act with
  | push => exact follows_push h
  | declare sym type srcPos a => exact follows_declare h hp
  | pop => exact follows_pop h

/-! ## Runs -/

/-- The numbers of visible declarations in the course of the actions. -/
def Within (n : ℕ) (acts : List (Action σ α τ)) : Prop :=
  ∀ pre, pre <+: acts → ∀ s : State σ α τ υ, Scope.performAll Scope.declInit pre = some s →
    s.decls.length ≤ n

lemma performAll_concat (acts : List (Action σ α τ)) (act : Action σ α τ) :
    performAll p (declInit p : Table σ α τ υ) (acts ++ [act]) =
      performAll p (declInit p) acts >>= fun t => perform p t act := by
  simp [performAll, List.foldlM_append]

lemma scope_performAll_concat (acts : List (Action σ α τ)) (act : Action σ α τ) :
    Scope.performAll (Scope.declInit : State σ α τ υ) (acts ++ [act]) =
      Scope.performAll Scope.declInit acts >>= fun s => Scope.perform s act := by
  simp [Scope.performAll, List.foldlM_append]

lemma Within.mono {n : ℕ} {acts acts' : List (Action σ α τ)} (h : Within (υ := υ) n acts)
    (hpre : acts' <+: acts) : Within (υ := υ) n acts' :=
  fun pre hpre' => h pre (hpre'.trans hpre)

/-- The table follows the state up to the first state with more than 1024 symbols. -/
lemma follows_run (hp : 1 < p) (acts : List (Action σ α τ)) :
    (∀ act rest, acts = rest ++ [act] → Within (υ := υ) 1024 rest) →
    Follows p (performAll p (declInit p : Table σ α τ υ) acts)
      (Scope.performAll Scope.declInit acts) := by
  induction acts using List.reverseRecOn with
  | nil => exact fun _ => agrees_declInit.follows
  | append_singleton acts act ih =>
    intro hwithin
    have hacts := hwithin act acts rfl
    have ih := ih fun _ rest hrest => hacts.mono (hrest ▸ List.prefix_append rest _)
    rw [performAll_concat, scope_performAll_concat]
    cases hs : Scope.performAll (Scope.declInit : State σ α τ υ) acts with
    | none =>
      rw [hs] at ih
      obtain ⟨e, he, hne⟩ := ih
      exact ⟨e, congrArg (· >>= _) he, hne⟩
    | some s =>
      have hlimit := hacts acts List.prefix_rfl s hs
      rw [hs] at ih
      obtain ⟨t, ht, hst, hagrees⟩ := (if_pos hlimit).mp ih
      rw [ht, hst]
      exact follows_perform hagrees hp act

/-- There is room in the table in the course of the actions if and only if there are never more
than 1024 declarations visible at once. -/
theorem table_room_iff (hp : 1 < p) (acts : List (Action σ α τ)) :
    (∀ pre, pre <+: acts → Room p (performAll p (declInit p : Table σ α τ υ) pre)) ↔
      Within (υ := υ) 1024 acts := by
  constructor
  · induction acts using List.reverseRecOn with
    | nil =>
      rintro - pre hpre s hs
      obtain rfl := List.prefix_nil.mp hpre
      cases hs
      exact Nat.zero_le _
    | append_singleton acts act ih =>
      intro hroom pre hpre s hs
      have hacts := ih fun pre hpre => hroom pre (hpre.trans (List.prefix_append acts _))
      rcases List.prefix_concat_iff.mp hpre with rfl | hpre
      · have hfollows := follows_run (υ := υ) hp (acts ++ [act]) fun act' rest hrest => by
          rwa [← (List.append_inj' hrest rfl).1]
        rw [hs] at hfollows
        by_contra hlong
        exact (hroom _ List.prefix_rfl).1 (hfollows.outside (Nat.not_le.mp hlong))
      · exact hacts pre hpre s hs
  · intro hwithin pre hpre
    have hfollows := follows_run (υ := υ) hp pre fun _ rest hrest =>
      hwithin.mono ((hrest ▸ List.prefix_append rest _ : rest <+: pre).trans hpre)
    exact hfollows.room (hwithin pre hpre)

lemma decls_foldlM_popDecl {syms : List σ} : ∀ {s s' : State σ α τ υ},
    syms.foldlM Scope.popDecl s = some s' → s'.decls = s.decls := by
  induction syms with
  | nil =>
    rintro s _ ⟨⟩
    rfl
  | cons sym syms ih =>
    intro s s' h
    rw [List.foldlM_cons, Option.bind_eq_bind, Option.bind_eq_some_iff] at h
    obtain ⟨s₁, hpop, hrest⟩ := h
    have hsame : s₁.decls = s.decls := by
      simp only [Scope.popDecl, Option.bind_eq_bind, Option.bind_eq_some_iff, Option.pure_def,
        Option.some.injEq] at hpop
      obtain ⟨_, -, _, -, rfl⟩ := hpop
      rfl
    exact (ih hrest).trans hsame

/-- An action adds one symbol at the most. -/
lemma length_perform_le {s s' : State σ α τ υ} {act : Action σ α τ}
    (h : Scope.perform s act = some s') : s'.decls.length ≤ s.decls.length + 1 := by
  cases act with
  | push =>
    simp only [Scope.perform, Scope.pushScope] at h
    split at h
    · cases h
    · cases h
      exact Nat.le_succ _
  | declare sym type srcPos a =>
    simp only [Scope.perform, Scope.declare, Option.bind_eq_bind, Option.bind_eq_some_iff] at h
    obtain ⟨here, -, h⟩ := h
    split at h
    · cases h
      exact Nat.le_succ _
    · cases h
      exact (List.length_append).le
  | pop =>
    simp only [Scope.perform, Scope.popScope] at h
    split at h
    · cases h
    · rw [Option.bind_eq_bind, Option.bind_eq_some_iff] at h
      obtain ⟨s₁, hfold, h⟩ := h
      cases h
      exact Nat.le_succ_of_le (Nat.le_trans (List.length_take_le' _ _)
        (decls_foldlM_popDecl hfold ▸ Nat.le_refl _))

/-- There are never more symbols than actions. -/
lemma within_length {n : ℕ} {acts : List (Action σ α τ)} (h : acts.length ≤ n) :
    Within (υ := υ) n acts := by
  intro pre hpre s hs
  refine Nat.le_trans ?_ (Nat.le_trans hpre.length_le h)
  clear hpre
  induction pre using List.reverseRecOn generalizing s with
  | nil =>
    cases hs
    exact Nat.le_refl _
  | append_singleton pre act ih =>
    rw [scope_performAll_concat, Option.bind_eq_bind, Option.bind_eq_some_iff] at hs
    obtain ⟨s₁, hs₁, hs⟩ := hs
    rw [List.length_append]
    exact Nat.le_trans (length_perform_le hs) (Nat.succ_le_succ (ih s₁ hs₁))

end

/-- Declarations of the symbols `0` to `n - 1`. -/
def declares (n : ℕ) : List (Action ℕ ℕ Unit) :=
  (List.range n).map fun i => .declare i () ⟨1, 1⟩ i

/-- They are all new. -/
lemma performAll_declares (n : ℕ) :
    ∃ s : State ℕ ℕ Unit Unit, Scope.performAll Scope.declInit (declares n) = some s ∧
      s.decls.length = n ∧ ∀ sym, n ≤ sym → s.decl sym = none := by
  induction n with
  | zero => exact ⟨Scope.declInit, rfl, rfl, fun _ _ => rfl⟩
  | succ n ih =>
    obtain ⟨s, hs, hlen, hnew⟩ := ih
    have hsucc : declares (n + 1) = declares n ++ [.declare n () ⟨1, 1⟩ n] := by
      simp [declares, List.range_succ]
    have hhere : declaredHere s n = some false := by
      rw [declaredHere, hnew n (Nat.le_refl n)]
    rw [hsucc, scope_performAll_concat, hs]
    simp only [Option.bind_eq_bind, Option.bind_some, Scope.perform, Scope.declare, hhere]
    refine ⟨_, rfl, by simp [hlen], fun sym hsym => ?_⟩
    exact (Function.update_of_ne (Nat.ne_of_gt hsym) _ _).trans (hnew sym (Nat.le_of_succ_le hsym))

/-- A block with a declaration. -/
theorem table_room_iff_block :
    Room 8 (performAll 8 (declInit 8 : Table ℕ ℕ Unit Unit)
      [.push, .declare 0 () ⟨1, 1⟩ 0, .pop]) :=
  (table_room_iff (by decide) _).mpr (within_length (by decide)) _ List.prefix_rfl

lemma outside_declares {n : ℕ} (hn : n = 1025) :
    performAll 8 (declInit 8 : Table ℕ ℕ Unit Unit) (declares n) = .error .outside := by
  obtain ⟨s, hs, hlen, -⟩ := performAll_declares n
  have hfollows := follows_run (υ := Unit) (p := 8) (by decide) (declares n)
    fun act rest hrest => within_length (by
      have hlength := congrArg List.length hrest
      simp only [declares, List.length_map, List.length_range, List.length_append,
        List.length_singleton] at hlength
      omega)
  rw [hs] at hfollows
  exact hfollows.outside (by omega)

/-- With 1025 declarations visible at once, the last one is written outside of the block. -/
theorem table_outside :
    performAll 8 (declInit 8 : Table ℕ ℕ Unit Unit) (declares 1025) = .error .outside ∧
      ¬Room 8 (performAll 8 (declInit 8 : Table ℕ ℕ Unit Unit) (declares 1025)) :=
  ⟨outside_declares rfl, fun hroom => hroom.1 (outside_declares rfl)⟩

end Table

end Javalette.Scope
