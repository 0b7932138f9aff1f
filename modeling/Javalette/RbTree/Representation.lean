import Javalette.RbTree.Model

/-!
# Trees in the heap

`Holds h t` says that the heap stores the nodes of the tree `t`, whose payloads are pairs of
an address and a key; `HoldsPath h p q` says that it stores the nodes of a path whose hole
contains the pointer `q`.  `Loc h T p t` collects what the tree operations maintain about a
`rbtree_t` record `T` while they work at the subtree `t` below the path `p`: the two halves
are stored, no address occurs twice, the sentinel is intact, and `T.root` is the address of
the whole tree.

The lemmas of this module are the rules by which the operations are run: `Loc.up` and its
converse move the focus, and there is one rule for recolouring and one for rotating at the
focus.  None of them changes the in-order reading, so the set of addresses in use is carried
along for free, and `EqOff` says that no other cell is written.
-/

namespace Javalette.Rbtree

open ColorTree

variable {α δ : Type}

/-- A tree whose nodes carry their address. -/
abbrev HTree (α δ : Type) := ColorTree (Ptr × RbPair α δ)

/-- A path whose nodes carry their address. -/
abbrev HPath (α δ : Type) := Path (Ptr × RbPair α δ)

/-- The pointer to a tree. -/
def addr : HTree α δ → Ptr
  | .nil => theNil
  | .node _ _ v _ => v.1

/-- The pointer to the node above a hole; the sentinel for the whole tree. -/
def parentAddr : HPath α δ → Ptr
  | [] => theNil
  | f :: _ => f.val.1

/-- The addresses of a tree, in order. -/
def addrs (t : HTree α δ) : List Ptr := t.toList.map Prod.fst

/-- The addresses of a path. -/
def pathAddrs (p : HPath α δ) : List Ptr := (before p ++ after p).map Prod.fst

/-- The cell of a node with the pointer `q` on side `s` and `q'` on the other. -/
def cell (s : Side) (c : Color) (q : Ptr) (k : RbPair α δ) (q' : Ptr) : RbNode α δ :=
  ⟨some k, s.onLeft q q', s.onRight q q', c⟩

/-- The heap stores the nodes of the tree. -/
def Holds (h : Heap α δ) : HTree α δ → Prop
  | .nil => True
  | .node c l v r => h v.1 = some (cell .left c (addr l) v.2 (addr r)) ∧ Holds h l ∧ Holds h r

/-- The heap stores the nodes of the path, the innermost one pointing at `q`. -/
def HoldsPath (h : Heap α δ) : HPath α δ → Ptr → Prop
  | [], _ => True
  | f :: p, q => h f.val.1 = some (cell f.side f.color q f.val.2 (addr f.sibling)) ∧
      Holds h f.sibling ∧ HoldsPath h p f.val.1

/-- The path stack holds the path: the sentinel at the bottom, the root above it. -/
def StackHolds (T : RbTree) : HPath α δ → Prop
  | [] => T.stack 0 = theNil
  | f :: p => T.stack (p.length + 1) = f.val.1 ∧ StackHolds T p

/-- Two heaps agree outside a list of addresses and the sentinel. -/
def EqOff (s : List Ptr) (h h' : Heap α δ) : Prop := ∀ q, q ∉ s → q ≠ theNil → h' q = h q

/-- The state of an operation that works at the subtree `t` below the path `p`.  The
operation owns the cells `S` and started in the heap `h₀`. -/
structure Loc (h₀ : Heap α δ) (S : List Ptr) (h : Heap α δ) (T : RbTree) (p : HPath α δ)
    (t : HTree α δ) : Prop where
  tree : Holds h t
  path : HoldsPath h p (addr t)
  perm : (addrs (plug p t)).Perm S
  nodup : S.Nodup
  nil_notMem : theNil ∉ S
  frame : EqOff S h₀ h
  nilCell : ∃ n, h theNil = some n ∧ n.color = .black ∧ n.left = NULL
  null : h NULL = none
  nil : T.nil = theNil
  root : T.root = addr (plug p t)

/-! ## Heap cells -/

@[simp] lemma store_same (h : Heap α δ) (a : Ptr) (n : RbNode α δ) : h.store a n a = some n := by
  simp [Heap.store]

@[simp] lemma store_ne (h : Heap α δ) {a b : Ptr} (n : RbNode α δ) (hne : b ≠ a) :
    h.store a n b = h b := by
  simp [Heap.store, hne]

lemma free_ne (h : Heap α δ) {a b : Ptr} (hne : b ≠ a) : h.free a b = h b := by
  simp [Heap.free, hne]

lemma store_store (h : Heap α δ) (a : Ptr) (n n' : RbNode α δ) :
    (h.store a n).store a n' = h.store a n' := by
  simp [Heap.store]

lemma setColor_eq {h : Heap α δ} {a : Ptr} {n : RbNode α δ} (ha : h a = some n) (c : Color) :
    h.setColor a c = some (h.store a { n with color := c }) := by
  simp [Heap.setColor, ha]

lemma setKey_eq {h : Heap α δ} {a : Ptr} {n : RbNode α δ} (ha : h a = some n)
    (k : Option (RbPair α δ)) : h.setKey a k = some (h.store a { n with key := k }) := by
  simp [Heap.setKey, ha]

@[simp] lemma cell_color (s : Side) (c : Color) (q : Ptr) (k : RbPair α δ) (q' : Ptr) :
    (cell s c q k q').color = c := rfl

@[simp] lemma cell_key (s : Side) (c : Color) (q : Ptr) (k : RbPair α δ) (q' : Ptr) :
    (cell s c q k q').key = some k := rfl

@[simp] lemma cell_child (s : Side) (c : Color) (q : Ptr) (k : RbPair α δ) (q' : Ptr) :
    (cell s c q k q').child s = q := by
  cases s <;> rfl

@[simp] lemma cell_child_flip (s : Side) (c : Color) (q : Ptr) (k : RbPair α δ) (q' : Ptr) :
    (cell s c q k q').child s.flip = q' := by
  cases s <;> rfl

lemma cell_flip (s : Side) (c : Color) (q : Ptr) (k : RbPair α δ) (q' : Ptr) :
    cell s.flip c q k q' = cell s c q' k q := by
  cases s <;> rfl

@[simp] lemma cell_setColor (s : Side) (c c' : Color) (q : Ptr) (k : RbPair α δ) (q' : Ptr) :
    { cell s c q k q' with color := c' } = cell s c' q k q' := rfl

lemma setChild_cell {h : Heap α δ} {a : Ptr} {s : Side} {c : Color} {q : Ptr} {k : RbPair α δ}
    {q' : Ptr} (ha : h a = some (cell s c q k q')) (x : Ptr) :
    Heap.setChild s h a x = some (h.store a (cell s c x k q')) := by
  cases s <;> simp [Heap.setChild, Heap.setLeft, Heap.setRight, ha, cell]

lemma setChild_flip_cell {h : Heap α δ} {a : Ptr} {s : Side} {c : Color} {q : Ptr}
    {k : RbPair α δ} {q' : Ptr} (ha : h a = some (cell s c q k q')) (x : Ptr) :
    Heap.setChild s.flip h a x = some (h.store a (cell s c q k x)) := by
  cases s <;> simp [Heap.setChild, Heap.setLeft, Heap.setRight, ha, cell]

/-! ## Addresses -/

@[simp] lemma addr_nil : addr (.nil : HTree α δ) = theNil := rfl

@[simp] lemma addr_node (c : Color) (l : HTree α δ) (v : Ptr × RbPair α δ) (r : HTree α δ) :
    addr (.node c l v r) = v.1 := rfl

@[simp] lemma addr_sided (s : Side) (c : Color) (a : HTree α δ) (v : Ptr × RbPair α δ)
    (b : HTree α δ) : addr (sided s c a v b) = v.1 := rfl

@[simp] lemma addr_fill (f : Frame (Ptr × RbPair α δ)) (t : HTree α δ) :
    addr (f.fill t) = f.val.1 := rfl

@[simp] lemma addrs_nil : addrs (.nil : HTree α δ) = [] := rfl

@[simp] lemma addrs_node (c : Color) (l : HTree α δ) (v : Ptr × RbPair α δ) (r : HTree α δ) :
    addrs (.node c l v r) = addrs l ++ v.1 :: addrs r := by
  simp [addrs]

lemma mem_addrs_sided {s : Side} {c : Color} {a : HTree α δ} {v : Ptr × RbPair α δ}
    {b : HTree α δ} {q : Ptr} :
    q ∈ addrs (sided s c a v b) ↔ q = v.1 ∨ q ∈ addrs a ∨ q ∈ addrs b := by
  cases s <;> simp only [sided, Side.onLeft_left, Side.onLeft_right, Side.onRight_left,
    Side.onRight_right, addrs_node, List.mem_append, List.mem_cons] <;> tauto

lemma nodup_addrs_sided {s : Side} {c : Color} {a : HTree α δ} {v : Ptr × RbPair α δ}
    {b : HTree α δ} : (addrs (sided s c a v b)).Nodup ↔
      (addrs a).Nodup ∧ (addrs b).Nodup ∧ v.1 ∉ addrs a ∧ v.1 ∉ addrs b ∧
        ∀ q ∈ addrs a, q ∉ addrs b := by
  cases s <;> simp [sided, List.nodup_append, List.nodup_cons] <;> grind

lemma addrs_plug (p : HPath α δ) (t : HTree α δ) :
    (addrs (plug p t)).Perm (addrs t ++ pathAddrs p) := by
  rw [addrs, toList_plug, addrs, pathAddrs, ← List.map_append]
  apply List.Perm.map
  rw [List.append_assoc]
  exact (List.perm_append_comm_assoc _ _ _)

lemma mem_addrs_plug {p : HPath α δ} {t : HTree α δ} {q : Ptr} :
    q ∈ addrs (plug p t) ↔ q ∈ addrs t ∨ q ∈ pathAddrs p := by
  rw [(addrs_plug p t).mem_iff, List.mem_append]

lemma nodup_addrs_plug {p : HPath α δ} {t : HTree α δ} :
    (addrs (plug p t)).Nodup ↔
      (addrs t).Nodup ∧ (pathAddrs p).Nodup ∧ ∀ q ∈ addrs t, q ∉ pathAddrs p := by
  rw [(addrs_plug p t).nodup_iff, List.nodup_append]
  grind

lemma mem_pathAddrs_cons {f : Frame (Ptr × RbPair α δ)} {p : HPath α δ} {q : Ptr} :
    q ∈ pathAddrs (f :: p) ↔ q = f.val.1 ∨ q ∈ addrs f.sibling ∨ q ∈ pathAddrs p := by
  obtain ⟨s, c, v, sib⟩ := f
  cases s <;> simp only [pathAddrs, before, after, addrs, List.map_append, List.mem_append,
    List.map_cons, List.mem_cons, List.map_nil, List.not_mem_nil] <;> tauto

lemma addr_mem_addrs {t : HTree α δ} (h : t ≠ .nil) : addr t ∈ addrs t := by
  cases t with
  | nil => exact absurd rfl h
  | node c l v r => simp

/-- The root of a tree with a hole is a node of the path. -/
lemma addr_plug_cons_mem (f : Frame (Ptr × RbPair α δ)) (p : HPath α δ) (t : HTree α δ) :
    addr (plug (f :: p) t) ∈ pathAddrs (f :: p) := by
  induction p generalizing f t with
  | nil => simp [mem_pathAddrs_cons]
  | cons g p ih =>
      rw [plug_cons, mem_pathAddrs_cons]
      exact .inr (.inr (ih g _))

/-- The root of a tree with a hole does not depend on what is in the hole. -/
lemma addr_plug_cons_congr (f : Frame (Ptr × RbPair α δ)) (p : HPath α δ) (t t' : HTree α δ) :
    addr (plug (f :: p) t) = addr (plug (f :: p) t') := by
  induction p generalizing f t t' with
  | nil => rfl
  | cons g p ih =>
      rw [plug_cons, plug_cons]
      exact ih g _ _

/-! ## Frame rules -/

lemma Holds.congr {h h' : Heap α δ} {t : HTree α δ} (ht : Holds h t)
    (heq : ∀ q ∈ addrs t, h' q = h q) : Holds h' t := by
  induction t with
  | nil => trivial
  | node c l v r ihl ihr =>
      obtain ⟨hv, hl, hr⟩ := ht
      refine ⟨?_, ihl hl fun q hq => heq q ?_, ihr hr fun q hq => heq q ?_⟩
      · rw [heq v.1 (by simp), hv]
      · simp [hq]
      · simp [hq]

/-- The cell of any node of a stored tree. -/
lemma Holds.cell_of_mem {h : Heap α δ} {t : HTree α δ} (ht : Holds h t) {v : Ptr × RbPair α δ}
    (hv : v ∈ t.toList) : ∃ n, h v.1 = some n ∧ n.key = some v.2 := by
  induction t with
  | nil => simp at hv
  | node c l w r ihl ihr =>
      obtain ⟨hw, hl, hr⟩ := ht
      rw [toList_node, List.mem_append, List.mem_cons] at hv
      rcases hv with hv | rfl | hv
      · exact ihl hl hv
      · exact ⟨_, hw, rfl⟩
      · exact ihr hr hv

lemma HoldsPath.congr {h h' : Heap α δ} {p : HPath α δ} {q : Ptr} (hp : HoldsPath h p q)
    (heq : ∀ a ∈ pathAddrs p, h' a = h a) : HoldsPath h' p q := by
  induction p generalizing q with
  | nil => trivial
  | cons f p ih =>
      obtain ⟨hf, hs, hp⟩ := hp
      simp only [mem_pathAddrs_cons] at heq
      refine ⟨?_, hs.congr fun a ha => heq a (.inr (.inl ha)),
        ih hp fun a ha => heq a (.inr (.inr ha))⟩
      rw [heq _ (.inl rfl), hf]

lemma Holds.sided_iff {h : Heap α δ} {s : Side} {c : Color} {a : HTree α δ}
    {v : Ptr × RbPair α δ} {b : HTree α δ} : Holds h (sided s c a v b) ↔
      h v.1 = some (cell s c (addr a) v.2 (addr b)) ∧ Holds h a ∧ Holds h b := by
  cases s
  · rfl
  · simp only [sided, Holds, Side.onLeft_right, Side.onRight_right]
    rw [show cell .left c (addr b) v.2 (addr a) = cell .right c (addr a) v.2 (addr b) from rfl]
    tauto

@[refl] lemma EqOff.refl (s : List Ptr) (h : Heap α δ) : EqOff s h h := fun _ _ _ => rfl

lemma EqOff.trans {s : List Ptr} {h₁ h₂ h₃ : Heap α δ} (h : EqOff s h₁ h₂)
    (h' : EqOff s h₂ h₃) : EqOff s h₁ h₃ := fun q hq hn => (h' q hq hn).trans (h q hq hn)

lemma EqOff.mono {s s' : List Ptr} {h h' : Heap α δ} (he : EqOff s h h') (hs : s ⊆ s') :
    EqOff s' h h' := fun q hq hn => he q (fun hm => hq (hs hm)) hn

lemma EqOff.store {s : List Ptr} {a : Ptr} (h : Heap α δ) (n : RbNode α δ)
    (ha : a ∈ s ∨ a = theNil) : EqOff s h (h.store a n) := by
  intro q hq hn
  apply store_ne
  rintro rfl
  exact ha.elim hq hn

lemma sided_flip (s : Side) (c : Color) (a : HTree α δ) (v : Ptr × RbPair α δ)
    (b : HTree α δ) : sided s.flip c a v b = sided s c b v a := by
  cases s <;> rfl

/-! ## The path stack -/

lemma parentAddr_nil : parentAddr ([] : HPath α δ) = theNil := rfl

lemma parentAddr_cons (f : Frame (Ptr × RbPair α δ)) (p : HPath α δ) :
    parentAddr (f :: p) = f.val.1 := rfl

lemma StackHolds.top {T : RbTree} {p : HPath α δ} (hs : StackHolds T p) :
    T.stack p.length = parentAddr p := by
  cases p with
  | nil => exact hs
  | cons f p => exact hs.1

lemma StackHolds.tail {T : RbTree} {f : Frame (Ptr × RbPair α δ)} {p : HPath α δ}
    (hs : StackHolds T (f :: p)) : StackHolds T p := hs.2

lemma StackHolds.stackGet {T : RbTree} {p : HPath α δ} (hs : StackHolds T p)
    (hlt : p.length < T.stackSize) : T.stackGet p.length = some (parentAddr p) := by
  rw [RbTree.stackGet, if_pos hlt, hs.top]

lemma StackHolds.congr {T T' : RbTree} {p : HPath α δ} (hs : StackHolds T p)
    (heq : ∀ i ≤ p.length, T'.stack i = T.stack i) : StackHolds T' p := by
  induction p with
  | nil => exact (heq 0 le_rfl).trans hs
  | cons f p ih =>
      refine ⟨(heq _ le_rfl).trans hs.1, ih hs.2 fun i hi => heq i ?_⟩
      simp only [List.length_cons]
      omega

/-- The stack holds addresses only. -/
lemma StackHolds.congr_path {T : RbTree} {p p' : HPath α δ} (hs : StackHolds T p)
    (heq : p.map (fun f => f.val.1) = p'.map (fun f => f.val.1)) : StackHolds T p' := by
  induction p generalizing p' with
  | nil =>
      obtain rfl := List.map_eq_nil_iff.mp heq.symm
      exact hs
  | cons f p ih =>
      obtain ⟨g, p', rfl, hg, hp⟩ := List.map_eq_cons_iff.mp heq.symm
      have hlen : p'.length = p.length := by simpa using congrArg List.length hp
      refine ⟨?_, ih hs.2 hp.symm⟩
      rw [hlen, hs.1, hg]

/-- Pushing a node. -/
lemma StackHolds.push {T : RbTree} {p : HPath α δ} (hs : StackHolds T p)
    (f : Frame (Ptr × RbPair α δ)) (hlt : p.length + 1 < T.stackSize) :
    T.stackSet (p.length + 1) f.val.1 =
        some { T with stack := Function.update T.stack (p.length + 1) f.val.1 } ∧
      StackHolds { T with stack := Function.update T.stack (p.length + 1) f.val.1 } (f :: p) := by
  refine ⟨if_pos hlt, by simp, hs.congr fun i hi => ?_⟩
  exact Function.update_of_ne (by omega) _ _

/-! ## Moving the focus -/

namespace Loc

variable {h₀ h : Heap α δ} {S : List Ptr} {T : RbTree} {p : HPath α δ} {t : HTree α δ}

/-- Moving the focus to the node above, and back. -/
lemma cons_iff {f : Frame (Ptr × RbPair α δ)} :
    Loc h₀ S h T (f :: p) t ↔ Loc h₀ S h T p (f.fill t) := by
  constructor
  · rintro ⟨ht, ⟨hf, hs, hp⟩, hperm, hnd, hnil, hfr, hcell, hnull, hTn, hr⟩
    exact ⟨Holds.sided_iff.mpr ⟨hf, ht, hs⟩, hp, hperm, hnd, hnil, hfr, hcell, hnull, hTn, hr⟩
  · rintro ⟨ht, hp, hperm, hnd, hnil, hfr, hcell, hnull, hTn, hr⟩
    obtain ⟨hf, ht, hs⟩ := Holds.sided_iff.mp ht
    exact ⟨ht, ⟨hf, hs, hp⟩, hperm, hnd, hnil, hfr, hcell, hnull, hTn, hr⟩

lemma up {f : Frame (Ptr × RbPair α δ)} (hl : Loc h₀ S h T (f :: p) t) :
    Loc h₀ S h T p (f.fill t) :=
  cons_iff.mp hl

lemma down {s : Side} {c : Color} {a : HTree α δ} {v : Ptr × RbPair α δ} {b : HTree α δ}
    (hl : Loc h₀ S h T p (sided s c a v b)) : Loc h₀ S h T (⟨s, c, v, b⟩ :: p) a :=
  cons_iff.mpr hl

/-- Down to the child on the other side. -/
lemma down_flip {s : Side} {c : Color} {a : HTree α δ} {v : Ptr × RbPair α δ}
    {b : HTree α δ} (hl : Loc h₀ S h T p (sided s c a v b)) :
    Loc h₀ S h T (⟨s.flip, c, v, a⟩ :: p) b := by
  rw [← sided_flip] at hl
  exact down hl

lemma up_flip {s : Side} {c : Color} {a : HTree α δ} {v : Ptr × RbPair α δ} {b : HTree α δ}
    (hl : Loc h₀ S h T (⟨s.flip, c, v, a⟩ :: p) b) : Loc h₀ S h T p (sided s c a v b) := by
  have := hl.up
  rwa [Frame.fill_mk, sided_flip] at this

lemma root_iff : Loc h₀ S h T p t ↔ Loc h₀ S h T [] (plug p t) := by
  induction p generalizing t with
  | nil => rfl
  | cons f p ih => rw [cons_iff, ih, plug_cons]

lemma cell_eq {s : Side} {c : Color} {a : HTree α δ} {v : Ptr × RbPair α δ} {b : HTree α δ}
    (hl : Loc h₀ S h T p (sided s c a v b)) : h v.1 = some (cell s c (addr a) v.2 (addr b)) :=
  (Holds.sided_iff.mp hl.tree).1

lemma parent_cell {f : Frame (Ptr × RbPair α δ)} (hl : Loc h₀ S h T (f :: p) t) :
    h f.val.1 = some (cell f.side f.color (addr t) f.val.2 (addr f.sibling)) :=
  hl.path.1

/-- The colour field of whatever the focus points at. -/
lemma color_eq (hl : Loc h₀ S h T p t) : ∃ n, h (addr t) = some n ∧ n.color = t.rootColor := by
  cases t with
  | nil =>
      obtain ⟨n, hn, hc, -⟩ := hl.nilCell
      exact ⟨n, hn, hc⟩
  | node c l v r => exact ⟨_, hl.tree.1, rfl⟩

lemma mem_iff (hl : Loc h₀ S h T p t) {q : Ptr} : q ∈ S ↔ q ∈ addrs t ∨ q ∈ pathAddrs p := by
  rw [← hl.perm.mem_iff, mem_addrs_plug]

lemma nodup_parts (hl : Loc h₀ S h T p t) :
    (addrs t).Nodup ∧ (pathAddrs p).Nodup ∧ ∀ q ∈ addrs t, q ∉ pathAddrs p :=
  nodup_addrs_plug.mp (hl.perm.nodup_iff.mpr hl.nodup)

lemma notMem_path (hl : Loc h₀ S h T p t) {q : Ptr} (hq : q ∈ addrs t) : q ∉ pathAddrs p :=
  hl.nodup_parts.2.2 q hq

lemma ne_nil_of_mem (hl : Loc h₀ S h T p t) {q : Ptr} (hq : q ∈ addrs t) : q ≠ theNil := by
  rintro rfl
  exact hl.nil_notMem (hl.mem_iff.mpr (.inl hq))

lemma ne_nil_of_mem_path (hl : Loc h₀ S h T p t) {q : Ptr} (hq : q ∈ pathAddrs p) :
    q ≠ theNil := by
  rintro rfl
  exact hl.nil_notMem (hl.mem_iff.mpr (.inr hq))

/-- A subtree is empty exactly when its pointer is the sentinel. -/
lemma addr_eq_nil_iff (hl : Loc h₀ S h T p t) : addr t = theNil ↔ t = .nil := by
  constructor
  · intro ha
    by_contra hne
    exact hl.ne_nil_of_mem (addr_mem_addrs hne) ha
  · rintro rfl
    rfl

lemma addr_ne_nil {c : Color} {l r : HTree α δ} {v : Ptr × RbPair α δ}
    (hl : Loc h₀ S h T p (.node c l v r)) : v.1 ≠ theNil :=
  hl.ne_nil_of_mem (by simp)

lemma ne_null_of_cell (hl : Loc h₀ S h T p t) {q : Ptr} {n : RbNode α δ} (hq : h q = some n) :
    q ≠ NULL := by
  rintro rfl
  rw [hl.null] at hq
  cases hq

/-- The focus is at the root of the tree exactly when the path is empty. -/
lemma addr_eq_root_iff (hl : Loc h₀ S h T p t) (hne : t ≠ .nil) : addr t = T.root ↔ p = [] := by
  rw [hl.root]
  cases p with
  | nil => simp
  | cons f p =>
      have hroot := addr_plug_cons_mem f p t
      have hfoc := hl.notMem_path (addr_mem_addrs hne)
      refine iff_of_false (fun heq => hfoc (heq ▸ hroot)) (by simp)

/-- An empty subtree is the root only of the empty tree. -/
lemma nil_eq_root_iff (hl : Loc h₀ S h T p (.nil : HTree α δ)) : theNil = T.root ↔ p = [] := by
  rw [hl.root]
  cases p with
  | nil => simp
  | cons f p =>
      refine iff_of_false (fun heq => ?_) (by simp)
      exact hl.ne_nil_of_mem_path (addr_plug_cons_mem f p .nil) heq.symm

/-- The pointer to a subtree is not the pointer to its sibling, unless both are empty. -/
lemma addr_ne_sibling {f : Frame (Ptr × RbPair α δ)} (hl : Loc h₀ S h T (f :: p) t)
    (hne : t ≠ .nil ∨ f.sibling ≠ .nil) : addr t ≠ addr f.sibling := by
  intro heq
  rcases eq_or_ne t .nil with rfl | ht
  · have hs := hne.resolve_left (fun h => h rfl)
    have hmem : addr f.sibling ∈ pathAddrs (f :: p) :=
      mem_pathAddrs_cons.mpr (.inr (.inl (addr_mem_addrs hs)))
    exact hl.ne_nil_of_mem_path hmem heq.symm
  · have hmem := hl.notMem_path (addr_mem_addrs ht)
    rw [mem_pathAddrs_cons] at hmem
    rcases eq_or_ne f.sibling .nil with hs | hs
    · rw [hs] at heq
      exact hl.ne_nil_of_mem (addr_mem_addrs ht) heq
    · exact hmem (.inr (.inl (heq ▸ addr_mem_addrs hs)))

/-- The side of the focus below its parent, as the operations find it out. -/
lemma side_eq {f : Frame (Ptr × RbPair α δ)} (hl : Loc h₀ S h T (f :: p) t)
    (hne : t ≠ .nil ∨ f.sibling ≠ .nil) :
    (if addr t = (cell f.side f.color (addr t) f.val.2 (addr f.sibling)).left then Side.left
      else .right) = f.side := by
  have hsib := hl.addr_ne_sibling hne
  obtain ⟨s, c, v, sib⟩ := f
  cases s
  · simp [cell]
  · simp [cell, hsib]

/-- The operation may be taken to start here. -/
lemma reframe (hl : Loc h₀ S h T p t) : Loc h S h T p t :=
  { hl with frame := EqOff.refl S h }

/-- Another operation may run meanwhile, as long as it leaves the cells alone and the
sentinel in shape. -/
lemma transport (hl : Loc h₀ S h T p t) {h' : Heap α δ} (heq : ∀ q ∈ S, h' q = h q)
    (hnil : ∃ n, h' theNil = some n ∧ n.color = .black ∧ n.left = NULL) (hnull : h' NULL = none) :
    Loc h' S h' T p t :=
  { hl with
    tree := hl.tree.congr fun q hq => heq q (hl.mem_iff.mpr (.inl hq))
    path := hl.path.congr fun q hq => heq q (hl.mem_iff.mpr (.inr hq))
    frame := EqOff.refl S h'
    nilCell := hnil
    null := hnull }

/-- The record fields that no tree operation reads through `Loc` may change. -/
lemma congr_record {T' : RbTree} (hl : Loc h₀ S h T p t) (hn : T'.nil = T.nil)
    (hr : T'.root = T.root) : Loc h₀ S h T' p t :=
  { hl with nil := hn.trans hl.nil, root := hr.trans hl.root }

/-! ## Replacing the focus -/

/-- What the node above the focus, or the sentinel at the root, has to contain for the focus
to be at the address `q`. -/
def ParentCell : HPath α δ → Ptr → RbNode α δ → Prop
  | [], _, n => n.color = .black ∧ n.left = NULL
  | f :: _, q, n => n = cell f.side f.color q f.val.2 (addr f.sibling)

/-- The parent's cell, at any focus. -/
lemma exists_parentCell (hl : Loc h₀ S h T p t) :
    ∃ n, h (parentAddr p) = some n ∧ ParentCell p (addr t) n := by
  cases p with
  | nil => exact hl.nilCell
  | cons f p => exact ⟨_, hl.parent_cell, rfl⟩

lemma parentAddr_eq_or_mem (p : HPath α δ) :
    p = [] ∧ parentAddr p = theNil ∨ parentAddr p ∈ pathAddrs p := by
  cases p with
  | nil => exact .inl ⟨rfl, rfl⟩
  | cons f p => exact .inr (mem_pathAddrs_cons.mpr (.inl rfl))

/-- The node above the focus is not in the focused subtree. -/
lemma parentAddr_notMem (hl : Loc h₀ S h T p t) : parentAddr p ∉ addrs t := by
  intro hmem
  rcases parentAddr_eq_or_mem p with ⟨-, hp⟩ | hp
  · exact hl.ne_nil_of_mem hmem hp
  · exact hl.notMem_path hmem hp

lemma parentAddr_notMem_tail {f : Frame (Ptr × RbPair α δ)} (hl : Loc h₀ S h T (f :: p) t) :
    f.val.1 ∉ addrs f.sibling ∧ f.val.1 ∉ pathAddrs p := by
  obtain ⟨hnd, -, hdisj⟩ := hl.up.nodup_parts
  obtain ⟨-, -, -, hsib, -⟩ := nodup_addrs_sided.mp hnd
  exact ⟨hsib, hdisj _ (mem_addrs_sided.mpr (.inl rfl))⟩

/-- **Replacing the focus**, by a subtree that may have other addresses.  The new heap has the
address of the subtree in the parent's cell, and is otherwise unchanged above the focus. -/
lemma exchange (hl : Loc h₀ S h T p t) {h₀' h' : Heap α δ} {S' : List Ptr} {T' : RbTree}
    {t' : HTree α δ} (hperm : (addrs t' ++ pathAddrs p).Perm S') (hnd : S'.Nodup)
    (hnil' : theNil ∉ S') (hfr : EqOff S' h₀' h') (ht : Holds h' t')
    (hpar : ∃ n, h' (parentAddr p) = some n ∧ ParentCell p (addr t') n)
    (hpath : ∀ q ∈ pathAddrs p, q ≠ parentAddr p → h' q = h q)
    (hnil : p ≠ [] → h' theNil = h theNil) (hnull : h' NULL = none) (hTn : T'.nil = theNil)
    (hTr : T'.root = if p = [] then addr t' else T.root) : Loc h₀' S' h' T' p t' := by
  refine ⟨ht, ?_, (addrs_plug p t').trans hperm, hnd, hnil', hfr, ?_, hnull, hTn, ?_⟩
  · cases p with
    | nil => trivial
    | cons f p =>
        obtain ⟨n, hn, rfl⟩ := hpar
        obtain ⟨-, hs, hp⟩ := hl.path
        obtain ⟨hsib, htail⟩ := hl.parentAddr_notMem_tail
        refine ⟨hn, hs.congr fun q hq => hpath q ?_ ?_, hp.congr fun q hq => hpath q ?_ ?_⟩
        · exact mem_pathAddrs_cons.mpr (.inr (.inl hq))
        · rintro rfl
          exact hsib hq
        · exact mem_pathAddrs_cons.mpr (.inr (.inr hq))
        · rintro rfl
          exact htail hq
  · cases p with
    | nil => exact hpar
    | cons f p => exact hnil (by simp) ▸ hl.nilCell
  · cases p with
    | nil => exact hTr
    | cons f p =>
        rw [hTr, if_neg (by simp), hl.root]
        exact addr_plug_cons_congr f p _ _

/-- **Replacing the focus**, by a subtree with the same addresses. -/
lemma replace (hl : Loc h₀ S h T p t) {h' : Heap α δ} {T' : RbTree} {t' : HTree α δ}
    (hperm : (addrs t').Perm (addrs t)) (hfr : EqOff S h h') (ht : Holds h' t')
    (hpar : ∃ n, h' (parentAddr p) = some n ∧ ParentCell p (addr t') n)
    (hpath : ∀ q ∈ pathAddrs p, q ≠ parentAddr p → h' q = h q)
    (hnil : p ≠ [] → h' theNil = h theNil) (hnull : h' NULL = none) (hTn : T'.nil = theNil)
    (hTr : T'.root = if p = [] then addr t' else T.root) : Loc h₀ S h' T' p t' :=
  hl.exchange ((hperm.append_right _).trans ((addrs_plug p t).symm.trans hl.perm)) hl.nodup
    hl.nil_notMem (hl.frame.trans hfr) ht hpar hpath hnil hnull hTn hTr

lemma allocated (hl : Loc h₀ S h T p t) {q : Ptr} (hq : q ∈ S) : ∃ n, h q = some n := by
  obtain ⟨v, hv, rfl⟩ := List.mem_map.mp (hl.perm.mem_iff.mpr hq)
  obtain ⟨n, hn, -⟩ := (root_iff.mp hl).tree.cell_of_mem hv
  exact ⟨n, hn⟩

/-- Writing the sentinel, without changing its colour or its left pointer. -/
lemma store_nil (hl : Loc h₀ S h T p t) {n : RbNode α δ} (hc : n.color = .black)
    (hleft : n.left = NULL) : Loc h₀ S (h.store theNil n) T p t := by
  refine ⟨hl.tree.congr fun q hq => store_ne _ _ (hl.ne_nil_of_mem hq),
    hl.path.congr fun q hq => store_ne _ _ (hl.ne_nil_of_mem_path hq), hl.perm, hl.nodup,
    hl.nil_notMem, hl.frame.trans (EqOff.store _ _ (.inr rfl)), ⟨n, store_same _ _ _, hc, hleft⟩,
    ?_, hl.nil, hl.root⟩
  rw [store_ne _ _ (by decide), hl.null]

/-- Storing a new cell at the focus that keeps its children. -/
lemma store_focus {s : Side} {c c' : Color} {a : HTree α δ} {v : Ptr × RbPair α δ}
    {b : HTree α δ} (hl : Loc h₀ S h T p (sided s c a v b)) (k : RbPair α δ) :
    Loc h₀ S (h.store v.1 (cell s c' (addr a) k (addr b))) T p (sided s c' a (v.1, k) b) := by
  obtain ⟨hv, ha, hb⟩ := Holds.sided_iff.mp hl.tree
  obtain ⟨hnd, -, hdisj⟩ := hl.nodup_parts
  obtain ⟨-, -, hva, hvb, -⟩ := nodup_addrs_sided.mp hnd
  have hvmem : v.1 ∈ addrs (sided s c a v b) := mem_addrs_sided.mpr (.inl rfl)
  have hlist : addrs (sided s c' a (v.1, k) b) = addrs (sided s c a v b) := by
    cases s <;> simp [sided]
  have hpar : parentAddr p ≠ v.1 := fun heq => hl.parentAddr_notMem (heq ▸ hvmem)
  refine hl.replace (hlist ▸ .refl _) (EqOff.store _ _ (.inl (hl.mem_iff.mpr (.inl hvmem))))
    (Holds.sided_iff.mpr ⟨by simp, ?_, ?_⟩) ?_ ?_ ?_ ?_ hl.nil ?_
  · exact ha.congr fun q hq => store_ne _ _ (fun heq => hva (heq ▸ hq))
  · exact hb.congr fun q hq => store_ne _ _ (fun heq => hvb (heq ▸ hq))
  · rw [store_ne _ _ hpar]
    exact hl.exists_parentCell
  · exact fun q hq _ => store_ne _ _ (fun heq => hdisj _ hvmem (heq ▸ hq))
  · exact fun _ => store_ne _ _ (hl.ne_nil_of_mem hvmem).symm
  · rw [store_ne _ _ (hl.ne_null_of_cell hv).symm, hl.null]
  · split
    · next hp => subst hp; exact hl.root
    · rfl

/-- **Recolouring** the node in focus. -/
lemma setColor {s : Side} {c : Color} {a : HTree α δ} {v : Ptr × RbPair α δ} {b : HTree α δ}
    (hl : Loc h₀ S h T p (sided s c a v b)) (c' : Color) :
    ∃ h', h.setColor v.1 c' = some h' ∧ Loc h₀ S h' T p (sided s c' a v b) :=
  ⟨_, setColor_eq hl.cell_eq c', hl.store_focus v.2⟩

/-! ## Rotating -/

/-- The last step of a rotation: of the parent's two pointers, the one that points at the
focus is redirected.  At the root this writes the sentinel's right pointer, since its left
one is null. -/
lemma relink (hl : Loc h₀ S h T p t) (hne : t ≠ .nil) {h' : Heap α δ}
    (hpar : h' (parentAddr p) = h (parentAddr p)) (r : Ptr) :
    ∃ m n, h' (parentAddr p) = some m ∧ ParentCell p r n ∧
      (m.left = addr t ∧ h'.setLeft (parentAddr p) r = some (h'.store (parentAddr p) n) ∨
        m.left ≠ addr t ∧ h'.setRight (parentAddr p) r = some (h'.store (parentAddr p) n)) := by
  obtain ⟨m, hm, hcell⟩ := hl.exists_parentCell
  rw [hm] at hpar
  have hnull : addr t ≠ NULL := by
    obtain ⟨k, hk, -⟩ := hl.color_eq
    exact hl.ne_null_of_cell hk
  cases p with
  | nil =>
      refine ⟨m, { m with right := r }, hpar, hcell, .inr ⟨fun heq => hnull ?_, ?_⟩⟩
      · rw [← heq, hcell.2]
      · simp [hpar, Heap.setRight]
  | cons f p =>
      subst hcell
      have hsib := hl.addr_ne_sibling (.inl hne)
      obtain ⟨s, c, v, sib⟩ := f
      refine ⟨_, _, hpar, rfl, ?_⟩
      cases s
      · exact .inl ⟨rfl, by simp [hpar, Heap.setLeft, cell]⟩
      · exact .inr ⟨hsib.symm, by simp [hpar, Heap.setRight, cell]⟩

/-- **Rotating** at the focus. -/
lemma rotate {s : Side} {c c' : Color} {A B C : HTree α δ} {v v' : Ptr × RbPair α δ}
    (hl : Loc h₀ S h T p (sided s c A v (sided s c' B v' C))) :
    ∃ a h', rbRotate s T h v.1 (parentAddr p) = some ({ T with root := a }, h') ∧
      Loc h₀ S h' { T with root := a } p (sided s c' (sided s c A v B) v' C) := by
  obtain ⟨hv, hA, hv', hB, hC⟩ := by
    have := hl.tree
    rw [Holds.sided_iff, Holds.sided_iff] at this
    exact this
  obtain ⟨hnd, -, hdisj⟩ := hl.nodup_parts
  simp only [nodup_addrs_sided, mem_addrs_sided, not_or] at hnd
  obtain ⟨-, ⟨-, -, hv'B, hv'C, -⟩, hvA, ⟨hvv', hvB, hvC⟩, hAx⟩ := hnd
  have hvmem : v.1 ∈ addrs (sided s c A v (sided s c' B v' C)) := by simp [mem_addrs_sided]
  have hv'mem : v'.1 ∈ addrs (sided s c A v (sided s c' B v' C)) := by simp [mem_addrs_sided]
  have hparv : parentAddr p ≠ v.1 := fun heq => hl.parentAddr_notMem (heq ▸ hvmem)
  have hparv' : parentAddr p ≠ v'.1 := fun heq => hl.parentAddr_notMem (heq ▸ hv'mem)
  -- the heap before the parent's pointer is redirected
  set h₂ := (h.store v'.1 (cell s c' v.1 v'.2 (addr C))).store v.1
    (cell s c (addr A) v.2 (addr B)) with hh₂
  have hoff : ∀ q, q ≠ v.1 → q ≠ v'.1 → h₂ q = h q := by
    intro q hq hq'
    rw [hh₂, store_ne _ _ hq, store_ne _ _ hq']
  obtain ⟨m, n, hm, hcell, hlink⟩ := hl.relink (by cases s <;> simp [sided])
    (hoff _ hparv hparv') v'.1
  have hroot : v.1 = T.root ↔ p = [] :=
    hl.addr_eq_root_iff (by cases s <;> simp [sided])
  have hload : h₂ v'.1 = some (cell s c' v.1 v'.2 (addr C)) := by
    rw [hh₂, store_ne _ _ (Ne.symm hvv'), store_same]
  have hset_root : (if v.1 = T.root then { T with root := v'.1 } else T) =
      { T with root := if v.1 = T.root then v'.1 else T.root } := by
    split <;> rfl
  refine ⟨if v.1 = T.root then v'.1 else T.root, h₂.store (parentAddr p) n, ?_, ?_⟩
  · have hset : Heap.setChild s.flip (h.store v'.1 (cell s c' v.1 v'.2 (addr C))) v.1 (addr B) =
        some h₂ := by
      rw [setChild_flip_cell (by rw [store_ne _ _ hvv', hv])]
    simp only [addr_sided] at hv hlink
    rcases hlink with ⟨hml, hlink⟩ | ⟨hml, hlink⟩ <;>
    simp only [rbRotate, hv, hv', Option.bind_eq_bind, Option.bind_some, cell_child_flip,
      cell_child, setChild_cell hv', hset, hm, hml, hlink, if_true, if_false, Option.pure_def,
      hset_root]
  · have hsub : ∀ q ∈ addrs A ++ (addrs B ++ addrs C),
        (h₂.store (parentAddr p) n) q = h q := by
      intro q hq
      have hq' : q ∈ addrs (sided s c A v (sided s c' B v' C)) := by
        simp only [List.mem_append] at hq
        simp only [mem_addrs_sided]
        tauto
      have hne : q ≠ parentAddr p := by
        rintro rfl
        exact hl.parentAddr_notMem hq'
      rw [store_ne _ _ hne, hoff]
      · rintro rfl
        simp only [List.mem_append] at hq
        tauto
      · rintro rfl
        simp only [List.mem_append] at hq
        rcases hq with hq | hq
        · exact (hAx _ hq).1 rfl
        · tauto
    refine hl.replace ?_ ?_ ?_ ⟨n, store_same _ _ _, hcell⟩ ?_ ?_ ?_ hl.nil ?_
    · cases s <;> simp [sided]
    · have hmem {q : Ptr} (hq : q ∈ addrs (sided s c A v (sided s c' B v' C))) : q ∈ S :=
        hl.mem_iff.mpr (.inl hq)
      refine (EqOff.store _ _ (.inl (hmem hv'mem))).trans
        ((EqOff.store _ _ (.inl (hmem hvmem))).trans (EqOff.store _ _ ?_))
      rcases parentAddr_eq_or_mem p with ⟨-, hp⟩ | hp
      · exact .inr hp
      · exact .inl (hl.mem_iff.mpr (.inr hp))
    · rw [Holds.sided_iff, Holds.sided_iff]
      refine ⟨?_, ⟨?_, ?_, ?_⟩, ?_⟩
      · rw [store_ne _ _ hparv'.symm, hload]
        rfl
      · rw [store_ne _ _ hparv.symm, hh₂, store_same]
      · exact hA.congr fun q hq => hsub q (by simp [hq])
      · exact hB.congr fun q hq => hsub q (by simp [hq])
      · exact hC.congr fun q hq => hsub q (by simp [hq])
    · intro q hq hne
      rw [store_ne _ _ hne, hoff]
      · rintro rfl
        exact hdisj _ hvmem hq
      · rintro rfl
        exact hdisj _ hv'mem hq
    · intro hp
      have hmem : parentAddr p ∈ pathAddrs p :=
        (parentAddr_eq_or_mem p).resolve_left (fun hp' => hp hp'.1)
      rw [store_ne _ _ (hl.ne_nil_of_mem_path hmem).symm,
        hoff _ (hl.ne_nil_of_mem hvmem).symm (hl.ne_nil_of_mem hv'mem).symm]
    · obtain ⟨m, hm, -⟩ := hl.exists_parentCell
      rw [store_ne _ _ (hl.ne_null_of_cell hm).symm, hoff _ (hl.ne_null_of_cell hv).symm
        (hl.ne_null_of_cell hv').symm, hl.null]
    · simp only [hroot]
      split <;> rfl

end Loc

end Javalette.Rbtree
