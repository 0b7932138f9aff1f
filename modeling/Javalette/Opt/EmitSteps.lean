import Javalette.Opt.CopyMeaning
import Javalette.Opt.Tidy

/-!
# The steps of the generation of code

While `gencode_from_graph` runs, the variable of each node that has been computed holds what the
node stands for, a variable of the program that has been set has the value that it has at the end
of the block, and one that has not been set still has its first value (`Holds`).  The functions
that generate code keep this: the quadruples they give lead from every state that the generation
so far describes to one that the generation so far and they describe (`Steps`).

This is so as long as no error is reported: a division by zero is replaced by the constant 1.
-/

namespace Javalette.Opt

open Rbtree

variable {ν β V W : Type}

/-! ## What is known of the graph -/

/-- The machine that the code is for and the compiler compute as the arithmetic says, and no
variable is made twice. -/
structure Follows (M : Machine β V W) (C : Context ν) (A : Arith V) : Prop where
  op : ∀ o a b x y w, isArith o → argValue A id a = some x → argValue A id b = some y →
    M.value o a b w = A.op o x y
  copy : ∀ a b x w, argValue A id a = some x → M.value .copy a b w = x
  foldInt : ∀ o i j k, foldInt o i j = some (k, false) → A.op o (A.int i) (A.int j) = A.int k
  foldDouble : ∀ o d e f, foldDouble C o d e = some (f, false) →
    A.op o (A.double d) (A.double e) = A.double f
  newVar : Function.Injective C.newVar

/-- The variable is none of those that are made from the `k`-th on. -/
def Old (C : Context ν) (k : ℕ) (v : ν) : Prop := ∀ j, k ≤ j → C.newVar j ≠ v

/-- The graph represents the values `ρ` and `σ`, and variables can be made from the `k`-th on. -/
structure Built (C : Context ν) (A : Arith V) (w : ℕ) (g : Dag ν β) (ρ σ : ν → V) (k : ℕ) :
    Prop where
  sound : Sound w g
  ready : Ready g
  represents : Represents A (ρ, σ) g
  old : ∀ v, g.varNode v ≠ NULL → Old C k v

/-- The code of the graph can be generated. -/
structure Emittable (C : Context ν) (A : Arith V) (w : ℕ) (g : Dag ν β) (ρ σ : ν → V) (k : ℕ) :
    Prop extends Built C A w g ρ σ k where
  tidy : Tidy g
  untrapped : Untrapped g

/-! ## What is known while code is generated -/

/-- A node of the graph and what has become of it: an operation may be the leaf of a constant
now, and the list may have been freed. -/
structure Became (n m : GraphNode ν β) : Prop where
  left : m.left = n.left
  right : m.right = n.right
  list : m.varList = n.varList ∨ m.varList = []
  kind : m.tag = n.tag ∧ m.u = n.u ∨ n.tag ≠ .leaf ∧ ∀ v, m.u ≠ .inl (.var v)

/-- The state of the generation of code from `g`, whose variables are made from the `k`-th on.  An
operation is the leaf of a constant only if the constant is known to be its value. -/
structure Emits (C : Context ν) (g : Dag ν β) (k : ℕ) (e : Emission ν β) : Prop where
  node : ∀ a n, g.pool a = some n → ∃ m, e.pool a = some m ∧ Became n m
  waiting : ∀ a, e.result a = none → e.pool a = g.pool a
  nextVar : k ≤ e.nextVar
  result : ∀ a v, e.result a = some v → ∃ j, k ≤ j ∧ j < e.nextVar ∧ C.newVar j = v
  closed : ∀ a n b, (e.result a).isSome → g.pool a = some n → n.Uses b → (e.result b).isSome
  folded : ∀ a m arg x, e.pool a = some m → m.u = .inl arg →
    argValue folding unknown arg = some x → Denotes folding unknown g.pool a x

/-- The list of the node has been freed. -/
def Cleared (e : Emission ν β) (a : ℕ) : Prop := ∃ m, e.pool a = some m ∧ m.varList = []

/-- The nodes that have been computed have no lists, the leaves of variables apart. -/
def Clean (g : Dag ν β) (e : Emission ν β) : Prop :=
  ∀ a n, (e.result a).isSome → g.pool a = some n → ¬ n.IsVarLeaf → Cleared e a

/-- The values `τ` of the variables are those that the code generated so far leads to. -/
structure Holds (C : Context ν) (A : Arith V) (g : Dag ν β) (ρ σ : ν → V) (k : ℕ)
    (e : Emission ν β) (τ : ν → V) : Prop where
  result : ∀ a v, e.result a = some v → Denotes A ρ g.pool a (τ v)
  constant : ∀ a m arg x, e.pool a = some m → m.u = .inl arg → argValue A ρ arg = some x →
    Denotes A ρ g.pool a x
  set : ∀ v n, g.varNode v ≠ NULL → g.pool (g.varNode v) = some n → n.u ≠ .inl (.var v) →
    Cleared e (g.varNode v) → τ v = σ v
  kept : ∀ v, Old C k v → (∀ a n, g.pool a = some n → v ∈ n.varList → n.u ≠ .inl (.var v) →
    ¬ Cleared e a) → τ v = ρ v

/-- The variable is set by `update_node_vars` for some node. -/
def Listed (g : Dag ν β) (v : ν) : Prop :=
  ∃ a n, g.pool a = some n ∧ v ∈ n.varList ∧ n.u ≠ .inl (.var v)

/-- The quadruple assigns a variable that is made for a node or one that is set. -/
def Assigns (C : Context ν) (g : Dag ν β) (k : ℕ) (q : Quadr ν β) : Prop :=
  ∃ v, q.result = .var v ∧ isNodeOp q.op ∧ (¬ Old C k v ∨ Listed g v)

/-- The generation has gone on. -/
structure Continues (e e' : Emission ν β) : Prop where
  result : ∀ a v, e.result a = some v → e'.result a = some v
  cleared : ∀ a, Cleared e a → Cleared e' a
  errors : ∃ msgs, e'.errors = e.errors ++ msgs

lemma Continues.refl (e : Emission ν β) : Continues e e :=
  ⟨fun _ _ h => h, fun _ h => h, [], (List.append_nil _).symm⟩

lemma Continues.trans {e e' e'' : Emission ν β} (h : Continues e e') (h' : Continues e' e'') :
    Continues e e'' := by
  refine ⟨fun a v ha => h'.result a v (h.result a v ha), fun a ha => h'.cleared a (h.cleared a ha),
    ?_⟩
  obtain ⟨msgs, hmsgs⟩ := h.errors
  obtain ⟨msgs', hmsgs'⟩ := h'.errors
  exact ⟨msgs ++ msgs', by rw [hmsgs', hmsgs, List.append_assoc]⟩

/-- Where no error has been reported in the end, none has been reported on the way. -/
lemma Continues.errors_eq {e e' e'' : Emission ν β} (h : Continues e e') (h' : Continues e' e'')
    (heq : e''.errors = e.errors) : e'.errors = e.errors ∧ e''.errors = e'.errors := by
  obtain ⟨msgs, hmsgs⟩ := h.errors
  obtain ⟨msgs', hmsgs'⟩ := h'.errors
  rw [hmsgs', hmsgs, List.append_assoc] at heq
  obtain ⟨rfl, rfl⟩ : msgs = [] ∧ msgs' = [] := by simpa using heq
  rw [hmsgs', hmsgs]
  simp

lemma Continues.isSome {e e' : Emission ν β} (h : Continues e e') {a : ℕ}
    (ha : (e.result a).isSome) : (e'.result a).isSome := by
  obtain ⟨v, hv⟩ := Option.isSome_iff_exists.mp ha
  exact Option.isSome_of_mem (h.result a v hv)

section Steps

variable [DecidableEq ν]

/-- The quadruples lead from states that `e` describes to states that `e'` describes. -/
def Leads (M : Machine β V W) (C : Context ν) (A : Arith V) (g : Dag ν β) (ρ σ : ν → V) (k : ℕ)
    (e : Emission ν β) (lst : List (Quadr ν β)) (e' : Emission ν β) : Prop :=
  ∀ τ w, Holds C A g ρ σ k e τ →
    ∃ τ', runBlock M lst (τ, w) = (τ', w) ∧ Holds C A g ρ σ k e' τ'

/-- The call gives code and a state that satisfies `P`; the code only assigns variables, and unless
an error has been reported, it leads to what the state describes. -/
def Steps (M : Machine β V W) (C : Context ν) (A : Arith V) (g : Dag ν β) (ρ σ : ν → V) (k : ℕ)
    (e : Emission ν β) (P : Emission ν β → Prop) (call : Option (Emitted ν β)) : Prop :=
  ∃ lst e', call = some (lst, e') ∧ Emits C g k e' ∧ Continues e e' ∧ P e' ∧
    (∀ q ∈ lst, Assigns C g k q) ∧ (e'.errors = e.errors → Leads M C A g ρ σ k e lst e')

variable {M : Machine β V W} {C : Context ν} {A : Arith V} {w : ℕ} {g : Dag ν β} {ρ σ : ν → V}
  {k : ℕ} {e e' : Emission ν β} {a : ℕ} {n : GraphNode ν β}

lemma Leads.append {lst lst' : List (Quadr ν β)} {e'' : Emission ν β}
    (h : Leads M C A g ρ σ k e lst e') (h' : Leads M C A g ρ σ k e' lst' e'') :
    Leads M C A g ρ σ k e (lst ++ lst') e'' := by
  intro τ w hτ
  obtain ⟨τ₁, hrun, hτ₁⟩ := h τ w hτ
  obtain ⟨τ₂, hrun', hτ₂⟩ := h' τ₁ w hτ₁
  refine ⟨τ₂, ?_, hτ₂⟩
  unfold runBlock at hrun hrun' ⊢
  rw [List.foldl_append, hrun, hrun']

lemma Steps.weaken {P Q : Emission ν β → Prop} {call : Option (Emitted ν β)}
    (h : Steps M C A g ρ σ k e P call)
    (hPQ : ∀ e', Emits C g k e' → Continues e e' → P e' → Q e') :
    Steps M C A g ρ σ k e Q call := by
  obtain ⟨lst, e', hcall, hemits, hcont, hP, hrest⟩ := h
  exact ⟨lst, e', hcall, hemits, hcont, hPQ e' hemits hcont hP, hrest⟩

lemma steps_nothing (he : Emits C g k e) : Steps M C A g ρ σ k e (· = e) (some ([], e)) :=
  ⟨[], e, rfl, he, Continues.refl e, rfl, by simp, fun _ τ _ hτ => ⟨τ, rfl, hτ⟩⟩

/-- Two calls. -/
lemma Steps.then {P Q : Emission ν β → Prop} {call : Option (Emitted ν β)}
    {next : Emission ν β → Option (Emitted ν β)} (h : Steps M C A g ρ σ k e P call)
    (hnext : ∀ e', Emits C g k e' → Continues e e' → P e' → Steps M C A g ρ σ k e' Q (next e')) :
    Steps M C A g ρ σ k e Q (thenEmit call next) := by
  obtain ⟨lst, e₁, rfl, hemits₁, hcont₁, hP, hassigns₁, hleads₁⟩ := h
  obtain ⟨lst', e₂, hcall, hemits₂, hcont₂, hQ, hassigns₂, hleads₂⟩ := hnext e₁ hemits₁ hcont₁ hP
  refine ⟨lst ++ lst', e₂, ?_, hemits₂, hcont₁.trans hcont₂, hQ, fun q hq => ?_, fun herr => ?_⟩
  · unfold thenEmit
    simp [hcall]
  · exact (List.mem_append.mp hq).elim (hassigns₁ q) (hassigns₂ q)
  · obtain ⟨herr₁, herr₂⟩ := hcont₁.errors_eq hcont₂ herr
    exact (hleads₁ herr₁).append (hleads₂ herr₂)

/-! ## Assignments -/

lemma runQuadr_copyVar (v r : ν) (τ : ν → V) (w : W) :
    runQuadr M (τ, w) ⟨.copy, .var v, .var r, .none⟩ = (Function.update τ v (τ r), w) :=
  runQuadr_copy rfl

/-- The variables of a list are set to `r`, which is none of them. -/
lemma runBlock_copies (r : ν) (vars : List ν) (hr : r ∉ vars) (τ : ν → V) (w : W) :
    runBlock M (vars.map fun v => (⟨.copy, .var v, .var r, .none⟩ : Quadr ν β)) (τ, w) =
      (fun v => if v ∈ vars then τ r else τ v, w) := by
  induction vars generalizing τ with
  | nil => simp [runBlock]
  | cons u vars ih =>
      obtain ⟨hru, hr⟩ := not_or.mp (mt List.mem_cons.mpr hr)
      unfold runBlock at ih ⊢
      rw [List.map_cons, List.foldl_cons, runQuadr_copyVar, ih hr]
      refine Prod.ext (funext fun v => ?_) rfl
      dsimp only
      rw [Function.update_of_ne hru]
      by_cases hv : v ∈ vars
      · rw [if_pos hv, if_pos (List.mem_cons_of_mem u hv)]
      · rw [if_neg hv, Function.update_apply]
        simp only [List.mem_cons, hv, or_false]

/-- What is known of the states of the machine after the node at `a` has got a variable of its
own, and is `m` now. -/
lemma Holds.assign {m : GraphNode ν β} {errs : List String} {τ : ν → V} {x : V}
    (hf : Follows M C A) (hold : ∀ v, g.varNode v ≠ NULL → Old C k v) (he : Emits C g k e)
    (ha : e.pool a = some n) (hnone : e.result a = none)
    (hlist : m.varList = n.varList) (hτ : Holds C A g ρ σ k e τ) (hx : Denotes A ρ g.pool a x)
    (hm : ∀ arg y, m.u = .inl arg → argValue A ρ arg = some y → Denotes A ρ g.pool a y) :
    Holds C A g ρ σ k
      ⟨Function.update e.pool a (some m), Function.update e.result a (some (C.newVar e.nextVar)),
        e.nextVar + 1, errs⟩ (Function.update τ (C.newVar e.nextVar) x) := by
  have hcleared : ∀ b, (∃ l, Function.update e.pool a (some m) b = some l ∧ l.varList = []) ↔
      Cleared e b := by
    intro b
    unfold Cleared
    obtain rfl | hne := eq_or_ne b a
    · simp [ha, hlist]
    · rw [Function.update_of_ne hne]
  -- the variable is new, so it is the result of no other node and none of the old ones
  refine ⟨fun b v hb => ?_, fun b l arg y hb hl hy => ?_, fun v l hv hl hu hclear => ?_,
    fun v hv hclear => ?_⟩
  · dsimp only at hb
    obtain rfl | hne := eq_or_ne b a
    · rw [Function.update_self, Option.some.injEq] at hb
      rwa [← hb, Function.update_self]
    · rw [Function.update_of_ne hne] at hb
      obtain ⟨j, -, hj, rfl⟩ := he.result b v hb
      rw [Function.update_of_ne fun heq => hj.ne (hf.newVar heq)]
      exact hτ.result b _ hb
  · dsimp only at hb
    obtain rfl | hne := eq_or_ne b a
    · rw [Function.update_self, Option.some.injEq] at hb
      exact hm arg y (hb ▸ hl) hy
    · rw [Function.update_of_ne hne] at hb
      exact hτ.constant b l arg y hb hl hy
  · rw [Function.update_of_ne fun heq => hold v hv e.nextVar he.nextVar heq.symm]
    exact hτ.set v l hv hl hu ((hcleared _).mp hclear)
  · rw [Function.update_of_ne fun heq => hv e.nextVar he.nextVar heq.symm]
    exact hτ.kept v hv fun b l hb hl hu hb' => hclear b l hb hl hu ((hcleared b).mpr hb')

omit [DecidableEq ν] in
/-- A quadruple for the graph only assigns its result. -/
lemma target_of_isNodeOp {q : Quadr ν β} {v : ν} (hop : isNodeOp q.op) (hq : q.result = .var v) :
    target q = some v ∧ isPure q.op := by
  obtain ⟨op, result, arg1, arg2⟩ := q
  dsimp only at hq
  subst hq
  cases op with
  | add | sub | div | mul | mod | copy => exact ⟨rfl, rfl⟩
  | _ => cases hop

/-- The node at `a` gets a variable of its own, and is `m` now; `q` assigns the variable. -/
lemma steps_assign {m : GraphNode ν β} {msgs : List String} {q : Quadr ν β}
    (hf : Follows M C A) (hg : Emittable C A w g ρ σ k) (he : Emits C g k e)
    (hn : g.pool a = some n) (hnone : e.result a = none) (hm : Became n m)
    (hlist : m.varList = n.varList) (hq : q.result = .var (C.newVar e.nextVar))
    (hop : isNodeOp q.op) (hclosed : ∀ b, n.Uses b → (e.result b).isSome)
    (hfolded : ∀ arg x, m.u = .inl arg → argValue folding unknown arg = some x →
      Denotes folding unknown g.pool a x)
    (hval : msgs = [] → ∀ τ w, Holds C A g ρ σ k e τ →
      Denotes A ρ g.pool a (quadrValue M (τ, w) q) ∧ ∀ arg y, m.u = .inl arg →
        argValue A ρ arg = some y → Denotes A ρ g.pool a y) :
    Steps M C A g ρ σ k e (fun e' => (e'.result a).isSome ∧ e'.pool a = some m ∧
      ∀ b, b ≠ a → e'.result b = e.result b ∧ e'.pool b = e.pool b)
      (some ([q], ⟨Function.update e.pool a (some m),
        Function.update e.result a (some (C.newVar e.nextVar)), e.nextVar + 1,
        e.errors ++ msgs⟩)) := by
  -- only the entry of `a` changes, so every part is a case split on it
  have ha := (he.waiting a hnone).trans hn
  refine ⟨_, _, rfl, ⟨fun b l hb => ?_, fun b hb => ?_, ?_, fun b v hb => ?_,
    fun b l c hb hl hu => ?_, fun b l arg x hb hu hx => ?_⟩,
    ⟨fun b v hb => ?_, fun b hb => ?_, msgs, rfl⟩,
    ⟨?_, ?_, fun b hb => ⟨?_, ?_⟩⟩, fun q' hq' => ?_, fun herr τ w hτ => ?_⟩
  · obtain rfl | hne := eq_or_ne b a
    · rw [hn, Option.some.injEq] at hb
      exact ⟨m, Function.update_self _ _ _, hb ▸ hm⟩
    · dsimp only
      rw [Function.update_of_ne hne]
      exact he.node b l hb
  · dsimp only at hb ⊢
    obtain rfl | hne := eq_or_ne b a
    · rw [Function.update_self] at hb
      cases hb
    · rw [Function.update_of_ne hne] at hb ⊢
      exact he.waiting b hb
  · exact he.nextVar.trans (Nat.le_succ _)
  · dsimp only at hb ⊢
    obtain rfl | hne := eq_or_ne b a
    · rw [Function.update_self, Option.some.injEq] at hb
      exact ⟨e.nextVar, he.nextVar, Nat.lt_succ_self _, hb⟩
    · rw [Function.update_of_ne hne] at hb
      obtain ⟨j, hk, hj, hv⟩ := he.result b v hb
      exact ⟨j, hk, hj.trans (Nat.lt_succ_self _), hv⟩
  · have hc : (e.result c).isSome := by
      dsimp only at hb
      obtain rfl | hne := eq_or_ne b a
      · rw [hn, Option.some.injEq] at hl
        exact hclosed c (hl ▸ hu)
      · rw [Function.update_of_ne hne] at hb
        exact he.closed b l c hb hl hu
    dsimp only
    rw [Function.update_apply]
    split
    · rfl
    · exact hc
  · dsimp only at hb
    obtain rfl | hne := eq_or_ne b a
    · rw [Function.update_self, Option.some.injEq] at hb
      exact hfolded arg x (hb ▸ hu) hx
    · rw [Function.update_of_ne hne] at hb
      exact he.folded b l arg x hb hu hx
  · have hne : b ≠ a := by
      rintro rfl
      rw [hnone] at hb
      cases hb
    exact (Function.update_of_ne hne _ _).trans hb
  · unfold Cleared at hb ⊢
    obtain rfl | hne := eq_or_ne b a
    · obtain ⟨l, hl, hnil⟩ := hb
      rw [ha, Option.some.injEq] at hl
      exact ⟨m, Function.update_self _ _ _, hlist.trans (hl ▸ hnil)⟩
    · dsimp only
      rwa [Function.update_of_ne hne]
  · dsimp only
    rw [Function.update_self]
    rfl
  · exact Function.update_self _ _ _
  · exact Function.update_of_ne hb _ _
  · exact Function.update_of_ne hb _ _
  · -- the one quadruple assigns the new variable
    rw [List.mem_singleton.mp hq']
    exact ⟨_, hq, hop, .inl fun hold => hold e.nextVar he.nextVar rfl⟩
  · -- the value is the one the node denotes, which the listed variables have had all along
    obtain ⟨hx, hy⟩ := hval (by simpa using herr) τ w hτ
    obtain ⟨htarget, hpure⟩ := target_of_isNodeOp hop hq
    refine ⟨_, ?_, hτ.assign hf hg.old he ha hnone hlist hx hy⟩
    show runQuadr M (τ, w) q = _
    rw [runQuadr_of_target htarget]
    unfold quadrEffect
    rw [if_pos hpure]

/-! ## The variables of a node -/

omit [DecidableEq ν] in
/-- A variable that `update_node_vars` sets gets the value that it has at the end. -/
lemma Emittable.value_of_mem {v : ν} {x : V} (hg : Emittable C A w g ρ σ k)
    (hn : g.pool a = some n) (hv : v ∈ n.varList) (hnode : g.varNode v = a)
    (hx : Denotes A ρ g.pool a x) : x = σ v := by
  have hne := hg.ready.lists.touched a n v hn hv
  have hvar := hg.represents.var v hne
  rw [hnode] at hvar
  exact hx.unique hvar

lemma isBadVar_iff {m : GraphNode ν β} {v : ν} :
    isBadVar m v = true ↔ m.u = .inl (.var v) := by
  unfold isBadVar
  split
  · next u hu => simp [hu, eq_comm]
  · next hno => simpa using hno v

omit [DecidableEq ν] in
/-- A leaf of a variable stays one, and nothing else becomes one. -/
lemma Became.var_iff {m : GraphNode ν β} (h : Became n m) (hs : Sound w g)
    (hn : g.pool a = some n) (v : ν) : m.u = .inl (.var v) ↔ n.u = .inl (.var v) := by
  obtain ⟨-, hu⟩ | ⟨hleaf, hu⟩ := h.kind
  · rw [hu]
  · obtain ⟨op, _, _, hop, -⟩ := hs.keyed a n hn hleaf
    simp [hu v, hop]

omit [DecidableEq ν] in
lemma Became.mem {m : GraphNode ν β} {v : ν} (h : Became n m) (hv : v ∈ m.varList) :
    v ∈ n.varList := by
  obtain hlist | hlist := h.list
  · exact hlist ▸ hv
  · rw [hlist] at hv
    cases hv

omit [DecidableEq ν] in
lemma modify_self {m : GraphNode ν β} (hm : e.pool a = some m)
    (f : GraphNode ν β → GraphNode ν β) : (e.modify a f).pool a = some (f m) := by
  unfold Emission.modify
  dsimp only
  rw [Function.update_self, hm, Option.map_some]

omit [DecidableEq ν] in
lemma modify_of_ne {b : ℕ} (hb : b ≠ a) (f : GraphNode ν β → GraphNode ν β) :
    (e.modify a f).pool b = e.pool b := Function.update_of_ne hb _ _

/-- What is known of the states of the machine after the variables of the node at `a` have been
set. -/
lemma Holds.update {m : GraphNode ν β} {r : ν} {τ : ν → V} (hg : Emittable C A w g ρ σ k)
    (he : Emits C g k e) (hn : g.pool a = some n) (hm : e.pool a = some m) (hbecame : Became n m)
    (hr : e.result a = some r)
    (hstale : ∀ v ∈ n.varList, n.u ≠ .inl (.var v) → g.varNode v ≠ a →
      e.result (g.varNode v) = none)
    (hτ : Holds C A g ρ σ k e τ) :
    Holds C A g ρ σ k (e.modify a fun n => { n with varList := [] })
      (fun v => if v ∈ m.varList.filter (fun v => !isBadVar m v) then τ r else τ v) := by
  have hself := modify_self hm fun n => { n with varList := [] }
  have hother : ∀ b, b ≠ a → (e.modify a fun n => { n with varList := [] }).pool b = e.pool b :=
    fun b hb => modify_of_ne hb _
  have hmem : ∀ v, v ∈ m.varList.filter (fun v => !isBadVar m v) →
      v ∈ n.varList ∧ n.u ≠ .inl (.var v) := by
    intro v hv
    obtain ⟨hv, hbad⟩ := List.mem_filter.mp hv
    refine ⟨hbecame.mem hv, fun hu => ?_⟩
    rw [isBadVar_iff.mpr ((hbecame.var_iff hg.sound hn v).mpr hu)] at hbad
    cases hbad
  refine ⟨fun b v hb => ?_, fun b l arg y hb hl hy => ?_, fun v l hv hl hu hclear => ?_,
    fun v hv hclear => ?_⟩
  · rw [if_neg]
    · exact hτ.result b v hb
    · intro hv
      obtain ⟨j, hk, -, rfl⟩ := he.result b v hb
      exact hg.old _ (hg.ready.lists.touched a n _ hn (hmem _ hv).1) j hk rfl
  · obtain rfl | hne := eq_or_ne b a
    · rw [hself, Option.some.injEq] at hb
      subst hb
      exact hτ.constant b m arg y hm hl hy
    · exact hτ.constant b l arg y ((hother b hne).symm.trans hb) hl hy
  · obtain ⟨l', hl', hmemv⟩ := hg.ready.lists.listed v hv
    rw [hl, Option.some.injEq] at hl'
    subst hl'
    split
    · next hin =>
        obtain ⟨hvn, hun⟩ := hmem v hin
        by_cases hva : g.varNode v = a
        · exact hg.value_of_mem hn hvn hva (hτ.result a r hr)
        · -- the variable has left the list, and its node has not been computed
          obtain ⟨l', hl', hnil⟩ := hclear
          rw [hother _ hva, he.waiting _ (hstale v hvn hun hva), hl, Option.some.injEq] at hl'
          rw [hl', hnil] at hmemv
          cases hmemv
    · next hout =>
        apply hτ.set v l hv hl hu
        by_cases hva : g.varNode v = a
        · rw [hva, hn, Option.some.injEq] at hl
          subst hl
          rw [hva]
          refine ⟨m, hm, hbecame.list.resolve_left fun heq => hout ?_⟩
          rw [List.mem_filter, heq, Bool.not_eq_true', Bool.eq_false_iff, Ne, isBadVar_iff,
            hbecame.var_iff hg.sound hn]
          exact ⟨hmemv, hu⟩
        · obtain ⟨l', hl', hnil⟩ := hclear
          exact ⟨l', (hother _ hva).symm.trans hl', hnil⟩
  · have hcleared : Cleared (e.modify a fun n => { n with varList := [] }) a := ⟨_, hself, rfl⟩
    rw [if_neg fun hin => hclear a n hn (hmem v hin).1 (hmem v hin).2 hcleared]
    refine hτ.kept v hv fun b l hb hl hu ⟨l', hl', hnil⟩ => hclear b l hb hl hu ?_
    obtain rfl | hne := eq_or_ne b a
    · exact hcleared
    · exact ⟨l', (hother b hne).trans hl', hnil⟩

/-- **`update_node_vars`**, where the variables of the list that have left the node have nodes that
have not been computed. -/
lemma steps_updateNodeVars (hg : Emittable C A w g ρ σ k) (he : Emits C g k e)
    (hn : g.pool a = some n) (hdone : (e.result a).isSome)
    (hstale : ∀ v ∈ n.varList, n.u ≠ .inl (.var v) → g.varNode v ≠ a →
      e.result (g.varNode v) = none) :
    Steps M C A g ρ σ k e (fun e' => e'.result = e.result ∧ Cleared e' a ∧
      ∀ b, b ≠ a → e'.pool b = e.pool b) (updateNodeVars e a) := by
  obtain ⟨m, hm, hbecame⟩ := he.node a n hn
  obtain ⟨r, hr⟩ := Option.isSome_iff_exists.mp hdone
  have hpool := modify_self hm fun n => { n with varList := [] }
  have hclear : ∀ b, Cleared e b → Cleared (e.modify a fun n => { n with varList := [] }) b := by
    rintro b ⟨l, hl, hnil⟩
    obtain rfl | hne := eq_or_ne b a
    · exact ⟨_, hpool, rfl⟩
    · exact ⟨l, (modify_of_ne hne _).trans hl, hnil⟩
  refine ⟨(m.varList.filter fun v => !isBadVar m v).map fun v => ⟨.copy, .var v, .var r, .none⟩,
    e.modify a fun n => { n with varList := [] }, ?_, ⟨fun b l hb => ?_, fun b hb => ?_,
    he.nextVar, he.result, he.closed, fun b l arg x hb hu hx => ?_⟩,
    ⟨fun _ _ h => h, hclear, [], (List.append_nil _).symm⟩,
    ⟨rfl, ⟨_, hpool, rfl⟩, fun b hb => modify_of_ne hb _⟩, fun q hq => ?_, fun _ τ w hτ => ?_⟩
  · unfold updateNodeVars
    rw [hm, hr]
    rfl
  · obtain rfl | hne := eq_or_ne b a
    · rw [hn, Option.some.injEq] at hb
      subst hb
      exact ⟨_, hpool, hbecame.left, hbecame.right, .inr rfl, hbecame.kind⟩
    · obtain ⟨l', hl', h⟩ := he.node b l hb
      exact ⟨l', (modify_of_ne hne _).trans hl', h⟩
  · -- a node without a result is not the one whose list was emptied
    have hne : b ≠ a := by
      rintro rfl
      cases hr.symm.trans hb
    exact (modify_of_ne hne _).trans (he.waiting b hb)
  · obtain rfl | hne := eq_or_ne b a
    · cases hpool.symm.trans hb
      exact he.folded b m arg x hm hu hx
    · exact he.folded b l arg x ((modify_of_ne hne _).symm.trans hb) hu hx
  · obtain ⟨v, hv, rfl⟩ := List.mem_map.mp hq
    obtain ⟨hv, hbad⟩ := List.mem_filter.mp hv
    refine ⟨v, rfl, rfl, .inr ⟨a, n, hn, hbecame.mem hv, fun hu => ?_⟩⟩
    rw [isBadVar_iff.mpr ((hbecame.var_iff hg.sound hn v).mpr hu)] at hbad
    cases hbad
  · -- the result's own variable is never among those that are copied to
    refine ⟨_, runBlock_copies r _ (fun hmem => ?_) τ w,
      hτ.update hg he hn hm hbecame hr hstale⟩
    obtain ⟨j, hk, -, rfl⟩ := he.result a r hr
    have hrn := hbecame.mem (List.mem_filter.mp hmem).1
    exact hg.old _ (hg.ready.lists.touched a n _ hn hrn) j hk rfl

/-! ## Leaves and operations -/

omit [DecidableEq ν] in
lemma argValue_evalArg (A : Arith V) (τ : ν → V) (arg : QuadrArg ν β) :
    argValue A id (evalArg τ arg) = argValue A τ arg := by
  cases arg <;> rfl

omit [DecidableEq ν] in
lemma Became.refl (n : GraphNode ν β) : Became n n := ⟨rfl, rfl, .inl rfl, .inl ⟨rfl, rfl⟩⟩

omit [DecidableEq ν] in
lemma declareResult_eq (he : e.pool a = some n) :
    e.declareResult C a = ⟨Function.update e.pool a (some n),
      Function.update e.result a (some (C.newVar e.nextVar)), e.nextVar + 1, e.errors ++ []⟩ := by
  unfold Emission.declareResult
  have hpool : Function.update e.pool a (some n) = e.pool := Function.update_eq_self_iff.mpr he.symm
  rw [hpool, List.append_nil]

/-- **`gencode_for_leaf`**, for a leaf whose argument still has its first value. -/
lemma steps_gencodeForLeaf {arg : QuadrArg ν β} (hf : Follows M C A)
    (hg : Emittable C A w g ρ σ k) (he : Emits C g k e) (hn : g.pool a = some n)
    (hleaf : n.tag = .leaf) (hu : n.u = .inl arg) (harg : Formed.Operand arg)
    (hnone : e.result a = none)
    (hval : ∀ τ, Holds C A g ρ σ k e τ → argValue A τ arg = argValue A ρ arg) :
    Steps M C A g ρ σ k e (fun e' => (e'.result a).isSome ∧ e'.pool a = some n ∧
      ∀ b, b ≠ a → e'.result b = e.result b ∧ e'.pool b = e.pool b) (gencodeForLeaf C e a) := by
  have ha := (he.waiting a hnone).trans hn
  have hcode : gencodeForLeaf C e a = some ([⟨.copy, .var (C.newVar e.nextVar), arg, .none⟩],
      e.declareResult C a) := by
    unfold gencodeForLeaf
    simp [ha, hu, hnone]
  rw [hcode, declareResult_eq ha]
  refine steps_assign hf hg he hn hnone (.refl n) rfl rfl rfl (fun b hb => absurd hleaf hb.1)
    (fun arg' x hu' hx => .leaf hn hu' hx) ?_
  intro _ τ w hτ
  obtain ⟨x, hx⟩ := argValue_of_operand A ρ harg
  refine ⟨?_, fun arg' y hu' hy => .leaf hn hu' hy⟩
  have hvalue : quadrValue M (τ, w) ⟨.copy, .var (C.newVar e.nextVar), arg, .none⟩ = x :=
    hf.copy _ _ x w (by rw [argValue_evalArg, hval τ hτ, hx])
  rw [hvalue]
  exact .leaf hn hu hx

omit [DecidableEq ν] in
/-- An operation on integers that raises no signal is carried out. -/
lemma foldInt_total {op : QuadrOp} {i j : BitVec 32} (h : foldOp op (.int i) (.int j) ≠ .trap) :
    ∃ c bad, foldInt op i j = some (c, bad) ∧ foldOp op (.int i) (.int j) = .int c := by
  unfold foldOp at h ⊢
  dsimp only at h ⊢
  cases hfold : foldInt op i j with
  | none =>
      rw [hfold] at h
      exact absurd rfl h
  | some r => exact ⟨r.1, r.2, rfl, rfl⟩

omit [DecidableEq ν] in
/-- So is one on doubles. -/
lemma foldDouble_total {op : QuadrOp} (h : isArith op) (h' : foldOp op .double .double ≠ .trap)
    (d e : BitVec 64) : ∃ c bad, foldDouble C op d e = some (c, bad) ∧
      foldOp op .double .double = .double := by
  cases op with
  | add | sub | mul => exact ⟨_, _, rfl, rfl⟩
  | div =>
      unfold foldDouble
      dsimp only
      split <;> exact ⟨_, _, rfl, rfl⟩
  | mod => exact absurd rfl h'
  | _ => cases h

omit [DecidableEq ν] in
/-- Constants of one type. -/
lemma constantsOf_cases (l r : GraphNode ν β) :
    (∃ i j, constantsOf l (some r) = .int i j ∧ l.u = .inl (.int i) ∧ r.u = .inl (.int j)) ∨
    (∃ d d', constantsOf l (some r) = .double d d' ∧ l.u = .inl (.double d) ∧
      r.u = .inl (.double d')) ∨
    constantsOf l (some r) = .no := by
  unfold constantsOf
  dsimp only
  split
  · split
    · next i j hl hr => exact .inl ⟨i, j, rfl, hl, hr⟩
    · next d d' hl hr => exact .inr (.inl ⟨d, d', rfl, hl, hr⟩)
    · exact .inr (.inr rfl)
  · exact .inr (.inr rfl)

omit [DecidableEq ν] in
/-- The node at `a` after its operation has been carried out. -/
lemma foldNode_eq {arg : QuadrArg ν β} (he : e.pool a = some n) (bad : Bool) (msg : String) :
    (foldNode (e.declareResult C a) a arg).errorIf bad msg =
      ⟨Function.update e.pool a (some { n with tag := .leaf, u := .inl arg }),
        Function.update e.result a (some (C.newVar e.nextVar)), e.nextVar + 1,
        e.errors ++ if bad then [msg] else []⟩ := by
  unfold Emission.errorIf foldNode Emission.modify Emission.declareResult
  dsimp only
  rw [he, Option.map_some]
  cases bad
  · rw [if_neg Bool.false_ne_true, if_neg Bool.false_ne_true, List.append_nil]
  · rw [if_pos rfl, if_pos rfl]

/-- An operation that is carried out. -/
lemma steps_fold {op : QuadrOp} {arg : QuadrArg ν β} {msg : String} {bad : Bool} {c x y : V}
    (hf : Follows M C A) (hg : Emittable C A w g ρ σ k) (he : Emits C g k e)
    (hn : g.pool a = some n) (hu : n.u = .inr op) (hleaf : n.tag ≠ .leaf)
    (hnone : e.result a = none) (hclosed : ∀ b, n.Uses b → (e.result b).isSome)
    (hc : ∀ τ : ν → V, argValue A τ arg = some c) (harg : ∀ v, arg ≠ .var v)
    (hfolded : ∀ x, argValue folding unknown arg = some x → Denotes folding unknown g.pool a x)
    (hx : ∀ τ, Holds C A g ρ σ k e τ → Denotes A ρ g.pool n.left x)
    (hy : ∀ τ, Holds C A g ρ σ k e τ → Denotes A ρ g.pool n.right y)
    (hfold : bad = false → A.op op x y = c) :
    Steps M C A g ρ σ k e (fun e' => (e'.result a).isSome ∧
      ∀ b, b ≠ a → e'.result b = e.result b ∧ e'.pool b = e.pool b)
      (some ([⟨.copy, .var (C.newVar e.nextVar), arg, .none⟩],
        (foldNode (e.declareResult C a) a arg).errorIf bad msg)) := by
  have ha := (he.waiting a hnone).trans hn
  have hbecame : Became n { n with tag := .leaf, u := .inl arg } := by
    refine ⟨rfl, rfl, .inl rfl, .inr ⟨hleaf, fun v hv => harg v ?_⟩⟩
    simpa using hv
  rw [foldNode_eq ha]
  refine (steps_assign hf hg he hn hnone hbecame rfl rfl rfl hclosed (fun arg' y hu' hy => ?_)
    fun hmsgs τ w hτ => ?_).weaken fun _ _ _ h => ⟨h.1, h.2.2⟩
  · dsimp only at hu'
    rw [Sum.inl.injEq] at hu'
    exact hfolded y (hu' ▸ hy)
  -- a division by zero leaves a message behind, and then nothing is promised
  have hgood : bad = false := by
    cases bad with
    | false => rfl
    | true => cases hmsgs
  have hdenotes : Denotes A ρ g.pool a c :=
    hfold hgood ▸ .operation hn hu (hx τ hτ) (hy τ hτ)
  refine ⟨?_, fun arg' z hu' hz => ?_⟩
  · have hvalue : quadrValue M (τ, w) ⟨.copy, .var (C.newVar e.nextVar), arg, .none⟩ = c :=
      hf.copy _ _ c w (by rw [argValue_evalArg, hc τ])
    rw [hvalue]
    exact hdenotes
  · dsimp only at hu'
    rw [Sum.inl.injEq] at hu'
    rw [← hu', hc ρ, Option.some.injEq] at hz
    exact hz ▸ hdenotes

omit [DecidableEq ν] in
lemma isNodeOp_of_isArith {op : QuadrOp} (h : isArith op) : isNodeOp op := by
  cases op with
  | add | sub | div | mul | mod => rfl
  | _ => cases h

/-- The part of **`gencode_for_node`** for an operation, after its operands. -/
lemma steps_gencodeForOp {op : QuadrOp} (hf : Follows M C A) (hg : Emittable C A w g ρ σ k)
    (he : Emits C g k e) (hn : g.pool a = some n) (hu : n.u = .inr op) (hleaf : n.tag ≠ .leaf)
    (hnone : e.result a = none) (hclosed : ∀ b, n.Uses b → (e.result b).isSome) :
    Steps M C A g ρ σ k e (fun e' => (e'.result a).isSome ∧
      ∀ b, b ≠ a → e'.result b = e.result b ∧ e'.pool b = e.pool b)
      (gencodeForOp C e a op n.left n.right) := by
  have ha := (he.waiting a hnone).trans hn
  obtain ⟨l, r, hl, hr, -⟩ := hg.ready.ordered.older a n hn hleaf
  obtain ⟨l', hl', -⟩ := he.node _ l hl
  obtain ⟨r', hr', -⟩ := he.node _ r hr
  obtain ⟨var1, hvar1⟩ := Option.isSome_iff_exists.mp (hclosed n.left ⟨hleaf, .inl rfl⟩)
  obtain ⟨var2, hvar2⟩ := Option.isSome_iff_exists.mp (hclosed n.right ⟨hleaf, .inr rfl⟩)
  have hright : n.right ≠ NULL := by
    intro heq
    rw [heq, hg.sound.null] at hr
    cases hr
  have harith := hg.ready.ordered.op a n op hn hu
  have hres : rightResult e n.right = some (some var2) := by
    unfold rightResult
    rw [if_neg hright, hvar2]
    rfl
  have hnode : rightNode e n.right = some (some r') := by
    unfold rightNode
    rw [if_neg hright, hr']
    rfl
  unfold gencodeForOp
  rw [hvar1, hres, hl', hnode]
  dsimp only [Option.bind_eq_bind, Option.bind_some]
  have hvalue : ∀ x y, Denotes folding unknown g.pool n.left x →
      Denotes folding unknown g.pool n.right y →
      Denotes folding unknown g.pool a (foldOp op x y) ∧ foldOp op x y ≠ .trap := by
    intro x y hx hy
    have hop : Denotes folding unknown g.pool a (foldOp op x y) := .operation hn hu hx hy
    exact ⟨hop, fun htrap => hg.untrapped a (htrap ▸ hop)⟩
  -- two int constants, two double constants, or an operation that is left to the program
  obtain ⟨i, j, hcon, hi, hj⟩ | ⟨i, j, hcon, hi, hj⟩ | hcon := constantsOf_cases l' r'
  · obtain ⟨hdenotes, htrap⟩ := hvalue (.int i) (.int j) (he.folded _ _ _ _ hl' hi rfl)
      (he.folded _ _ _ _ hr' hj rfl)
    obtain ⟨c, bad, hfold, hc⟩ := foldInt_total htrap
    rw [hcon]
    dsimp only
    rw [hfold]
    refine steps_fold hf hg he hn hu hleaf hnone hclosed (fun _ => rfl) (fun _ => nofun)
      (fun x hx => ?_) (fun τ hτ => hτ.constant _ _ _ _ hl' hi rfl)
      (fun τ hτ => hτ.constant _ _ _ _ hr' hj rfl) fun hbad => hf.foldInt op i j c (hbad ▸ hfold)
    cases hx
    rw [hc] at hdenotes
    exact hdenotes
  · obtain ⟨hdenotes, htrap⟩ := hvalue .double .double (he.folded _ _ _ _ hl' hi rfl)
      (he.folded _ _ _ _ hr' hj rfl)
    obtain ⟨c, bad, hfold, hc⟩ := foldDouble_total (C := C) harith htrap i j
    rw [hcon]
    dsimp only
    rw [hfold]
    refine steps_fold hf hg he hn hu hleaf hnone hclosed (fun _ => rfl) (fun _ => nofun)
      (fun x hx => ?_) (fun τ hτ => hτ.constant _ _ _ _ hl' hi rfl)
      (fun τ hτ => hτ.constant _ _ _ _ hr' hj rfl) fun hbad =>
        hf.foldDouble op i j c (hbad ▸ hfold)
    cases hx
    rw [hc] at hdenotes
    exact hdenotes
  · rw [hcon]
    dsimp only
    rw [declareResult_eq ha]
    -- nothing is folded: the temporary takes the value of the operation itself
    refine (steps_assign hf hg he hn hnone (.refl n) rfl rfl (isNodeOp_of_isArith harith) hclosed
      (fun arg' x hu' hx => .leaf hn hu' hx) fun _ τ w hτ => ⟨?_, fun arg' y hu' => ?_⟩).weaken
        fun _ _ _ h => ⟨h.1, h.2.2⟩
    · have hvalue : quadrValue M (τ, w)
          (⟨op, .var (C.newVar e.nextVar), .var var1, argOfVar (some var2)⟩ : Quadr ν β) =
            A.op op (τ var1) (τ var2) := hf.op op _ _ _ _ w harith rfl rfl
      rw [hvalue]
      exact .operation hn hu (hτ.result _ _ hvar1) (hτ.result _ _ hvar2)
    · rw [hu] at hu'
      cases hu'

end Steps

end Javalette.Opt
