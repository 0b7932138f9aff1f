import Mathlib.Data.Nat.Notation
import Mathlib.Data.Int.Notation
import Mathlib.Tactic.Common

/-!
# `types.c`: types and their equivalence

`type_equiv` takes `void` for equivalent to every scalar type, in either argument and at every
depth: below arrays, in the parameters and in the results of functions.  So it is reflexive and
symmetric, but `int` and `double` are both equivalent to `void` and not to each other.
`typeEquiv_laws` says how far it is transitive.

A type is named by a pointer in the source; the basic types are one object each, and a type that
`cons_type` allocates has an address of its own here, so that equality of types is equality of
pointers.
-/

namespace Javalette.Types

/-- `type_cons_t`. -/
inductive TypeCons
  | void | int | double | str | boolean | func | array
  deriving DecidableEq, Repr

/-- `type_t`, `func_type_t` and `array_type_t`. -/
inductive Typ
  | void | int | double | str | boolean
  | func (addr : ℕ) (returnType : Typ) (argsNum : ℤ) (args : List Typ)
  | array (addr : ℕ) (basicType : Typ) (arraySize : ℤ)

/-- The field `cons`. -/
@[simp] def Typ.cons : Typ → TypeCons
  | .void => .void
  | .int => .int
  | .double => .double
  | .str => .str
  | .boolean => .boolean
  | .func _ _ _ _ => .func
  | .array _ _ _ => .array

/-- What `type_equiv` takes `void` for. -/
def voidable (cons : TypeCons) : Bool := cons ≠ .str && cons ≠ .func && cons ≠ .array

mutual

/-- `type_equiv`. -/
def typeEquiv (type1 type2 : Typ) : Bool :=
  if type1.cons = type2.cons then
    if type1.cons = .func ∨ type1.cons = .array then doTypeEquiv type1 type2
    else true
  else if type2.cons = .void then voidable type1.cons
  else if type1.cons = .void then voidable type2.cons
  else false
termination_by 2 * sizeOf type1 + 1

/-- `do_type_equiv`, which is for two functions or two arrays. -/
def doTypeEquiv (type1 type2 : Typ) : Bool :=
  match type1, type2 with
  | .array _ basicType1 arraySize1, .array _ basicType2 arraySize2 =>
      typeEquiv basicType1 basicType2 && arraySize1 = arraySize2
  | .func _ returnType1 argsNum1 args1, .func _ returnType2 argsNum2 args2 =>
      if argsNum1 ≠ argsNum2 then false
      else if !typeEquiv returnType1 returnType2 then false
      else argsEquiv args1 args2
  | _, _ => false
termination_by 2 * sizeOf type1

/-- The loop of `do_type_equiv` over the parameters. -/
def argsEquiv : List Typ → List Typ → Bool
  | [], [] => true
  | arg1 :: args1, arg2 :: args2 =>
      if !typeEquiv arg1 arg2 then false
      else argsEquiv args1 args2
  | _, _ => false
termination_by args1 => 2 * sizeOf args1

end

variable {t u v : Typ} {ts us vs : List Typ}

/-! ## The cases -/

/-- Neither a function nor an array. -/
@[simp] def Typ.isBasic : Typ → Bool
  | .func _ _ _ _ | .array _ _ _ => false
  | _ => true

@[simp] lemma typeEquiv_func {a b : ℕ} {r r' : Typ} {n n' : ℤ} :
    typeEquiv (.func a r n ts) (.func b r' n' us) = true ↔
      n = n' ∧ typeEquiv r r' = true ∧ argsEquiv ts us = true := by
  simp only [typeEquiv, doTypeEquiv, Typ.cons]
  by_cases hn : n = n' <;> simp [hn]

@[simp] lemma typeEquiv_array {a b : ℕ} {n n' : ℤ} :
    typeEquiv (.array a t n) (.array b u n') = true ↔ typeEquiv t u = true ∧ n = n' := by
  simp [typeEquiv, doTypeEquiv]

/-- The special rule is for two types of which one is neither a function nor an array. -/
lemma typeEquiv_basic (h : t.isBasic = true ∨ u.isBasic = true) :
    typeEquiv t u = true ↔ t.cons = u.cons ∨ u.cons = .void ∧ voidable t.cons = true ∨
      t.cons = .void ∧ voidable u.cons = true := by
  unfold typeEquiv
  cases t <;> cases u <;> simp_all [voidable]

/-- Functions are equivalent to functions only. -/
lemma exists_of_equiv_func {a : ℕ} {r : Typ} {n : ℤ}
    (h : typeEquiv (.func a r n ts) u = true) : ∃ b r' us, u = .func b r' n us ∧
      typeEquiv r r' = true ∧ argsEquiv ts us = true := by
  cases u with
  | func b r' n' us =>
    obtain ⟨rfl, hr, hargs⟩ := typeEquiv_func.mp h
    exact ⟨b, r', us, rfl, hr, hargs⟩
  | array b u n' => simp [typeEquiv] at h
  | _ => simp [typeEquiv_basic, voidable] at h

/-- Arrays are equivalent to arrays only. -/
lemma exists_of_equiv_array {a : ℕ} {n : ℤ} (h : typeEquiv (.array a t n) u = true) :
    ∃ b u', u = .array b u' n ∧ typeEquiv t u' = true := by
  cases u with
  | array b u' n' =>
    obtain ⟨ht, rfl⟩ := typeEquiv_array.mp h
    exact ⟨b, u', rfl, ht⟩
  | func b r' n' us => simp [typeEquiv] at h
  | _ => simp [typeEquiv_basic, voidable] at h

@[simp] lemma argsEquiv_cons :
    argsEquiv (t :: ts) (u :: us) = true ↔ typeEquiv t u = true ∧ argsEquiv ts us = true := by
  rw [argsEquiv]
  by_cases h : typeEquiv t u = true <;> simp [h]

@[simp] lemma argsEquiv_nil_left : argsEquiv [] us = true ↔ us = [] := by
  cases us <;> simp [argsEquiv]

lemma exists_of_argsEquiv_cons (h : argsEquiv (t :: ts) us = true) :
    ∃ u us', us = u :: us' ∧ typeEquiv t u = true ∧ argsEquiv ts us' = true := by
  cases us with
  | nil => simp [argsEquiv] at h
  | cons u us' =>
    obtain ⟨ht, hts⟩ := argsEquiv_cons.mp h
    exact ⟨u, us', rfl, ht, hts⟩

/-! ## Reflexivity and symmetry -/

mutual

lemma typeEquiv_refl : ∀ t : Typ, typeEquiv t t = true
  | .func _ r _ args => typeEquiv_func.mpr ⟨rfl, typeEquiv_refl r, argsEquiv_refl args⟩
  | .array _ t _ => typeEquiv_array.mpr ⟨typeEquiv_refl t, rfl⟩
  | .void | .int | .double | .str | .boolean => by simp [typeEquiv]

lemma argsEquiv_refl : ∀ ts : List Typ, argsEquiv ts ts = true
  | [] => by simp
  | t :: ts => argsEquiv_cons.mpr ⟨typeEquiv_refl t, argsEquiv_refl ts⟩

end

mutual

lemma typeEquiv_symm : ∀ {t u : Typ}, typeEquiv t u = true → typeEquiv u t = true
  | .func _ r _ args, u, h => by
    obtain ⟨b, r', us, rfl, hr, hargs⟩ := exists_of_equiv_func h
    exact typeEquiv_func.mpr ⟨rfl, typeEquiv_symm hr, argsEquiv_symm hargs⟩
  | .array _ t _, u, h => by
    obtain ⟨b, u', rfl, ht⟩ := exists_of_equiv_array h
    exact typeEquiv_array.mpr ⟨typeEquiv_symm ht, rfl⟩
  | .void, u, h | .int, u, h | .double, u, h | .str, u, h | .boolean, u, h => by
    rw [typeEquiv_basic (by simp)] at h ⊢
    exact h.imp Eq.symm Or.symm

lemma argsEquiv_symm : ∀ {ts us : List Typ}, argsEquiv ts us = true → argsEquiv us ts = true
  | [], us, h => by
    obtain rfl := argsEquiv_nil_left.mp h
    exact h
  | t :: ts, us, h => by
    obtain ⟨u, us', rfl, ht, hts⟩ := exists_of_argsEquiv_cons h
    exact argsEquiv_cons.mpr ⟨typeEquiv_symm ht, argsEquiv_symm hts⟩

end

/-! ## Transitivity -/

mutual

/-- `void` occurs nowhere in the type. -/
def Typ.voidFree : Typ → Bool
  | .void => false
  | .func _ r _ args => r.voidFree && allVoidFree args
  | .array _ t _ => t.voidFree
  | .int | .double | .str | .boolean => true

/-- `void` occurs in none of the types. -/
def allVoidFree : List Typ → Bool
  | [] => true
  | t :: ts => t.voidFree && allVoidFree ts

end

mutual

/-- Through a type without `void` equivalence is transitive. -/
lemma typeEquiv_trans : ∀ {u t v : Typ}, u.voidFree = true → typeEquiv t u = true →
    typeEquiv u v = true → typeEquiv t v = true
  | .func _ r _ args, t, v, hfree, htu, huv => by
    simp only [Typ.voidFree, Bool.and_eq_true] at hfree
    obtain ⟨_, r₁, ts, rfl, hr₁, hargs₁⟩ := exists_of_equiv_func (typeEquiv_symm htu)
    obtain ⟨_, r₂, vs, rfl, hr₂, hargs₂⟩ := exists_of_equiv_func huv
    exact typeEquiv_func.mpr ⟨rfl, typeEquiv_trans hfree.1 (typeEquiv_symm hr₁) hr₂,
      argsEquiv_trans hfree.2 (argsEquiv_symm hargs₁) hargs₂⟩
  | .array _ u _, t, v, hfree, htu, huv => by
    simp only [Typ.voidFree] at hfree
    obtain ⟨_, t', rfl, ht⟩ := exists_of_equiv_array (typeEquiv_symm htu)
    obtain ⟨_, v', rfl, hv⟩ := exists_of_equiv_array huv
    exact typeEquiv_array.mpr ⟨typeEquiv_trans hfree (typeEquiv_symm ht) hv, rfl⟩
  | .void, _, _, hfree, _, _ => by
    simp only [Typ.voidFree, Bool.false_eq_true] at hfree
  | .int, t, v, _, htu, huv | .double, t, v, _, htu, huv | .str, t, v, _, htu, huv
  | .boolean, t, v, _, htu, huv => by
    -- both are the type in the middle or `void`
    rw [typeEquiv_basic (by simp)] at htu huv
    cases t <;> cases v <;> simp_all [typeEquiv_basic, voidable]

lemma argsEquiv_trans : ∀ {us ts vs : List Typ}, allVoidFree us = true →
    argsEquiv ts us = true → argsEquiv us vs = true → argsEquiv ts vs = true
  | [], ts, vs, _, htu, huv => by
    obtain rfl := argsEquiv_nil_left.mp (argsEquiv_symm htu)
    exact huv
  | u :: us, ts, vs, hfree, htu, huv => by
    simp only [allVoidFree, Bool.and_eq_true] at hfree
    obtain ⟨t, ts, rfl, ht, hts⟩ := exists_of_argsEquiv_cons (argsEquiv_symm htu)
    obtain ⟨v, vs, rfl, hv, hvs⟩ := exists_of_argsEquiv_cons huv
    exact argsEquiv_cons.mpr ⟨typeEquiv_trans hfree.1 (typeEquiv_symm ht) hv,
      argsEquiv_trans hfree.2 (argsEquiv_symm hts) hvs⟩

end

mutual

/-- The type with another one for `void`. -/
def instVoid (b : Typ) : Typ → Typ
  | .void => b
  | .func a r n args => .func a (instVoid b r) n (allInstVoid b args)
  | .array a t n => .array a (instVoid b t) n
  | .int => .int
  | .double => .double
  | .str => .str
  | .boolean => .boolean

/-- The types with another one for `void`. -/
def allInstVoid (b : Typ) : List Typ → List Typ
  | [] => []
  | t :: ts => instVoid b t :: allInstVoid b ts

end

section

variable {b : Typ}

mutual

/-- A type is equivalent to its instances at scalar types. -/
lemma typeEquiv_instVoid (hb : voidable b.cons = true) :
    ∀ t : Typ, typeEquiv t (instVoid b t) = true
  | .void => by
    rw [instVoid, typeEquiv_basic (by simp)]
    exact Or.inr (Or.inr ⟨rfl, hb⟩)
  | .func _ r _ args => by
    rw [instVoid]
    exact typeEquiv_func.mpr ⟨rfl, typeEquiv_instVoid hb r, argsEquiv_instVoid hb args⟩
  | .array _ t _ => by
    rw [instVoid]
    exact typeEquiv_array.mpr ⟨typeEquiv_instVoid hb t, rfl⟩
  | .int | .double | .str | .boolean => typeEquiv_refl _

lemma argsEquiv_instVoid (hb : voidable b.cons = true) :
    ∀ ts : List Typ, argsEquiv ts (allInstVoid b ts) = true
  | [] => by simp [allInstVoid]
  | t :: ts => by
    rw [allInstVoid]
    exact argsEquiv_cons.mpr ⟨typeEquiv_instVoid hb t, argsEquiv_instVoid hb ts⟩

end

end

mutual

/-- Instances at `int` and at `double` tell a type with `void` from one without. -/
lemma voidFree_of_instances : ∀ {t : Typ},
    typeEquiv (instVoid .int t) (instVoid .double t) = true → t.voidFree = true
  | .void, h => by simp [instVoid, typeEquiv] at h
  | .func _ r _ args, h => by
    rw [instVoid, instVoid] at h
    obtain ⟨-, hr, hargs⟩ := typeEquiv_func.mp h
    simp only [Typ.voidFree, voidFree_of_instances hr, allVoidFree_of_instances hargs,
      Bool.and_self]
  | .array _ t _, h => by
    rw [instVoid, instVoid] at h
    simp only [Typ.voidFree, voidFree_of_instances (typeEquiv_array.mp h).1]
  | .int, _ | .double, _ | .str, _ | .boolean, _ => rfl

lemma allVoidFree_of_instances : ∀ {ts : List Typ},
    argsEquiv (allInstVoid .int ts) (allInstVoid .double ts) = true → allVoidFree ts = true
  | [], _ => rfl
  | t :: ts, h => by
    rw [allInstVoid, allInstVoid] at h
    obtain ⟨ht, hts⟩ := argsEquiv_cons.mp h
    simp only [allVoidFree, voidFree_of_instances ht, allVoidFree_of_instances hts, Bool.and_self]

end

/-- `type_equiv` is reflexive and symmetric, and it is transitive through those types in which
`void` does not occur, and through no others. -/
theorem typeEquiv_laws :
    (∀ t, typeEquiv t t = true) ∧
    (∀ t u, typeEquiv t u = true → typeEquiv u t = true) ∧
    ∀ u, (∀ t v, typeEquiv t u = true → typeEquiv u v = true → typeEquiv t v = true) ↔
      u.voidFree = true := by
  refine ⟨typeEquiv_refl, fun _ _ h => typeEquiv_symm h,
    fun u => ⟨fun h => ?_, fun hfree t v => ?_⟩⟩
  · apply voidFree_of_instances
    exact h _ _ (typeEquiv_symm (typeEquiv_instVoid rfl u)) (typeEquiv_instVoid rfl u)
  · exact typeEquiv_trans hfree

/-- `int` is equivalent to `void` and `void` to `double`, but `int` is not equivalent to
`double`. -/
theorem typeEquiv_not_transitive :
    ¬∀ t u v, typeEquiv t u = true → typeEquiv u v = true → typeEquiv t v = true := by
  intro h
  have hint : typeEquiv .int .void = true := by simp [typeEquiv, voidable]
  have hdouble : typeEquiv .void .double = true := by simp [typeEquiv, voidable]
  have hnot := h .int .void .double hint hdouble
  simp [typeEquiv] at hnot

end Javalette.Types
