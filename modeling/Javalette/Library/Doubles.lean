import Mathlib.Algebra.Group.Nat.Defs
import Mathlib.Data.Int.Notation
import Javalette.Library.OrderedMap

/-!
# Doubles as bits

The comparisons of doubles, which are given by their 64 bits.  The bits after the sign are the
magnitude, and above that of infinity there are no numbers.

A map from doubles in the order of `<` tells numbers apart, the two zeros excepted
(`eq_of_same_doubleLess`).
-/

namespace Javalette

/-- The double is not a number. -/
def isNaN (d : BitVec 64) : Bool := decide (0x7FF0000000000000 < d.toNat % 2 ^ 63)

/-- Doubles that are numbers are ordered like these integers; both zeros are `0`. -/
def doubleOrder (d : BitVec 64) : ℤ :=
  if d.msb then -((d.toNat % 2 ^ 63 : ℕ) : ℤ) else ((d.toNat % 2 ^ 63 : ℕ) : ℤ)

/-- `<` on doubles. -/
def doubleLess (a b : BitVec 64) : Bool :=
  !isNaN a && !isNaN b && decide (doubleOrder a < doubleOrder b)

lemma doubleLess_iff {a b : BitVec 64} :
    doubleLess a b ↔ isNaN a = false ∧ isNaN b = false ∧ doubleOrder a < doubleOrder b := by
  simp [doubleLess, and_assoc]

lemma doubleLess_trans (a b c : BitVec 64) (h : doubleLess a b) (h' : doubleLess b c) :
    doubleLess a c := by
  rw [doubleLess_iff] at h h' ⊢
  exact ⟨h.1, h'.2.1, Int.lt_trans h.2.2 h'.2.2⟩

lemma doubleLess_irrefl (a : BitVec 64) : ¬ doubleLess a a := by
  rw [doubleLess_iff]
  exact fun h => Int.lt_irrefl _ h.2.2

/-- A number that is not `-0.0`. -/
def PlainDouble (d : BitVec 64) : Prop := isNaN d = false ∧ d ≠ 0x8000000000000000

/-- The order tells plain doubles apart. -/
lemma doubleOrder_inj {a b : BitVec 64} (ha : PlainDouble a) (hb : PlainDouble b)
    (h : doubleOrder a = doubleOrder b) : a = b := by
  have hzero : ∀ d : BitVec 64, PlainDouble d → d.msb → d.toNat % 2 ^ 63 ≠ 0 := by
    intro d hd hsign hmod
    apply hd.2
    rw [BitVec.msb_eq_decide, decide_eq_true_eq] at hsign
    apply BitVec.eq_of_toNat_eq
    have hlt := d.isLt
    rw [show (0x8000000000000000 : BitVec 64).toNat = 9223372036854775808 from rfl]
    omega
  have hza := hzero a ha
  have hzb := hzero b hb
  apply BitVec.eq_of_toNat_eq
  unfold doubleOrder at h
  rw [BitVec.msb_eq_decide] at h hza
  rw [BitVec.msb_eq_decide] at h hzb
  have hlt := a.isLt
  have hlt' := b.isLt
  simp only [decide_eq_true_eq] at h hza hzb
  split at h <;> split at h <;> omega

/-- A map in the order of `<` tells plain doubles apart. -/
lemma eq_of_same_doubleLess {a b : BitVec 64} (ha : PlainDouble a) (hb : PlainDouble b)
    (h : OrderedMap.Same doubleLess a b) : a = b := by
  have hle : ¬ doubleOrder a < doubleOrder b :=
    fun hlt => h.1 (doubleLess_iff.mpr ⟨ha.1, hb.1, hlt⟩)
  have hge : ¬ doubleOrder b < doubleOrder a :=
    fun hlt => h.2 (doubleLess_iff.mpr ⟨hb.1, ha.1, hlt⟩)
  exact doubleOrder_inj ha hb (by omega)

end Javalette
