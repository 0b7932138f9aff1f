import Javalette.X86.Machine
import Mathlib.Tactic.Ring
import Mathlib.Tactic.Linarith
import Mathlib.Tactic.Positivity
import Mathlib.Data.BitVec

/-!
# `gen_div_mod_32`: division by a constant

The module embeds the two instruction sequences of `gen_div_mod_32` in `i386_backend.c`: the one
for a constant divisor whose absolute value is a power of two, with the loop that looks for the
logarithm, and the general one that ends in `idiv`.  The location that `update_locations` records
for the result is an operand here; which one it is, and what is saved before, is a matter of the
location tables and not of the arithmetic.

The two sequences round differently.  `sar` divides towards minus infinity and `and` leaves the
non-negative remainder, while `idiv` truncates, and the plain copy for the divisor `1` is made
for `%` as well.  The main result says for which operands they agree all the same.
-/

namespace Javalette.I386

open X86

/-- `Q_DIV` and `Q_MOD`. -/
inductive DivOp
  | div | mod
  deriving DecidableEq, Repr

/-! ## The special sequence -/

/-- The `while` loop that looks for a single bit in `val`: `cnt` bits have been shifted out, and
`lg` is the place of the one bit found, or `-1`. -/
def shiftLoop : ℕ → BitVec 32 → ℤ → ℤ → Option ℤ
  | 0, _, _, _ => none
  | fuel + 1, val, cnt, lg =>
      if val = 0 then some lg
      else if val &&& 1 ≠ 0 then
        if lg ≠ -1 then some (-1)
        else shiftLoop fuel (val.sshiftRight 1) (cnt + 1) cnt
      else shiftLoop fuel (val.sshiftRight 1) (cnt + 1) lg

/-- `sign` for the divisor `d`. -/
def divisorSign (d : BitVec 32) : Bool :=
  d.slt 0

/-- `lg` for the divisor `d`.  The negation wraps for the smallest integer. -/
def divisorLog (fuel : ℕ) (d : BitVec 32) : Option ℤ :=
  shiftLoop fuel (if divisorSign d then -d else d) 0 (-1)

/-- What is written for a divisor with `lg != -1`.  Without a shift and a sign nothing is: the
result takes over the locations of the dividend. -/
def specialCode (op : DivOp) (lg : ℤ) (sign : Bool) (loc0 : Operand) : List Instr :=
  if 0 < lg ∨ sign = true then
    match op with
    | .div =>
        (if 0 < lg then [.sar loc0 lg.toNat] else []) ++ (if sign then [.neg loc0] else [])
    | .mod => [.and loc0 (BitVec.ofInt 32 (2 ^ lg.toNat - 1))]
  else []

/-! ## The general sequence -/

/-- The double word in `eax` is extended to `edx`. -/
def signExtend : List Instr :=
  [.xor .edx .edx, .test .eax .eax, .sets .edx, .neg (.reg .edx)]

/-- What is written for a constant divisor without a logarithm, when the dividend is not in `eax`
already. -/
def idivCode (loc1 : Operand) (d : BitVec 32) : List Instr :=
  .mov (.reg .eax) loc1 :: signExtend ++ [.mov (.reg .ebp) (.imm d), .idiv (.reg .ebp)]

/-- The location of the result of the general sequence. -/
def idivResult : DivOp → Operand
  | .div => .reg .eax
  | .mod => .reg .edx

/-! ## Values -/

section Values

variable (c : Ctx) (m : Machine)

/-- The value the special sequence leaves at `loc0`. -/
def specialValue (op : DivOp) (lg : ℤ) (sign : Bool) (loc0 : Operand) : Option (BitVec 32) :=
  (run c m (specialCode op lg sign loc0)).bind fun m' => m'.read32 c loc0

/-- The value the general sequence leaves for the result. -/
def idivValue (op : DivOp) (loc1 : Operand) (d : BitVec 32) : Option (BitVec 32) :=
  (run c m (idivCode loc1 d)).bind fun m' => m'.read32 c (idivResult op)

end Values

/-! ## The detection loop -/

lemma msb_eq_false_of_lt {x : BitVec 32} (h : x.toNat < 2 ^ 31) : x.msb = false := by
  rw [BitVec.msb_eq_decide]
  exact decide_eq_false (by omega)

lemma toNat_sshiftRight_one {x : BitVec 32} (h : x.toNat < 2 ^ 31) :
    (x.sshiftRight 1).toNat = x.toNat / 2 := by
  rw [BitVec.sshiftRight_eq_of_msb_false (msb_eq_false_of_lt h), BitVec.toNat_ushiftRight,
    Nat.shiftRight_eq_div_pow]

lemma and_one_ne_zero_iff (x : BitVec 32) : x &&& 1 ≠ 0 ↔ x.toNat % 2 = 1 := by
  have h : (x &&& 1).toNat = x.toNat % 2 := by
    rw [BitVec.toNat_and]
    exact Nat.and_one_is_mod _
  rw [ne_eq, ← BitVec.toNat_inj, h]
  change ¬ x.toNat % 2 = 0 ↔ _
  omega

lemma shiftLoop_mono {fuel fuel' : ℕ} (h : fuel ≤ fuel') {val : BitVec 32} {cnt lg r : ℤ}
    (hr : shiftLoop fuel val cnt lg = some r) : shiftLoop fuel' val cnt lg = some r := by
  induction fuel generalizing fuel' val cnt lg with
  | zero => simp [shiftLoop] at hr
  | succ fuel ih =>
      obtain ⟨fuel', rfl⟩ : ∃ f, fuel' = f + 1 := ⟨fuel' - 1, by omega⟩
      rw [shiftLoop] at hr ⊢
      split_ifs at hr ⊢
      · exact hr
      · exact hr
      · exact ih (by omega) hr
      · exact ih (by omega) hr

/-- Once a bit is found, the loop goes on to the end or to the next bit. -/
lemma shiftLoop_found (k fuel : ℕ) (hk : k < 32) (hfuel : k < fuel) (val : BitVec 32)
    (hval : val.toNat < 2 ^ k) (cnt lg : ℤ) (hlg : lg ≠ -1) :
    shiftLoop fuel val cnt lg = some (if val = 0 then lg else -1) := by
  induction k generalizing fuel val cnt with
  | zero =>
      obtain ⟨fuel, rfl⟩ : ∃ f, fuel = f + 1 := ⟨fuel - 1, by omega⟩
      have h0 : val = 0 := BitVec.eq_of_toNat_eq (by simpa using hval)
      simp only [shiftLoop, if_pos h0]
  | succ k ih =>
      obtain ⟨fuel, rfl⟩ : ∃ f, fuel = f + 1 := ⟨fuel - 1, by omega⟩
      rw [shiftLoop]
      split_ifs with h0 h1
      · rfl
      · rfl
      · have h31 : val.toNat < 2 ^ 31 :=
          lt_of_lt_of_le hval (Nat.pow_le_pow_right (by omega) (by omega))
        have heven : val.toNat % 2 = 0 := by
          have := mt (and_one_ne_zero_iff val).mpr h1
          omega
        have hpos : val.toNat ≠ 0 := fun h => h0 (BitVec.eq_of_toNat_eq h)
        have hs := toNat_sshiftRight_one h31
        have hs0 : val.sshiftRight 1 ≠ 0 := by
          intro h
          rw [h] at hs
          change 0 = _ at hs
          omega
        rw [ih fuel (by omega) (by omega) _ (by rw [hs]; omega), if_neg hs0]

/-- The loop from its start: it finds the place of the bit of a power of two, and nothing in any
other number. -/
lemma shiftLoop_start (k fuel : ℕ) (hk : k < 32) (hfuel : k < fuel) (val : BitVec 32)
    (hval : val.toNat < 2 ^ k) (cnt : ℤ) (hcnt : 0 ≤ cnt) :
    ∃ lg, shiftLoop fuel val cnt (-1) = some lg ∧
      (lg ≠ -1 → ∃ j : ℕ, lg = cnt + j ∧ j < k ∧ val.toNat = 2 ^ j) ∧
      (∀ j : ℕ, val.toNat = 2 ^ j → lg = cnt + j) := by
  induction k generalizing fuel val cnt with
  | zero =>
      obtain ⟨fuel, rfl⟩ : ∃ f, fuel = f + 1 := ⟨fuel - 1, by omega⟩
      have h0 : val.toNat = 0 := by omega
      have hv : val = 0 := BitVec.eq_of_toNat_eq h0
      refine ⟨-1, by simp only [shiftLoop, if_pos hv], fun h => absurd rfl h, fun j hj => ?_⟩
      have := Nat.two_pow_pos j
      omega
  | succ k ih =>
      obtain ⟨fuel, rfl⟩ : ∃ f, fuel = f + 1 := ⟨fuel - 1, by omega⟩
      have h31 : val.toNat < 2 ^ 31 :=
        lt_of_lt_of_le hval (Nat.pow_le_pow_right (by omega) (by omega))
      have hs := toNat_sshiftRight_one h31
      rw [shiftLoop]
      by_cases h0 : val = 0
      · rw [if_pos h0]
        refine ⟨-1, rfl, fun h => absurd rfl h, fun j hj => ?_⟩
        have := Nat.two_pow_pos j
        rw [h0] at hj
        change 0 = _ at hj
        omega
      have hpos : val.toNat ≠ 0 := fun h => h0 (BitVec.eq_of_toNat_eq h)
      rw [if_neg h0]
      -- the lowest set bit is stored in `lg`; from there on any other bit makes the answer -1
      by_cases h1 : val &&& 1 ≠ 0
      · have hodd := (and_one_ne_zero_iff val).mp h1
        rw [if_pos h1, if_neg (by omega : ¬ (-1 : ℤ) ≠ -1),
          shiftLoop_found k fuel (by omega) (by omega) _ (by rw [hs]; omega) _ _ (by omega)]
        by_cases hz : val.sshiftRight 1 = 0
        · have hval1 : val.toNat = 1 := by
            rw [hz] at hs
            change 0 = _ at hs
            omega
          rw [if_pos hz]
          refine ⟨cnt, rfl, fun _ => ⟨0, by omega, by omega, by simpa using hval1⟩, fun j hj => ?_⟩
          have hj0 : j = 0 := by
            by_contra hne
            have : 2 ∣ 2 ^ j := dvd_pow_self 2 hne
            omega
          omega
        · rw [if_neg hz]
          refine ⟨-1, rfl, fun h => absurd rfl h, fun j hj => ?_⟩
          have hj0 : j = 0 := by
            by_contra hne
            have : 2 ∣ 2 ^ j := dvd_pow_self 2 hne
            omega
          subst hj0
          refine absurd (BitVec.eq_of_toNat_eq ?_) hz
          rw [hs, hj]
          rfl
      · have heven : val.toNat % 2 = 0 := by
          have := mt (and_one_ne_zero_iff val).mpr h1
          omega
        rw [if_neg h1]
        -- an even value: half of it is searched with the counter one higher
        obtain ⟨lg, hlg, hsome, hall⟩ := ih fuel (by omega) (by omega) (val.sshiftRight 1)
          (by rw [hs]; omega) (cnt + 1) (by omega)
        refine ⟨lg, hlg, fun h => ?_, fun j hj => ?_⟩
        · obtain ⟨j, hj, hjk, hpow⟩ := hsome h
          refine ⟨j + 1, by push_cast; omega, by omega, ?_⟩
          rw [pow_succ]
          omega
        · obtain ⟨i, rfl⟩ : ∃ i, j = i + 1 := by
            refine ⟨j - 1, ?_⟩
            have : j ≠ 0 := by
              rintro rfl
              simp at hj
              omega
            omega
          have := hall i (by rw [hs, hj, pow_succ]; omega)
          push_cast
          omega

/-- The smallest integer shifts to minus one, whose bits have no end: the loop meets a second
bit. -/
lemma shiftLoop_intMin (fuel : ℕ) (hfuel : 33 ≤ fuel) :
    shiftLoop fuel 0x80000000#32 0 (-1) = some (-1) := by
  obtain ⟨fuel, rfl⟩ : ∃ f, fuel = f + 33 := ⟨fuel - 33, by omega⟩
  rfl

/-- The absolute value of the divisor, wrapped as the code wraps it. -/
lemma toNat_abs_divisor (d : BitVec 32) :
    (if divisorSign d then -d else d).toNat = d.toInt.natAbs := by
  have hlt := d.isLt
  simp only [divisorSign, BitVec.slt, decide_eq_true_eq]
  rw [BitVec.toInt_eq_toNat_cond, show (0 : BitVec 32).toInt = 0 from rfl]
  split_ifs with h1 h2 h2
  · omega
  · omega
  · rw [BitVec.toNat_neg]
    omega
  · omega

/-- The detection loop ends for every divisor.  It finds a logarithm exactly for the powers of
two up to `2 ^ 30` and for their negatives. -/
lemma divisorLog_spec (d : BitVec 32) :
    ∃ lg : ℤ, (∀ fuel, 33 ≤ fuel → divisorLog fuel d = some lg) ∧
      (lg ≠ -1 → ∃ k : ℕ, lg = k ∧ k ≤ 30 ∧ d.toInt.natAbs = 2 ^ k) ∧
      (∀ k : ℕ, k ≤ 30 → d.toInt.natAbs = 2 ^ k → lg = k) := by
  have habs := toNat_abs_divisor d
  by_cases hmin : d = 0x80000000#32
  · subst hmin
    refine ⟨-1, fun fuel hfuel => shiftLoop_intMin fuel hfuel, fun h => absurd rfl h, ?_⟩
    intro k hk hpow
    have h31 : (2 : ℕ) ^ k < 2 ^ 31 := Nat.pow_lt_pow_right (by omega) (by omega)
    rw [← hpow] at h31
    exact absurd h31 (by decide)
  · have hlt : (if divisorSign d then -d else d).toNat < 2 ^ 31 := by
      rw [habs]
      have hne : d.toInt ≠ -2147483648 := by
        intro h
        exact hmin (BitVec.eq_of_toInt_eq h)
      have := BitVec.toInt_lt (x := d)
      have := BitVec.le_toInt d
      omega
    obtain ⟨lg, hlg, hsome, hall⟩ := shiftLoop_start 31 32 (by omega) (by omega) _ hlt 0 le_rfl
    refine ⟨lg, fun fuel hfuel => ?_, fun h => ?_, fun k _ hpow => ?_⟩
    · exact shiftLoop_mono (by omega) hlg
    · obtain ⟨j, hj, hlt', hpow⟩ := hsome h
      exact ⟨j, by omega, by omega, habs ▸ hpow⟩
    · simpa using hall k (habs.trans hpow)

/-! ## The values of the two sequences -/

/-- The places an integer result can have. -/
inductive IsPlace : Operand → Prop
  | reg (r : Reg32) : IsPlace (.reg r)
  | slot (n : ℤ) : IsPlace (.slot 4 n)

lemma write32_place {loc : Operand} (hloc : IsPlace loc) (c : Ctx) (m : Machine) (v : BitVec 32) :
    ∃ m', m.write32 c v loc = some m' ∧ m'.read32 c loc = some v := by
  cases hloc with
  | reg r => exact ⟨m.setReg r v, rfl, by simp [Machine.read32, Machine.setReg]⟩
  | slot n =>
      refine ⟨m.store32 (m.slotAddr c n) v, by simp [Machine.write32], ?_⟩
      simp [Machine.read32, Machine.store32, Machine.slotAddr]

section Special

variable {c : Ctx} {m : Machine} {x : BitVec 32} {loc0 : Operand}

lemma run_sar (hloc : IsPlace loc0) (hx : m.read32 c loc0 = some x) (cnt : ℕ) :
    ∃ m', run c m [.sar loc0 cnt] = some m' ∧ m'.read32 c loc0 = some (x.sshiftRight cnt) := by
  obtain ⟨m', hm, hr⟩ :=
    write32_place hloc c { m with sf := (x.sshiftRight cnt).msb } (x.sshiftRight cnt)
  exact ⟨m', by simp only [run_cons, run_nil, exec, hx, hm, Option.bind_some], hr⟩

lemma run_neg (hloc : IsPlace loc0) (hx : m.read32 c loc0 = some x) :
    ∃ m', run c m [.neg loc0] = some m' ∧ m'.read32 c loc0 = some (-x) := by
  obtain ⟨m', hm, hr⟩ := write32_place hloc c { m with sf := (-x).msb } (-x)
  exact ⟨m', by simp only [run_cons, run_nil, exec, hx, hm, Option.bind_some], hr⟩

lemma run_and (hloc : IsPlace loc0) (hx : m.read32 c loc0 = some x) (mask : BitVec 32) :
    ∃ m', run c m [.and loc0 mask] = some m' ∧ m'.read32 c loc0 = some (x &&& mask) := by
  obtain ⟨m', hm, hr⟩ := write32_place hloc c { m with sf := (x &&& mask).msb } (x &&& mask)
  exact ⟨m', by simp only [run_cons, run_nil, exec, hx, hm, Option.bind_some], hr⟩

lemma run_nil_place (hx : m.read32 c loc0 = some x) :
    ∃ m', run c m [] = some m' ∧ m'.read32 c loc0 = some x :=
  ⟨m, rfl, hx⟩

/-- The quotient of the special sequence. -/
lemma specialValue_div (hloc : IsPlace loc0) (hx : m.read32 c loc0 = some x) (k : ℕ)
    (sign : Bool) :
    specialValue c m .div k sign loc0 =
      some (if sign then -(x.sshiftRight k) else x.sshiftRight k) := by
  have hshift : ∃ m', run c m (if 0 < (k : ℤ) then [.sar loc0 (k : ℤ).toNat] else []) = some m' ∧
      m'.read32 c loc0 = some (x.sshiftRight k) := by
    split_ifs with hk
    · exact run_sar hloc hx _
    · have hk0 : k = 0 := by omega
      subst hk0
      exact run_nil_place (by rw [BitVec.sshiftRight_zero]; exact hx)
  obtain ⟨m', hm', hx'⟩ := hshift
  unfold specialValue specialCode
  cases sign with
  | false =>
      by_cases hk : 0 < (k : ℤ)
      · simp only [hk, true_or, if_true] at hm' ⊢
        simp only [Bool.false_eq_true, if_false, List.append_nil, hm', Option.bind_some, hx']
      · simp only [hk, Bool.false_eq_true, or_self, if_false, run_nil, Option.bind_some] at hm' ⊢
        obtain rfl := Option.some.inj hm'
        exact hx'
  | true =>
      obtain ⟨m'', hm'', hx''⟩ := run_neg hloc hx'
      simp only [or_true, if_true, run_append, hm', Option.bind_some, hm'', hx'']

/-- The remainder of the special sequence. -/
lemma specialValue_mod (hloc : IsPlace loc0) (hx : m.read32 c loc0 = some x) (k : ℕ)
    (sign : Bool) :
    specialValue c m .mod k sign loc0 =
      some (if k = 0 ∧ sign = false then x else x &&& BitVec.ofInt 32 (2 ^ k - 1)) := by
  unfold specialValue specialCode
  by_cases h : 0 < (k : ℤ) ∨ sign = true
  · obtain ⟨m', hm', hx'⟩ := run_and hloc hx (BitVec.ofInt 32 (2 ^ (k : ℤ).toNat - 1))
    have hne : ¬ (k = 0 ∧ sign = false) := by
      rintro ⟨rfl, rfl⟩
      simp at h
    simp only [h, if_true, hm', Option.bind_some, hx', if_neg hne]
    rw [Int.toNat_natCast]
  · have heq : k = 0 ∧ sign = false := by
      rw [not_or] at h
      exact ⟨by omega, by simpa using h.2⟩
    simp only [h, if_false, run_nil, Option.bind_some, if_pos heq, hx]

end Special

/-- `signExtend` fills `edx` with the sign of `eax`, so that the two make up the same number. -/
lemma run_signExtend (c : Ctx) (m : Machine) :
    ∃ m', run c m signExtend = some m' ∧
      (∀ r, r ≠ .edx → m'.reg r = m.reg r) ∧
      (m'.reg .edx ++ m.reg .eax : BitVec 64).toInt = (m.reg .eax).toInt := by
  refine ⟨_, rfl, ?_, ?_⟩
  · intro r hr
    simp [Machine.setReg, Function.update_of_ne hr]
  · simp only [Machine.setReg, Function.update_self, BitVec.xor_self, BitVec.and_self,
      Function.update_of_ne (show Reg32.eax ≠ .edx by decide)]
    have hcond := BitVec.toInt_eq_msb_cond (m.reg .eax)
    have happend := fun hi : BitVec 32 => BitVec.toInt_append (x := hi) (y := m.reg .eax)
    cases hsf : (m.reg .eax).msb with
    | false =>
        rw [hsf, if_neg (by decide)] at hcond
        exact (happend _).trans (by rw [hcond]; simp)
    | true =>
        rw [hsf, if_pos rfl] at hcond
        refine (happend _).trans ?_
        rw [hcond, if_neg (by decide), if_pos rfl,
          show (-((0#32).extractLsb' 8 24 ++ 1#8 : BitVec 32)).toInt = -1 from rfl]
        push_cast
        ring

/-- The truncated quotient or remainder. -/
def truncated : DivOp → ℤ → ℤ → ℤ
  | .div, a, b => a.tdiv b
  | .mod, a, b => a.tmod b

/-- The divide error of `idiv`: the quotient does not fit. -/
def Overflows (x d : BitVec 32) : Prop :=
  x.toInt.tdiv d.toInt < -2147483648 ∨ 2147483647 < x.toInt.tdiv d.toInt

instance (x d : BitVec 32) : Decidable (Overflows x d) :=
  inferInstanceAs (Decidable (_ ∨ _))

/-- The general sequence divides what is at `loc1` by the constant, or it faults. -/
lemma idivValue_eq {c : Ctx} {m : Machine} {x : BitVec 32} {loc1 : Operand}
    (hx : m.read32 c loc1 = some x) (op : DivOp) {d : BitVec 32} (hd : d ≠ 0) :
    idivValue c m op loc1 d =
      if Overflows x d then none else some (BitVec.ofInt 32 (truncated op x.toInt d.toInt)) := by
  obtain ⟨m₁, hm₁, hother, hext⟩ := run_signExtend c (m.setReg .eax x)
  have heax : m₁.reg .eax = x := by
    rw [hother _ (by decide)]
    simp [Machine.setReg]
  have hn : (m₁.reg .edx ++ m₁.reg .eax : BitVec 64).toInt = x.toInt := by
    rw [heax]
    simpa [Machine.setReg] using hext
  have hmov : run c m (.mov (.reg .eax) loc1 :: signExtend) = some m₁ := by
    rw [run_cons, exec, hx]
    exact hm₁
  have hdiv : run c m (idivCode loc1 d) = execIdiv (m₁.setReg .ebp d) d := by
    rw [idivCode, run_append, hmov]
    simp [exec, Operand.isMem, Machine.read32, Machine.write32, Machine.setReg]
  have hkept : ∀ r, r ≠ .ebp → (m₁.setReg .ebp d).reg r = m₁.reg r := fun r hr =>
    Function.update_of_ne hr _ _
  rw [idivValue, hdiv, execIdiv, if_neg hd, hkept _ (by decide), hkept _ (by decide), hn]
  by_cases hov : Overflows x d
  · have hov' : x.toInt.tdiv d.toInt < -2147483648 ∨ 2147483647 < x.toInt.tdiv d.toInt := hov
    rw [if_pos hov', if_pos hov, Option.bind_none]
  · have hov' : ¬ (x.toInt.tdiv d.toInt < -2147483648 ∨ 2147483647 < x.toInt.tdiv d.toInt) := hov
    rw [if_neg hov', if_neg hov, Option.bind_some]
    cases op <;> simp [truncated, idivResult, Machine.read32, Machine.setReg]

/-! ## When the two agree -/

lemma ediv_eq_tdiv_iff {a p : ℤ} (hp : 0 < p) : a / p = a.tdiv p ↔ 0 ≤ a ∨ p ∣ a := by
  rw [Int.tdiv_eq_ediv, Int.sign_eq_one_of_pos hp]
  split_ifs with h <;> simp [h]

lemma emod_eq_tmod_iff {a p : ℤ} (hp : 0 < p) : a % p = a.tmod p ↔ 0 ≤ a ∨ p ∣ a := by
  rw [Int.tmod_eq_emod]
  split_ifs with h
  · simp [h]
  · simp only [h, iff_false]
    omega

lemma ofInt_inj_of_range {a b : ℤ} (ha : -2147483648 ≤ a ∧ a ≤ 2147483647)
    (hb : -2147483648 ≤ b ∧ b ≤ 2147483647) : BitVec.ofInt 32 a = BitVec.ofInt 32 b ↔ a = b := by
  refine ⟨fun h => ?_, fun h => by rw [h]⟩
  have hab := congrArg BitVec.toInt h
  rwa [BitVec.toInt_ofInt_eq_self (by decide) (by omega) (by omega),
    BitVec.toInt_ofInt_eq_self (by decide) (by omega) (by omega)] at hab

/-- The mask keeps the non-negative remainder. -/
lemma and_mask_eq (x : BitVec 32) {k : ℕ} (hk : k ≤ 30) :
    x &&& BitVec.ofInt 32 (2 ^ k - 1) = BitVec.ofInt 32 (x.toInt % 2 ^ k) := by
  have hpow : (2 : ℕ) ^ k < 2 ^ 32 := Nat.pow_lt_pow_right (by omega) (by omega)
  have hmask : (BitVec.ofInt 32 (2 ^ k - 1)).toNat = 2 ^ k - 1 := by
    rw [BitVec.toNat_ofInt]
    have hpos := Nat.two_pow_pos k
    rw [show ((2 : ℤ) ^ k - 1) = ((2 ^ k - 1 : ℕ) : ℤ) by push_cast [Nat.cast_sub hpos]; rfl]
    omega
  have hmod : x.toInt % 2 ^ k = ((x.toNat % 2 ^ k : ℕ) : ℤ) := by
    push_cast
    rw [BitVec.toInt_eq_toNat_cond]
    split_ifs
    · rfl
    · rw [show (((2 ^ 32 : ℕ) : ℤ)) = 2 ^ k * 2 ^ (32 - k) by
        rw [← pow_add, show k + (32 - k) = 32 by omega]; rfl, Int.sub_mul_emod_self_left]
  apply BitVec.eq_of_toNat_eq
  rw [BitVec.toNat_and, hmask, Nat.and_two_pow_sub_one_eq_mod, hmod, BitVec.ofInt_natCast,
    BitVec.toNat_ofNat]
  exact (Nat.mod_eq_of_lt (lt_trans (Nat.mod_lt _ (Nat.two_pow_pos k)) hpow)).symm

/-- The operands for which the two sequences leave the same value: `idiv` does not fault, the
dividend is not negative or else divisible, and `% 1` is taken of zero only. -/
def AgreesWhen (op : DivOp) (x d : BitVec 32) : Prop :=
  ¬ (x.toInt = -2147483648 ∧ d.toInt = -1) ∧ (0 ≤ x.toInt ∨ d.toInt ∣ x.toInt) ∧
    (op = .mod → d.toInt = 1 → x = 0)

section Exact

variable {x d : BitVec 32} {k : ℕ}

/-- With a divisor of absolute value `2 ^ k` only minus one can overflow. -/
lemma overflows_iff (hk : k ≤ 30) (hd : d.toInt.natAbs = 2 ^ k) :
    Overflows x d ↔ x.toInt = -2147483648 ∧ d.toInt = -1 := by
  have hlo := BitVec.le_toInt x
  have hhi := BitVec.toInt_lt (x := x)
  have hbound := Int.natAbs_tdiv_le_natAbs x.toInt d.toInt
  unfold Overflows
  constructor
  · intro hov
    by_cases hneg : d.toInt = -1
    · rw [hneg, Int.tdiv_neg, Int.tdiv_one] at hov
      omega
    · have hquot : (x.toInt.tdiv d.toInt).natAbs = x.toInt.natAbs / 2 ^ k := by
        rw [Int.natAbs_tdiv, hd]
        rfl
      cases k with
      | zero =>
          have hone : d.toInt = 1 := by omega
          rw [hone, Int.tdiv_one] at hov
          omega
      | succ k =>
          have hhalf : x.toInt.natAbs / 2 ^ (k + 1) ≤ x.toInt.natAbs / 2 :=
            Nat.div_le_div_left (Nat.le_self_pow (by omega) 2) (by omega)
          omega
  · rintro ⟨hx, hneg⟩
    rw [hx, hneg]
    exact Or.inr (by decide)

/-- What the special sequence leaves is the floored quotient or the non-negative remainder. -/
def floored (op : DivOp) (x : BitVec 32) (k : ℕ) (sign : Bool) : ℤ :=
  match op with
  | .div => if sign then -(x.toInt / 2 ^ k) else x.toInt / 2 ^ k
  | .mod => if k = 0 ∧ sign = false then x.toInt else x.toInt % 2 ^ k

lemma specialValue_eq {c : Ctx} {m : Machine} {loc0 : Operand} (hloc : IsPlace loc0)
    (hx : m.read32 c loc0 = some x) (op : DivOp) (hk : k ≤ 30) (sign : Bool) :
    specialValue c m op k sign loc0 = some (BitVec.ofInt 32 (floored op x k sign)) := by
  cases op with
  | div =>
      have hsar : x.sshiftRight k = BitVec.ofInt 32 (x.toInt / 2 ^ k) := by
        rw [BitVec.sshiftRight, Int.shiftRight_eq_div_pow]
        norm_cast
      rw [specialValue_div hloc hx, hsar, floored]
      cases sign <;> simp [BitVec.ofInt_neg]
  | mod =>
      rw [specialValue_mod hloc hx, and_mask_eq x hk, floored]
      split_ifs <;> simp

/-- The sign and the absolute value make up the divisor. -/
lemma toInt_divisor (hd : d.toInt.natAbs = 2 ^ k) :
    d.toInt = if divisorSign d then -(2 ^ k : ℤ) else 2 ^ k := by
  have habs : ((2 : ℤ) ^ k) = d.toInt.natAbs := by rw [hd]; push_cast; rfl
  simp only [divisorSign, BitVec.slt, decide_eq_true_eq, show (0 : BitVec 32).toInt = 0 from rfl]
  split_ifs <;> omega

lemma div_range (x : BitVec 32) (k : ℕ) :
    (-2147483648 ≤ x.toInt / 2 ^ k ∧ x.toInt / 2 ^ k ≤ 2147483647) ∧
      -2147483648 ≤ x.toInt.tdiv (2 ^ k) ∧ x.toInt.tdiv (2 ^ k) ≤ 2147483647 := by
  have hp : (0 : ℤ) ≤ 2 ^ k := by positivity
  have hlo := BitVec.le_toInt x
  have hhi := BitVec.toInt_lt (x := x)
  have hbound := Int.natAbs_tdiv_le_natAbs x.toInt (2 ^ k)
  constructor
  · -- The floored quotient is itself the value of a word.
    have hsar : (x.sshiftRight k).toInt = x.toInt / 2 ^ k := by
      rw [BitVec.toInt_sshiftRight, Int.shiftRight_eq_div_pow]
      norm_cast
    have hlo' := BitVec.le_toInt (x.sshiftRight k)
    have hhi' := BitVec.toInt_lt (x := x.sshiftRight k)
    omega
  · rcases le_total 0 x.toInt with hx | hx
    · have := Int.tdiv_nonneg hx hp
      omega
    · have := Int.tdiv_nonneg (Int.neg_nonneg_of_nonpos hx) hp
      rw [Int.neg_tdiv] at this
      omega

lemma mod_range (x : BitVec 32) (hk : k ≤ 30) :
    (-2147483648 ≤ x.toInt % 2 ^ k ∧ x.toInt % 2 ^ k ≤ 2147483647) ∧
      -2147483648 ≤ x.toInt.tmod (2 ^ k) ∧ x.toInt.tmod (2 ^ k) ≤ 2147483647 := by
  have hp : (0 : ℤ) < 2 ^ k := by positivity
  have hle : (2 : ℤ) ^ k ≤ 2 ^ 30 := pow_le_pow_right₀ (by norm_num) hk
  have hnonneg := Int.emod_nonneg x.toInt hp.ne'
  have hlt := Int.emod_lt_of_pos x.toInt hp
  have habs : (x.toInt.tmod (2 ^ k)).natAbs < 2 ^ k := by
    rw [Int.natAbs_tmod]
    exact Nat.mod_lt _ (Nat.two_pow_pos k)
  have hle' : (2 : ℕ) ^ k ≤ 2 ^ 30 := Nat.pow_le_pow_right (by norm_num) hk
  constructor <;> constructor <;> omega

/-- The two quotients are the same for a dividend that is not negative or is divisible. -/
lemma floored_div_iff (hd : d.toInt.natAbs = 2 ^ k) :
    BitVec.ofInt 32 (floored .div x k (divisorSign d)) =
        BitVec.ofInt 32 (x.toInt.tdiv d.toInt) ↔ 0 ≤ x.toInt ∨ d.toInt ∣ x.toInt := by
  have hp : (0 : ℤ) < 2 ^ k := by positivity
  obtain ⟨hquot, htrunc⟩ := div_range x k
  have hcore : BitVec.ofInt 32 (x.toInt / 2 ^ k) = BitVec.ofInt 32 (x.toInt.tdiv (2 ^ k)) ↔
      0 ≤ x.toInt ∨ 2 ^ k ∣ x.toInt := by
    rw [ofInt_inj_of_range hquot htrunc, ediv_eq_tdiv_iff hp]
  rw [toInt_divisor hd, floored]
  cases divisorSign d with
  | false => exact hcore
  | true =>
      simp only [if_true, Int.tdiv_neg, BitVec.ofInt_neg, neg_dvd]
      rw [neg_inj, hcore]

/-- So are the two remainders, but for the divisor `1`, where the dividend itself is left. -/
lemma floored_mod_iff (hk : k ≤ 30) (hd : d.toInt.natAbs = 2 ^ k) :
    BitVec.ofInt 32 (floored .mod x k (divisorSign d)) =
        BitVec.ofInt 32 (x.toInt.tmod d.toInt) ↔
      (0 ≤ x.toInt ∨ d.toInt ∣ x.toInt) ∧ (d.toInt = 1 → x = 0) := by
  have hp : (0 : ℤ) < 2 ^ k := by positivity
  have hdiv := toInt_divisor hd
  obtain ⟨hmod, htrunc⟩ := mod_range x hk
  have hdvd : d.toInt ∣ x.toInt ↔ 2 ^ k ∣ x.toInt := by
    rw [hdiv]
    split_ifs
    · exact neg_dvd
    · exact Iff.rfl
  have htmod : x.toInt.tmod d.toInt = x.toInt.tmod (2 ^ k) := by
    rw [hdiv]
    split_ifs
    · exact Int.tmod_neg _ _
    · rfl
  rw [htmod, hdvd, floored]
  by_cases hone : k = 0 ∧ divisorSign d = false
  · obtain ⟨rfl, hsign⟩ := hone
    have hd1 : d.toInt = 1 := by simpa [hsign] using hdiv
    simp only [hsign, and_self, if_true, pow_zero, Int.tmod_one, hd1, forall_const, one_dvd,
      or_true, true_and, BitVec.ofInt_toInt]
    exact Iff.rfl
  · have hd1 : d.toInt ≠ 1 := by
      intro h
      rw [h] at hd hdiv
      have hk0 : k = 0 := by
        by_contra hne
        have : 2 ∣ 2 ^ k := dvd_pow_self 2 hne
        omega
      subst hk0
      refine hone ⟨rfl, ?_⟩
      by_contra hsign
      rw [if_pos (by simpa using hsign)] at hdiv
      omega
    simp only [if_neg hone, hd1, false_implies, and_true]
    rw [ofInt_inj_of_range hmod htrunc, emod_eq_tmod_iff hp]

end Exact

/-- Division by a constant power of two.  The detection loop ends for every divisor and finds the
logarithm exactly of the powers of two and their negatives; for those the special sequence
leaves the value of the general one for the operands `AgreesWhen` describes, and for no other. -/
theorem constant_division_exact (c : Ctx) (d : BitVec 32) :
    ∃ lg : ℤ, (∃ n, ∀ fuel, n ≤ fuel → divisorLog fuel d = some lg) ∧
      (lg ≠ -1 ↔ ∃ k : ℕ, k ≤ 30 ∧ d.toInt.natAbs = 2 ^ k) ∧
      (lg ≠ -1 → ∀ (op : DivOp) (x : BitVec 32) (m m' : Machine) (loc0 loc1 : Operand),
        IsPlace loc0 → m.read32 c loc0 = some x → m'.read32 c loc1 = some x →
        ((∃ v, specialValue c m op lg (divisorSign d) loc0 = some v ∧
            idivValue c m' op loc1 d = some v) ↔ AgreesWhen op x d)) := by
  obtain ⟨lg, hlg, hsome, hall⟩ := divisorLog_spec d
  refine ⟨lg, ⟨33, hlg⟩, ⟨fun h => ?_, ?_⟩, ?_⟩
  · obtain ⟨k, -, hk, hpow⟩ := hsome h
    exact ⟨k, hk, hpow⟩
  · rintro ⟨k, hk, hpow⟩
    rw [hall k hk hpow]
    omega
  · intro h op x m m' loc0 loc1 hloc hx hx'
    obtain ⟨k, rfl, hk, hpow⟩ := hsome h
    have hd : d ≠ 0 := by
      rintro rfl
      exact absurd hpow.symm (Nat.two_pow_pos k).ne'
    rw [specialValue_eq hloc hx op hk, idivValue_eq hx' op hd, AgreesWhen, ← overflows_iff hk hpow]
    -- `idiv` traps, or both sequences leave a value
    by_cases hov : Overflows x d
    · simp [hov]
    · have hvalues : ∀ a b : BitVec 32, (∃ v, some a = some v ∧ some b = some v) ↔ a = b := by
        intro a b
        constructor
        · rintro ⟨v, ha, hb⟩
          exact Option.some.inj (ha.trans hb.symm)
        · rintro rfl
          exact ⟨a, rfl, rfl⟩
      rw [if_neg hov, hvalues]
      cases op with
      | div =>
          rw [truncated, floored_div_iff hpow]
          simp [hov]
      | mod =>
          rw [truncated, floored_mod_iff hk hpow]
          simp [hov]

/-- Every register holds `x`, in a frame without slots. -/
def allRegs (x : BitVec 32) : Machine where
  reg := fun _ => x
  esp := 0
  mem := fun _ => 0
  sf := false
  top := st0
  phys := fun _ => none

/-- No frame, and doubles that are never operated on. -/
def emptyCtx : Ctx where
  frame := 0
  arith := fun _ a _ => a

/-- `-16 / 8` is one of the divisions on which the sequences agree. -/
theorem constant_division_exact_eight :
    ∃ lg : ℤ, (∃ n, ∀ fuel, n ≤ fuel → divisorLog fuel 8#32 = some lg) ∧
      ∃ v,
        specialValue emptyCtx (allRegs (-16#32)) .div lg (divisorSign 8#32) (.reg .ecx) = some v ∧
        idivValue emptyCtx (allRegs (-16#32)) .div (.reg .ecx) 8#32 = some v := by
  obtain ⟨lg, hlg, hpow, hagree⟩ := constant_division_exact emptyCtx 8#32
  have hne : lg ≠ -1 := hpow.mpr ⟨3, by decide, by decide⟩
  refine ⟨lg, hlg, (hagree hne .div (-16#32) _ _ (.reg .ecx) (.reg .ecx) (.reg _) rfl rfl).mpr ?_⟩
  exact ⟨by decide, Or.inr (by decide), fun h => absurd h (by decide)⟩

/-- `-1 / 2`: the shift leaves `-1` and `idiv` leaves `0`.  `5 % 1`: the copy leaves `5` and `idiv`
leaves `0`. -/
theorem constant_division_diverges :
    divisorLog 33 2#32 = some 1 ∧
      specialValue emptyCtx (allRegs (-1#32)) .div 1 (divisorSign 2#32) (.reg .ecx) = some (-1#32) ∧
      idivValue emptyCtx (allRegs (-1#32)) .div (.reg .ecx) 2#32 = some 0#32 ∧
      divisorLog 33 1#32 = some 0 ∧
      specialValue emptyCtx (allRegs 5#32) .mod 0 (divisorSign 1#32) (.reg .ecx) = some 5#32 ∧
      idivValue emptyCtx (allRegs 5#32) .mod (.reg .ecx) 1#32 = some 0#32 := by
  decide

end Javalette.I386
