import Kroc.Extlib.UInt64
import Kroc.Lib.Truncate

/-!
# Extlib/Int32 — arithmetic of one word

`exti16.c`, `exti32.c` and `extui32.c`.  An `INT16` is held in a word with its sign extended, and
its operations differ from those of an `INT32` in the sign bit they look at, but for the product.
-/

namespace Kroc

namespace Extlib

/-- `SignBit16` -/
def signBit16 : Bit32 := 0x00008000

/-- `NegBits16` -/
def negBits16 : Bit32 := 0xFFFF8000

/-- `MOSTNEG_INT16` -/
def mostnegInt16 : Bit32 := 0xFFFF8000

/-! ## The operations -/

/-- A sum, whose sign is to be that of operands of one sign. -/
def addSigned (sign a b : Bit32) : Option Bit32 :=
  let result := a + b
  if (a ^^^ b) &&& sign = 0 ∧ (a ^^^ result) &&& sign ≠ 0 then none else some result

/-- A difference, whose sign is to be that of its first operand if the signs differ. -/
def subSigned (sign a b : Bit32) : Option Bit32 :=
  let result := a - b
  if (a ^^^ b) &&& sign ≠ 0 ∧ (a ^^^ result) &&& sign ≠ 0 then none else some result

/-- A quotient, where `least` is the least number. -/
def divSigned (least a b : Bit32) : Option Bit32 :=
  if b = 0 then none else if a = least ∧ b = -1 then none else some (a.sdiv b)

/-- A remainder. -/
def remSigned (a b : Bit32) : Option Bit32 :=
  if b = 0 then none else if b = 1 ∨ b = -1 then some 0 else some (a.srem b)

/-- `Int16Add` -/
def int16Add (a b : Bit32) : Option Bit32 := addSigned signBit16 a b

/-- `Int16Sub` -/
def int16Sub (a b : Bit32) : Option Bit32 := subSigned signBit16 a b

/-- `Int16Mul` -/
def int16Mul (a b : Bit32) : Option Bit32 :=
  let result := a * b
  if result &&& negBits16 ≠ 0 ∧ result &&& negBits16 ≠ negBits16 then none else some result

/-- `Int16Div` -/
def int16Div (a b : Bit32) : Option Bit32 := divSigned mostnegInt16 a b

/-- `Int16Rem` -/
def int16Rem (a b : Bit32) : Option Bit32 := remSigned a b

/-- `Int32Add` -/
def int32Add (a b : Bit32) : Option Bit32 := addSigned signBit32 a b

/-- `Int32Sub` -/
def int32Sub (a b : Bit32) : Option Bit32 := subSigned signBit32 a b

/-- `Int32Mul` -/
def int32Mul (a b : Bit32) : Option Bit32 :=
  let negative := decide ((a ^^^ b) &&& signBit32 ≠ 0)
  let a := if a &&& signBit32 ≠ 0 then ~~~a + 1 else a
  let b := if b &&& signBit32 ≠ 0 then ~~~b + 1 else b
  let p := longprod a b 0
  if p.1 = 0 then
    if p.2 &&& signBit32 = 0 then some (if negative then ~~~p.2 + 1 else p.2)
    else if negative ∧ p.2 = mostnegInt32 then some p.2 else none
  else none

/-- `Int32Div` -/
def int32Div (a b : Bit32) : Option Bit32 := divSigned mostnegInt32 a b

/-- `Int32Rem` -/
def int32Rem (a b : Bit32) : Option Bit32 := remSigned a b

/-- `UInt32Add` -/
def uint32Add (a b : Bit32) : Option Bit32 :=
  if a > maxUnsignedInt32 - b then none else some (a + b)

/-- `UInt32Sub` -/
def uint32Sub (a b : Bit32) : Option Bit32 := if a < b then none else some (a - b)

/-- `UInt32Mul` -/
def uint32Mul (a b : Bit32) : Option Bit32 :=
  if b ≠ 0 ∧ a > maxUnsignedInt32 / b then none else some (a * b)

/-- `UInt32Div` -/
def uint32Div (a b : Bit32) : Option Bit32 := if b = 0 then none else some (a / b)

/-- `UInt32Rem` -/
def uint32Rem (a b : Bit32) : Option Bit32 := if b = 0 then none else some (a % b)

/-! ## Signed words -/

theorem toInt_cases (x : Bit32) : (x.toNat < 2 ^ 31 ∧ x.toInt = x.toNat) ∨
    (2 ^ 31 ≤ x.toNat ∧ x.toInt = x.toNat - 2 ^ 32) := by
  have := x.isLt
  have := BitVec.toInt_eq_toNat_cond x
  omega

theorem toInt_fits (x : Bit32) : SignedFits 32 x.toInt := by
  have := x.isLt
  have := toInt_cases x
  norm_num [SignedFits]
  omega

theorem toInt_add_modEq (x y : Bit32) : (x + y).toInt ≡ x.toInt + y.toInt [ZMOD 2 ^ 32] := by
  rw [BitVec.toInt_add]
  exact Int.bmod_emod.trans rfl

theorem toInt_sub_modEq (x y : Bit32) : (x - y).toInt ≡ x.toInt - y.toInt [ZMOD 2 ^ 32] := by
  rw [BitVec.toInt_sub]
  exact Int.bmod_emod.trans rfl

theorem toInt_mul_modEq (x y : Bit32) : (x * y).toInt ≡ x.toInt * y.toInt [ZMOD 2 ^ 32] := by
  rw [BitVec.toInt_mul]
  exact Int.bmod_emod.trans rfl

theorem toInt_eq_of_modEq {x : Bit32} {n : ℤ} (h : x.toInt ≡ n [ZMOD 2 ^ 32])
    (hn : SignedFits 32 n) :
    x.toInt = n := by
  have hx := toInt_fits x
  norm_num [SignedFits] at hx hn
  unfold Int.ModEq at h
  omega

theorem and_twoPow_eq_zero (x : Bit32) {i : ℕ} (hi : i < 32) :
    x &&& BitVec.twoPow 32 i = 0 ↔ x.toNat / 2 ^ i % 2 ≠ 1 := by
  have hbit : x.getLsbD i = decide (x.toNat / 2 ^ i % 2 = 1) := by
    rw [← BitVec.testBit_toNat, Nat.testBit_eq_decide_div_mod_eq]
  have hne : BitVec.twoPow 32 i ≠ (0 : Bit32) := fun h => by
    have hpow := congrArg (fun v : Bit32 => v.getLsbD i) h
    simp [hi] at hpow
  rw [BitVec.and_twoPow, hbit]
  by_cases h : x.toNat / 2 ^ i % 2 = 1
  · rw [if_pos (decide_eq_true h)]
    exact iff_of_false hne (not_not.mpr h)
  · rw [if_neg (by simpa using h)]
    exact iff_of_true rfl h

/-- The bit `i` of two words. -/
theorem xor_and_twoPow (x y : Bit32) {i : ℕ} (hi : i < 32) :
    (x ^^^ y) &&& BitVec.twoPow 32 i = 0 ↔ x.toNat / 2 ^ i % 2 = y.toNat / 2 ^ i % 2 := by
  have hxor : (x ^^^ y).toNat / 2 ^ i % 2 = (x.toNat / 2 ^ i % 2 + y.toNat / 2 ^ i % 2) % 2 := by
    rw [BitVec.toNat_xor, Nat.xor_div_two_pow, Nat.xor_mod_two_eq, Nat.add_mod]
  rw [and_twoPow_eq_zero _ hi, hxor]
  omega

/-- **Sums** of operands of 16 or 32 bits. -/
theorem addSigned_exact {n : ℕ} (hn : n = 16 ∨ n = 32) {a b : Bit32} (ha : SignedFits n a.toInt)
    (hb : SignedFits n b.toInt) : ExactOrFlagged BitVec.toInt (SignedFits n)
      (some (a.toInt + b.toInt)) (addSigned (BitVec.twoPow 32 (n - 1)) a b) := by
  have hmod := toInt_add_modEq a b
  have ha' := toInt_cases a
  have hb' := toInt_cases b
  have hr' := toInt_cases (a + b)
  have hal := a.isLt
  have hbl := b.isLt
  have hrl := (a + b).isLt
  unfold addSigned
  dsimp only
  generalize a + b = r at *
  unfold Int.ModEq at hmod
  simp only [ne_eq, xor_and_twoPow _ _ (show n - 1 < 32 by omega)]
  obtain rfl | rfl := hn
  · norm_num [SignedFits] at ha hb
    refine ExactOrFlagged.of_ite ?_ fun hx => ?_
    · norm_num [SignedFits]
      omega
    · norm_num [SignedFits] at hx
      omega
  · refine ExactOrFlagged.of_ite ?_ fun hx => ?_
    · norm_num [SignedFits]
      omega
    · norm_num [SignedFits] at hx
      omega

/-- **Differences** of operands of 16 or 32 bits. -/
theorem subSigned_exact {n : ℕ} (hn : n = 16 ∨ n = 32) {a b : Bit32} (ha : SignedFits n a.toInt)
    (hb : SignedFits n b.toInt) : ExactOrFlagged BitVec.toInt (SignedFits n)
      (some (a.toInt - b.toInt)) (subSigned (BitVec.twoPow 32 (n - 1)) a b) := by
  have hmod := toInt_sub_modEq a b
  have ha' := toInt_cases a
  have hb' := toInt_cases b
  have hr' := toInt_cases (a - b)
  have hal := a.isLt
  have hbl := b.isLt
  have hrl := (a - b).isLt
  unfold subSigned
  dsimp only
  generalize a - b = r at *
  unfold Int.ModEq at hmod
  simp only [ne_eq, xor_and_twoPow _ _ (show n - 1 < 32 by omega)]
  obtain rfl | rfl := hn
  · norm_num [SignedFits] at ha hb
    refine ExactOrFlagged.of_ite ?_ fun hx => ?_
    · norm_num [SignedFits]
      omega
    · norm_num [SignedFits] at hx
      omega
  · refine ExactOrFlagged.of_ite ?_ fun hx => ?_
    · norm_num [SignedFits]
      omega
    · norm_num [SignedFits] at hx
      omega

theorem toInt_eq_iff (x y : Bit32) : x = y ↔ x.toInt = y.toInt := BitVec.toInt_inj.symm

/-- **Quotients** of operands of `n` bits. -/
theorem divSigned_exact {n : ℕ} {least a b : Bit32} (hleast : least.toInt = -2 ^ (n - 1))
    (ha : SignedFits n a.toInt) : ExactOrFlagged BitVec.toInt (SignedFits n)
      (if b.toInt = 0 then none else some (a.toInt.tdiv b.toInt)) (divSigned least a b) := by
  have hzero : b = 0 ↔ b.toInt = 0 := toInt_eq_iff b 0
  have hone : b = -1 ↔ b.toInt = -1 := toInt_eq_iff b (-1)
  have hmost : a = least ↔ a.toInt = -2 ^ (n - 1) := by rw [toInt_eq_iff, hleast]
  have hpow : ((2 ^ (n - 1) : ℕ) : ℤ) = 2 ^ (n - 1) := by push_cast; rfl
  unfold divSigned
  by_cases hb : b.toInt = 0
  · rw [if_pos (hzero.mpr hb), if_pos hb]
    exact ExactOrFlagged.of_undefined
  rw [if_neg (mt hzero.mp hb), if_neg hb]
  by_cases hover : a = least ∧ b = -1
  · rw [if_pos hover, hmost.mp hover.1, hone.mp hover.2, Int.tdiv_neg, Int.tdiv_one, neg_neg]
    exact ExactOrFlagged.of_none fun h => absurd h.2 (lt_irrefl _)
  · rw [if_neg hover]
    have hover' : ¬ (a.toInt = -((2 ^ (n - 1) : ℕ) : ℤ) ∧ b.toInt = -1) := fun h =>
      hover ⟨hmost.mpr (hpow ▸ h.1), hone.mpr h.2⟩
    have hfits : SignedFits n (a.toInt.tdiv b.toInt) := by
      have h := tdiv_bounds (by rw [hpow]; exact ha.1) (by rw [hpow]; exact ha.2) hover'
      rwa [hpow] at h
    have hval : (a.sdiv b).toInt = a.toInt.tdiv b.toInt := by
      refine BitVec.toInt_sdiv_of_ne_or_ne a b
        (or_iff_not_imp_left.mpr fun hmin hb => hover ⟨?_, hb⟩)
      have hint : a.toInt = -2 ^ 31 := by rw [not_not.mp hmin]; decide
      have hlow := (toInt_fits least).1
      have ha1 := ha.1
      rw [hint] at ha1 hmost
      rw [hleast] at hlow
      exact hmost.mpr (le_antisymm hlow ha1)
    exact ExactOrFlagged.of_some hfits hval

/-- **Remainders** of operands of `n` bits. -/
theorem remSigned_exact {n : ℕ} {a b : Bit32} (hb : SignedFits n b.toInt) :
    ExactOrFlagged BitVec.toInt (SignedFits n)
      (if b.toInt = 0 then none else some (a.toInt.tmod b.toInt)) (remSigned a b) := by
  have hzero : b = 0 ↔ b.toInt = 0 := toInt_eq_iff b 0
  have hone : b = 1 ↔ b.toInt = 1 := toInt_eq_iff b 1
  have hneg : b = -1 ↔ b.toInt = -1 := toInt_eq_iff b (-1)
  unfold remSigned
  by_cases hb0 : b.toInt = 0
  · rw [if_pos (hzero.mpr hb0), if_pos hb0]
    exact ExactOrFlagged.of_undefined
  rw [if_neg (mt hzero.mp hb0), if_neg hb0]
  have hfits : SignedFits n (a.toInt.tmod b.toInt) := by
    have hlt := abs_lt.mp (Truncates.of_ne_zero (x := a.toInt) hb0).lt
    have hle : |b.toInt| ≤ 2 ^ (n - 1) := abs_le.mpr ⟨hb.1, hb.2.le⟩
    exact ⟨by omega, by omega⟩
  by_cases hunit : b = 1 ∨ b = -1
  · rw [if_pos hunit]
    have hmod : a.toInt.tmod b.toInt = 0 := by
      obtain h | h := hunit
      · rw [hone.mp h, Int.tmod_one]
      · rw [hneg.mp h, Int.tmod_neg, Int.tmod_one]
    exact ExactOrFlagged.of_some hfits (hmod ▸ rfl)
  · rw [if_neg hunit]
    exact ExactOrFlagged.of_some hfits (BitVec.toInt_srem a b)

/-- The bits of a word from `i` on. -/
theorem toNat_and_high (x : Bit32) (i : ℕ) :
    (x &&& (BitVec.allOnes 32 <<< i)).toNat = x.toNat / 2 ^ i * 2 ^ i := by
  have hmask : x &&& (BitVec.allOnes 32 <<< i) = (x >>> i) <<< i := by
    refine BitVec.eq_of_getLsbD_eq fun j hj => ?_
    rw [BitVec.getLsbD_and, BitVec.getLsbD_shiftLeft, BitVec.getLsbD_shiftLeft,
      BitVec.getLsbD_ushiftRight, BitVec.getLsbD_allOnes]
    by_cases hji : j < i
    · simp [hji]
    · have hlt : j - i < 32 := by omega
      have hadd : i + (j - i) = j := by omega
      simp [hji, hlt, hadd, Bool.and_comm]
  rw [hmask, BitVec.toNat_shiftLeft, BitVec.toNat_ushiftRight, Nat.shiftLeft_eq,
    Nat.shiftRight_eq_div_pow]
  exact Nat.mod_eq_of_lt ((Nat.div_mul_le_self _ _).trans_lt x.isLt)

theorem and_high_eq_zero_iff (x : Bit32) (i : ℕ) :
    x &&& (BitVec.allOnes 32 <<< i) = 0 ↔ x.toNat < 2 ^ i := by
  rw [eq_iff_toNat, toNat_and_high, toNat_zero, Nat.mul_eq_zero, Nat.div_eq_zero_iff]
  have : 2 ^ i ≠ 0 := by positivity
  omega

theorem negBits16_eq : negBits16 = BitVec.allOnes 32 <<< 15 := by decide

theorem and_negBits16_eq_iff (x : Bit32) : x &&& negBits16 = negBits16 ↔
    2 ^ 32 - 2 ^ 15 ≤ x.toNat := by
  have hmask : negBits16.toNat = 2 ^ 32 - 2 ^ 15 := by decide
  have := x.isLt
  rw [eq_iff_toNat, hmask, negBits16_eq, toNat_and_high]
  omega

/-- The words that hold a number of 16 bits. -/
theorem fits16_iff (x : Bit32) :
    SignedFits 16 x.toInt ↔ x &&& negBits16 = 0 ∨ x &&& negBits16 = negBits16 := by
  have := toInt_cases x
  have := x.isLt
  rw [and_negBits16_eq_iff, negBits16_eq, and_high_eq_zero_iff]
  norm_num [SignedFits]
  omega

/-- **Products** of operands of 16 bits. -/
theorem int16Mul_exact {a b : Bit32} (ha : SignedFits 16 a.toInt) (hb : SignedFits 16 b.toInt) :
    ExactOrFlagged BitVec.toInt (SignedFits 16) (some (a.toInt * b.toInt)) (int16Mul a b) := by
  have hle : |a.toInt * b.toInt| ≤ 2 ^ 15 * 2 ^ 15 := by
    rw [abs_mul]
    exact mul_le_mul (abs_le.mpr ⟨ha.1, ha.2.le⟩) (abs_le.mpr ⟨hb.1, hb.2.le⟩) (abs_nonneg _)
      (by positivity)
  have hval : (a * b).toInt = a.toInt * b.toInt := by
    refine toInt_eq_of_modEq (toInt_mul_modEq a b) ?_
    have := abs_le.mp hle
    norm_num [SignedFits]
    omega
  unfold int16Mul
  dsimp only
  refine ExactOrFlagged.of_ite ?_ fun _ => hval
  rw [← hval, fits16_iff, not_or]

theorem not_add_one (x : Bit32) : ~~~x + 1 = -x := (BitVec.neg_eq_not_add x).symm

/-- The magnitude of a word. -/
theorem toNat_magnitude (a : Bit32) :
    (if a &&& signBit32 ≠ 0 then ~~~a + 1 else a).toNat = a.toInt.natAbs := by
  have hcases := toInt_cases a
  have hlt := a.isLt
  by_cases h : a &&& signBit32 = 0
  · rw [if_neg (not_not.mpr h)]
    rw [and_signBit32] at h
    omega
  · rw [if_pos h, not_add_one, BitVec.toNat_neg]
    rw [and_signBit32] at h
    omega

theorem xor_signBit32_iff (a b : Bit32) :
    (a ^^^ b) &&& signBit32 ≠ 0 ↔ ¬ (a.toInt < 0 ↔ b.toInt < 0) := by
  have := toInt_cases a
  have := toInt_cases b
  have := a.isLt
  have := b.isLt
  rw [Ne, xor_sign_iff]
  omega

theorem fits32_iff (x : ℤ) : SignedFits 32 x ↔ -2 ^ 31 ≤ x ∧ x < 2 ^ 31 := Iff.rfl

/-- A product of two magnitudes. -/
theorem product_pos (p : Words) : ExactOrFlagged BitVec.toInt (SignedFits 32) (some (dword p : ℤ))
    (if p.1 = 0 then if p.2 &&& signBit32 = 0 then some p.2 else none else none) := by
  have hlo := p.2.isLt
  have hcases := toInt_cases p.2
  rw [← ite_and]
  by_cases h : p.1 = 0 ∧ p.2 &&& signBit32 = 0
  · rw [if_pos h]
    rw [and_signBit32, eq_iff_toNat, toNat_zero] at h
    refine ExactOrFlagged.of_some ?_ ?_
    · rw [fits32_iff]
      unfold dword
      omega
    · unfold dword
      omega
  · rw [if_neg h]
    rw [and_signBit32, eq_iff_toNat, toNat_zero] at h
    refine ExactOrFlagged.of_none ?_
    rw [fits32_iff]
    unfold dword
    omega

/-- A product of two magnitudes whose sign is to be changed. -/
theorem product_neg (p : Words) : ExactOrFlagged BitVec.toInt (SignedFits 32)
    (some (-(dword p : ℤ)))
    (if p.1 = 0 then
      if p.2 &&& signBit32 = 0 then some (-p.2) else if p.2 = mostnegInt32 then some p.2 else none
    else none) := by
  have hlo := p.2.isLt
  have hcases := toInt_cases p.2
  have hneg := toInt_cases (-p.2)
  have hmost : p.2 = mostnegInt32 ↔ p.2.toNat = 2 ^ 31 := eq_iff_toNat
  rw [BitVec.toNat_neg] at hneg
  have hfits := fits32_iff (-(dword p : ℤ))
  have hp : (dword p : ℤ) = 2 ^ 32 * p.1.toNat + p.2.toNat := by
    unfold dword
    omega
  rw [hp] at hfits ⊢
  by_cases hhi : p.1 = 0
  · rw [if_pos hhi]
    rw [eq_iff_toNat, toNat_zero] at hhi
    by_cases hsign : p.2 &&& signBit32 = 0
    · rw [if_pos hsign]
      rw [and_signBit32] at hsign
      exact ExactOrFlagged.of_some (hfits.mpr (by omega)) (by omega)
    rw [if_neg hsign]
    rw [and_signBit32] at hsign
    by_cases hleast : p.2 = mostnegInt32
    · rw [if_pos hleast]
      rw [hmost] at hleast
      exact ExactOrFlagged.of_some (hfits.mpr (by omega)) (by omega)
    · rw [if_neg hleast]
      rw [hmost] at hleast
      exact ExactOrFlagged.of_none (mt hfits.mp (by omega))
  · rw [if_neg hhi]
    rw [eq_iff_toNat, toNat_zero] at hhi
    exact ExactOrFlagged.of_none (mt hfits.mp (by omega))

/-- **Products** of operands of 32 bits. -/
theorem int32Mul_exact (a b : Bit32) :
    ExactOrFlagged BitVec.toInt (SignedFits 32) (some (a.toInt * b.toInt)) (int32Mul a b) := by
  have hp := longprod_zero (if a &&& signBit32 ≠ 0 then ~~~a + 1 else a)
    (if b &&& signBit32 ≠ 0 then ~~~b + 1 else b)
  rw [toNat_magnitude, toNat_magnitude] at hp
  have hmul := mul_eq_of_sign a.toInt b.toInt
  unfold int32Mul
  simp only [xor_signBit32_iff, decide_eq_true_eq, not_add_one]
  simp only [not_add_one] at hp
  generalize longprod _ _ 0 = p at *
  rw [← hp] at hmul
  rw [hmul]
  by_cases hq : a.toInt < 0 ↔ b.toInt < 0
  · simp only [hq, not_true, if_true, if_false, false_and]
    exact product_pos p
  · simp only [hq, not_false_iff, if_true, if_false, true_and]
    exact product_neg p

/-! ## Unsigned words -/

/-- The number of a word without a sign. -/
def unsignedWord (x : Bit32) : ℤ := x.toNat

theorem unsignedWord_fits (x : Bit32) : UnsignedFits 32 (unsignedWord x) := by
  have := x.isLt
  unfold UnsignedFits unsignedWord
  omega

theorem unsignedWord_zero_iff (x : Bit32) : x = 0 ↔ unsignedWord x = 0 := by
  rw [eq_iff_toNat, toNat_zero, unsignedWord, Nat.cast_eq_zero]

theorem uint32Add_exact (a b : Bit32) : ExactOrFlagged unsignedWord (UnsignedFits 32)
    (some (unsignedWord a + unsignedWord b)) (uint32Add a b) := by
  have := a.isLt
  have := b.isLt
  have hsub : (maxUnsignedInt32 - b).toNat = 2 ^ 32 - 1 - b.toNat := by
    rw [BitVec.toNat_sub, toNat_maxUnsignedInt32]
    omega
  refine ExactOrFlagged.of_ite ?_ fun hx => ?_
  · rw [gt_iff_lt, BitVec.lt_def, hsub]
    unfold UnsignedFits unsignedWord
    omega
  · unfold UnsignedFits unsignedWord at *
    rw [BitVec.toNat_add]
    omega

theorem uint32Sub_exact (a b : Bit32) : ExactOrFlagged unsignedWord (UnsignedFits 32)
    (some (unsignedWord a - unsignedWord b)) (uint32Sub a b) := by
  have := a.isLt
  have := b.isLt
  refine ExactOrFlagged.of_ite ?_ fun hx => ?_
  · rw [BitVec.lt_def]
    unfold UnsignedFits unsignedWord
    omega
  · unfold UnsignedFits unsignedWord at *
    rw [BitVec.toNat_sub]
    omega

/-- **`UInt32Mul`** divides the greatest word to find out. -/
theorem uint32Mul_exact (a b : Bit32) : ExactOrFlagged unsignedWord (UnsignedFits 32)
    (some (unsignedWord a * unsignedWord b)) (uint32Mul a b) := by
  have hcast : unsignedWord a * unsignedWord b = (a.toNat * b.toNat : ℕ) := (Nat.cast_mul _ _).symm
  have hfits : UnsignedFits 32 (unsignedWord a * unsignedWord b) ↔ a.toNat * b.toNat < 2 ^ 32 := by
    rw [hcast, UnsignedFits]
    omega
  refine ExactOrFlagged.of_ite ?_ fun hx => ?_
  · rw [hfits, Ne, eq_iff_toNat, toNat_zero, gt_iff_lt, BitVec.lt_def, BitVec.toNat_udiv,
      toNat_maxUnsignedInt32]
    obtain hb | hb := Nat.eq_zero_or_pos b.toNat
    · rw [hb, mul_zero]
      exact iff_of_false (fun h => h.1 rfl) (not_not.mpr (by positivity))
    · rw [Nat.div_lt_iff_lt_mul hb]
      omega
  · rw [hfits] at hx
    rw [unsignedWord, BitVec.toNat_mul, Nat.mod_eq_of_lt hx, hcast]

theorem uint32Div_exact (a b : Bit32) : ExactOrFlagged unsignedWord (UnsignedFits 32)
    (if unsignedWord b = 0 then none else some ((unsignedWord a).tdiv (unsignedWord b)))
    (uint32Div a b) := by
  unfold uint32Div
  simp only [unsignedWord_zero_iff]
  by_cases hb : unsignedWord b = 0
  · rw [if_pos hb, if_pos hb]
    exact ExactOrFlagged.of_undefined
  · rw [if_neg hb, if_neg hb]
    have hval : unsignedWord (a / b) = (unsignedWord a).tdiv (unsignedWord b) := by
      rw [unsignedWord, BitVec.toNat_udiv, unsignedWord, unsignedWord, Int.ofNat_tdiv]
    exact ExactOrFlagged.of_some (hval ▸ unsignedWord_fits _) hval

theorem uint32Rem_exact (a b : Bit32) : ExactOrFlagged unsignedWord (UnsignedFits 32)
    (if unsignedWord b = 0 then none else some ((unsignedWord a).tmod (unsignedWord b)))
    (uint32Rem a b) := by
  unfold uint32Rem
  simp only [unsignedWord_zero_iff]
  by_cases hb : unsignedWord b = 0
  · rw [if_pos hb, if_pos hb]
    exact ExactOrFlagged.of_undefined
  · rw [if_neg hb, if_neg hb]
    have hval : unsignedWord (a % b) = (unsignedWord a).tmod (unsignedWord b) := by
      rw [unsignedWord, BitVec.toNat_umod, unsignedWord, unsignedWord, Int.ofNat_tmod]
    exact ExactOrFlagged.of_some (hval ▸ unsignedWord_fits _) hval

/-! ## The types -/

/-- The arithmetic of a type. -/
structure Operations where
  add : Bit32 → Bit32 → Option Bit32
  sub : Bit32 → Bit32 → Option Bit32
  mul : Bit32 → Bit32 → Option Bit32
  div : Bit32 → Bit32 → Option Bit32
  rem : Bit32 → Bit32 → Option Bit32

/-- The arithmetic of `INT16`. -/
def int16 : Operations := ⟨int16Add, int16Sub, int16Mul, int16Div, int16Rem⟩

/-- The arithmetic of `INT32`. -/
def int32 : Operations := ⟨int32Add, int32Sub, int32Mul, int32Div, int32Rem⟩

/-- The arithmetic of `UINT32`. -/
def uint32 : Operations := ⟨uint32Add, uint32Sub, uint32Mul, uint32Div, uint32Rem⟩

namespace Operations

/-- Each operation is exact or flagged, for all operands in the range of the type. -/
structure Exact (ops : Operations) (value : Bit32 → ℤ) (Fits : ℤ → Prop) : Prop where
  add : ∀ a b, Fits (value a) → Fits (value b) →
    ExactOrFlagged value Fits (some (value a + value b)) (ops.add a b)
  sub : ∀ a b, Fits (value a) → Fits (value b) →
    ExactOrFlagged value Fits (some (value a - value b)) (ops.sub a b)
  mul : ∀ a b, Fits (value a) → Fits (value b) →
    ExactOrFlagged value Fits (some (value a * value b)) (ops.mul a b)
  div : ∀ a b, Fits (value a) → Fits (value b) → ExactOrFlagged value Fits
    (if value b = 0 then none else some ((value a).tdiv (value b))) (ops.div a b)
  rem : ∀ a b, Fits (value a) → Fits (value b) → ExactOrFlagged value Fits
    (if value b = 0 then none else some ((value a).tmod (value b))) (ops.rem a b)

/-- No result that is not flagged leaves the range of the type. -/
def Closed (ops : Operations) (value : Bit32 → ℤ) (Fits : ℤ → Prop) : Prop :=
  ∀ op ∈ [ops.add, ops.sub, ops.mul, ops.div, ops.rem], ∀ a b, Fits (value a) → Fits (value b) →
    ∀ r ∈ op a b, Fits (value r)

theorem Exact.closed {ops : Operations} {value : Bit32 → ℤ} {Fits : ℤ → Prop}
    (h : ops.Exact value Fits) : ops.Closed value Fits := by
  intro op hop a b ha hb r hr
  simp only [List.mem_cons, List.not_mem_nil, or_false] at hop
  obtain rfl | rfl | rfl | rfl | rfl := hop
  · exact (h.add a b ha hb).fits hr
  · exact (h.sub a b ha hb).fits hr
  · exact (h.mul a b ha hb).fits hr
  · exact (h.div a b ha hb).fits hr
  · exact (h.rem a b ha hb).fits hr

end Operations

theorem int16_exact : int16.Exact BitVec.toInt (SignedFits 16) where
  add _ _ ha hb := addSigned_exact (Or.inl rfl) ha hb
  sub _ _ ha hb := subSigned_exact (Or.inl rfl) ha hb
  mul _ _ ha hb := int16Mul_exact ha hb
  div _ _ ha _ := divSigned_exact (by decide) ha
  rem _ _ _ hb := remSigned_exact hb

theorem int32_exact : int32.Exact BitVec.toInt (SignedFits 32) where
  add _ _ ha hb := addSigned_exact (Or.inr rfl) ha hb
  sub _ _ ha hb := subSigned_exact (Or.inr rfl) ha hb
  mul a b _ _ := int32Mul_exact a b
  div _ _ ha _ := divSigned_exact (by decide) ha
  rem _ _ _ hb := remSigned_exact hb

theorem uint32_exact : uint32.Exact unsignedWord (UnsignedFits 32) where
  add a b _ _ := uint32Add_exact a b
  sub a b _ _ := uint32Sub_exact a b
  mul a b _ _ := uint32Mul_exact a b
  div a b _ _ := uint32Div_exact a b
  rem a b _ _ := uint32Rem_exact a b

/-- **The arithmetic of one word** is exact or flagged, and closed where it is not flagged. -/
theorem words_exact :
    (int16.Exact BitVec.toInt (SignedFits 16) ∧ int16.Closed BitVec.toInt (SignedFits 16)) ∧
    (int32.Exact BitVec.toInt (SignedFits 32) ∧ int32.Closed BitVec.toInt (SignedFits 32)) ∧
    (uint32.Exact unsignedWord (UnsignedFits 32) ∧ uint32.Closed unsignedWord (UnsignedFits 32)) :=
  ⟨⟨int16_exact, int16_exact.closed⟩, ⟨int32_exact, int32_exact.closed⟩,
    ⟨uint32_exact, uint32_exact.closed⟩⟩

end Extlib

end Kroc
