import Kroc.Lib.RoundEven
import Kroc.Tvm.Arith
import Mathlib.Data.Nat.Bitwise

/-!
# Tvm/Float — rounding a REAL32 in software

`ins_postnormsn` and `ins_roundsn` of `runtime/libtvm/ins_float.c`, for words of 32 bits.  They are
to leave the pattern of the REAL32 nearest to a significand of two words and an exponent, ties to
even.  **They do but for some denormals**: there the bits that are shifted out of the guard word are
lost, and a guard word whose top bit is set overwrites the mantissa.
-/

namespace Kroc

namespace Tvm

namespace Regs

open Ectx (Ret)

/-! ## The instructions -/

/-- `FP_INFINITY` -/
def fpInfinity : Word := 0x7F800000

/-- `ins_postnormsn`; `temp` is `Wptr[0]`. -/
def insPostnormsn (temp : Word) (r : Regs 32) : Ret × Regs 32 :=
  let guard := r.areg
  let exponent := temp - r.creg
  let mantissa := r.breg
  if exponent.toInt ≤ -32 then (.cont, { r with areg := 0, breg := 0, creg := 0 })
  else if exponent.toInt ≤ 0 then
    -- a signed word is extended by its sign
    let x : BitVec 64 := mantissa.signExtend 64
    let x := ((x <<< 32) ||| guard.signExtend 64) >>> (1 - exponent).toNat
    (.cont, { r with
      areg := (x &&& 0xFFFFFFFF#64).setWidth 32
      breg := (x >>> 32).setWidth 32
      creg := 0 })
  else (.cont, { r with areg := guard, breg := mantissa, creg := exponent })

/-- `ins_roundsn` -/
def insRoundsn (r : Regs 32) : Ret × Regs 32 :=
  if 0xFF ≤ r.creg.toInt then (.cont, { r with areg := fpInfinity })
  else
    let f := ((r.creg &&& 0xFF#32) <<< 23) ||| (r.breg.sshiftRight 8 &&& 0x7FFFFF#32)
    if r.breg &&& 0x80#32 = 0 then (.cont, { r with areg := f })
    else if r.areg ||| (r.breg &&& 0x7F#32) ||| (f &&& 1#32) = 0 then (.cont, { r with areg := f })
    else (.cont, { r with areg := f + 1 })

/-- One after the other. -/
def postnormRound (temp : Word) (r : Regs 32) : Word :=
  (insRoundsn (insPostnormsn temp r).2).2.areg

/-! ## What they are for -/

/-- The value of a REAL32 that is not negative, by its pattern; that of infinity is what it rounds
from. -/
def real32 (p : ℕ) : ℚ :=
  if p / 2 ^ 23 = 0 then (p % 2 ^ 23 : ℕ) * 2 ^ (-149 : ℤ)
  else (2 ^ 23 + p % 2 ^ 23 : ℕ) * 2 ^ ((p / 2 ^ 23 : ℕ) - 150 : ℤ)

/-- The significand, `BREG` and `AREG`. -/
def significand (r : Regs 32) : ℕ := r.breg.toNat * 2 ^ 32 + r.areg.toNat

/-- The biased exponent. -/
def exponent (temp : Word) (r : Regs 32) : ℤ := (temp - r.creg).toInt

/-- The value that is rounded. -/
def scaled (temp : Word) (r : Regs 32) : ℚ :=
  (r.significand : ℚ) / 2 ^ 63 * 2 ^ (r.exponent temp - 127)

/-- The pattern is that of the REAL32 nearest to the value, ties to even. -/
def RoundsToNearest (temp : Word) (r : Regs 32) : Prop :=
  IsNearestEven real32 fpInfinity.toNat (r.scaled temp) (postnormRound temp r).toNat

/-- **When it is**: the result is no denormal; or the guard word is not negative, and the
significand is not between a middle and the next number that a guard word of the result can tell
from it, above an even result; or the guard word is negative, and the significand rounds up to a
power of two. -/
def RoundsRight (temp : Word) (r : Regs 32) : Prop :=
  let e := r.exponent temp
  let k := 40 + (1 - e).toNat
  0 < e ∨ e ≤ -32 ∨
    if r.areg.msb then 2 ^ 64 ≤ r.significand + 2 ^ (k - 1)
    else ¬ (r.significand / 2 ^ k % 2 = 0 ∧ 2 ^ (k - 1) < r.significand % 2 ^ k ∧
      r.significand % 2 ^ k < 2 ^ (k - 1) + 2 ^ (k - 40))

/-! ## The values of the patterns -/

/-- **A pattern counts up from an even one**, in steps that are those of its exponent. -/
theorem real32_eq {e n : ℕ} (he : 1 ≤ e) (hn : n ≤ 2 ^ 24) (h : e = 1 ∨ 2 ^ 23 ≤ n) :
    real32 ((e - 1) * 2 ^ 23 + n) = (n : ℚ) * 2 ^ ((e : ℤ) - 150) := by
  obtain ⟨e, rfl⟩ := Nat.exists_eq_add_of_le' he
  rw [Nat.add_sub_cancel]
  unfold real32
  rcases Nat.lt_or_ge n (2 ^ 23) with hlt | hge
  · obtain rfl : e = 0 := by omega
    have hdiv : (0 * 2 ^ 23 + n) / 2 ^ 23 = 0 := by omega
    have hmod : (0 * 2 ^ 23 + n) % 2 ^ 23 = n := by omega
    rw [if_pos hdiv, hmod]
    norm_num
  · rcases hn.eq_or_lt with rfl | hlt
    · have hdiv : (e * 2 ^ 23 + 2 ^ 24) / 2 ^ 23 = e + 2 := by omega
      have hmod : (e * 2 ^ 23 + 2 ^ 24) % 2 ^ 23 = 0 := by omega
      rw [hdiv, hmod, if_neg (Nat.succ_ne_zero _)]
      push_cast
      rw [show (e : ℤ) + 2 - 150 = 1 + ((e : ℤ) + 1 - 150) by ring, zpow_add₀ (by norm_num)]
      norm_num
      ring
    · have hdiv : (e * 2 ^ 23 + n) / 2 ^ 23 = e + 1 := by omega
      have hmod : (e * 2 ^ 23 + n) % 2 ^ 23 = n - 2 ^ 23 := by omega
      rw [hdiv, hmod, if_neg (Nat.succ_ne_zero _), Nat.add_sub_cancel' hge]

/-- A pattern, from the even one below it. -/
theorem exists_pattern (p : ℕ) : ∃ e n, p = (e - 1) * 2 ^ 23 + n ∧ 1 ≤ e ∧ n < 2 ^ 24 ∧
    (e = 1 ∨ 2 ^ 23 ≤ n) := by
  rcases Nat.eq_zero_or_pos (p / 2 ^ 23) with hz | hpos
  · exact ⟨1, p, by omega, le_rfl, by omega, .inl rfl⟩
  · obtain ⟨e, he⟩ := Nat.exists_eq_add_of_le' hpos
    exact ⟨e + 1, 2 ^ 23 + p % 2 ^ 23, by omega, by omega, by omega, .inr (by omega)⟩

theorem real32_strictMono : StrictMono real32 := by
  refine strictMono_nat_of_lt_succ fun p => ?_
  obtain ⟨e, n, rfl, he, hn, h⟩ := exists_pattern p
  rw [Nat.add_assoc, real32_eq he hn.le h,
    real32_eq he hn (h.imp_right fun h => h.trans (by omega))]
  have hpow : (0 : ℚ) < 2 ^ ((e : ℤ) - 150) := by positivity
  exact mul_lt_mul_of_pos_right (by push_cast; linarith) hpow

theorem real32_infinity : real32 fpInfinity.toNat = 2 ^ (128 : ℤ) := by
  have h := real32_eq (e := 255) (n := 2 ^ 23) (by norm_num) (by norm_num) (.inr le_rfl)
  have hp : fpInfinity.toNat = (255 - 1) * 2 ^ 23 + 2 ^ 23 := by decide
  rw [hp, h]
  norm_num

/-! ## The nearest pattern -/

section Nearest

variable {r : Regs 32} {temp : Word}

theorem significand_lt (r : Regs 32) : r.significand < 2 ^ 64 := by
  have h₁ := r.breg.isLt
  have h₀ := r.areg.isLt
  unfold significand
  omega

theorem le_significand (htop : r.breg.msb = true) : 2 ^ 63 ≤ r.significand := by
  have h := BitVec.msb_eq_true_iff_two_mul_ge.mp htop
  unfold significand
  omega

/-- The value is a quotient of the significand in the steps of an exponent. -/
theorem scaled_eq (e k : ℕ) (he : r.exponent temp = e - k) :
    r.scaled temp = (r.significand : ℚ) / (2 ^ (40 + k) : ℕ) * 2 ^ ((e : ℤ) - 150) := by
  unfold scaled
  have hk : (2 : ℚ) ^ (r.exponent temp - 127) * 2 ^ (40 + k : ℕ) =
    2 ^ ((e : ℤ) - 150) * 2 ^ 63 := by
    rw [← zpow_natCast, ← zpow_natCast, ← zpow_add₀ (by norm_num), ← zpow_add₀ (by norm_num), he]
    congr 1
    push_cast
    ring
  push_cast
  field_simp
  rw [mul_assoc, hk]
  ring

/-- **From infinity on.** -/
theorem nearest_of_large (htop : r.breg.msb = true) (he : 255 ≤ r.exponent temp) :
    IsNearestEven real32 fpInfinity.toNat (r.scaled temp) fpInfinity.toNat := by
  refine IsNearestEven.of_top_le real32_strictMono ?_
  have hS : (2 : ℚ) ^ 63 ≤ r.significand := by exact_mod_cast le_significand htop
  have hone : (1 : ℚ) ≤ r.significand / 2 ^ 63 := (one_le_div (by positivity)).mpr hS
  rw [real32_infinity, scaled]
  calc (2 : ℚ) ^ (128 : ℤ) ≤ 2 ^ (r.exponent temp - 127) :=
        zpow_le_zpow_right₀ (by norm_num) (by omega)
    _ ≤ r.significand / 2 ^ 63 * 2 ^ (r.exponent temp - 127) :=
        le_mul_of_one_le_left (by positivity) hone

/-- **Below infinity**: the significand is rounded at bit 40, and further up for a denormal. -/
theorem nearest_of_small {e k : ℕ} (htop : r.breg.msb = true) (he : r.exponent temp = e - k)
    (he₁ : 1 ≤ e) (he₂ : e < 255) (hk : k = 0 ∨ e = 1) :
    IsNearestEven real32 fpInfinity.toNat (r.scaled temp)
      ((e - 1) * 2 ^ 23 + roundEven r.significand (2 ^ (40 + k))) := by
  have hq : r.significand / 2 ^ (40 + k) < 2 ^ 24 := by
    rw [Nat.div_lt_iff_lt_mul (by positivity)]
    calc r.significand < 2 ^ 24 * 2 ^ 40 := significand_lt r
      _ ≤ 2 ^ 24 * 2 ^ (40 + k) := by gcongr <;> omega
  have hlow : e = 1 ∨ 2 ^ 23 ≤ r.significand / 2 ^ (40 + k) := by
    refine hk.symm.imp_right fun hk => ?_
    rw [hk, Nat.le_div_iff_mul_le (by positivity)]
    exact le_significand htop
  have hinf : fpInfinity.toNat = 254 * 2 ^ 23 + 2 ^ 23 := by decide
  refine IsNearestEven.of_quotient real32_strictMono (u := 2 ^ ((e : ℤ) - 150)) (by positivity)
    (by positivity) (by omega) ?_ (fun i hi => ?_) (scaled_eq e k he)
  · rw [hinf]
    rcases hlow with rfl | hlow <;> omega
  · exact real32_eq he₁ (by omega) (hlow.imp_right fun h => by omega)

end Nearest

/-! ## What the instructions leave -/

section Leaves

variable {r : Regs 32} {temp : Word}

theorem toNat_and_low (x : Word) {n : ℕ} (hn : n ≤ 32) :
    (x &&& BitVec.ofNat 32 (2 ^ n - 1)).toNat = x.toNat % 2 ^ n := by
  have hlt : 2 ^ n - 1 < 2 ^ 32 :=
    Nat.lt_of_lt_of_le (Nat.sub_lt (Nat.two_pow_pos n) Nat.one_pos) (Nat.pow_le_pow_right
      (by norm_num) hn)
  rw [BitVec.toNat_and, BitVec.toNat_ofNat, Nat.mod_eq_of_lt hlt, Nat.and_two_pow_sub_one_eq_mod]

/-- The fraction: the bits of the high word above the rounding bit, without the leading one. -/
theorem toNat_fraction (x : Word) :
    (x.sshiftRight 8 &&& 0x7FFFFF#32).toNat = x.toNat / 2 ^ 8 % 2 ^ 23 := by
  have hshift : x.sshiftRight 8 &&& 0x7FFFFF#32 = (x >>> 8) &&& 0x7FFFFF#32 := by
    ext i hi
    have hmask : (0x7FFFFF#32)[i] = decide (i < 23) := Nat.testBit_two_pow_sub_one 23 i
    rw [BitVec.getElem_and, BitVec.getElem_and, hmask]
    by_cases hlt : i < 23
    · rw [BitVec.getElem_sshiftRight, dif_pos (by omega), BitVec.getElem_ushiftRight,
        BitVec.getLsbD_eq_getElem]
    · rw [decide_eq_false hlt, Bool.and_false, Bool.and_false]
  rw [hshift]
  have := toNat_and_low (x >>> 8) (n := 23) (by norm_num)
  rw [BitVec.toNat_ushiftRight, Nat.shiftRight_eq_div_pow] at this
  exact this

theorem and_bit_eq_zero_iff (x : Word) {n : ℕ} (hn : n < 32) :
    x &&& BitVec.ofNat 32 (2 ^ n) = 0 ↔ x.toNat / 2 ^ n % 2 = 0 := by
  have hlt : 2 ^ n < 2 ^ 32 := Nat.pow_lt_pow_right (by norm_num) hn
  rw [← BitVec.toNat_inj, BitVec.toNat_and, BitVec.toNat_ofNat, Nat.mod_eq_of_lt hlt,
    Nat.and_comm, Nat.two_pow_and, Nat.testBit_eq_decide_div_mod_eq]
  have hbit := Nat.mod_two_eq_zero_or_one (x.toNat / 2 ^ n)
  rcases hbit with h | h <;> simp [h]

/-- The pattern before it is rounded. -/
theorem toNat_pattern {e : ℕ} (he : r.creg.toNat = e) (hlt : e < 255) :
    (((r.creg &&& 0xFF#32) <<< 23) ||| (r.breg.sshiftRight 8 &&& 0x7FFFFF#32)).toNat =
      e * 2 ^ 23 + r.breg.toNat / 2 ^ 8 % 2 ^ 23 := by
  have hcreg := toNat_and_low r.creg (n := 8) (by norm_num)
  have hexp : ((r.creg &&& 0xFF#32) <<< 23).toNat = e <<< 23 := by
    rw [BitVec.toNat_shiftLeft, show (r.creg &&& 0xFF#32).toNat = e by
      rw [show 0xFF#32 = BitVec.ofNat 32 (2 ^ 8 - 1) from rfl, hcreg, he]
      omega, Nat.shiftLeft_eq]
    omega
  rw [BitVec.toNat_or, hexp, toNat_fraction,
    ← Nat.shiftLeft_add_eq_or_of_lt (Nat.mod_lt _ (Nat.two_pow_pos 23)), Nat.shiftLeft_eq]

/-- **`ins_roundsn`** rounds the two words at bit 40. -/
theorem toNat_insRoundsn {e : ℕ} (he : r.creg.toNat = e) (hlt : e < 255) :
    (insRoundsn r).2.areg.toNat =
      e * 2 ^ 23 + r.significand / 2 ^ 40 % 2 ^ 23 + roundUp r.significand (2 ^ 40) := by
  have hcreg : r.creg.toInt = e := by
    rw [BitVec.toInt_eq_toNat_of_lt (by omega), he]
  have hnot : ¬ 0xFF ≤ r.creg.toInt := by omega
  have hpattern := toNat_pattern he hlt
  have hround := and_bit_eq_zero_iff r.breg (n := 7) (by norm_num)
  have hlow := toNat_and_low r.breg (n := 7) (by norm_num)
  have ha := r.areg.isLt
  have hquot : r.significand / 2 ^ 40 = r.breg.toNat / 2 ^ 8 := by
    unfold significand
    omega
  have hrest : r.significand % 2 ^ 40 = r.breg.toNat % 2 ^ 8 * 2 ^ 32 + r.areg.toNat := by
    unfold significand
    omega
  unfold insRoundsn
  rw [if_neg hnot]
  dsimp only
  generalize ((r.creg &&& 0xFF#32) <<< 23) ||| (r.breg.sshiftRight 8 &&& 0x7FFFFF#32) = f at *
  have hone := toNat_and_low f (n := 1) (by norm_num)
  have hsticky : r.areg ||| (r.breg &&& 0x7F#32) ||| (f &&& 1#32) = 0 ↔
      r.areg.toNat = 0 ∧ r.breg.toNat % 2 ^ 7 = 0 ∧ f.toNat % 2 ^ 1 = 0 := by
    rw [← hlow, ← hone, ← BitVec.toNat_inj, BitVec.toNat_or, BitVec.toNat_or]
    change _ ||| _ ||| _ = 0 ↔ _
    rw [Nat.or_eq_zero_iff, Nat.or_eq_zero_iff, and_assoc]
    exact Iff.rfl
  have hr : r.breg &&& 0x80#32 = 0 ↔ r.breg.toNat / 2 ^ 7 % 2 = 0 := hround
  unfold roundUp
  rw [hquot, hrest]
  by_cases hbit : r.breg &&& 0x80#32 = 0
  · rw [if_pos hbit]
    have hb := hr.mp hbit
    rw [if_neg (by omega), hpattern]
    omega
  · rw [if_neg hbit]
    have hb := hr.not.mp hbit
    by_cases hst : r.areg ||| (r.breg &&& 0x7F#32) ||| (f &&& 1#32) = 0
    · rw [if_pos hst]
      obtain ⟨h₀, h₁, h₂⟩ := hsticky.mp hst
      rw [if_neg (by omega), hpattern]
      omega
    · rw [if_neg hst]
      have hs := hsticky.not.mp hst
      dsimp only
      rw [if_pos (by omega), BitVec.toNat_add, hpattern]
      change (_ + 1) % 2 ^ 32 = _
      omega

/-- A guard word that is not negative stands below the mantissa. -/
theorem toNat_extended_pos (ha : r.areg.msb = false) :
    ((r.breg.signExtend 64 <<< 32) ||| r.areg.signExtend 64).toNat = r.significand := by
  have hb : (r.breg.signExtend 64 <<< 32).toNat = r.breg.toNat <<< 32 := by
    have hlt := r.breg.isLt
    rw [BitVec.toNat_shiftLeft, BitVec.toNat_signExtend, Nat.shiftLeft_eq, Nat.shiftLeft_eq,
      BitVec.toNat_setWidth]
    split_ifs <;> omega
  rw [BitVec.toNat_or, hb, BitVec.toNat_signExtend, ha, if_neg Bool.false_ne_true, Nat.add_zero,
    BitVec.toNat_setWidth, Nat.mod_eq_of_lt (r.areg.isLt.trans (by norm_num)),
    ← Nat.shiftLeft_add_eq_or_of_lt r.areg.isLt, Nat.shiftLeft_eq]
  rfl

/-- A negative one covers it. -/
theorem toNat_extended_neg (ha : r.areg.msb = true) :
    ((r.breg.signExtend 64 <<< 32) ||| r.areg.signExtend 64).toNat =
      2 ^ 64 - 2 ^ 32 + r.areg.toNat := by
  have hcover : (r.breg.signExtend 64 <<< 32) ||| r.areg.signExtend 64 =
      r.areg.signExtend 64 := by
    ext i hi
    rw [BitVec.getElem_or, BitVec.getElem_shiftLeft, BitVec.getElem_signExtend,
      BitVec.getElem_signExtend, ha]
    by_cases hlow : i < 32
    · rw [decide_eq_true hlow, Bool.not_true, Bool.false_and, Bool.false_or]
    · rw [dif_neg hlow, Bool.or_true]
  rw [hcover, BitVec.toNat_signExtend, ha, if_pos rfl, BitVec.toNat_setWidth,
    Nat.mod_eq_of_lt (r.areg.isLt.trans (by norm_num))]
  omega

/-- The two words of a double word, and a zero exponent. -/
theorem toNat_roundsn_of_dword {x : BitVec 64} (hx : x.toNat < 2 ^ 63) :
    (insRoundsn { r with
      areg := (x &&& 0xFFFFFFFF#64).setWidth 32
      breg := (x >>> 32).setWidth 32
      creg := 0 }).2.areg.toNat = roundEven x.toNat (2 ^ 40) := by
  have hlow : (x &&& 0xFFFFFFFF#64).toNat = x.toNat % 2 ^ 32 := by
    rw [BitVec.toNat_and]
    exact Nat.and_two_pow_sub_one_eq_mod _ 32
  have hS : ({ r with
      areg := (x &&& 0xFFFFFFFF#64).setWidth 32
      breg := (x >>> 32).setWidth 32
      creg := 0 } : Regs 32).significand = x.toNat := by
    unfold significand
    rw [BitVec.toNat_setWidth, BitVec.toNat_setWidth, hlow, BitVec.toNat_ushiftRight,
      Nat.shiftRight_eq_div_pow]
    omega
  rw [toNat_insRoundsn (e := 0) rfl (by norm_num), hS, roundEven]
  omega

/-- **A denormal**: the double word is shifted, and rounded at bit 40. -/
theorem toNat_postnormRound_denormal (he : -32 < r.exponent temp) (he' : r.exponent temp ≤ 0) :
    (postnormRound temp r).toNat = roundEven ((if r.areg.msb then 2 ^ 64 - 2 ^ 32 + r.areg.toNat
      else r.significand) / 2 ^ (1 - r.exponent temp).toNat) (2 ^ 40) := by
  unfold exponent at *
  have hs : (1 - (temp - r.creg)).toNat = (1 - (temp - r.creg).toInt).toNat := by
    have h := BitVec.toInt_sub (x := (1 : Word)) (y := temp - r.creg)
    rw [show (1 : Word).toInt = 1 from rfl, Int.bmod_eq_of_le (by omega) (by omega)] at h
    have hnat := BitVec.toInt_eq_toNat_cond (1 - (temp - r.creg))
    rw [h] at hnat
    have hlt := (1 - (temp - r.creg)).isLt
    split_ifs at hnat <;> omega
  have hpos : 1 ≤ (1 - (temp - r.creg).toInt).toNat := by omega
  have hx : ((r.breg.signExtend 64 <<< 32) ||| r.areg.signExtend 64).toNat =
      if r.areg.msb then 2 ^ 64 - 2 ^ 32 + r.areg.toNat else r.significand := by
    split_ifs with ha
    · exact toNat_extended_neg ha
    · exact toNat_extended_pos (Bool.eq_false_iff.mpr ha)
  have hshift : (((r.breg.signExtend 64 <<< 32) ||| r.areg.signExtend 64) >>>
      (1 - (temp - r.creg)).toNat).toNat = (if r.areg.msb then 2 ^ 64 - 2 ^ 32 + r.areg.toNat
      else r.significand) / 2 ^ (1 - (temp - r.creg).toInt).toNat := by
    rw [BitVec.toNat_ushiftRight, Nat.shiftRight_eq_div_pow, hx, hs]
  have hlt : (((r.breg.signExtend 64 <<< 32) ||| r.areg.signExtend 64) >>>
      (1 - (temp - r.creg)).toNat).toNat < 2 ^ 63 := by
    rw [BitVec.toNat_ushiftRight, Nat.shiftRight_eq_div_pow, hs,
      Nat.div_lt_iff_lt_mul (by positivity)]
    calc _ < 2 ^ 63 * 2 ^ 1 := BitVec.isLt _
      _ ≤ _ := Nat.mul_le_mul_left _ (Nat.pow_le_pow_right (by norm_num) hpos)
  unfold postnormRound insPostnormsn
  dsimp only
  rw [if_neg (by omega), if_pos he']
  rw [toNat_roundsn_of_dword hlt, hshift]

end Leaves

/-! ## When the nearest is left -/

section Right

variable {r : Regs 32} {temp : Word}

/-- **A guard word that covers the mantissa** leaves a power of two, or nothing. -/
theorem roundEven_covered {S g s : ℕ} (hg : 2 ^ 31 ≤ g) (hg' : g < 2 ^ 32) (hS : 2 ^ 63 < S)
    (hS' : S < 2 ^ 64) (hs : 1 ≤ s) :
    roundEven ((2 ^ 64 - 2 ^ 32 + g) / 2 ^ s) (2 ^ 40) = roundEven S (2 ^ (40 + s)) ↔
      2 ^ 64 ≤ S + 2 ^ (39 + s) := by
  have hc : 2 ≤ 2 ^ s := Nat.le_self_pow (by omega) 2
  rw [pow_add, pow_add 2 39 s]
  rcases Nat.lt_or_ge 24 s with hlarge | hsmall
  · -- both round to zero
    have hpow : 2 ^ 25 ≤ 2 ^ s := Nat.pow_le_pow_right (by norm_num) hlarge
    have hx : (2 ^ 64 - 2 ^ 32 + g) / 2 ^ s < 2 ^ 39 := by
      rw [Nat.div_lt_iff_lt_mul (by positivity)]
      omega
    have hzero : roundEven ((2 ^ 64 - 2 ^ 32 + g) / 2 ^ s) (2 ^ 40) = 0 :=
      (roundEven_eq_iff (by norm_num)).mpr ⟨by omega, by omega⟩
    have hzero' : roundEven S (2 ^ 40 * 2 ^ s) = 0 :=
      (roundEven_eq_iff (by positivity)).mpr ⟨by omega, by omega⟩
    exact iff_of_true (hzero.trans hzero'.symm) (by omega)
  · obtain ⟨k, hk⟩ := Nat.exists_eq_add_of_le hsmall
    have hkc : 2 ^ k * 2 ^ s = 2 ^ 24 := by rw [← pow_add, Nat.add_comm, ← hk]
    have hx : 2 ^ k * 2 ^ 40 - 2 ^ 39 < (2 ^ 64 - 2 ^ 32 + g) / 2 ^ s := by
      rw [Nat.lt_iff_add_one_le, Nat.le_div_iff_mul_le (by positivity)]
      have : (2 ^ k * 2 ^ 40 - 2 ^ 39 + 1) * 2 ^ s + 2 ^ 39 * 2 ^ s =
          2 ^ k * 2 ^ s * 2 ^ 40 + 2 ^ s := by
        have hle : 2 ^ 39 ≤ 2 ^ k * 2 ^ 40 := by
          have := Nat.one_le_two_pow (n := k)
          omega
        obtain ⟨d, hd⟩ := Nat.exists_eq_add_of_le hle
        rw [hd, Nat.add_sub_cancel_left]
        rw [show 2 ^ k * 2 ^ s * 2 ^ 40 = 2 ^ k * 2 ^ 40 * 2 ^ s by ring, hd]
        ring
      rw [hkc] at this
      omega
    have hx' : (2 ^ 64 - 2 ^ 32 + g) / 2 ^ s ≤ 2 ^ k * 2 ^ 40 := by
      rw [Nat.div_le_iff_le_mul_add_pred (by positivity)]
      have : 2 ^ s * (2 ^ k * 2 ^ 40) = 2 ^ k * 2 ^ s * 2 ^ 40 := by ring
      rw [this, hkc]
      omega
    have hcode : roundEven ((2 ^ 64 - 2 ^ 32 + g) / 2 ^ s) (2 ^ 40) = 2 ^ k :=
      (roundEven_eq_iff (by norm_num)).mpr ⟨by omega, by omega⟩
    have hmul : 2 ^ k * (2 ^ 40 * 2 ^ s) = 2 ^ 64 := by
      rw [show 2 ^ k * (2 ^ 40 * 2 ^ s) = 2 ^ k * 2 ^ s * 2 ^ 40 by ring, hkc]
      norm_num
    rw [hcode, eq_comm, roundEven_eq_iff (by positivity), hmul]
    -- a tie is even, but for the power of two of the last denormal, which is none
    have heven : 2 ^ k % 2 = 0 ∨ s = 24 := by
      rcases Nat.eq_zero_or_pos k with rfl | hpos
      · exact .inr (by omega)
      · exact .inl (Nat.mod_eq_zero_of_dvd (dvd_pow_self 2 hpos.ne'))
    rcases heven with heven | rfl
    · omega
    · norm_num
      omega

/-- The exponent is that of the result, when the significand is not shifted. -/
theorem postnormRound_of_pos (he : 0 < r.exponent temp) :
    postnormRound temp r = (insRoundsn { r with creg := temp - r.creg }).2.areg := by
  unfold exponent at he
  unfold postnormRound insPostnormsn
  dsimp only
  rw [if_neg (by omega), if_neg (by omega)]

theorem postnormRound_large (he : 255 ≤ r.exponent temp) : postnormRound temp r = fpInfinity := by
  rw [postnormRound_of_pos (by omega), insRoundsn]
  exact congrArg (fun x : Ret × Regs 32 => x.2.areg) (if_pos he)

theorem toNat_postnormRound_normal {e : ℕ} (htop : r.breg.msb = true)
    (he : r.exponent temp = e) (he₁ : 1 ≤ e) (he₂ : e < 255) :
    (postnormRound temp r).toNat = (e - 1) * 2 ^ 23 + roundEven r.significand (2 ^ 40) := by
  have hexp : (temp - r.creg).toNat = e := by
    have hnat := BitVec.toInt_eq_toNat_cond (temp - r.creg)
    have hlt := (temp - r.creg).isLt
    unfold exponent at he
    rw [he] at hnat
    split_ifs at hnat <;> omega
  rw [postnormRound_of_pos (by omega), toNat_insRoundsn hexp he₂]
  have hS : ({ r with creg := temp - r.creg } : Regs 32).significand = r.significand := rfl
  have hlo := le_significand htop
  have hhi := significand_lt r
  rw [hS, roundEven]
  omega

theorem postnormRound_small (he : r.exponent temp ≤ -32) : postnormRound temp r = 0 := by
  unfold exponent at he
  unfold postnormRound insPostnormsn
  dsimp only
  rw [if_pos he]
  exact BitVec.eq_of_toNat_eq (toNat_roundsn_of_dword (r := r) (x := 0) (by decide))

/-- The result is the nearest REAL32 when it is the one that rounding gives. -/
theorem roundsToNearest_iff_eq {n : ℕ}
    (hn : IsNearestEven real32 fpInfinity.toNat (r.scaled temp) n) :
    RoundsToNearest temp r ↔ (postnormRound temp r).toNat = n :=
  ⟨fun h => h.unique real32_strictMono hn, fun h => by rwa [RoundsToNearest, h]⟩

/-- **The REAL32 left is the nearest** exactly when `RoundsRight` says so. -/
theorem roundsToNearest_iff (htop : r.breg.msb = true) :
    RoundsToNearest temp r ↔ RoundsRight temp r := by
  unfold RoundsRight
  dsimp only
  rcases lt_or_ge 0 (r.exponent temp) with hpos | hneg
  · refine iff_of_true ?_ (.inl hpos)
    rcases lt_or_ge (r.exponent temp) 255 with hlt | hge
    · obtain ⟨e, he⟩ := Int.eq_ofNat_of_zero_le hpos.le
      have h := nearest_of_small (e := e) (k := 0) htop (by rw [he]; simp) (by omega) (by omega)
        (.inl rfl)
      exact (roundsToNearest_iff_eq h).mpr
        (toNat_postnormRound_normal htop he (by omega) (by omega))
    · exact (roundsToNearest_iff_eq (nearest_of_large htop hge)).mpr
        (by rw [postnormRound_large hge])
  · have hs : r.exponent temp = (1 : ℕ) - ((1 - r.exponent temp).toNat : ℤ) := by omega
    have hs₁ : 1 ≤ (1 - r.exponent temp).toNat := by omega
    have h := nearest_of_small htop hs le_rfl (by norm_num) (.inr rfl)
    rw [Nat.sub_self, Nat.zero_mul, Nat.zero_add] at h
    rw [roundsToNearest_iff_eq h]
    have hlo := le_significand htop
    have hhi := significand_lt r
    rcases lt_or_ge (-32) (r.exponent temp) with hlt | hge
    · rw [toNat_postnormRound_denormal hlt hneg, or_iff_right (by omega), or_iff_right (by omega)]
      generalize (1 - r.exponent temp).toNat = s at hs₁
      rw [show 40 + s - 1 = 39 + s by omega, show 40 + s - 40 = s by omega]
      by_cases ha : r.areg.msb = true
      · have hg := BitVec.msb_eq_true_iff_two_mul_ge.mp ha
        have hg' := r.areg.isLt
        have hb := BitVec.msb_eq_true_iff_two_mul_ge.mp htop
        rw [if_pos ha, if_pos ha]
        refine roundEven_covered (by omega) hg' ?_ hhi hs₁
        unfold significand
        omega
      · rw [if_neg ha, if_neg ha, pow_add, pow_add 2 39 s, Nat.mul_comm (2 ^ 40),
          Nat.mul_comm (2 ^ 39)]
        have hdiv := roundEven_div_iff (N := r.significand) (h := 2 ^ 39) (Nat.two_pow_pos s)
        rwa [show 2 * 2 ^ 39 = 2 ^ 40 by norm_num] at hdiv
    · refine iff_of_true ?_ (.inr (.inl hge))
      have hpow : 2 ^ 73 ≤ 2 ^ (40 + (1 - r.exponent temp).toNat) :=
        Nat.pow_le_pow_right (by norm_num) (by omega)
      have hzero : roundEven r.significand (2 ^ (40 + (1 - r.exponent temp).toNat)) = 0 :=
        (roundEven_eq_iff (by positivity)).mpr ⟨by omega, by omega⟩
      rw [postnormRound_small hge, hzero]
      rfl

/-- A number above one and a denormal, which are both rounded up. -/
theorem roundsToNearest_up :
    (postnormRound 127 ⟨1, 0x80000080, 0, 0, false⟩ = 0x3F800001 ∧
      RoundsToNearest 127 ⟨1, 0x80000080, 0, 0, false⟩) ∧
    postnormRound 0 ⟨0, 0x80000180, 0, 0, false⟩ = 0x00400001 ∧
      RoundsToNearest 0 ⟨0, 0x80000180, 0, 0, false⟩ := by
  refine ⟨⟨by decide +kernel, (roundsToNearest_iff (by decide)).mpr (.inl (by decide))⟩,
    by decide +kernel, (roundsToNearest_iff (by decide)).mpr (.inr (.inr ?_))⟩
  rw [if_neg (by decide)]
  decide +kernel

/-- A guard word whose top bit is set, at exponent 0: the result is twice what it should be. -/
theorem not_roundsToNearest : ¬ ∀ (temp : Word) (r : Regs 32), r.breg.msb = true →
    RoundsToNearest temp r := by
  intro h
  have hbad := h 0 ⟨0xFFFFFFFF, 0x80000000, 0, 0, false⟩ (by decide)
  have he : exponent 0 ⟨0xFFFFFFFF, 0x80000000, 0, 0, false⟩ = (1 : ℕ) - (1 : ℕ) := by decide
  have hn := nearest_of_small (by decide) he le_rfl (by norm_num) (.inr rfl)
  exact absurd ((roundsToNearest_iff_eq hn).mp hbad) (by decide +kernel)

end Right

end Regs

end Tvm

end Kroc
