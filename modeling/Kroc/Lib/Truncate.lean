import Mathlib.Data.Int.Order.Basic
import Mathlib.Algebra.Order.Group.Unbundled.Int
import Mathlib.Tactic.Ring

/-!
# Lib/Truncate — division that truncates

Products, quotients and remainders by magnitudes and signs, and the one quotient that leaves a range
in two's complement.
-/

/-- A product, by magnitudes. -/
theorem mul_eq_of_sign (x y : ℤ) : x * y =
    if x < 0 ↔ y < 0 then ((x.natAbs * y.natAbs : ℕ) : ℤ)
      else -((x.natAbs * y.natAbs : ℕ) : ℤ) := by
  rw [Nat.cast_mul, Int.natCast_natAbs, Int.natCast_natAbs]
  obtain hx | hx := lt_or_ge x 0 <;> obtain hy | hy := lt_or_ge y 0
  · rw [if_pos (iff_of_true hx hy), abs_of_neg hx, abs_of_neg hy, neg_mul_neg]
  · rw [if_neg (by omega), abs_of_neg hx, abs_of_nonneg hy, neg_mul, neg_neg]
  · rw [if_neg (by omega), abs_of_nonneg hx, abs_of_neg hy, mul_neg, neg_neg]
  · rw [if_pos (by omega), abs_of_nonneg hx, abs_of_nonneg hy]

/-- The quotient that truncates, by magnitudes. -/
theorem tdiv_eq (x y : ℤ) : x.tdiv y =
    if x < 0 ↔ y < 0 then ((x.natAbs / y.natAbs : ℕ) : ℤ)
      else -((x.natAbs / y.natAbs : ℕ) : ℤ) := by
  obtain hx | hx := lt_or_ge x 0 <;> obtain hy | hy := lt_or_ge y 0
  · rw [if_pos (iff_of_true hx hy)]
    conv_lhs => rw [Int.eq_neg_natAbs_of_nonpos hx.le, Int.eq_neg_natAbs_of_nonpos hy.le]
    rw [Int.neg_tdiv_neg, Int.ofNat_tdiv]
  · rw [if_neg (by omega)]
    conv_lhs => rw [Int.eq_neg_natAbs_of_nonpos hx.le, Int.eq_natAbs_of_nonneg hy]
    rw [Int.neg_tdiv, Int.ofNat_tdiv]
  · rw [if_neg (by omega)]
    conv_lhs => rw [Int.eq_natAbs_of_nonneg hx, Int.eq_neg_natAbs_of_nonpos hy.le]
    rw [Int.tdiv_neg, Int.ofNat_tdiv]
  · rw [if_pos (by omega)]
    conv_lhs => rw [Int.eq_natAbs_of_nonneg hx, Int.eq_natAbs_of_nonneg hy]
    rw [Int.ofNat_tdiv]

/-- The remainder has the sign of the dividend. -/
theorem tmod_eq (x y : ℤ) : x.tmod y =
    if x < 0 then -((x.natAbs % y.natAbs : ℕ) : ℤ) else ((x.natAbs % y.natAbs : ℕ) : ℤ) := by
  have habs : x.tmod y = x.tmod y.natAbs := by
    obtain hy | hy := Int.natAbs_eq y
    · rw [← hy]
    · conv_lhs => rw [hy]
      rw [Int.tmod_neg]
  rw [habs]
  obtain hx | hx := lt_or_ge x 0
  · rw [if_pos hx]
    conv_lhs => rw [Int.eq_neg_natAbs_of_nonpos hx.le]
    rw [Int.neg_tmod, Int.ofNat_tmod]
  · rw [if_neg (not_lt.mpr hx)]
    conv_lhs => rw [Int.eq_natAbs_of_nonneg hx]
    rw [Int.ofNat_tmod]

/-- `x = q * y + r`, where the remainder is less than the divisor and has the sign of
the dividend. -/
structure Truncates (x y q r : ℤ) : Prop where
  eq : x = q * y + r
  lt : |r| < |y|
  sign : r = 0 ∨ r.sign = x.sign

theorem Truncates.of_ne_zero {x y : ℤ} (hy : y ≠ 0) : Truncates x y (x.tdiv y) (x.tmod y) where
  eq := by
    rw [mul_comm]
    exact (Int.mul_tdiv_add_tmod x y).symm
  lt := by
    rw [Int.abs_eq_natAbs, Int.abs_eq_natAbs, Int.natAbs_tmod]
    exact Int.ofNat_lt.mpr (Nat.mod_lt _ (Int.natAbs_pos.mpr hy))
  sign := by
    have hmod := tmod_eq x y
    generalize x.natAbs % y.natAbs = n at *
    obtain hx | rfl | hx := lt_trichotomy x 0
    · rw [if_pos hx] at hmod
      rw [hmod, Int.sign_eq_neg_one_of_neg hx]
      obtain rfl | hn := Nat.eq_zero_or_pos n
      · exact Or.inl rfl
      · exact Or.inr (Int.sign_eq_neg_one_of_neg (by omega))
    · exact Or.inl (Int.zero_tmod y)
    · rw [if_neg hx.not_gt] at hmod
      rw [hmod, Int.sign_eq_one_of_pos hx]
      obtain rfl | hn := Nat.eq_zero_or_pos n
      · exact Or.inl rfl
      · exact Or.inr (Int.sign_eq_one_of_pos (by omega))

/-- A quotient of operands of one sign leaves a range in two's complement only if the operands are
the least number and `-1`. -/
theorem natAbs_div_lt {m : ℕ} {x y : ℤ} (hlo : -(m : ℤ) ≤ x) (hhi : x < m)
    (hover : ¬ (x = -m ∧ y = -1)) (hsame : x < 0 ↔ y < 0) : x.natAbs / y.natAbs < m := by
  generalize hq : x.natAbs / y.natAbs = q
  by_contra hge
  have hmul : q * y.natAbs ≤ x.natAbs := hq ▸ Nat.div_mul_le_self _ _
  have hy : y.natAbs ≤ 1 := by
    by_contra htwo
    have : q * 2 ≤ q * y.natAbs := Nat.mul_le_mul_left q (by omega)
    omega
  have hy0 : y.natAbs ≠ 0 := fun hzero => by
    rw [hzero, Nat.div_zero] at hq
    omega
  have hone : y.natAbs = 1 := by omega
  rw [hone, mul_one] at hmul
  omega

/-- **The quotient stays in a range in two's complement**. -/
theorem tdiv_bounds {m : ℕ} {x y : ℤ} (hlo : -(m : ℤ) ≤ x) (hhi : x < m)
    (hover : ¬ (x = -m ∧ y = -1)) : -(m : ℤ) ≤ x.tdiv y ∧ x.tdiv y < m := by
  have hle := Nat.div_le_self x.natAbs y.natAbs
  have hlt := natAbs_div_lt hlo hhi hover
  rw [tdiv_eq]
  generalize x.natAbs / y.natAbs = q at *
  by_cases hsame : x < 0 ↔ y < 0
  · have := hlt hsame
    rw [if_pos hsame]
    omega
  · rw [if_neg hsame]
    omega
