import Mathlib.Tactic

/-!
# Lib/QuotientDigit — a digit of a quotient, estimated and corrected

Dividing a number of three digits by a divisor of two, `v = b * v₁ + v₀` with `v₁` at least half the
base `b`.  The digit is estimated as `N / v₁`, `N` the first two digits; `q` and the rest `r` of
`N = q * v₁ + r` go down by one and up by `v₁` while `q` is seen to be too large.

The estimate is never too small, at most `b + 1`, and **the correction stops at the digit**.
-/

namespace QuotientDigit

variable {b v₁ v₀ N d q r : ℕ}

/-- The digit: the quotient of `N` and one more digit `d`. -/
def digit (b v₁ v₀ N d : ℕ) : ℕ := (N * b + d) / (b * v₁ + v₀)

theorem divisor_pos (hN : N < b * v₁ + v₀) : 0 < b * v₁ + v₀ :=
  Nat.lt_of_le_of_lt (Nat.zero_le _) hN

/-- A digit is a digit. -/
theorem digit_lt (hN : N < b * v₁ + v₀) (hd : d < b) : digit b v₁ v₀ N d < b := by
  refine Nat.div_lt_of_lt_mul ?_
  calc N * b + d < N * b + b := Nat.add_lt_add_left hd _
    _ = (N + 1) * b := by ring
    _ ≤ (b * v₁ + v₀) * b := Nat.mul_le_mul_right _ hN

/-- What an estimate is worth. -/
theorem mul_divisor_le_iff (hq : N = q * v₁ + r) :
    q * (b * v₁ + v₀) ≤ N * b + d ↔ q * v₀ ≤ b * r + d := by
  rw [hq, show q * (b * v₁ + v₀) = q * v₁ * b + q * v₀ by ring,
    show (q * v₁ + r) * b + d = q * v₁ * b + (b * r + d) by ring]
  exact Nat.add_le_add_iff_left

/-- **An estimate that is not seen to be too large is the digit.** -/
theorem eq_digit (hN : N < b * v₁ + v₀) (hq : N = q * v₁ + r) (hdigit : digit b v₁ v₀ N d ≤ q)
    (hfits : q * v₀ ≤ b * r + d) : q = digit b v₁ v₀ N d := by
  refine le_antisymm ((Nat.le_div_iff_mul_le (divisor_pos hN)).mpr ?_) hdigit
  exact (mul_divisor_le_iff hq).mpr hfits

/-- **An estimate that is seen to be too large is.** -/
theorem digit_lt_of_lt (hN : N < b * v₁ + v₀) (hd : d < b) (hq : N = q * v₁ + r)
    (hlarge : b ≤ q ∨ b * r + d < q * v₀) : digit b v₁ v₀ N d < q := by
  rcases hlarge with hlarge | hlarge
  · exact (digit_lt hN hd).trans_le hlarge
  · rw [digit, Nat.div_lt_iff_lt_mul (divisor_pos hN)]
    exact Nat.lt_of_not_le fun h => hlarge.not_ge ((mul_divisor_le_iff hq).mp h)

/-- One less, with the rest for it. -/
theorem decrease (hq : N = q * v₁ + r) (hpos : 0 < q) : N = (q - 1) * v₁ + (r + v₁) := by
  obtain ⟨q, rfl⟩ := Nat.exists_eq_add_of_lt hpos
  rw [hq, zero_add, Nat.add_sub_cancel]
  ring

/-- The rest says it all once it is no digit any more. -/
theorem fits_of_base_le (hv₀ : v₀ < b) (hq : q ≤ b) (hr : b ≤ r) : q * v₀ ≤ b * r + d :=
  calc q * v₀ ≤ b * r := Nat.mul_le_mul hq (hv₀.le.trans hr)
    _ ≤ b * r + d := Nat.le_add_right _ _

/-- The first estimate is not too small. -/
theorem digit_le_estimate (hv₁ : 0 < v₁) (hd : d < b) : digit b v₁ v₀ N d ≤ N / v₁ := by
  have hb : 0 < b := Nat.lt_of_le_of_lt (Nat.zero_le d) hd
  rw [digit]
  calc (N * b + d) / (b * v₁ + v₀) ≤ (N * b + d) / (b * v₁) :=
        Nat.div_le_div_left (Nat.le_add_right _ _) (Nat.mul_pos hb hv₁)
    _ = (N * b + d) / b / v₁ := by rw [Nat.div_div_eq_div_mul]
    _ = N / v₁ := by rw [Nat.mul_comm N b, Nat.mul_add_div hb, Nat.div_eq_of_lt hd, add_zero]

/-- The first estimate is not much too large. -/
theorem estimate_le (hv₁ : b ≤ 2 * v₁) (hv₀ : v₀ < b) (hN : N < b * v₁ + v₀) : N / v₁ ≤ b + 1 := by
  refine Nat.le_of_lt_succ (Nat.div_lt_of_lt_mul ?_)
  calc N < b * v₁ + v₀ := hN
    _ ≤ b * v₁ + 2 * v₁ := Nat.add_le_add_left (hv₀.le.trans hv₁) _
    _ = v₁ * (b + 1 + 1) := by ring

/-- What is left when the digit is taken away. -/
theorem rest_eq (b v₁ v₀ N d : ℕ) : N * b + d =
    digit b v₁ v₀ N d * (b * v₁ + v₀) + (N * b + d) % (b * v₁ + v₀) := by
  rw [digit, Nat.div_add_mod']

end QuotientDigit
