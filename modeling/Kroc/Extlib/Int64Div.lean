import Kroc.Extlib.Int64Exact
import Kroc.Lib.Truncate

/-!
# Extlib/Int64Div — signed division of two words

`Int64DivRem` divides magnitudes and gives the quotient and the remainder their signs.  The quotient
of the least number and `-1` is the only one that no word stands for, and `Int64Rem` does not come
to it.
-/

namespace Kroc

namespace Extlib

/-! ## Division that truncates -/

theorem dword_negate (x : Words) : ∃ borrow, dword (diff (0, 0) x) + dword x = 2 ^ 64 * borrow := by
  obtain ⟨borrow, h⟩ := dword_diff (0, 0) x
  have hzero : dword ((0, 0) : Words) = 0 := rfl
  rw [hzero, zero_add] at h
  exact ⟨borrow, h⟩

/-- The magnitude of an operand. -/
theorem dword_magnitude (a : Words) :
    dword (if signed a < 0 then diff (0, 0) a else a) = (signed a).natAbs := by
  have hlt := dword_lt a
  have hcases := signed_cases a
  by_cases hneg : signed a < 0
  · rw [if_pos hneg]
    obtain ⟨borrow, h⟩ := dword_negate a
    have := dword_lt (diff (0, 0) a)
    omega
  · rw [if_neg hneg]
    omega

/-- Words that hold a magnitude of `n`, with its sign. -/
theorem signed_magnitude {x : Words} {n : ℕ} (hx : dword x = n) {p : Prop} [Decidable p]
    (hn : if p then n ≤ 2 ^ 63 else n < 2 ^ 63) :
    signed (if p then diff (0, 0) x else x) = if p then -(n : ℤ) else n := by
  by_cases hneg : p
  · rw [if_pos hneg] at hn ⊢
    rw [if_pos hneg]
    obtain ⟨borrow, h⟩ := dword_negate x
    have := dword_lt (diff (0, 0) x)
    have := signed_cases (diff (0, 0) x)
    omega
  · rw [if_neg hneg] at hn ⊢
    rw [if_neg hneg]
    have := signed_cases x
    omega

theorem signed_natAbs_le (a : Words) : (signed a).natAbs ≤ 2 ^ 63 := by
  have := abs_signed_le a
  rw [Int.abs_eq_natAbs] at this
  omega

/-- **`Int64DivRem`** truncates, where the quotient fits. -/
theorem int64DivRem_spec {a b : Words} (hb : signed b ≠ 0)
    (hover : ¬ (signed a = -2 ^ 63 ∧ signed b = -1)) : ∃ q r, int64DivRem a b = some (q, r) ∧
      signed q = (signed a).tdiv (signed b) ∧ signed r = (signed a).tmod (signed b) := by
  have hsign : ∀ c : Words, decide (c.1 &&& signBit32 ≠ 0) = decide (signed c < 0) := fun c =>
    decide_eq_decide.mpr ((not_congr (sign_iff c)).trans not_le)
  have hu := dword_magnitude a
  have hv := dword_magnitude b
  obtain ⟨quot, rem, hdiv, hquot, hrem⟩ := @int64UnsDiv_spec
    (if signed a < 0 then diff (0, 0) a else a)
    (if signed b < 0 then diff (0, 0) b else b) (by rw [hv]; exact Int.natAbs_ne_zero.mpr hb)
  rw [hu, hv] at hquot hrem
  have hneg : (if decide (signed b < 0) then !decide (signed a < 0) else decide (signed a < 0)) =
      decide (¬ (signed a < 0 ↔ signed b < 0)) := by
    by_cases ha : signed a < 0 <;> by_cases hb : signed b < 0 <;> simp [ha, hb]
  unfold int64DivRem
  dsimp only
  simp only [hsign, decide_eq_true_eq] at hneg ⊢
  simp only [hneg, hdiv]
  simp only [decide_eq_true_eq, decide_eq_false_iff_not, not_not]
  have hcases := signed_cases quot
  have hlt : (signed a < 0 ↔ signed b < 0) → dword quot < 2 ^ 63 := fun hsame => by
    rw [hquot]
    exact natAbs_div_lt (signed_fits a).1 (signed_fits a).2 hover hsame
  have hflag : ¬ (quot.1 &&& signBit32 ≠ 0 ∧ (signed a < 0 ↔ signed b < 0)) :=
    fun ⟨hbit, hsame⟩ => by
    rw [Ne, sign_iff] at hbit
    have := hlt hsame
    omega
  rw [if_neg hflag]
  have hle : dword quot ≤ 2 ^ 63 := by
    have := Nat.div_le_self (signed a).natAbs (signed b).natAbs
    have := signed_natAbs_le a
    omega
  have hrlt : dword rem < 2 ^ 63 := by
    have := Nat.mod_lt (signed a).natAbs (Int.natAbs_pos.mpr hb)
    have := signed_natAbs_le b
    omega
  refine ⟨_, _, rfl, ?_, ?_⟩
  · rw [signed_magnitude hquot (p := ¬ (signed a < 0 ↔ signed b < 0)), tdiv_eq]
    · exact ite_not _ _ _
    · by_cases hsame : signed a < 0 ↔ signed b < 0
      · rw [if_neg (not_not.mpr hsame), ← hquot]
        exact hlt hsame
      · rw [if_pos hsame, ← hquot]
        exact hle
  · rw [signed_magnitude hrem (p := signed a < 0), tmod_eq]
    rw [← hrem]
    by_cases hneg : signed a < 0
    · rw [if_pos hneg]
      exact hrlt.le
    · rw [if_neg hneg]
      exact hrlt

theorem signed_eq_iff (a : Words) (hi lo : Bit32) :
    a.1 = hi ∧ a.2 = lo ↔ signed a = signed (hi, lo) := by
  have ha := signed_cases a
  have hw := signed_cases (hi, lo)
  have := a.2.isLt
  have := lo.isLt
  have := dword_lt a
  have := dword_lt (hi, lo)
  rw [eq_iff_toNat, eq_iff_toNat]
  unfold dword at *
  dsimp only at *
  omega

/-- **`Int64Div`** is exact or flagged. -/
theorem int64Div_exact (a b : Words) : ExactOrFlagged signed (SignedFits 64)
    (if signed b = 0 then none else some ((signed a).tdiv (signed b))) (int64Div a b) := by
  have hzero : b.1 = 0 ∧ b.2 = 0 ↔ signed b = 0 := signed_eq_iff b 0 0
  have hleast : a.1 = mostnegInt32 ∧ a.2 = 0 ↔ signed a = -2 ^ 63 := signed_eq_iff a mostnegInt32 0
  have hone : b.1 = -1 ∧ b.2 = -1 ↔ signed b = -1 := signed_eq_iff b (-1) (-1)
  unfold int64Div
  simp only [hzero, hleast, hone]
  by_cases hb : signed b = 0
  · rw [if_pos hb, if_pos hb]
    exact ExactOrFlagged.of_undefined
  rw [if_neg hb, if_neg hb]
  by_cases hover : signed a = -2 ^ 63 ∧ signed b = -1
  · rw [if_pos hover, hover.1, hover.2]
    exact ExactOrFlagged.of_none (by decide)
  · rw [if_neg hover]
    obtain ⟨q, r, hdiv, hq, -⟩ := int64DivRem_spec hb hover
    rw [hdiv]
    exact ExactOrFlagged.of_some (hq ▸ signed_fits q) hq

/-- **`Int64Rem`** is exact, and flagged where the divisor is zero. -/
theorem int64Rem_exact (a b : Words) : ExactOrFlagged signed (SignedFits 64)
    (if signed b = 0 then none else some ((signed a).tmod (signed b))) (int64Rem a b) := by
  have hzero : b.1 = 0 ∧ b.2 = 0 ↔ signed b = 0 := signed_eq_iff b 0 0
  have hone : b.1 = 0 ∧ b.2 = 1 ↔ signed b = 1 := signed_eq_iff b 0 1
  have hneg : b.1 = -1 ∧ b.2 = -1 ↔ signed b = -1 := signed_eq_iff b (-1) (-1)
  unfold int64Rem
  simp only [hzero, hone, hneg]
  by_cases hb : signed b = 0
  · rw [if_pos hb, if_pos hb]
    exact ExactOrFlagged.of_undefined
  rw [if_neg hb, if_neg hb]
  by_cases hunit : signed b = 1 ∨ signed b = -1
  · rw [if_pos hunit]
    have hmod : (signed a).tmod (signed b) = 0 := by
      obtain hb | hb := hunit
      · rw [hb, Int.tmod_one]
      · rw [hb, Int.tmod_neg, Int.tmod_one]
    rw [hmod]
    exact ExactOrFlagged.of_some (by decide) rfl
  · rw [if_neg hunit]
    obtain ⟨q, r, hdiv, -, hr⟩ := int64DivRem_spec (a := a) hb fun h => hunit (Or.inr h.2)
    rw [hdiv]
    exact ExactOrFlagged.of_some (hr ▸ signed_fits r) hr

theorem int64Rem_eq_none_iff (a b : Words) : int64Rem a b = none ↔ signed b = 0 := by
  have h := int64Rem_exact a b
  by_cases hb : signed b = 0
  · rw [if_pos hb] at h
    exact iff_of_true (h.flagged.mpr fun _ hx => absurd hx (Option.not_mem_none _)) hb
  · rw [if_neg hb] at h
    refine iff_of_false (fun hnone => h.flagged.mp hnone _ rfl ?_) hb
    have hlt := (abs_lt.mp (Truncates.of_ne_zero (x := signed a) hb).lt)
    have := abs_signed_le b
    exact ⟨by norm_num; omega, by norm_num; omega⟩

/-- **The signed arithmetic of two words** is exact or flagged, and the operations that have no flag
are exact modulo `2 ^ 64`. -/
theorem int64_exact (a b : Words) :
    ExactOrFlagged signed (SignedFits 64) (some (signed a + signed b)) (int64Add a b) ∧
    ExactOrFlagged signed (SignedFits 64) (some (signed a - signed b)) (int64Sub a b) ∧
    ExactOrFlagged signed (SignedFits 64) (some (signed a * signed b)) (int64Mul a b) ∧
    ExactOrFlagged signed (SignedFits 64)
      (if signed b = 0 then none else some ((signed a).tdiv (signed b))) (int64Div a b) ∧
    (int64Rem a b = none ↔ signed b = 0) ∧
    (∀ q ∈ int64Div a b, ∃ r, Truncates (signed a) (signed b) (signed q) r) ∧
    (∀ r ∈ int64Rem a b, ∃ q, Truncates (signed a) (signed b) q (signed r)) ∧
    (∀ q ∈ int64Div a b, ∀ r ∈ int64Rem a b,
      Truncates (signed a) (signed b) (signed q) (signed r)) ∧
    signed (int64Plus a b) ≡ signed a + signed b [ZMOD 2 ^ 64] ∧
    signed (int64Minus a b) ≡ signed a - signed b [ZMOD 2 ^ 64] ∧
    signed (int64Times a b) ≡ signed a * signed b [ZMOD 2 ^ 64] := by
  have hdiv : ∀ q ∈ int64Div a b, _ := fun q hq => (int64Div_exact a b).delivered_of_ite hq
  have hrem : ∀ r ∈ int64Rem a b, _ := fun r hr => (int64Rem_exact a b).delivered_of_ite hr
  refine ⟨int64Add_exact a b, int64Sub_exact a b, int64Mul_exact a b, int64Div_exact a b,
    int64Rem_eq_none_iff a b, fun q hq => ?_, fun r hr => ?_, fun q hq r hr => ?_,
    int64Plus_modEq a b, int64Minus_modEq a b, int64Times_modEq a b⟩
  · obtain ⟨hb, h⟩ := hdiv q hq
    exact ⟨_, h ▸ Truncates.of_ne_zero hb⟩
  · obtain ⟨hb, h⟩ := hrem r hr
    exact ⟨_, h ▸ Truncates.of_ne_zero hb⟩
  · rw [(hdiv q hq).2, (hrem r hr).2]
    exact Truncates.of_ne_zero (hdiv q hq).1

end Extlib

end Kroc
