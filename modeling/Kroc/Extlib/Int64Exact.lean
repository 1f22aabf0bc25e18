import Kroc.Extlib.Int64
import Kroc.Lib.Exact
import Mathlib.Data.Int.ModEq
import Mathlib.Algebra.Order.Ring.Abs

/-!
# Extlib/Int64Exact — signed arithmetic of two words

The numbers that two words stand for in two's complement.  Addition, subtraction and multiplication
find out from the signs, or from the upper half of a product of four words, whether a result fits;
division works on the magnitudes of its operands.
-/

namespace Kroc

namespace Extlib

/-! ## Two's complement -/

/-- The numbers of `n` bits in two's complement. -/
def SignedFits (n : ℕ) (x : ℤ) : Prop := -2 ^ (n - 1) ≤ x ∧ x < 2 ^ (n - 1)

instance (n : ℕ) (x : ℤ) : Decidable (SignedFits n x) := inferInstanceAs (Decidable (_ ∧ _))

theorem fits64_iff (x : ℤ) : SignedFits 64 x ↔ -2 ^ 63 ≤ x ∧ x < 2 ^ 63 := Iff.rfl

/-- The number that two words stand for. -/
def signed (a : Words) : ℤ := if dword a < 2 ^ 63 then dword a else dword a - 2 ^ 64

theorem signed_cases (a : Words) : (dword a < 2 ^ 63 ∧ signed a = dword a) ∨
    (2 ^ 63 ≤ dword a ∧ signed a = dword a - 2 ^ 64) := by
  by_cases h : dword a < 2 ^ 63
  · exact Or.inl ⟨h, if_pos h⟩
  · exact Or.inr ⟨not_lt.mp h, if_neg h⟩

theorem signed_fits (a : Words) : SignedFits 64 (signed a) := by
  have := dword_lt a
  have := signed_cases a
  rw [fits64_iff]
  omega

theorem signed_modEq (a : Words) : signed a ≡ dword a [ZMOD 2 ^ 64] := by
  obtain ⟨-, h⟩ | ⟨-, h⟩ := signed_cases a
  · rw [h]
  · rw [h, Int.ModEq, Int.sub_emod_right]

/-- **A number that fits** is that of the words it is congruent to. -/
theorem signed_eq_of_modEq {a : Words} {x : ℤ} (h : (dword a : ℤ) ≡ x [ZMOD 2 ^ 64])
    (hx : SignedFits 64 x) : signed a = x := by
  have := dword_lt a
  have := signed_cases a
  rw [fits64_iff] at hx
  unfold Int.ModEq at h
  omega

theorem sign_iff (a : Words) : a.1 &&& signBit32 = 0 ↔ 0 ≤ signed a := by
  have := a.2.isLt
  have hcases := signed_cases a
  have hlt := dword_lt a
  rw [and_signBit32]
  unfold dword at hcases hlt
  omega

theorem msb_eq_false_iff (x : Bit32) : x.msb = false ↔ x.toNat < 2 ^ 31 := by
  rw [BitVec.msb_eq_decide, decide_eq_false_iff_not, not_le]

theorem xor_sign_iff (x y : Bit32) :
    (x ^^^ y) &&& signBit32 = 0 ↔ (x.toNat < 2 ^ 31 ↔ y.toNat < 2 ^ 31) := by
  rw [and_signBit32, ← msb_eq_false_iff, ← msb_eq_false_iff, ← msb_eq_false_iff, BitVec.msb_xor]
  cases x.msb <;> cases y.msb <;> decide

theorem hi_lt_iff (a : Words) : a.1.toNat < 2 ^ 31 ↔ dword a < 2 ^ 63 := by
  have := a.2.isLt
  unfold dword
  omega

/-! ## Addition and subtraction -/

/-- The words of a sum, low word first, and its carry. -/
theorem dword_longsum (a b : Words) : ∃ carry,
    dword ((longsum a.1 b.1 (longsum a.2 b.2 0).1).2, (longsum a.2 b.2 0).2) + 2 ^ 64 * carry =
      dword a + dword b := by
  obtain ⟨h0, hc0⟩ := longsum_spec a.2 b.2 0
  generalize longsum a.2 b.2 0 = s0 at *
  obtain ⟨h1, -⟩ := longsum_spec a.1 b.1 s0.1
  generalize longsum a.1 b.1 s0.1 = s1 at *
  refine ⟨s1.1.toNat, ?_⟩
  rw [toNat_zero] at h0
  unfold dword at *
  dsimp only
  omega

/-- The words of a difference, and its borrow. -/
theorem dword_diff (a b : Words) : ∃ borrow,
    dword (diff a b) + dword b = dword a + 2 ^ 64 * borrow := by
  obtain ⟨h0, hb0⟩ := longdiff_spec a.2 b.2 0
  unfold diff
  dsimp only
  generalize longdiff a.2 b.2 0 = d0 at *
  obtain ⟨h1, -⟩ := longdiff_spec a.1 b.1 d0.1
  generalize longdiff a.1 b.1 d0.1 = d1 at *
  refine ⟨d1.1.toNat, ?_⟩
  rw [toNat_zero] at h0
  unfold dword
  dsimp only
  omega

theorem longadd_eq (x y c : Bit32) : longadd x y c = (longsum x y c).2 := by
  have hadd := toNat_longadd x y c
  obtain ⟨hsum, -⟩ := longsum_spec x y c
  have := (longsum x y c).2.isLt
  rw [eq_iff_toNat, hadd, ← hsum]
  unfold dword
  omega

theorem dword_int64Plus (a b : Words) :
    (dword (int64Plus a b) : ℤ) ≡ dword a + dword b [ZMOD 2 ^ 64] := by
  obtain ⟨carry, h⟩ := dword_longsum a b
  have h' : dword (int64Plus a b) + 2 ^ 64 * carry = dword a + dword b := h
  unfold Int.ModEq
  omega

theorem dword_int64Minus (a b : Words) :
    (dword (diff a b) : ℤ) ≡ dword a - dword b [ZMOD 2 ^ 64] := by
  obtain ⟨borrow, h⟩ := dword_diff a b
  unfold Int.ModEq
  omega

/-- **`Int64Plus`** adds modulo `2 ^ 64`. -/
theorem int64Plus_modEq (a b : Words) :
    signed (int64Plus a b) ≡ signed a + signed b [ZMOD 2 ^ 64] :=
  (signed_modEq _).trans ((dword_int64Plus a b).trans ((signed_modEq a).add (signed_modEq b)).symm)

/-- **`Int64Minus`** subtracts modulo `2 ^ 64`. -/
theorem int64Minus_modEq (a b : Words) :
    signed (int64Minus a b) ≡ signed a - signed b [ZMOD 2 ^ 64] :=
  (signed_modEq _).trans ((dword_int64Minus a b).trans ((signed_modEq a).sub (signed_modEq b)).symm)

theorem int64Add_eq (a b : Words) : int64Add a b =
    if (a.1 ^^^ b.1) &&& signBit32 = 0 ∧ (a.1 ^^^ (int64Plus a b).1) &&& signBit32 ≠ 0 then none
    else some (int64Plus a b) := by
  unfold int64Add int64Plus
  dsimp only
  rw [longadd_eq]

/-- **`Int64Add`** is exact or flagged. -/
theorem int64Add_exact (a b : Words) :
    ExactOrFlagged signed (SignedFits 64) (some (signed a + signed b)) (int64Add a b) := by
  rw [int64Add_eq]
  have hmod := int64Plus_modEq a b
  refine ExactOrFlagged.of_ite ?_ fun hx =>
    signed_eq_of_modEq ((signed_modEq _).symm.trans hmod) hx
  have ha := signed_cases a
  have hb := signed_cases b
  have hs := signed_cases (int64Plus a b)
  have hla := dword_lt a
  have hlb := dword_lt b
  have hls := dword_lt (int64Plus a b)
  rw [Ne, xor_sign_iff, xor_sign_iff, hi_lt_iff, hi_lt_iff, hi_lt_iff]
  rw [fits64_iff]
  unfold Int.ModEq at hmod
  omega

/-- **`Int64Sub`** is exact or flagged. -/
theorem int64Sub_exact (a b : Words) :
    ExactOrFlagged signed (SignedFits 64) (some (signed a - signed b)) (int64Sub a b) := by
  unfold int64Sub
  have hmod := int64Minus_modEq a b
  unfold int64Minus at hmod
  refine ExactOrFlagged.of_ite ?_ fun hx =>
    signed_eq_of_modEq ((signed_modEq _).symm.trans hmod) hx
  have ha := signed_cases a
  have hb := signed_cases b
  have hs := signed_cases (diff a b)
  have hla := dword_lt a
  have hlb := dword_lt b
  have hls := dword_lt (diff a b)
  rw [Ne, Ne, xor_sign_iff, xor_sign_iff, hi_lt_iff, hi_lt_iff, hi_lt_iff]
  rw [fits64_iff]
  unfold Int.ModEq at hmod
  omega

/-! ## Multiplication -/

/-- The words of a product, from the low one. -/
theorem mul_words {b a1 a0 b1 b0 h0 w0 h1 m1 h2 w1 h3 l3 : ℕ} (e0 : b * h0 + w0 = a0 * b0)
    (e1 : b * h1 + m1 = a1 * b0 + h0) (e2 : b * h2 + w1 = a0 * b1 + m1)
    (e3 : b * h3 + l3 = a1 * b1 + h2) :
    b * w1 + w0 + b * b * (b * h3 + l3 + h1) = (b * a1 + a0) * (b * b1 + b0) := by
  zify at *
  linear_combination e0 + b * e1 + b * e2 + b * b * e3

theorem dword_words {a b p0 p1 p2 p3 s2 s3 : Words} (e0 : dword p0 = a.2.toNat * b.2.toNat)
    (e1 : dword p1 = a.1.toNat * b.2.toNat + p0.1.toNat)
    (e2 : dword p2 = a.2.toNat * b.1.toNat + p1.2.toNat)
    (e3 : dword p3 = a.1.toNat * b.1.toNat + p2.1.toNat)
    (h2 : dword s2 = p3.2.toNat + p1.1.toNat) (h3 : dword s3 = p3.1.toNat + s2.1.toNat) :
    dword (p2.2, p0.2) + 2 ^ 64 * dword (s3.2, s2.2) = dword a * dword b := by
  have hprod : dword (p2.2, p0.2) + 2 ^ 32 * 2 ^ 32 * (dword p3 + p1.1.toNat) = dword a * dword b :=
    mul_words e0 e1 e2 e3
  have hpow : 2 ^ 32 * 2 ^ 32 = 2 ^ 64 := by norm_num
  have hlt : dword a * dword b < 2 ^ 64 * 2 ^ 64 := Nat.mul_lt_mul'' (dword_lt a) (dword_lt b)
  rw [hpow] at hprod
  rw [← hprod] at hlt ⊢
  -- the upper half does not carry, as the product has four words
  have hcarry : dword (s3.2, s2.2) = dword p3 + p1.1.toNat := by
    unfold dword at *
    dsimp only at *
    omega
  rw [hcarry]

theorem longsum_zero (x y : Bit32) : dword (longsum x y 0) = x.toNat + y.toNat := by
  rw [(longsum_spec x y 0).1, toNat_zero, Nat.zero_mod, add_zero]

theorem longprod_zero (x y : Bit32) : dword (longprod x y 0) = x.toNat * y.toNat := by
  rw [longprod_spec, toNat_zero, add_zero]

/-- The four words hold the product of the unsigned operands. -/
theorem dword_product (a b : Words) :
    dword (product a b).2 + 2 ^ 64 * dword (product a b).1 = dword a * dword b :=
  dword_words (longprod_zero _ _) (longprod_spec _ _ _) (longprod_spec _ _ _) (longprod_spec _ _ _)
    (longsum_zero _ _) (longsum_zero _ _)

theorem int64Times_eq (a b : Words) : int64Times a b = (product a b).2 := rfl

/-- **`Int64Times`** multiplies modulo `2 ^ 64`. -/
theorem int64Times_modEq (a b : Words) :
    signed (int64Times a b) ≡ signed a * signed b [ZMOD 2 ^ 64] := by
  refine (signed_modEq _).trans (Int.ModEq.trans ?_ ((signed_modEq a).mul (signed_modEq b)).symm)
  have h := dword_product a b
  rw [← int64Times_eq] at h
  rw [← Nat.cast_mul, ← h]
  push_cast
  exact (Int.modEq_add_fac_self).symm

theorem abs_signed_le (a : Words) : |signed a| ≤ 2 ^ 63 := by
  obtain ⟨hlo, hhi⟩ := signed_fits a
  exact abs_le.mpr ⟨hlo, hhi.le⟩

/-- The product lies far inside of the range of four words. -/
theorem abs_mul_signed_le (a b : Words) : |signed a * signed b| ≤ 2 ^ 126 := by
  rw [abs_mul]
  calc |signed a| * |signed b| ≤ 2 ^ 63 * 2 ^ 63 :=
        mul_le_mul (abs_signed_le a) (abs_signed_le b) (abs_nonneg _) (by positivity)
    _ = 2 ^ 126 := by norm_num

theorem and_eq_neg_one_iff (x y : Bit32) :
    x &&& y = -1 ↔ x.toNat = 2 ^ 32 - 1 ∧ y.toNat = 2 ^ 32 - 1 := by
  have hone : (-1 : Bit32) = BitVec.allOnes 32 := BitVec.neg_one_eq_allOnes
  rw [hone, BitVec.and_eq_allOnes_iff, eq_iff_toNat, eq_iff_toNat, BitVec.toNat_allOnes]

theorem or_eq_zero_iff (x y : Bit32) : x ||| y = 0 ↔ x.toNat = 0 ∧ y.toNat = 0 := by
  rw [← toNat_zero, ← eq_iff_toNat, ← eq_iff_toNat]
  exact BitVec.or_eq_zero_iff

theorem toInt_neg_iff (a : Words) : a.1.toInt < 0 ↔ 2 ^ 63 ≤ dword a := by
  have := a.2.isLt
  rw [BitVec.toInt_neg_iff]
  unfold dword
  omega

/-- The carry part, after the signs have been seen to. -/
theorem dword_corrected {a b w : Words} {n : ℤ} (hn : (dword w : ℤ) = n) : ∃ k : ℤ,
    (dword (if b.1 &&& signBit32 ≠ 0 then diff (if a.1 &&& signBit32 ≠ 0 then diff w b else w) a
      else if a.1 &&& signBit32 ≠ 0 then diff w b else w) : ℤ) =
      n - (if signed a < 0 then (dword b : ℤ) else 0) -
        (if signed b < 0 then (dword a : ℤ) else 0) +
        2 ^ 64 * k := by
  subst hn
  simp only [ne_eq, sign_iff, not_le]
  by_cases ha : signed a < 0 <;> by_cases hb : signed b < 0
  · simp only [if_pos ha, if_pos hb]
    obtain ⟨k, h⟩ := dword_diff w b
    obtain ⟨j, h'⟩ := dword_diff (diff w b) a
    exact ⟨k + j, by omega⟩
  · simp only [if_pos ha, if_neg hb]
    obtain ⟨k, h⟩ := dword_diff w b
    exact ⟨k, by omega⟩
  · simp only [if_neg ha, if_pos hb]
    obtain ⟨k, h⟩ := dword_diff w a
    exact ⟨k, by omega⟩
  · simp only [if_neg ha, if_neg hb]
    exact ⟨0, by omega⟩

/-- The signed product, by the unsigned one. -/
theorem signed_mul (a b : Words) : ∃ k : ℤ, signed a * signed b = dword a * dword b -
    2 ^ 64 * ((if signed a < 0 then (dword b : ℤ) else 0) + if signed b < 0 then
      (dword a : ℤ) else 0) +
      2 ^ 128 * k := by
  have hneg : ∀ c : Words, signed c = dword c - 2 ^ 64 * if signed c < 0 then 1 else 0 :=
    fun c => by
    have := dword_lt c
    obtain ⟨h, hc⟩ | ⟨h, hc⟩ := signed_cases c
    · rw [if_neg (by omega), mul_zero, sub_zero, hc]
    · rw [if_pos (by omega), mul_one, hc]
  by_cases ha : signed a < 0 <;> by_cases hb : signed b < 0
  all_goals
    have ha' := hneg a
    have hb' := hneg b
    simp only [ha, hb, if_true, if_false] at ha' hb' ⊢
    rw [ha', hb']
  · exact ⟨1, by ring⟩
  · exact ⟨0, by ring⟩
  · exact ⟨0, by ring⟩
  · exact ⟨0, by ring⟩

/-- Where two words are the whole of a number in four. -/
theorem fits_iff {lo w : Words} {x k : ℤ} (hx : x = dword lo + 2 ^ 64 * dword w + 2 ^ 128 * k)
    (hbound : |x| ≤ 2 ^ 126) : SignedFits 64 x ↔
      if 2 ^ 63 ≤ dword lo then dword w = 2 ^ 64 - 1 else dword w = 0 := by
  obtain ⟨hlower, hupper⟩ := abs_le.mp hbound
  have := dword_lt lo
  have := dword_lt w
  rw [fits64_iff]
  by_cases hsign : 2 ^ 63 ≤ dword lo
  · rw [if_pos (by omega)]
    omega
  · rw [if_neg (by omega)]
    omega

/-- **`Int64Mul`** is exact or flagged. -/
theorem int64Mul_exact (a b : Words) :
    ExactOrFlagged signed (SignedFits 64) (some (signed a * signed b)) (int64Mul a b) := by
  have hmod := int64Times_modEq a b
  rw [int64Times_eq] at hmod
  have hval : SignedFits 64 (signed a * signed b) → signed (product a b).2 = signed a * signed b :=
    fun hx => signed_eq_of_modEq ((signed_modEq _).symm.trans hmod) hx
  obtain ⟨k, hw⟩ := dword_corrected (a := a) (b := b) (w := (product a b).1) rfl
  obtain ⟨j, hmul⟩ := signed_mul a b
  have hprod := dword_product a b
  unfold int64Mul
  dsimp only
  generalize (if b.1 &&& signBit32 ≠ 0 then _ else _ : Words) = w at *
  have hx : signed a * signed b = dword (product a b).2 + 2 ^ 64 * dword w + 2 ^ 128 * (j - k) := by
    rw [hmul, hw, ← Nat.cast_mul, ← hprod]
    push_cast
    ring
  have hfits := fits_iff hx (abs_mul_signed_le a b)
  have hw2 := w.2.isLt
  have hw1 := w.1.isLt
  by_cases hsign : 2 ^ 63 ≤ dword (product a b).2
  · rw [if_pos hsign] at hfits
    rw [if_pos ((toInt_neg_iff _).mpr hsign)]
    refine ExactOrFlagged.of_ite ?_ hval
    rw [hfits, Ne, and_eq_neg_one_iff]
    unfold dword
    omega
  · rw [if_neg hsign] at hfits
    rw [if_neg (mt (toInt_neg_iff _).mp hsign)]
    refine ExactOrFlagged.of_ite ?_ hval
    rw [hfits, Ne, or_eq_zero_iff]
    unfold dword
    omega

end Extlib

end Kroc
