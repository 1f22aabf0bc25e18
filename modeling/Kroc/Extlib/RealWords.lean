import Kroc.Extlib.RealConv

/-!
# Extlib/RealWords — words, bits and significands

What the bits that are cut off a word say about rounding, and the REAL32 that a significand of two
words rounds to.
-/

namespace Kroc

namespace Extlib

variable {mode : Mode} {x bits more frac : Bit32} {k n : ℕ}

/-! ## Words and bits -/

theorem toNat_fst (x : Words) : x.1.toNat = dword x / 2 ^ 32 := by
  have := x.2.isLt
  unfold dword
  omega

theorem toNat_snd (x : Words) : x.2.toNat = dword x % 2 ^ 32 := by
  have := x.2.isLt
  unfold dword
  omega

theorem toNat_and_low (x : Bit32) (hn : n ≤ 32) :
    (x &&& BitVec.ofNat 32 (2 ^ n - 1)).toNat = x.toNat % 2 ^ n := by
  have hlt : 2 ^ n - 1 < 2 ^ 32 := Nat.lt_of_lt_of_le (Nat.sub_lt (Nat.two_pow_pos n) Nat.one_pos)
    (Nat.pow_le_pow_right Nat.two_pos hn)
  rw [BitVec.toNat_and, BitVec.toNat_ofNat, Nat.mod_eq_of_lt hlt, Nat.and_two_pow_sub_one_eq_mod]

theorem toNat_shiftLeft_one (x : Bit32) : (x <<< 1).toNat = 2 * x.toNat % 2 ^ 32 := by
  rw [BitVec.toNat_shiftLeft, Nat.shiftLeft_eq, pow_one, mul_comm]

theorem and_bit_eq_zero_iff (x : Bit32) (hk : k < 32) :
    x &&& BitVec.ofNat 32 (2 ^ k) = 0 ↔ x.toNat / 2 ^ k % 2 = 0 := by
  have hpow : BitVec.ofNat 32 (2 ^ k) = BitVec.twoPow 32 k := BitVec.eq_of_toNat_eq <| by
    rw [BitVec.toNat_twoPow, BitVec.toNat_ofNat]
  rw [hpow, and_twoPow_eq_zero x hk]
  omega

/-- **The increase**: the highest of the bits that were cut off, and another one or an
odd fraction. -/
theorem increases_iff (mode : Mode) (bits more frac : Bit32) (hk : k < 32) :
    increases mode bits (BitVec.ofNat 32 (2 ^ k)) (BitVec.ofNat 32 (2 ^ k - 1)) more frac = true ↔
      ¬ (mode = .truncate ∨ bits.toNat / 2 ^ k % 2 = 0) ∧
        ¬ ((bits.toNat % 2 ^ k = 0 ∧ more.toNat = 0) ∧ frac.toNat % 2 = 0) := by
  have hbit := and_bit_eq_zero_iff bits hk
  have hrest : ((bits &&& BitVec.ofNat 32 (2 ^ k - 1)) ||| more) ||| (frac &&& 1) = 0 ↔
      (bits.toNat % 2 ^ k = 0 ∧ more.toNat = 0) ∧ frac.toNat % 2 = 0 := by
    refine (or_eq_zero_iff _ _).trans (and_congr (eq_iff_toNat.symm.trans
      ((or_eq_zero_iff _ _).trans ?_)) ?_)
    · rw [toNat_and_low bits hk.le]
    · rw [toNat_and_one]
  unfold increases
  split_ifs with h₁ h₂
  · rw [hbit] at h₁
    exact iff_of_false id fun h => h.1 h₁
  · exact iff_of_false id fun h => h.2 (hrest.mp h₂)
  · rw [hbit] at h₁
    exact iff_of_true rfl ⟨h₁, mt hrest.mpr h₂⟩

/-- **A rounded quotient**, by the bits that were cut off. -/
theorem quot_eq_increases (mode : Mode) (bits more frac : Bit32) {S h : ℕ} (hh : 0 < h)
    (hk : k < 32)
    (hbit : bits.toNat / 2 ^ k % 2 = S / h % 2)
    (hrest : bits.toNat % 2 ^ k = 0 ∧ more.toNat = 0 ↔ S % h = 0)
    (hfrac : frac.toNat % 2 = S / (2 * h) % 2) :
    mode.quot S (2 * h) = S / (2 * h) + (increases mode bits (BitVec.ofNat 32 (2 ^ k))
      (BitVec.ofNat 32 (2 ^ k - 1)) more frac).toNat := by
  have hup := increases_iff mode bits more frac hk
  rw [RoundMode.quot_eq mode S hh]
  rw [hbit, hrest, hfrac] at hup
  congr 1
  split_ifs with h₁ h₂
  · rw [Bool.eq_false_iff.mpr fun h => (hup.mp h).1 h₁]
    rfl
  · rw [Bool.eq_false_iff.mpr fun h => (hup.mp h).2 h₂]
    rfl
  · rw [hup.mpr ⟨h₁, h₂⟩]
    rfl

/-- The word that is increased or not. -/
theorem toNat_ite_succ (up : Bool) (h : x.toNat + 1 < 2 ^ 32) :
    (if up then x + 1 else x).toNat = x.toNat + up.toNat := by
  cases up with
  | true =>
    rw [if_pos rfl, BitVec.toNat_add, toNat_one, Nat.mod_eq_of_lt h]
    rfl
  | false => rfl

/-- A sign bit and the rest. -/
theorem sign_or (negative : Bool) (h : x.toNat < 2 ^ 31) :
    ((if negative then signBit32 else 0) ||| x).toNat =
      (if negative then 2 ^ 31 else 0) + x.toNat := by
  cases negative with
  | true => exact toNat_or_of_lt (n := 31) (a := 1) rfl h
  | false =>
    rw [if_neg Bool.false_ne_true, if_neg Bool.false_ne_true, zero_add]
    exact congrArg BitVec.toNat (BitVec.zero_or (x := x))

theorem sign_or_spec (negative : Bool) (h : x.toNat < 2 ^ 31) :
    ((if negative then signBit32 else 0) ||| x).msb = negative ∧
      ((if negative then signBit32 else 0) ||| x).toNat % 2 ^ 31 = x.toNat := by
  have hor := sign_or negative h
  rw [BitVec.msb_eq_decide]
  cases negative with
  | true =>
    rw [if_pos rfl, if_pos rfl] at hor
    rw [if_pos rfl, hor]
    exact ⟨decide_eq_true (by omega), by omega⟩
  | false =>
    rw [if_neg Bool.false_ne_true, if_neg Bool.false_ne_true, zero_add] at hor
    rw [if_neg Bool.false_ne_true, hor]
    exact ⟨decide_eq_false (by omega), Nat.mod_eq_of_lt h⟩

theorem toInt_of_lt {x : Bit32} (h : x.toNat < 2 ^ 31) : x.toInt = x.toNat := by
  have := toInt_cases x
  omega

theorem sign32_iff (n : Bit32) : n &&& signBit32 ≠ 0 ↔ n.toInt < 0 := by
  have := toInt_cases n
  rw [Ne, and_signBit32]
  omega

theorem magnitude32 (n : Bit32) :
    (if n.toInt < 0 then (n ^^^ -1) + 1 else n).toNat = n.toInt.natAbs := by
  have := toInt_cases n
  have hlt := n.isLt
  split_ifs with h
  · have hall : (-1 : Bit32) = BitVec.allOnes 32 := rfl
    have hneg : (n ^^^ -1) + 1 = -n := by
      rw [hall, BitVec.xor_allOnes, BitVec.neg_eq_not_add]
      rfl
    rw [hneg, BitVec.toNat_neg]
    omega
  · omega

/-- What `NORMALISE` makes of a number. -/
theorem exists_normalise {b : Words} (h : dword b ≠ 0) : ∃ p ≤ 63, (normalise b.1 b.2).1.toNat = p ∧
    dword (normalise b.1 b.2).2 = dword b * 2 ^ p ∧ 2 ^ 63 ≤ dword (normalise b.1 b.2).2 :=
  have hspec := @normalise_spec b.1 b.2 h
  ⟨_, hspec.1, rfl, hspec.2⟩

/-- A sign bit and the rest of two words. -/
theorem sign_or_words (negative : Bool) {x : Words} (h : dword x < 2 ^ 63) :
    ((if negative then signBit32 else 0) ||| x.1).msb = negative ∧
      dword ((if negative then signBit32 else 0) ||| x.1, x.2) % 2 ^ 63 = dword x := by
  have hlo := x.2.isLt
  have hx : dword x = 2 ^ 32 * x.1.toNat + x.2.toNat := rfl
  obtain ⟨hmsb, hmod⟩ := sign_or_spec (x := x.1) negative (by omega)
  refine ⟨hmsb, ?_⟩
  generalize (if negative then signBit32 else 0) ||| x.1 = y at *
  have hy : dword (y, x.2) = 2 ^ 32 * y.toNat + x.2.toNat := rfl
  omega

/-- A carry from the low word to the high one. -/
theorem carry_words {a b c d e f : ℕ} (h : 2 ^ 32 * a + b + 1 < 2 ^ 64) (hc : c ≤ 1)
    (hf : f < 2 ^ 32) (hlo : 2 ^ 32 * c + d = b + 1) (hhi : 2 ^ 32 * e + f = a + c % 2) :
    2 ^ 32 * f + d = 2 ^ 32 * a + b + 1 := by
  omega

/-- One more in two words. -/
theorem dword_longsum_one {x : Words} (h : dword x + 1 < 2 ^ 64) :
    dword ((longsum x.1 0 (longsum x.2 1 0).1).2, (longsum x.2 1 0).2) = dword x + 1 := by
  obtain ⟨lo, hl⟩ : ∃ lo, longsum x.2 1 0 = lo := ⟨_, rfl⟩
  obtain ⟨hi, hh⟩ : ∃ hi, longsum x.1 0 lo.1 = hi := ⟨_, rfl⟩
  obtain ⟨hlo, hcarry⟩ := longsum_spec x.2 1 0
  obtain ⟨hhi, -⟩ := longsum_spec x.1 0 lo.1
  rw [hl] at hlo hcarry ⊢
  rw [hh] at hhi ⊢
  exact carry_words h hcarry hi.2.isLt hlo hhi

/-- One more, or not, in two words. -/
theorem dword_ite_succ (up : Bool) {x : Words} (h : dword x + 1 < 2 ^ 64) :
    dword (if up then ((longsum x.1 0 (longsum x.2 1 0).1).2, (longsum x.2 1 0).2) else x) =
      dword x + up.toNat := by
  cases up with
  | true => rw [if_pos rfl, dword_longsum_one h, Bool.toNat_true]
  | false => rw [if_neg Bool.false_ne_true, Bool.toNat_false, add_zero]

/-! ## Rounding to a REAL32 -/

/-- The exponent and the fraction without its leading bit. -/
theorem toNat_fraction32 {xexp : Bit32} (hi : Bit32) (he : xexp.toNat < 2 ^ 9) :
    (shiftright xexp (hi <<< 1) (realShift + 1)).2.toNat =
      xexp.toNat * 2 ^ 23 + 2 * hi.toNat % 2 ^ 32 / 2 ^ 9 := by
  have hlo := toNat_shiftLeft_one hi
  rw [toNat_snd, shiftright_spec, show (realShift + 1).toNat = 9 from rfl, dword]
  dsimp only
  omega

/-- **A significand is rounded** to a REAL32, by the bits that are below its fraction. -/
theorem roundsToReal32_of_bits (mode : Mode) (negative : Bool) {yfrac guard : Bit32} {S h e : ℕ}
    (hh : 0 < h) (he : 1 ≤ e) (he' : e < 255)
    (hfrac : frac.toNat = (e - 1) * 2 ^ 23 + S / (2 * h)) (hodd : frac.toNat % 2 = S / (2 * h) % 2)
    (hbit : yfrac.toNat / 2 ^ 7 % 2 = S / h % 2)
    (hrest : yfrac.toNat % 2 ^ 7 = 0 ∧ guard.toNat = 0 ↔ S % h = 0)
    (hq : S / (2 * h) < 2 ^ 24) (hlow : e = 1 ∨ 2 ^ 23 ≤ S / (2 * h)) :
    RoundsToReal32 mode negative ((S : ℚ) / (2 * h : ℕ) * 2 ^ ((e : ℤ) - 1 + -149))
      ((if negative then signBit32 else 0) |||
        (if increases mode (yfrac &&& realExp) realRBit realXcess guard frac then frac + 1
          else frac)) ∧
    (if increases mode (yfrac &&& realExp) realRBit realXcess guard frac then frac + 1
      else frac).toNat = (e - 1) * 2 ^ 23 + mode.quot S (2 * h) := by
  have hbits : (yfrac &&& realExp).toNat = yfrac.toNat % 2 ^ 8 :=
    toNat_and_low yfrac (n := 8) (by norm_num)
  have hquot :=
    quot_eq_increases mode (yfrac &&& realExp) guard frac (k := 7) (S := S) hh (by norm_num)
    (by omega) (by rw [← hrest]; omega) hodd
  have hle := RoundMode.quot_le mode S (2 * h)
  have hword := toNat_ite_succ (x := frac)
    (increases mode (yfrac &&& realExp) realRBit realXcess guard frac) (by omega)
  rw [hfrac] at hword
  change mode.quot S (2 * h) = S / (2 * h) +
    (increases mode (yfrac &&& realExp) realRBit realXcess guard frac).toNat at hquot
  have hres : (if increases mode (yfrac &&& realExp) realRBit realXcess guard frac then frac + 1
      else frac).toNat = (e - 1) * 2 ^ 23 + mode.quot S (2 * h) := by
    rw [hword, hquot, Nat.add_assoc]
  refine ⟨?_, hres⟩
  generalize (if increases mode (yfrac &&& realExp) realRBit realXcess guard frac then frac + 1
    else frac) = r at *
  obtain ⟨hmsb, hmod⟩ := sign_or_spec (x := r) negative (by omega)
  refine ⟨hmsb, ?_⟩
  rw [hmod, hres]
  refine isRounded_significand (-149) (by norm_num) (by omega) he hq hlow ?_ mode
  have : realInf.toNat = 255 * 2 ^ 23 := rfl
  omega

/-- The leading bit of a significand is left out of the fraction. -/
theorem fraction_of_high {e h : ℕ} (he : 1 ≤ e) (hlo : 2 ^ 31 ≤ h) (hhi : h < 2 ^ 32) :
    e * 2 ^ 23 + 2 * h % 2 ^ 32 / 2 ^ 9 = (e - 1) * 2 ^ 23 + h / 2 ^ 8 := by
  omega

/-- What is below a fraction of 23 bits, in the two words of a significand. -/
theorem below_fraction (S : ℕ) : S / (2 * 2 ^ 39) = S / 2 ^ 32 / 2 ^ 8 ∧
    S / 2 ^ 39 = S / 2 ^ 32 / 2 ^ 7 ∧
    (S / 2 ^ 32 % 2 ^ 7 = 0 ∧ S % 2 ^ 32 = 0 ↔ S % 2 ^ 39 = 0) := by
  refine ⟨?_, ?_, ?_⟩
  · rw [Nat.div_div_eq_div_mul]; norm_num
  · rw [Nat.div_div_eq_div_mul]; norm_num
  · omega

/-- **A significand of two words is rounded** to a REAL32. -/
theorem roundsToReal32_of_significand (mode : Mode) (negative : Bool) {b : Words} {xexp : Bit32}
    {e : ℕ} (htop : 2 ^ 63 ≤ dword b) (hxexp : xexp.toNat = e) (he : 1 ≤ e) (he' : e < 255)
    (hfrac : frac = (shiftright xexp (b.1 <<< 1) (realShift + 1)).2) :
    RoundsToReal32 mode negative ((dword b : ℚ) / (2 ^ 40 : ℕ) * 2 ^ ((e : ℤ) - 1 + -149))
      ((if negative then signBit32 else 0) |||
        (if increases mode (b.1 &&& realExp) realRBit realXcess b.2 frac then frac + 1 else frac)) ∧
    (if increases mode (b.1 &&& realExp) realRBit realXcess b.2 frac then frac + 1
      else frac).toNat =
      (e - 1) * 2 ^ 23 + mode.quot (dword b) (2 ^ 40) := by
  obtain ⟨hquot, hguard, hrest⟩ := below_fraction (dword b)
  rw [← toNat_fst b] at hquot hguard hrest
  rw [← toNat_snd b] at hrest
  have hlo : 2 ^ 31 ≤ b.1.toNat := by
    rw [toNat_fst, Nat.le_div_iff_mul_le (by norm_num)]
    exact htop
  have hhi := b.1.isLt
  have hfrac' : frac.toNat = (e - 1) * 2 ^ 23 + b.1.toNat / 2 ^ 8 := by
    rw [hfrac, toNat_fraction32 b.1 (by omega), hxexp, fraction_of_high he hlo hhi]
  clear hfrac hxexp
  rw [show 2 ^ 40 = 2 * 2 ^ 39 from rfl]
  refine @roundsToReal32_of_bits frac mode negative b.1 b.2 (dword b) (2 ^ 39) e (by norm_num) he
    he' (hquot ▸ hfrac') ?_ ?_ hrest ?_ (Or.inr ?_)
  · rw [hquot, hfrac']
    clear htop hrest hquot hguard hfrac'
    omega
  · rw [hguard]
  · rw [hquot]
    exact Nat.div_lt_of_lt_mul hhi
  · rw [hquot, Nat.le_div_iff_mul_le (by norm_num)]
    exact hlo

end Extlib

end Kroc
