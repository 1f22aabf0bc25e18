import Kroc.Extlib.Real32ToInt

/-!
# Extlib/Real64ToInt32 — REAL64 to INT32

`R64ToI32` rounds every number to an integer, and is flagged where it does not fit; but the least
integer is found only for what is represented at it or below, so that a number rounded to it from
above is flagged, as is the middle below it.
-/

namespace Kroc

namespace Extlib

variable {mode : Mode} {x : Words}

/-! ## The parts of a REAL64 -/

/-- The exponent and the fraction of a REAL64. -/
theorem real64_fields (x : Words) : ∃ E F : ℕ, E < 2048 ∧ F < 2 ^ 52 ∧
    dword x % 2 ^ 63 = E * 2 ^ 52 + F ∧ dword x / 2 ^ 52 % 2 ^ 11 = E ∧
    (shiftleft 0 (x.1 &&& ~~~signBit32) (dRealShift + 1)).1.toNat = E ∧
    dword (shiftleft x.1 x.2 (dRealShift + 1)) = F * 2 ^ 12 := by
  have hword : dword (0, x.1 &&& ~~~signBit32) = x.1.toNat % 2 ^ 31 := by
    rw [dword, toNat_zero, toNat_clear_sign, Nat.mul_zero, Nat.zero_add]
  have hx := dword_lt x
  have hfst := toNat_fst x
  refine ⟨dword x % 2 ^ 63 / 2 ^ 52, dword x % 2 ^ 52, by omega, by omega, by omega, by omega, ?_,
      ?_⟩
  · rw [toNat_fst, shiftleft_spec, hword, show (dRealShift + 1).toNat = 12 from rfl]
    omega
  · rw [shiftleft_spec, show dword (x.1, x.2) = dword x from rfl,
      show (dRealShift + 1).toNat = 12 from rfl]
    omega

theorem real64_eq_none (h : dword x / 2 ^ 52 % 2 ^ 11 = 2047) : real64 x = none := if_pos h

theorem real64_eq_some (h : dword x / 2 ^ 52 % 2 ^ 11 ≠ 2047) :
    real64 x = some ((if x.1.msb then -1 else 1) * patternValue 52 (-1074) (dword x % 2 ^ 63)) :=
  if_neg h

theorem real64_pow {E : ℕ} (hE : 1 ≤ E) {t : ℤ} (ht : t = E - 1023) :
    patternValue 52 (-1074) (E * 2 ^ 52) = 2 ^ t := by
  rw [patternValue_pow 52 (-1074) hE, ht]
  congr 1
  push_cast
  ring

theorem real64_lt_iff {p q : ℕ} :
    patternValue 52 (-1074) p < patternValue 52 (-1074) q ↔ p < q :=
  (patternValue_strictMono 52 (-1074)).lt_iff_lt

theorem real64_le_iff {p q : ℕ} :
    patternValue 52 (-1074) p ≤ patternValue 52 (-1074) q ↔ p ≤ q :=
  (patternValue_strictMono 52 (-1074)).le_iff_le

theorem dword_eq_sign (x : Words) :
    dword x = (if x.1.msb then 2 ^ 63 else 0) + dword x % 2 ^ 63 := by
  have hlo := x.2.isLt
  have hhi := toNat_eq_sign x.1
  have hx : dword x = 2 ^ 32 * x.1.toNat + x.2.toNat := rfl
  split_ifs at hhi ⊢ <;> omega

theorem abs_value (neg : Bool) {v : ℚ} (hv : 0 ≤ v) : |(if neg then -1 else 1) * v| = v := by
  cases neg with
  | true => rw [if_pos rfl, neg_one_mul, abs_neg, abs_of_nonneg hv]
  | false => rw [if_neg Bool.false_ne_true, one_mul, abs_of_nonneg hv]

/-- What is in range of a power of two. -/
theorem abs_real64_lt {E : ℕ} {t : ℤ} (hE : 1 ≤ E) (ht : t = E - 1023)
    (h : dword x % 2 ^ 63 < E * 2 ^ 52) {q : ℚ} (hq : q ∈ real64 x) : |q| < 2 ^ t := by
  have hfield : dword x / 2 ^ 52 % 2 ^ 11 ≠ 2047 := fun hnone => by
    rw [real64_eq_none hnone] at hq
    cases hq
  rw [real64_eq_some hfield] at hq
  obtain rfl := Option.mem_some_iff.mp hq
  rw [abs_value _ (patternValue_nonneg _ _ _), ← real64_pow hE ht]
  exact real64_lt_iff.mpr h

section Small

variable {α : Type*} {value : α → ℤ} {Fits : ℤ → Prop} {zero one neg : α}

/-- **Below a half** the integer is nought. -/
theorem exact_of_small (mode : Mode) (h0 : Fits 0) (hv0 : value zero = 0)
    (h : dword x % 2 ^ 63 < 1022 * 2 ^ 52) :
    ExactOrFlagged value Fits ((real64 x).map mode.int) (some zero) := by
  have hlt : patternValue 52 (-1074) (dword x % 2 ^ 63) <
      patternValue 52 (-1074) (1022 * 2 ^ 52) := real64_lt_iff.mpr h
  rw [real64_pow (t := -1) (by norm_num) (by norm_num),
    show (2 : ℚ) ^ (-1 : ℤ) = 1 / 2 by norm_num] at hlt
  rw [real64_eq_some (by omega), Option.map_some,
    int_eq_zero mode x.1.msb (patternValue_nonneg _ _ _) hlt]
  exact ExactOrFlagged.of_some h0 hv0

/-- **From a half up to one** it is one at most. -/
theorem exact_of_half (mode : Mode) {f : Words} {F : ℕ} (h0 : Fits 0) (h1 : Fits 1) (h2 : Fits (-1))
    (hv0 : value zero = 0) (hv1 : value one = 1) (hv2 : value neg = -1) (hF : F < 2 ^ 52)
    (hp : dword x % 2 ^ 63 = 1022 * 2 ^ 52 + F) (hf : dword f = F * 2 ^ 12) :
    ExactOrFlagged value Fits ((real64 x).map mode.int)
      (if mode = .truncate ∨ f.1 ||| f.2 = 0 then some zero
        else if x.1 &&& signBit32 = 0 then some one else some neg) := by
  have hval : patternValue 52 (-1074) (dword x % 2 ^ 63) =
      ((2 ^ 52 + F : ℕ) : ℚ) / (2 * 2 ^ 52 : ℕ) := by
    rw [hp, patternValue_fields (-1074) (by norm_num) hF,
      mul_zpow_eq_div _ (a := 0) (b := 53) (by norm_num), pow_zero, Nat.mul_one]
    rfl
  rw [real64_eq_some (by omega), Option.map_some, hval, mode.int_eq x.1.msb _ (by norm_num),
    mode.quot_half hF]
  refine exact_half mode x.1 (or_congr Iff.rfl ?_) h0 h1 h2 hv0 hv1 hv2
  have hword : dword f = 2 ^ 32 * f.1.toNat + f.2.toNat := rfl
  rw [or_eq_zero_iff]
  omega

end Small

/-! ## REAL64 to INT32 -/

/-- **What `R64ToI32` flags although the least number is near**: a negative number that is rounded
to it from above, or is in the middle between it and the next below. -/
def MissesLeast (q : ℚ) : Prop :=
  q < 0 ∧ (2 ^ 31 - 1 / 2 ≤ |q| ∧ |q| < 2 ^ 31 ∨ |q| = 2 ^ 31 + 1 / 2)

theorem not_missesLeast_of_pos {v : ℚ} (hv : 0 ≤ v) {neg : Bool} (hneg : neg = false) :
    ¬ MissesLeast ((if neg then -1 else 1) * v) := by
  rw [hneg, if_neg Bool.false_ne_true, one_mul]
  exact fun h => absurd h.1 (not_lt.mpr hv)

theorem missesLeast_iff {v : ℚ} (hv : 0 < v) : MissesLeast ((if true then -1 else 1) * v) ↔
    2 ^ 31 - 1 / 2 ≤ v ∧ v < 2 ^ 31 ∨ v = 2 ^ 31 + 1 / 2 := by
  rw [MissesLeast, abs_value true hv.le, and_iff_right]
  rw [if_pos rfl]
  linarith

theorem not_missesLeast_of_lt {q : ℚ} (h : |q| < 2 ^ 31 - 1 / 2) : ¬ MissesLeast q := by
  rintro ⟨-, ⟨hle, -⟩ | heq⟩ <;> linarith

theorem not_missesLeast_of_gt (neg : Bool) {v : ℚ} (hv : 0 ≤ v) (h : 2 ^ 31 + 1 / 2 < v) :
    ¬ MissesLeast ((if neg then -1 else 1) * v) := by
  rintro ⟨-, ⟨-, hlt⟩ | heq⟩
  · rw [abs_value neg hv] at hlt
    linarith
  · rw [abs_value neg hv] at heq
    linarith

/-- The numbers next to the least. -/
theorem real64_least (h : x.1 = real64MinInt32Hi) : x.1.msb = true ∧
    dword x / 2 ^ 52 % 2 ^ 11 = 1054 ∧ patternValue 52 (-1074) (dword x % 2 ^ 63) =
      ((2 ^ 52 + x.2.toNat : ℕ) : ℚ) / (2 ^ 21 : ℕ) := by
  have hlo := x.2.isLt
  have hx : dword x = 2 ^ 32 * x.1.toNat + x.2.toNat := rfl
  have hhi : x.1.toNat = 3252682752 := congrArg BitVec.toNat h
  refine ⟨by rw [h]; decide, by omega, ?_⟩
  rw [show dword x % 2 ^ 63 = 1054 * 2 ^ 52 + x.2.toNat by omega,
    patternValue_fields (-1074) (by norm_num) (by omega),
    mul_zpow_eq_div _ (a := 0) (b := 21) (by norm_num), pow_zero, Nat.mul_one]

/-- What these round to. -/
theorem quot_least (mode : Mode) {L : ℕ} (hL : L < 2 ^ 32) :
    mode.quot (2 ^ 52 + L) (2 ^ 21) = 2 ^ 31 ↔ L < 2 ^ 20 ∨ (mode = .truncate ∧ L < 2 ^ 21) ∨
      (mode = .nearest ∧ L = 2 ^ 20) := by
  cases mode with
  | truncate =>
    change (2 ^ 52 + L) / 2 ^ 21 = 2 ^ 31 ↔ _
    simp
    omega
  | nearest =>
    rw [RoundMode.quot_nearest_iff (by norm_num) (by norm_num)]
    simp
    omega

/-- The integer part of a significand, from its high word. -/
theorem mul_add_div_two_pow {e w m c : ℕ} (he : e ≤ w) (hc : c < 2 ^ e) :
    (2 ^ e * m + c) / 2 ^ w = 2 ^ e * m / 2 ^ w := by
  obtain ⟨d, rfl⟩ := Nat.exists_eq_add_of_le he
  rw [pow_add, ← Nat.div_div_eq_div_mul, ← Nat.div_div_eq_div_mul,
    Nat.mul_add_div (Nat.two_pow_pos e), Nat.div_eq_of_lt hc, Nat.add_zero,
    Nat.mul_div_cancel_left _ (Nat.two_pow_pos e)]

/-- **A leading bit and a fraction of two words**, shifted up: the integer part and the fraction. -/
theorem shifted_significand {f : Words} {places : Bit32} {e F : ℕ} (hf : dword f = F * 2 ^ 12)
    (hF : F < 2 ^ 52) (hp : places.toNat = e) (he : e ≤ 31) :
    (shiftleft 1 f.1 places).1.toNat = (2 ^ 52 + F) * 2 ^ (12 + e) / 2 ^ 64 ∧
      dword (shiftleft f.1 f.2 places) = (2 ^ 52 + F) * 2 ^ (12 + e) % 2 ^ 64 := by
  have hfst := toNat_fst f
  have hsnd := toNat_snd f
  have hpow : 2 ^ (12 + e) = 2 ^ 12 * 2 ^ e := pow_add 2 12 e
  have he2 : 2 ^ e ≤ 2 ^ 31 := Nat.pow_le_pow_right Nat.two_pos he
  constructor
  · have hword : dword (1, f.1) = 2 ^ 32 + F * 2 ^ 12 / 2 ^ 32 := by
      rw [dword, toNat_one, hfst, hf, Nat.mul_one]
    have hsplit : (2 ^ 52 + F) * 2 ^ (12 + e) =
        2 ^ 32 * (2 ^ e * (2 ^ 32 + F * 2 ^ 12 / 2 ^ 32)) + 2 ^ e * (F * 2 ^ 12 % 2 ^ 32) := by
      have := Nat.div_add_mod (F * 2 ^ 12) (2 ^ 32)
      rw [hpow]
      calc (2 ^ 52 + F) * (2 ^ 12 * 2 ^ e) = 2 ^ e * (2 ^ 64 + F * 2 ^ 12) := by ring
        _ = 2 ^ e * (2 ^ 64 + (2 ^ 32 * (F * 2 ^ 12 / 2 ^ 32) + F * 2 ^ 12 % 2 ^ 32)) := by
          rw [this]
        _ = _ := by ring
    have hc : 2 ^ e * (F * 2 ^ 12 % 2 ^ 32) / 2 ^ 32 < 2 ^ e := by
      rw [Nat.div_lt_iff_lt_mul (by norm_num)]
      exact Nat.mul_lt_mul_of_pos_left (Nat.mod_lt _ (by norm_num)) (Nat.two_pow_pos e)
    have hprod : 2 ^ e * (2 ^ 32 + F * 2 ^ 12 / 2 ^ 32) < 2 ^ 31 * 2 ^ 33 :=
      Nat.mul_lt_mul_of_le_of_lt he2 (by omega) (by norm_num)
    rw [toNat_fst, shiftleft_spec, hword, hp, Nat.mul_comm _ (2 ^ e), Nat.mod_eq_of_lt (by omega),
      hsplit, show 2 ^ 64 = 2 ^ 32 * 2 ^ 32 from rfl, ← Nat.div_div_eq_div_mul,
      Nat.mul_add_div (by norm_num), mul_add_div_two_pow (by omega) hc]
  · have hsplit : (2 ^ 52 + F) * 2 ^ (12 + e) = 2 ^ 64 * 2 ^ e + F * 2 ^ 12 * 2 ^ e := by
      rw [hpow]
      ring
    rw [shiftleft_spec, show dword (f.1, f.2) = dword f from rfl, hf, hp, hsplit, Nat.mul_add_mod]

/-- **From `2 ^ 31` on**: what is flagged does not fit, but for a middle. -/
theorem flagged_large (mode : Mode) (x : Words) (hE : dword x / 2 ^ 52 % 2 ^ 11 ≠ 2047)
    (hp : 1054 * 2 ^ 52 ≤ dword x % 2 ^ 63)
    (hleast : x.1 = real64MinInt32Hi → 2 ^ 20 ≤ x.2.toNat ∧
        (mode = .truncate → 2 ^ 21 ≤ x.2.toNat)) :
    ExactOrFlagged BitVec.toInt (SignedFits 32) ((real64 x).map mode.int) (none : Option Bit32) ↔
      mode = .truncate ∨ ∀ q ∈ real64 x, ¬ MissesLeast q := by
  have hv := patternValue_nonneg 52 (-1074) (dword x % 2 ^ 63)
  have hle : patternValue 52 (-1074) (1054 * 2 ^ 52) ≤ patternValue 52 (-1074) (dword x % 2 ^ 63) :=
    real64_le_iff.mpr hp
  rw [real64_pow (t := 31) (by norm_num) (by norm_num)] at hle
  rw [real64_eq_some hE, Option.map_some, ExactOrFlagged.none_iff]
  simp only [Option.mem_some_iff, forall_eq']
  by_cases hx : x.1 = real64MinInt32Hi
  · obtain ⟨hmsb, -, hval⟩ := real64_least hx
    obtain ⟨hlo, htrunc⟩ := hleast hx
    have hlt := x.2.isLt
    have hquot := quot_least mode hlt
    have hge : 2 ^ 31 ≤ mode.quot (2 ^ 52 + x.2.toNat) (2 ^ 21) :=
      le_trans (by omega) (mode.div_le_quot _ _)
    have hfits : ¬ SignedFits 32 (mode.int ((if true then -1 else 1) *
        patternValue 52 (-1074) (dword x % 2 ^ 63))) ↔
          ¬ mode.quot (2 ^ 52 + x.2.toNat) (2 ^ 21) = 2 ^ 31 := by
      have hint := mode.int_eq true (2 ^ 52 + x.2.toNat) (D := 2 ^ 21) (by norm_num)
      rw [hval, hint, if_pos rfl, SignedFits]
      generalize mode.quot (2 ^ 52 + x.2.toNat) (2 ^ 21) = m at *
      norm_num
      omega
    rw [hmsb, hfits, hquot, missesLeast_iff (by linarith), hval]
    cases mode with
    | truncate =>
      have := htrunc rfl
      exact iff_of_true (by simp; omega) (Or.inl rfl)
    | nearest =>
      have hmid : ((2 ^ 52 + x.2.toNat : ℕ) : ℚ) / (2 ^ 21 : ℕ) = 2 ^ 31 + 1 / 2 ↔
          x.2.toNat = 2 ^ 20 := by
        rw [div_eq_iff (by norm_num)]
        push_cast
        constructor
        · intro h
          have : (x.2.toNat : ℚ) = 2 ^ 20 := by linarith
          exact_mod_cast this
        · intro h
          rw [h]
          norm_num
      rw [hval] at hle
      have hmode : ¬ RoundMode.nearest = .truncate := by decide
      rw [hmid, or_iff_right hmode]
      refine not_congr ⟨fun h => Or.inr ?_, fun h => Or.inr (Or.inr ⟨rfl, ?_⟩)⟩
      · rcases h with h | ⟨h, -⟩ | ⟨-, h⟩
        · omega
        · cases h
        · exact h
      · rcases h with ⟨-, h⟩ | h
        · exact absurd h (not_lt.mpr hle)
        · exact h
  · cases hmsb : x.1.msb with
    | false =>
      refine iff_of_true (not_fits_of_le mode false hv (n := 32) (B := 2 ^ 31) rfl ?_)
        (Or.inr (not_missesLeast_of_pos hv rfl))
      rw [if_neg Bool.false_ne_true]
      exact_mod_cast hle
    | true =>
      have hsign := toNat_eq_sign x.1
      rw [hmsb, if_pos rfl] at hsign
      have hne : x.1.toNat ≠ 3252682752 := fun h => hx (eq_iff_toNat.mpr h)
      have hfst := toNat_fst x
      have hfar : patternValue 52 (-1074) (1054 * 2 ^ 52 + 2 ^ 32) ≤
          patternValue 52 (-1074) (dword x % 2 ^ 63) := real64_le_iff.mpr (by omega)
      rw [patternValue_fields (-1074) (by norm_num) (by norm_num)] at hfar
      have hnum : (((2 ^ 52 + 2 ^ 32 : ℕ) : ℚ)) * 2 ^ (((1054 : ℕ) : ℤ) - 1 + -1074) =
          2 ^ 31 + 2 ^ 11 := by norm_num
      rw [hnum] at hfar
      refine iff_of_true (not_fits_of_le mode true hv (n := 32) (B := 2 ^ 31) rfl ?_)
        (Or.inr (not_missesLeast_of_gt true hv (lt_of_lt_of_le (by norm_num) hfar)))
      rw [if_pos rfl]
      refine le_trans ?_ hfar
      norm_num

/-- A middle that is rounded up, or what is above it. -/
theorem half_le_iff {S : ℕ} : 2 * (2 ^ 31 * 2 ^ 64) ≤ 2 * S + 2 ^ 64 ↔
    (2 : ℚ) ^ 31 - 1 / 2 ≤ (S : ℚ) / (2 ^ 64 : ℕ) := by
  rw [le_div_iff₀ (by norm_num), show ((2 : ℚ) ^ 31 - 1 / 2) * ((2 ^ 64 : ℕ) : ℚ) =
    ((2 ^ 95 - 2 ^ 63 : ℕ) : ℚ) by norm_num, Nat.cast_le]
  omega

/-- **An integer part that fits, and its fraction**: what is rounded up to `2 ^ 31` is flagged, even
where it is negative. -/
theorem rounded_word_iff (mode : Mode) (x : Bit32) {g : Bit32} {t : Words} {S : ℕ}
    (hg : g.toNat = S / 2 ^ 64) (ht : dword t = S % 2 ^ 64) (hlt : S / 2 ^ 64 < 2 ^ 31)
    {up : Bool} (hup : increases mode t.1 signBit32 (~~~signBit32) t.2 g = up) :
    ExactOrFlagged BitVec.toInt (SignedFits 32)
        (some (mode.int ((if x.msb then -1 else 1) * ((S : ℚ) / (2 ^ 64 : ℕ)))))
        (if up = true ∧ (if up then (longsum g 1 0).2 else g).toInt < 0 then none
          else if x &&& signBit32 = 0 then some (if up then (longsum g 1 0).2 else g)
          else some (-(if up then (longsum g 1 0).2 else g))) ↔
      mode = .truncate ∨ ¬ MissesLeast ((if x.msb then -1 else 1) * ((S : ℚ) / (2 ^ 64 : ℕ))) := by
  have hfst := toNat_fst t
  have hsnd := toNat_snd t
  have hquot := quot_eq_increases mode t.1 t.2 g (k := 31)
    (S := S) (h := 2 ^ 63) (by norm_num) (by norm_num) (by omega) (by omega) (by omega)
  change mode.quot S (2 ^ 64) =
    _ + (increases mode t.1 signBit32 (~~~signBit32) t.2 g).toNat at hquot
  rw [hup, show 2 * 2 ^ 63 = 2 ^ 64 from rfl, ← hg] at hquot
  have hv : (0 : ℚ) ≤ (S : ℚ) / (2 ^ 64 : ℕ) := by positivity
  have hvlt : (S : ℚ) / (2 ^ 64 : ℕ) < 2 ^ 31 := by
    rw [div_lt_iff₀ (by norm_num)]
    have : S < 2 ^ 31 * 2 ^ 64 := by omega
    exact_mod_cast this
  have hword : (if up then (longsum g 1 0).2 else g).toNat = mode.quot S (2 ^ 64) := by
    rw [hquot]
    cases up with
    | true =>
      obtain ⟨hsum, -⟩ := longsum_spec g 1 0
      rw [dword, toNat_one, toNat_zero] at hsum
      have := (longsum g 1 0).2.isLt
      rw [if_pos rfl, Bool.toNat_true]
      omega
    | false => rw [if_neg Bool.false_ne_true, Bool.toNat_false, Nat.add_zero]
  have hsigned := toInt_cases (if up then (longsum g 1 0).2 else g)
  have hq := Bool.toNat_le up
  rw [ite_sign x _ some, mode.int_eq x.msb S (by norm_num)]
  generalize (if up = true then (longsum g 1 0).2 else g) = r at *
  rcases Nat.lt_or_ge (mode.quot S (2 ^ 64)) (2 ^ 31) with hfits | hbig
  · have hnone : ¬ (up = true ∧ r.toInt < 0) := fun h => by omega
    rw [if_neg hnone]
    refine iff_of_true (exact_magnitude x.msb hword (by split_ifs <;> omega)) ?_
    cases mode with
    | truncate => exact Or.inl rfl
    | nearest =>
      refine Or.inr (not_missesLeast_of_lt (not_le.mp fun h => ?_))
      rw [abs_value _ hv] at h
      have hne := (RoundMode.quot_nearest_iff (N := S) (D := 2 ^ 64) (q := 2 ^ 31) (by norm_num)
        (by norm_num)).mpr ⟨half_le_iff.mpr h, by omega⟩
      omega
  · have hquot31 : mode.quot S (2 ^ 64) = 2 ^ 31 := by omega
    have hnear : ¬ mode = .truncate := fun h => by
      rw [h] at hquot31
      change S / 2 ^ 64 = 2 ^ 31 at hquot31
      omega
    have hmode : mode = .nearest := by
      cases mode
      · exact absurd rfl hnear
      · rfl
    have hge := (RoundMode.quot_nearest_iff (N := S) (D := 2 ^ 64) (q := 2 ^ 31) (by norm_num)
      (by norm_num)).mp (hmode ▸ hquot31)
    have hnone : up = true ∧ r.toInt < 0 := by
      cases up with
      | true => exact ⟨rfl, by omega⟩
      | false =>
        rw [Bool.toNat_false] at hquot
        omega
    rw [if_pos hnone, ExactOrFlagged.none_iff, hquot31, or_iff_right hnear, SignedFits]
    cases x.msb with
    | true =>
      rw [missesLeast_iff (lt_of_lt_of_le (by norm_num) (half_le_iff.mp hge.1))]
      refine iff_of_false (not_not.mpr (by norm_num)) (not_not.mpr (Or.inl ⟨?_, hvlt⟩))
      exact half_le_iff.mp hge.1
    | false => exact iff_of_true (by norm_num) (not_missesLeast_of_pos hv rfl)

/-- The test for the least number, and what it leaves. -/
theorem least_test_iff (mode : Mode) {f : Words} (h : x.1 = real64MinInt32Hi)
    (hf : dword f = dword x * 2 ^ 12 % 2 ^ 64) :
    f.1 = 0 ∨ (mode = .truncate ∧ f.1 = 1) ↔
      x.2.toNat < 2 ^ 20 ∨ (mode = .truncate ∧ x.2.toNat < 2 ^ 21 ∧ 2 ^ 20 ≤ x.2.toNat) := by
  have hx : dword x = 2 ^ 32 * x.1.toNat + x.2.toNat := rfl
  have hhi : x.1.toNat = 3252682752 := congrArg BitVec.toNat h
  have hfst := toNat_fst f
  rw [eq_iff_toNat, eq_iff_toNat, toNat_zero, toNat_one]
  refine or_congr (by omega) (and_congr_right fun _ => by omega)

/-- **A number that rounds to the least** from what is represented. -/
theorem least_exact (h : x.1 = real64MinInt32Hi)
    (hlo : x.2.toNat < 2 ^ 20 ∨ (mode = .truncate ∧ x.2.toNat < 2 ^ 21)) :
    ExactOrFlagged BitVec.toInt (SignedFits 32) ((real64 x).map mode.int) (some signBit32) ↔
      mode = .truncate ∨ ∀ q ∈ real64 x, ¬ MissesLeast q := by
  obtain ⟨hmsb, hexp, hval⟩ := real64_least h
  have hquot := (quot_least mode x.2.isLt).mpr (hlo.imp_right Or.inl)
  rw [real64_eq_some (by omega), Option.map_some, hval, mode.int_eq x.1.msb _ (by norm_num), hquot,
    hmsb]
  refine iff_of_true (ExactOrFlagged.of_some (by decide) (by decide)) (hlo.symm.imp And.left ?_)
  intro hlt q hq
  obtain rfl := Option.mem_some_iff.mp hq
  rw [missesLeast_iff (by positivity), not_or]
  have hge : (2 : ℚ) ^ 31 ≤ ((2 ^ 52 + x.2.toNat : ℕ) : ℚ) / (2 ^ 21 : ℕ) := by
    rw [le_div_iff₀ (by norm_num)]
    exact_mod_cast show 2 ^ 31 * 2 ^ 21 ≤ 2 ^ 52 + x.2.toNat by omega
  have hne : ((2 ^ 52 + x.2.toNat : ℕ) : ℚ) / (2 ^ 21 : ℕ) ≠ 2 ^ 31 + 1 / 2 := fun heq => by
    rw [div_eq_iff (by norm_num)] at heq
    have : 2 ^ 52 + x.2.toNat = 2 ^ 52 + 2 ^ 20 := by
      have hmid : ((2 : ℚ) ^ 31 + 1 / 2) * ((2 ^ 21 : ℕ) : ℚ) = ((2 ^ 52 + 2 ^ 20 : ℕ) : ℚ) := by
        norm_num
      exact_mod_cast heq.trans hmid
    omega
  exact ⟨fun h => absurd h.2 (not_lt.mpr hge), hne⟩

/-- **`R64ToI32`** rounds, and is flagged where the integer does not fit, unless a negative number
is rounded to the least from outside what is represented. -/
theorem r64ToI32_exact_iff (mode : Mode) (x : Words) :
    ExactOrFlagged BitVec.toInt (SignedFits 32) ((real64 x).map mode.int) (r64ToI32 mode x) ↔
      mode = .truncate ∨ ∀ q ∈ real64 x, ¬ MissesLeast q := by
  obtain ⟨E, F, hE, hF, hp, hexp, hxexp, hxfrac⟩ := real64_fields x
  have hfrac : dword (shiftleft x.1 x.2 (dRealShift + 1)) = dword x * 2 ^ 12 % 2 ^ 64 := by
    rw [hxfrac]
    omega
  have hv := patternValue_nonneg 52 (-1074) (dword x % 2 ^ 63)
  unfold r64ToI32
  dsimp only
  generalize (shiftleft 0 (x.1 &&& ~~~signBit32) (dRealShift + 1)).1 = s at *
  generalize shiftleft x.1 x.2 (dRealShift + 1) = f at *
  have hint : s.toInt = E := by rw [toInt_of_lt (by omega), hxexp]
  rw [hint]
  by_cases hinf : s = dRealExp
  · have hE : E = 2047 := by rw [← hxexp, hinf]; rfl
    rw [if_pos hinf, real64_eq_none (hexp.trans hE)]
    exact iff_of_true ExactOrFlagged.of_undefined (Or.inr fun q hq => by cases hq)
  have hE2047 : E ≠ 2047 := fun h => hinf <| by
    rw [eq_iff_toNat, hxexp, h]
    rfl
  have hsome := real64_eq_some (x := x) (fun h => hE2047 (hexp.symm.trans h))
  rw [if_neg hinf]
  by_cases hmin : x.1 = real64MinInt32Hi ∧ (f.1 = 0 ∨ mode = .truncate ∧ f.1 = 1)
  · rw [if_pos hmin]
    have htest := (least_test_iff mode hmin.1 hfrac).mp hmin.2
    exact least_exact hmin.1 (htest.imp_right fun h => ⟨h.1, h.2.1⟩)
  rw [if_neg hmin]
  have hleast : x.1 = real64MinInt32Hi →
      2 ^ 20 ≤ x.2.toNat ∧ (mode = .truncate → 2 ^ 21 ≤ x.2.toNat) := fun h => by
    have htest : ¬ (f.1 = 0 ∨ mode = .truncate ∧ f.1 = 1) := fun ht => hmin ⟨h, ht⟩
    rw [least_test_iff mode h hfrac, not_or, not_lt] at htest
    exact ⟨htest.1, fun hm => not_lt.mp fun hlt => htest.2 ⟨hm, hlt, htest.1⟩⟩
  by_cases hsmall : (E : ℤ) < (dRealXcess - 1).toInt
  · rw [if_pos hsmall]
    have hlt : dword x % 2 ^ 63 < 1022 * 2 ^ 52 := by
      have : (dRealXcess - 1).toInt = 1022 := by decide
      omega
    refine iff_of_true (exact_of_small mode (by decide) rfl hlt) (Or.inr fun q hq => ?_)
    exact not_missesLeast_of_lt
      ((abs_real64_lt (t := -1) (by norm_num) (by norm_num) hlt hq).trans (by norm_num))
  rw [if_neg hsmall]
  by_cases hhalf : (E : ℤ) < dRealXcess.toInt
  · rw [if_pos hhalf]
    obtain rfl : E = 1022 := by
      have : (dRealXcess - 1).toInt = 1022 := by decide
      have : dRealXcess.toInt = 1023 := by decide
      omega
    refine iff_of_true (exact_of_half mode (by decide) (by decide) (by decide) rfl (by decide)
      (by decide) hF hp hxfrac) (Or.inr fun q hq => ?_)
    exact not_missesLeast_of_lt ((abs_real64_lt (E := 1023) (t := 0) (by norm_num)
      (by norm_num) (by omega) hq).trans (by norm_num))
  have hE1023 : 1023 ≤ E := by
    have : dRealXcess.toInt = 1023 := by decide
    omega
  rw [if_neg hhalf]
  obtain ⟨e, rfl⟩ := Nat.exists_eq_add_of_le hE1023
  have hsub : (s - dRealXcess).toNat = e := by
    rw [BitVec.toNat_sub, hxexp]
    change (2 ^ 32 - 1023 + (1023 + e)) % 2 ^ 32 = e
    omega
  have hsub' : (s - dRealXcess).toInt = e := by rw [toInt_of_lt (by omega), hsub]
  rw [hsub', show (bitsPerWord32 - 2).toInt = 30 by decide]
  by_cases hbig : (e : ℤ) > 30
  · rw [if_pos hbig]
    exact flagged_large mode x (by omega) (by omega) hleast
  rw [if_neg hbig]
  have he : e ≤ 30 := by omega
  have hval : patternValue 52 (-1074) (dword x % 2 ^ 63) =
      (((2 ^ 52 + F) * 2 ^ (12 + e) : ℕ) : ℚ) / (2 ^ 64 : ℕ) := by
    rw [hp, patternValue_fields (-1074) (by omega) hF]
    exact mul_zpow_eq_div _ (by push_cast; ring)
  obtain ⟨hguard, hrest⟩ := shifted_significand hxfrac hF hsub (by omega)
  have hlt : (2 ^ 52 + F) * 2 ^ (12 + e) / 2 ^ 64 < 2 ^ 31 := by
    have hpow : 2 ^ (12 + e) ≤ 2 ^ 42 := Nat.pow_le_pow_right Nat.two_pos (by omega)
    have hprod : (2 ^ 52 + F) * 2 ^ (12 + e) < 2 ^ 53 * 2 ^ 42 :=
      Nat.mul_lt_mul_of_lt_of_le (by omega) hpow (Nat.two_pow_pos _)
    omega
  have hiff := rounded_word_iff mode x.1 hguard hrest hlt rfl
  rw [← hval] at hiff
  rw [hsome, Option.map_some]
  simp only [Option.mem_some_iff, forall_eq']
  exact hiff

end Extlib

end Kroc
