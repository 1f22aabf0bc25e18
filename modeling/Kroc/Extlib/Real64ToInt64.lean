import Kroc.Extlib.Real64ToInt32

/-!
# Extlib/Real64ToInt64 — REAL64 to INT64

`R64ToI64` rounds every number to an integer, and is flagged where it does not fit; but a number of
32 bits is flagged, and the number that is taken for the least is not the least.
-/

namespace Kroc

namespace Extlib

variable {mode : Mode} {x : Words}

/-! ## What is missed -/

/-- **What `R64ToI64` gets wrong**: numbers of 32 bits are flagged, minus `2 ^ 47` is taken for the
least number, and the least number is flagged. -/
def MissesLong (q : ℚ) : Prop := 2 ^ 31 ≤ |q| ∧ |q| < 2 ^ 32 ∨ q = -2 ^ 47 ∨ q = -2 ^ 63

/-- A number with its sign is minus a power of two when the sign is set and the pattern is that of
the power. -/
theorem real64_eq_neg_pow {E : ℕ} (hE : 1 ≤ E) {t : ℕ} (ht : E = t + 1023) (neg : Bool) {p : ℕ} :
    (if neg then -1 else 1) * patternValue 52 (-1074) p = -2 ^ t ↔ neg = true ∧ p = E * 2 ^ 52 := by
  have hpow : patternValue 52 (-1074) (E * 2 ^ 52) = 2 ^ t := by
    rw [real64_pow (t := t) hE (by omega), zpow_natCast]
  have hinj := (patternValue_strictMono 52 (-1074)).injective.eq_iff (a := p) (b := E * 2 ^ 52)
  have hpos : (0 : ℚ) < 2 ^ t := by positivity
  have hv := patternValue_nonneg 52 (-1074) p
  rw [← hinj, hpow]
  cases neg with
  | true => rw [if_pos rfl, neg_one_mul, neg_inj, and_iff_right rfl]
  | false =>
    rw [if_neg Bool.false_ne_true, one_mul]
    exact iff_of_false (fun h => by linarith) (fun h => Bool.false_ne_true h.1)

theorem not_missesLong_of_lt {q : ℚ} (h : |q| < 2 ^ 31) : ¬ MissesLong q := by
  rintro (⟨hle, -⟩ | rfl | rfl)
  · exact absurd h (not_lt.mpr hle)
  · rw [abs_neg, abs_of_pos (by norm_num)] at h
    norm_num at h
  · rw [abs_neg, abs_of_pos (by norm_num)] at h
    norm_num at h

/-- The number that is taken for the least. -/
theorem least64_iff (x : Words) : x.1 = real64MinInt64Hi ∧ x.2 = 0 ↔
    x.1.msb = true ∧ dword x % 2 ^ 63 = 1070 * 2 ^ 52 := by
  have hsign := dword_eq_sign x
  have hlo := x.2.isLt
  have hhi := toNat_eq_sign x.1
  have hmod := Nat.mod_lt x.1.toNat (show 0 < 2 ^ 31 by norm_num)
  have hx : dword x = 2 ^ 32 * x.1.toNat + x.2.toNat := rfl
  rw [eq_iff_toNat, eq_iff_toNat, toNat_zero, show real64MinInt64Hi.toNat = 3269459968 from rfl]
  cases hmsb : x.1.msb with
  | true =>
    rw [hmsb, if_pos rfl] at hhi hsign
    rw [and_iff_right rfl]
    omega
  | false =>
    rw [hmsb, if_neg Bool.false_ne_true] at hhi hsign
    exact iff_of_false (fun h => by omega) (fun h => Bool.false_ne_true h.1)

/-! ## The words of an integer -/

theorem ite_sign_zero {α : Type*} (x : Bit32) (y z : α) :
    (if x &&& signBit32 = 0 then z else y) = if x.msb then y else z := by
  rw [← ite_sign_words x y z, ite_not]

/-- A high word whose sign is cleared, although it is not set. -/
theorem dword_clear_sign {h l : Bit32} (hlt : dword (h, l) < 2 ^ 63) :
    dword (h &&& ~~~signBit32, l) = dword (h, l) := by
  have hhi : h.toNat < 2 ^ 31 := by
    change 2 ^ 32 * h.toNat + l.toNat < 2 ^ 63 at hlt
    omega
  rw [dword, dword, toNat_clear_sign, Nat.mod_eq_of_lt hhi]

/-- **An integer part is increased or not**, and has its sign cleared. -/
theorem dword_increased {g l : Bit32} {up : Bool} (hlt : dword (g, l) + 1 < 2 ^ 64)
    (hfits : dword (g, l) + up.toNat < 2 ^ 63) :
    dword (if up then ((longsum g 0 (longsum l 1 0).1).2 &&& ~~~signBit32, (longsum l 1 0).2)
      else (g &&& ~~~signBit32, l)) = dword (g, l) + up.toNat := by
  have hone := dword_longsum_one (x := (g, l)) hlt
  cases up with
  | true =>
    rw [Bool.toNat_true] at hfits ⊢
    rw [if_pos rfl, dword_clear_sign (by rw [hone]; exact hfits), hone]
  | false =>
    rw [Bool.toNat_false, add_zero] at hfits ⊢
    rw [if_neg Bool.false_ne_true, dword_clear_sign hfits]

/-- The words of a fraction below the low word of its integer part. -/
theorem shifted_rest {f : Words} {places : Bit32} {k F : ℕ} (hf : dword f = F * 2 ^ 12)
    (hp : places.toNat = k) : dword (shiftleft f.2 0 places) =
      2 ^ 32 * ((2 ^ 52 + F) * 2 ^ (12 + k) % 2 ^ 32) := by
  have hsnd := toNat_snd f
  have hword : dword (f.2, 0) = 2 ^ 32 * (F * 2 ^ 12 % 2 ^ 32) := by
    rw [dword, toNat_zero, hsnd, hf, Nat.add_zero]
  have hsplit : (2 ^ 52 + F) * 2 ^ (12 + k) = 2 ^ 32 * (2 ^ 32 * 2 ^ k) + F * 2 ^ 12 * 2 ^ k := by
    rw [pow_add]
    ring
  rw [shiftleft_spec, hword, hp, hsplit, Nat.mul_add_mod, Nat.mul_assoc,
    show 2 ^ 64 = 2 ^ 32 * 2 ^ 32 from rfl, Nat.mul_mod_mul_left, Nat.mod_mul_mod]

/-- **An integer part that fits and its fraction** are rounded to the integer, with its sign. -/
theorem rounded_words_exact (mode : Mode) (x : Bit32) {g l : Bit32} {t : Words} {S w : ℕ}
    (hint : dword (g, l) = S / 2 ^ w) (hw : 1 ≤ w)
    (hbit : t.1.toNat / 2 ^ 31 % 2 = S / 2 ^ (w - 1) % 2)
    (hrest : t.1.toNat % 2 ^ 31 = 0 ∧ t.2.toNat = 0 ↔ S % 2 ^ (w - 1) = 0)
    (hfits : mode.quot S (2 ^ w) < 2 ^ 63) :
    ExactOrFlagged signed (SignedFits 64)
      (some (mode.int ((if x.msb then -1 else 1) * ((S : ℚ) / (2 ^ w : ℕ)))))
      (some (if x &&& signBit32 = 0 then
          if increases mode t.1 signBit32 (~~~signBit32) t.2 l then
            ((longsum g 0 (longsum l 1 0).1).2 &&& ~~~signBit32, (longsum l 1 0).2)
          else (g &&& ~~~signBit32, l)
        else diff (0, 0)
          (if increases mode t.1 signBit32 (~~~signBit32) t.2 l then
            ((longsum g 0 (longsum l 1 0).1).2 &&& ~~~signBit32, (longsum l 1 0).2)
          else (g &&& ~~~signBit32, l)))) := by
  have hpow : 2 * 2 ^ (w - 1) = 2 ^ w := by rw [← pow_succ', Nat.sub_add_cancel hw]
  have hword : dword (g, l) = 2 ^ 32 * g.toNat + l.toNat := rfl
  have hquot := quot_eq_increases mode t.1 t.2 l (k := 31) (S := S)
    (Nat.two_pow_pos (w - 1)) (by norm_num) hbit hrest (by rw [hpow]; omega)
  rw [hpow, ← hint] at hquot
  change mode.quot S (2 ^ w) =
    _ + (increases mode t.1 signBit32 (~~~signBit32) t.2 l).toNat at hquot
  generalize increases mode t.1 signBit32 (~~~signBit32) t.2 l = up at *
  have hup := Bool.toNat_le up
  have hres := @dword_increased g l up (by omega) (by omega)
  rw [ite_sign_zero, mode.int_eq x.msb S (Nat.two_pow_pos w)]
  exact exact_magnitude64 x.msb (hres.trans hquot.symm) hfits

/-- **From `2 ^ 63` on**: what is flagged does not fit, but for the least number. -/
theorem flagged_long (mode : Mode) (x : Words) (hE : dword x / 2 ^ 52 % 2 ^ 11 ≠ 2047)
    (hp : 1086 * 2 ^ 52 ≤ dword x % 2 ^ 63) :
    ExactOrFlagged signed (SignedFits 64) ((real64 x).map mode.int) (none : Option Words) ↔
      ∀ q ∈ real64 x, ¬ MissesLong q := by
  have hv := patternValue_nonneg 52 (-1074) (dword x % 2 ^ 63)
  have hle : patternValue 52 (-1074) (1086 * 2 ^ 52) ≤ patternValue 52 (-1074) (dword x % 2 ^ 63) :=
    real64_le_iff.mpr hp
  have hpow := real64_pow (E := 1086) (t := 63) (by norm_num) (by norm_num)
  rw [hpow] at hle
  rw [real64_eq_some hE, Option.map_some, ExactOrFlagged.none_iff]
  simp only [Option.mem_some_iff, forall_eq', MissesLong]
  rw [abs_value _ hv, real64_eq_neg_pow (E := 1070) (by norm_num) rfl,
    real64_eq_neg_pow (E := 1086) (by norm_num) rfl, not_or, not_or]
  have hfar : ¬ (2 ^ 31 ≤ patternValue 52 (-1074) (dword x % 2 ^ 63) ∧
      patternValue 52 (-1074) (dword x % 2 ^ 63) < 2 ^ 32) := fun h =>
    absurd h.2 (not_lt.mpr (le_trans (by norm_num) hle))
  rw [and_iff_right hfar, and_iff_right (fun h => by omega)]
  cases x.1.msb with
  | false =>
    refine iff_of_true (not_fits_of_le mode false hv (n := 64) (B := 2 ^ 63) rfl ?_)
      (fun h => Bool.false_ne_true h.1)
    rw [if_neg Bool.false_ne_true]
    exact_mod_cast hle
  | true =>
    rw [and_iff_right rfl]
    by_cases heq : dword x % 2 ^ 63 = 1086 * 2 ^ 52
    · have hint := mode.int_eq true (2 ^ 63) Nat.one_pos
      have hone := mode.quot_mul (2 ^ 63) Nat.one_pos
      rw [Nat.mul_one] at hone
      rw [hone, Nat.cast_one, div_one, Nat.cast_pow, Nat.cast_ofNat] at hint
      rw [heq, hpow]
      refine iff_of_false (not_not.mpr ?_) (not_not.mpr rfl)
      rw [show (2 : ℚ) ^ (63 : ℤ) = 2 ^ 63 from rfl, hint]
      decide
    · have hnext : patternValue 52 (-1074) (1086 * 2 ^ 52 + 1) ≤
          patternValue 52 (-1074) (dword x % 2 ^ 63) := real64_le_iff.mpr (by omega)
      rw [patternValue_fields (-1074) (by norm_num) (by norm_num)] at hnext
      refine iff_of_true (not_fits_of_le mode true hv (n := 64) (B := 2 ^ 63) rfl ?_) heq
      rw [if_pos rfl]
      norm_num at hnext ⊢
      linarith

/-- **A number of 32 bits** fits. -/
theorem flagged_31 (mode : Mode) (neg : Bool) {F p : ℕ} (hF : F < 2 ^ 52)
    (hp : p = (1023 + 31) * 2 ^ 52 + F) :
    ExactOrFlagged signed (SignedFits 64)
        (some (mode.int ((if neg then -1 else 1) * patternValue 52 (-1074) p)))
        (none : Option Words) ↔
      ∀ q ∈ some ((if neg then -1 else 1) * patternValue 52 (-1074) p), ¬ MissesLong q := by
  have hv := patternValue_nonneg 52 (-1074) p
  have hge : patternValue 52 (-1074) (1054 * 2 ^ 52) ≤ patternValue 52 (-1074) p :=
    real64_le_iff.mpr (by omega)
  have hlt : patternValue 52 (-1074) p < patternValue 52 (-1074) (1055 * 2 ^ 52) :=
    real64_lt_iff.mpr (by omega)
  rw [real64_pow (t := 31) (by norm_num) (by norm_num)] at hge
  rw [real64_pow (t := 32) (by norm_num) (by norm_num)] at hlt
  have hval : patternValue 52 (-1074) p = ((2 ^ 52 + F : ℕ) : ℚ) / (2 ^ 21 : ℕ) := by
    rw [hp, patternValue_fields (-1074) (by omega) hF,
      mul_zpow_eq_div _ (a := 0) (b := 21) (by norm_num), pow_zero, Nat.mul_one]
  refine iff_of_false (fun h => ExactOrFlagged.none_iff.mp h ?_) (fun h => h _ rfl (Or.inl ?_))
  · have hle := mode.quot_le (2 ^ 52 + F) (2 ^ 21)
    rw [hval, mode.int_eq neg _ (by norm_num), SignedFits]
    generalize mode.quot (2 ^ 52 + F) (2 ^ 21) = q at *
    cases neg <;> norm_num <;> omega
  · rw [abs_value neg hv]
    exact ⟨hge, hlt⟩

/-- **An integer part of two words**. -/
theorem long_exact (mode : Mode) (x : Bit32) {f : Words} {places : Bit32} {k F : ℕ}
    (hf : dword f = F * 2 ^ 12) (hF : F < 2 ^ 52) (hp : places.toNat = k) (hk : k ≤ 30) :
    ExactOrFlagged signed (SignedFits 64)
      (some (mode.int ((if x.msb then -1 else 1) *
        patternValue 52 (-1074) ((1023 + (32 + k)) * 2 ^ 52 + F))))
      (some (if x &&& signBit32 = 0 then
          if increases mode (shiftleft f.2 0 places).1 signBit32 (~~~signBit32)
              (shiftleft f.2 0 places).2 (shiftleft f.1 f.2 places).1 then
            ((longsum (shiftleft 1 f.1 places).1 0
                (longsum (shiftleft f.1 f.2 places).1 1 0).1).2 &&&
              ~~~signBit32, (longsum (shiftleft f.1 f.2 places).1 1 0).2)
          else ((shiftleft 1 f.1 places).1 &&& ~~~signBit32, (shiftleft f.1 f.2 places).1)
        else diff (0, 0)
          (if increases mode (shiftleft f.2 0 places).1 signBit32 (~~~signBit32)
              (shiftleft f.2 0 places).2 (shiftleft f.1 f.2 places).1 then
            ((longsum (shiftleft 1 f.1 places).1 0
                (longsum (shiftleft f.1 f.2 places).1 1 0).1).2 &&&
              ~~~signBit32, (longsum (shiftleft f.1 f.2 places).1 1 0).2)
          else ((shiftleft 1 f.1 places).1 &&& ~~~signBit32, (shiftleft f.1 f.2 places).1)))) := by
  obtain ⟨hint, hfrac⟩ := shifted_significand hf hF hp (by omega)
  have hrest := shifted_rest hf hp
  have hval : patternValue 52 (-1074) ((1023 + (32 + k)) * 2 ^ 52 + F) =
      (((2 ^ 52 + F) * 2 ^ (12 + k) : ℕ) : ℚ) / (2 ^ 32 : ℕ) := by
    rw [patternValue_fields (-1074) (by omega) hF]
    exact mul_zpow_eq_div _ (by push_cast; ring)
  have hfst := toNat_fst (shiftleft f.1 f.2 places)
  have hbits := toNat_fst (shiftleft f.2 0 places)
  have hmore := toNat_snd (shiftleft f.2 0 places)
  have hlt : mode.quot ((2 ^ 52 + F) * 2 ^ (12 + k)) (2 ^ 32) < 2 ^ 63 := by
    rcases Nat.lt_or_ge k 20 with hlt | hge
    · have hpow : 2 ^ (12 + k) ≤ 2 ^ 31 := Nat.pow_le_pow_right Nat.two_pos (by omega)
      have hprod : (2 ^ 52 + F) * 2 ^ (12 + k) ≤ 2 ^ 53 * 2 ^ 31 := Nat.mul_le_mul (by omega) hpow
      have := mode.quot_le ((2 ^ 52 + F) * 2 ^ (12 + k)) (2 ^ 32)
      omega
    · obtain ⟨j, rfl⟩ := Nat.exists_eq_add_of_le hge
      have hone := mode.quot_mul ((2 ^ 52 + F) * 2 ^ j) (D := 2 ^ 32) (by norm_num)
      have hpow : 2 ^ j ≤ 2 ^ 10 := Nat.pow_le_pow_right Nat.two_pos (by omega)
      have hprod : (2 ^ 52 + F) * 2 ^ j < 2 ^ 53 * 2 ^ 10 :=
        Nat.mul_lt_mul_of_lt_of_le (by omega) hpow (Nat.two_pow_pos _)
      rw [show (2 ^ 52 + F) * 2 ^ (12 + (20 + j)) = (2 ^ 52 + F) * 2 ^ j * 2 ^ 32 by ring, hone]
      omega
  rw [hval]
  generalize (2 ^ 52 + F) * 2 ^ (12 + k) = S at *
  refine rounded_words_exact mode x (w := 32) ?_ (by norm_num) (by omega) (by omega) hlt
  rw [dword, hint, hfst, hfrac]
  omega

/-- **`R64ToI64`** rounds, and is flagged where the integer does not fit, unless it is asked for
what it gets wrong. -/
theorem r64ToI64_exact_iff (mode : Mode) (x : Words) :
    ExactOrFlagged signed (SignedFits 64) ((real64 x).map mode.int) (r64ToI64 mode x) ↔
      ∀ q ∈ real64 x, ¬ MissesLong q := by
  obtain ⟨E, F, hE, hF, hp, hexp, hxexp, hxfrac⟩ := real64_fields x
  have hv := patternValue_nonneg 52 (-1074) (dword x % 2 ^ 63)
  have hleast := least64_iff x
  unfold r64ToI64
  dsimp only
  generalize (shiftleft 0 (x.1 &&& ~~~signBit32) (dRealShift + 1)).1 = s at *
  generalize shiftleft x.1 x.2 (dRealShift + 1) = f at *
  have hint : s.toInt = E := by rw [toInt_of_lt (by omega), hxexp]
  rw [hint]
  by_cases hinf : s = dRealExp
  · have hE : E = 2047 := by rw [← hxexp, hinf]; rfl
    rw [if_pos hinf, real64_eq_none (hexp.trans hE)]
    exact iff_of_true ExactOrFlagged.of_undefined (fun q hq => by cases hq)
  have hE2047 : E ≠ 2047 := fun h => hinf <| by
    rw [eq_iff_toNat, hxexp, h]
    rfl
  have hsome := real64_eq_some (x := x) (fun h => hE2047 (hexp.symm.trans h))
  rw [if_neg hinf]
  by_cases hmin : x.1 = real64MinInt64Hi ∧ x.2 = 0
  · obtain ⟨hmsb, hpat⟩ := hleast.mp hmin
    rw [if_pos hmin, hsome, Option.map_some, hmsb, hpat,
      real64_pow (t := 47) (by norm_num) (by norm_num)]
    have hint' := mode.int_eq true (2 ^ 47) Nat.one_pos
    have hone := mode.quot_mul (2 ^ 47) Nat.one_pos
    rw [Nat.mul_one] at hone
    rw [hone, Nat.cast_one, div_one, Nat.cast_pow, Nat.cast_ofNat] at hint'
    rw [show (2 : ℚ) ^ (47 : ℤ) = 2 ^ 47 from rfl, hint', ExactOrFlagged.some_iff]
    refine iff_of_false (fun h => absurd h.2 (by decide)) (fun h => h _ rfl (Or.inr (Or.inl ?_)))
    rw [if_pos rfl, neg_one_mul]
  rw [if_neg hmin]
  -- Below one the integer is nought, or one after rounding.
  by_cases hsmall : (E : ℤ) < (dRealXcess - 1).toInt
  · rw [if_pos hsmall]
    have hlt : dword x % 2 ^ 63 < 1022 * 2 ^ 52 := by
      have : (dRealXcess - 1).toInt = 1022 := by decide
      omega
    refine iff_of_true (exact_of_small mode (by decide) (by decide) hlt) (fun q hq => ?_)
    exact not_missesLong_of_lt
      ((abs_real64_lt (t := -1) (by norm_num) (by norm_num) hlt hq).trans (by norm_num))
  rw [if_neg hsmall]
  by_cases hhalf : (E : ℤ) < dRealXcess.toInt
  · rw [if_pos hhalf]
    obtain rfl : E = 1022 := by
      have : (dRealXcess - 1).toInt = 1022 := by decide
      have : dRealXcess.toInt = 1023 := by decide
      omega
    refine iff_of_true (exact_of_half mode (by decide) (by decide) (by decide) (by decide)
      (by decide) (by decide) hF hp hxfrac) (fun q hq => ?_)
    exact not_missesLong_of_lt ((abs_real64_lt (E := 1023) (t := 0) (by norm_num)
      (by norm_num) (by omega) hq).trans (by norm_num))
  have hE1023 : 1023 ≤ E := by
    have : dRealXcess.toInt = 1023 := by decide
    omega
  rw [if_neg hhalf]
  obtain ⟨e, rfl⟩ := Nat.exists_eq_add_of_le hE1023
  have hsub : (s - dRealXcess).toNat = e := by
    rw [BitVec.toNat_sub, hxexp]
    change (2 ^ 32 - 1023 + (1023 + e)) % 2 ^ 32 = e
    omega
  have hsub' : (s - dRealXcess).toInt = e := by rw [toInt_of_lt (by omega), hsub]
  generalize s - dRealXcess = places at *
  have hbits : (bitsPerWord32 - 2).toInt = 30 := by decide
  by_cases hlow : e < 32
  · have hdec : decide (places.toInt < bitsPerWord32.toInt) = true := by
      rw [hsub', decide_eq_true_eq, show bitsPerWord32.toInt = 32 by decide]
      omega
    rw [hdec]
    simp only [if_true]
    rw [hsub', hbits, hsome, Option.map_some]
    by_cases hbig : (e : ℤ) > 30
    · obtain rfl : e = 31 := by omega
      rw [if_pos hbig]
      exact flagged_31 mode x.1.msb hF hp
    rw [if_neg hbig]
    obtain ⟨hint, hrest⟩ := shifted_significand hxfrac hF hsub (by omega)
    have hval : patternValue 52 (-1074) (dword x % 2 ^ 63) =
        (((2 ^ 52 + F) * 2 ^ (12 + e) : ℕ) : ℚ) / (2 ^ 64 : ℕ) := by
      rw [hp, patternValue_fields (-1074) (by omega) hF]
      exact mul_zpow_eq_div _ (by push_cast; ring)
    have hzero : (shiftleft 0 1 places).1.toNat = 0 := by
      have hpow : 2 ^ e ≤ 2 ^ 31 := Nat.pow_le_pow_right Nat.two_pos (by omega)
      rw [toNat_fst, shiftleft_spec, hsub, show dword ((0 : Bit32), (1 : Bit32)) = 1 from rfl]
      omega
    refine iff_of_true ?_ (fun q hq => ?_)
    · have hfst := toNat_fst (shiftleft f.1 f.2 places)
      have hsnd := toNat_snd (shiftleft f.1 f.2 places)
      have hle := mode.quot_le ((2 ^ 52 + F) * 2 ^ (12 + e)) (2 ^ 64)
      have hword := (shiftleft 1 f.1 places).1.isLt
      rw [hval]
      refine rounded_words_exact mode x.1 (w := 64) ?_ (by norm_num) (by omega) (by omega)
          (by omega)
      rw [dword, hzero, hint, Nat.mul_zero, Nat.zero_add]
    · rw [← hsome] at hq
      exact not_missesLong_of_lt
        (abs_real64_lt (E := 1054) (t := 31) (by norm_num) (by norm_num) (by omega) hq)
  · have hdec : decide (places.toInt < bitsPerWord32.toInt) = false := by
      rw [hsub', decide_eq_false_iff_not, show bitsPerWord32.toInt = 32 by decide]
      omega
    rw [hdec]
    simp only [Bool.false_eq_true, if_false]
    obtain ⟨k, rfl⟩ := Nat.exists_eq_add_of_le (not_lt.mp hlow)
    have hplaces : (places - bitsPerWord32).toNat = k := by
      rw [BitVec.toNat_sub, hsub]
      change (2 ^ 32 - 32 + (32 + k)) % 2 ^ 32 = k
      omega
    have hplaces' : (places - bitsPerWord32).toInt = k := by rw [toInt_of_lt (by omega), hplaces]
    rw [hplaces', hbits]
    by_cases hbig : (k : ℤ) > 30
    · rw [if_pos hbig]
      exact flagged_long mode x (by omega) (by omega)
    rw [if_neg hbig, hsome, Option.map_some]
    refine iff_of_true ?_ (fun q hq => ?_)
    · rw [hp]
      exact long_exact mode x.1 hxfrac hF hplaces (by omega)
    · obtain rfl := Option.mem_some_iff.mp hq
      have hge : patternValue 52 (-1074) (1055 * 2 ^ 52) ≤
          patternValue 52 (-1074) (dword x % 2 ^ 63) := real64_le_iff.mpr (by omega)
      rw [real64_pow (t := 32) (by norm_num) (by norm_num)] at hge
      rw [MissesLong, abs_value _ hv, real64_eq_neg_pow (E := 1070) (by norm_num) rfl,
        real64_eq_neg_pow (E := 1086) (by norm_num) rfl]
      rintro (⟨-, hlt⟩ | h | ⟨-, h⟩)
      · exact absurd hlt (not_lt.mpr hge)
      · exact hmin (hleast.mpr h)
      · omega

end Extlib

end Kroc
