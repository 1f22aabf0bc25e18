import Kroc.Extlib.RealWords

/-!
# Extlib/Real32ToInt — REAL32 to integers

`R32ToI32` and `R32ToI64` round every number to an integer, and are flagged where it does not fit.
-/

namespace Kroc

namespace Extlib

/-! ## Values that do not fit, and the least that does -/

theorem toNat_clear_sign (x : Bit32) : (x &&& ~~~signBit32).toNat = x.toNat % 2 ^ 31 :=
  toNat_and_low x (n := 31) (by norm_num)

theorem msb_iff (x : Bit32) : x &&& signBit32 = 0 ↔ x.msb = false := by
  rw [and_signBit32, msb_eq_false_iff]

theorem toNat_eq_sign (x : Bit32) :
    x.toNat = (if x.msb then 2 ^ 31 else 0) + x.toNat % 2 ^ 31 := by
  have hlt := x.isLt
  have hmsb := msb_eq_false_iff x
  cases h : x.msb with
  | true =>
    have hge : ¬ x.toNat < 2 ^ 31 := fun hlt' => by
      rw [hmsb.mpr hlt'] at h
      cases h
    rw [if_pos rfl]
    omega
  | false =>
    have := hmsb.mp h
    rw [if_neg Bool.false_ne_true]
    omega

/-- **A magnitude that is too large** is flagged, unless it is that of the least number. -/
theorem not_fits_of_le (mode : Mode) (neg : Bool) {v : ℚ} {B : ℕ} (hv : 0 ≤ v) {n : ℕ}
    (hB : 2 ^ (n - 1) = B) (h : if neg then (B : ℚ) + 1 ≤ v else (B : ℚ) ≤ v) :
    ¬ SignedFits n (mode.int ((if neg then -1 else 1) * v)) := by
  obtain ⟨m, hm, hle, -⟩ := mode.exists_int_eq neg hv
  have hpow : (2 : ℤ) ^ (n - 1) = B := by exact_mod_cast hB
  rw [hm, SignedFits, hpow]
  cases neg with
  | true =>
    rw [if_pos rfl] at h ⊢
    have := hle (B + 1) (by exact_mod_cast h)
    omega
  | false =>
    rw [if_neg Bool.false_ne_true] at h ⊢
    have := hle B h
    omega

/-- A magnitude below a half. -/
theorem int_eq_zero (mode : Mode) (neg : Bool) {v : ℚ} (hv : 0 ≤ v) (h : v < 1 / 2) :
    mode.int ((if neg then -1 else 1) * v) = 0 := by
  obtain ⟨m, hm, -, hzero⟩ := mode.exists_int_eq neg hv
  rw [hm, hzero (by linarith), Nat.cast_zero, mul_zero]

/-- The one and minus one that a number between a half and one may be rounded to. -/
theorem exact_half {α : Type*} {value : α → ℤ} {Fits : ℤ → Prop} {zero one neg : α} {F : ℕ}
    {p : Prop} [Decidable p] (mode : Mode) (x : Bit32) (hp : p ↔ mode = .truncate ∨ F = 0)
    (h0 : Fits 0) (h1 : Fits 1) (h2 : Fits (-1)) (hv0 : value zero = 0) (hv1 : value one = 1)
    (hv2 : value neg = -1) : ExactOrFlagged value Fits
      (some ((if x.msb then -1 else 1) * ((if mode = .truncate ∨ F = 0 then 0 else 1 : ℕ) : ℤ)))
      (if p then some zero else if x &&& signBit32 = 0 then some one else some neg) := by
  by_cases hzero : p
  · rw [if_pos hzero, if_pos (hp.mp hzero), Nat.cast_zero, mul_zero]
    exact ExactOrFlagged.of_some h0 hv0
  · rw [if_neg hzero, if_neg (mt hp.mpr hzero)]
    cases hmsb : x.msb with
    | false =>
      rw [if_pos ((msb_iff x).mpr hmsb)]
      exact ExactOrFlagged.of_some h1 hv1
    | true =>
      have hsign : ¬ x &&& signBit32 = 0 := by rw [msb_iff, hmsb]; decide
      rw [if_neg hsign]
      exact ExactOrFlagged.of_some h2 hv2

/-! ## REAL32 to integers -/

/-- The exponent and the fraction of a REAL32. -/
theorem real32_fields (x : Bit32) : ∃ E F : ℕ, E < 256 ∧ F < 2 ^ 23 ∧
    x.toNat % 2 ^ 31 = E * 2 ^ 23 + F ∧ x.toNat / 2 ^ 23 % 2 ^ 8 = E ∧
    (shiftleft 0 (x &&& ~~~signBit32) (realShift + 1)).1.toNat = E ∧
    (shiftleft 0 (x &&& ~~~signBit32) (realShift + 1)).2.toNat = F * 2 ^ 9 := by
  have hword : dword (0, x &&& ~~~signBit32) = x.toNat % 2 ^ 31 := by
    rw [dword, toNat_zero, toNat_clear_sign, Nat.mul_zero, Nat.zero_add]
  have hx := x.isLt
  refine ⟨x.toNat % 2 ^ 31 / 2 ^ 23, x.toNat % 2 ^ 23, by omega, by omega, by omega, by omega, ?_,
      ?_⟩
  · rw [toNat_fst, shiftleft_spec, hword, show (realShift + 1).toNat = 9 from rfl]
    omega
  · rw [toNat_snd, shiftleft_spec, hword, show (realShift + 1).toNat = 9 from rfl]
    omega

theorem real32_eq_none {x : Bit32} (h : x.toNat / 2 ^ 23 % 2 ^ 8 = 255) : real32 x = none :=
  if_pos h

theorem real32_eq_some {x : Bit32} (h : x.toNat / 2 ^ 23 % 2 ^ 8 ≠ 255) :
    real32 x = some ((if x.msb then -1 else 1) * patternValue 23 (-149) (x.toNat % 2 ^ 31)) :=
  if_neg h

theorem real32_pow {E : ℕ} (hE : 1 ≤ E) {t : ℤ} (ht : t = E - 127) :
    patternValue 23 (-149) (E * 2 ^ 23) = 2 ^ t := by
  rw [patternValue_pow 23 (-149) hE, ht]
  congr 1
  push_cast
  ring

theorem real32_lt_iff {p q : ℕ} :
    patternValue 23 (-149) p < patternValue 23 (-149) q ↔ p < q :=
  (patternValue_strictMono 23 (-149)).lt_iff_lt

theorem real32_le_iff {p q : ℕ} :
    patternValue 23 (-149) p ≤ patternValue 23 (-149) q ↔ p ≤ q :=
  (patternValue_strictMono 23 (-149)).le_iff_le

/-- Below a half, every mode rounds to zero. -/
theorem int_eq_zero_of_exponent (mode : Mode) (neg : Bool) {p : ℕ} (hp : p < 126 * 2 ^ 23) :
    mode.int ((if neg then -1 else 1) * patternValue 23 (-149) p) = 0 := by
  have hlt : patternValue 23 (-149) p < patternValue 23 (-149) (126 * 2 ^ 23) :=
    real32_lt_iff.mpr hp
  rw [real32_pow (t := -1) (by norm_num) (by norm_num),
    show (2 : ℚ) ^ (-1 : ℤ) = 1 / 2 by norm_num] at hlt
  exact int_eq_zero mode neg (patternValue_nonneg 23 (-149) p) hlt

/-- A power of two is an integer, and no mode changes it. -/
theorem int_pow (mode : Mode) (neg : Bool) {E t : ℕ} (hE : E = 127 + t) :
    mode.int ((if neg then -1 else 1) * patternValue 23 (-149) (E * 2 ^ 23)) =
      (if neg then -1 else 1) * ((2 ^ t : ℕ) : ℤ) := by
  have hval : patternValue 23 (-149) (E * 2 ^ 23) = ((2 ^ t : ℕ) : ℚ) / (1 : ℕ) := by
    rw [real32_pow (t := t) (by omega) (by omega), zpow_natCast]
    norm_num
  have hone := mode.quot_mul (2 ^ t) Nat.one_pos
  rw [Nat.mul_one] at hone
  rw [hval, mode.int_eq neg (2 ^ t) Nat.one_pos, hone]

/-- **A real of `2 ^ t` or more** does not fit, unless it is the least integer itself. -/
theorem not_fits_of_exponent (mode : Mode) (x : Bit32) {E t : ℕ} (hE : E = 127 + t) (ht : 23 ≤ t)
    (hle : E * 2 ^ 23 ≤ x.toNat % 2 ^ 31) (hne : x.toNat ≠ 2 ^ 31 + E * 2 ^ 23) :
    ¬ SignedFits (t + 1)
      (mode.int ((if x.msb then -1 else 1) * patternValue 23 (-149) (x.toNat % 2 ^ 31))) := by
  refine not_fits_of_le mode x.msb (patternValue_nonneg 23 (-149) _) (B := 2 ^ t) rfl ?_
  cases hmsb : x.msb with
  | false =>
    have hpow := real32_le_iff.mpr hle
    rw [real32_pow (t := t) (by omega) (by omega), zpow_natCast] at hpow
    rw [if_neg Bool.false_ne_true]
    exact_mod_cast hpow
  | true =>
    -- the next pattern above the power of two is more than one above it
    have hsign := toNat_eq_sign x
    rw [hmsb, if_pos rfl] at hsign
    have hlt : E * 2 ^ 23 < x.toNat % 2 ^ 31 := lt_of_le_of_ne hle fun h => hne (h ▸ hsign)
    have hnext : patternValue 23 (-149) (E * 2 ^ 23 + 1) ≤ _ := real32_le_iff.mpr hlt
    obtain ⟨u, rfl⟩ := Nat.exists_eq_add_of_le ht
    rw [patternValue_fields (-149) (hE ▸ by omega) (by norm_num),
      show (E : ℤ) - 1 + -149 = u by omega, zpow_natCast] at hnext
    have hone : 2 ^ (23 + u) + 1 ≤ (2 ^ 23 + 1) * 2 ^ u := by
      rw [Nat.add_mul, pow_add]
      have := Nat.one_le_two_pow (n := u)
      omega
    rw [if_pos rfl]
    exact le_trans (by exact_mod_cast hone) hnext

/-- The sign of a real as the code asks for it. -/
theorem ite_sign {α : Type*} (x g : Bit32) (f : Bit32 → α) :
    (if x &&& signBit32 = 0 then f g else f (-g)) = f (if x.msb then -g else g) := by
  cases hmsb : x.msb with
  | true =>
    have hsign : ¬ x &&& signBit32 = 0 := by rw [msb_iff, hmsb]; decide
    rw [if_neg hsign, if_pos rfl]
  | false => rw [if_pos ((msb_iff x).mpr hmsb), if_neg Bool.false_ne_true]

/-- A magnitude with its sign. -/
theorem toInt_magnitude {g : Bit32} {n : ℕ} (neg : Bool) (hg : g.toNat = n)
    (hn : if neg then n ≤ 2 ^ 31 else n < 2 ^ 31) :
    (if neg then -g else g).toInt = (if neg then -1 else 1) * (n : ℤ) := by
  have hcases := toInt_cases (if neg then -g else g)
  cases neg with
  | true =>
    rw [if_pos rfl] at hn hcases ⊢
    rw [if_pos rfl]
    rw [BitVec.toNat_neg, hg] at hcases
    omega
  | false =>
    rw [if_neg Bool.false_ne_true] at hn hcases ⊢
    rw [if_neg Bool.false_ne_true]
    rw [hg] at hcases
    omega

/-- **A magnitude that fits** is delivered with its sign. -/
theorem exact_magnitude {g : Bit32} {n : ℕ} (neg : Bool) (hg : g.toNat = n)
    (hn : if neg then n ≤ 2 ^ 31 else n < 2 ^ 31) :
    ExactOrFlagged BitVec.toInt (SignedFits 32) (some ((if neg then -1 else 1) * (n : ℤ)))
      (some (if neg then -g else g)) := by
  have hval := toInt_magnitude neg hg hn
  exact ExactOrFlagged.of_some (hval ▸ toInt_fits _) hval

/-- The value of a normal number as a fraction whose denominator is a power of two. -/
theorem real32_value {E F a b : ℕ} (hE : 1 ≤ E) (hF : F < 2 ^ 23) (h : (E : ℤ) - 150 = a - b) :
    patternValue 23 (-149) (E * 2 ^ 23 + F) =
      (((2 ^ 23 + F) * 2 ^ a : ℕ) : ℚ) / (2 ^ b : ℕ) := by
  rw [patternValue_fields (-149) hE hF]
  exact mul_zpow_eq_div _ (by linarith)

/-- **The word above is rounded by the word below**, as the code asks for it. -/
theorem quot_dword (mode : Mode) (t : Words) : mode.quot (dword t) (2 ^ 32) =
    t.1.toNat + (increases mode t.2 signBit32 (~~~signBit32) 0 t.1).toNat := by
  have hguard := toNat_fst t
  have hrest := toNat_snd t
  have hquot := quot_eq_increases mode t.2 0 t.1 (k := 31)
    (S := dword t) (h := 2 ^ 31) (by norm_num) (by norm_num) (by omega)
    (by rw [toNat_zero]; omega) (by omega)
  change mode.quot (dword t) (2 ^ 32) = dword t / 2 ^ 32 + _ at hquot
  rw [← hguard] at hquot
  exact hquot

/-- A mantissa that is shifted by thirty places at most does not reach the sign bit. -/
theorem quot_mantissa_lt (mode : Mode) {F e : ℕ} (hF : F < 2 ^ 23) (he : e ≤ 30) :
    mode.quot ((2 ^ 23 + F) * 2 ^ (9 + e)) (2 ^ 32) < 2 ^ 31 := by
  rcases Nat.lt_or_ge e 30 with hlt | hge
  · have hpow : 2 ^ (9 + e) ≤ 2 ^ 38 := Nat.pow_le_pow_right Nat.two_pos (by omega)
    have hprod : (2 ^ 23 + F) * 2 ^ (9 + e) ≤ 2 ^ 24 * 2 ^ 38 := Nat.mul_le_mul (by omega) hpow
    have := mode.quot_le ((2 ^ 23 + F) * 2 ^ (9 + e)) (2 ^ 32)
    omega
  · -- at thirty places nothing is left to round
    obtain rfl : e = 30 := by omega
    have := mode.quot_mul ((2 ^ 23 + F) * 2 ^ 7) (D := 2 ^ 32) (by norm_num)
    rw [show (2 ^ 23 + F) * 2 ^ (9 + 30) = (2 ^ 23 + F) * 2 ^ 7 * 2 ^ 32 by ring, this]
    omega

/-- **The rounded guard**, which did not reach the sign bit, is delivered with its sign. -/
theorem exact_guard (mode : Mode) (x : Bit32) {t : Words}
    (hlt : mode.quot (dword t) (2 ^ 32) < 2 ^ 31) :
    let up := increases mode t.2 signBit32 (~~~signBit32) 0 t.1
    let guard := if up then t.1 + 1 else t.1
    ExactOrFlagged BitVec.toInt (SignedFits 32)
      (some ((if x.msb then -1 else 1) * (mode.quot (dword t) (2 ^ 32) : ℤ)))
      (if up ∧ guard &&& signBit32 ≠ 0 then none
        else if x &&& signBit32 = 0 then some (guard &&& ~~~signBit32)
        else some (-(guard &&& ~~~signBit32))) := by
  dsimp only
  have hquot := quot_dword mode t
  have hword := toNat_ite_succ (x := t.1) (increases mode t.2 signBit32 (~~~signBit32) 0 t.1) (by
    have := Bool.toNat_le (increases mode t.2 signBit32 (~~~signBit32) 0 t.1)
    omega)
  rw [← hquot] at hword
  generalize increases mode t.2 signBit32 (~~~signBit32) 0 t.1 = up at *
  generalize (if up = true then t.1 + 1 else t.1) = g at *
  have hsign : ¬ (up = true ∧ g &&& signBit32 ≠ 0) := fun h =>
    h.2 ((and_signBit32 g).mpr (by omega))
  have hclear : g &&& ~~~signBit32 = g := by
    rw [eq_iff_toNat, toNat_clear_sign, Nat.mod_eq_of_lt (by omega)]
  rw [if_neg hsign, hclear, ← hword, ite_sign x g some]
  exact exact_magnitude x.msb rfl (by split_ifs <;> omega)

/-- **`R32ToI32`** rounds, and is flagged where the integer does not fit. -/
theorem r32ToI32_exact (mode : Mode) (x : Bit32) :
    ExactOrFlagged BitVec.toInt (SignedFits 32) ((real32 x).map mode.int) (r32ToI32 mode x) := by
  obtain ⟨E, F, hE, hF, hp, hexp, hxexp, hxfrac⟩ := real32_fields x
  unfold r32ToI32
  dsimp only
  generalize shiftleft 0 (x &&& ~~~signBit32) (realShift + 1) = s at *
  have hint : s.1.toInt = E := by rw [toInt_of_lt (by omega), hxexp]
  rw [hint]
  by_cases hinf : s.1 = realExp
  · have hE : E = 255 := by rw [← hxexp, hinf]; rfl
    rw [if_pos hinf, real32_eq_none (hexp.trans hE)]
    exact ExactOrFlagged.of_undefined
  have hE255 : E ≠ 255 := fun h => hinf <| by
    rw [eq_iff_toNat, hxexp, h]
    rfl
  rw [if_neg hinf, real32_eq_some (fun h => hE255 (hexp.symm.trans h)), Option.map_some]
  by_cases hsmall : (E : ℤ) < (realXcess - 1).toInt
  · rw [if_pos hsmall]
    have hE126 : E < 126 := by
      have : (realXcess - 1).toInt = 126 := by decide
      omega
    rw [int_eq_zero_of_exponent mode x.msb (by omega)]
    exact ExactOrFlagged.of_some (by decide) rfl
  have hE126 : 126 ≤ E := by
    have : (realXcess - 1).toInt = 126 := by decide
    omega
  rw [if_neg hsmall]
  by_cases hhalf : (E : ℤ) < realXcess.toInt
  · rw [if_pos hhalf]
    have hE127 : E = 126 := by
      have : realXcess.toInt = 127 := by decide
      omega
    have hval := real32_value (E := 126) (a := 0) (b := 24) (by norm_num) hF (by norm_num)
    rw [pow_zero, Nat.mul_one, ← hE127, ← hp] at hval
    rw [hval, mode.int_eq x.msb _ (by norm_num), show 2 ^ 24 = 2 * 2 ^ 23 from rfl,
      mode.quot_half hF]
    refine exact_half mode x (or_congr Iff.rfl ?_) (by decide) (by decide) (by decide) rfl
      (by decide) (by decide)
    rw [eq_iff_toNat, hxfrac, toNat_zero]
    omega
  have hE127 : 127 ≤ E := by
    have : realXcess.toInt = 127 := by decide
    omega
  rw [if_neg hhalf]
  by_cases hmin : x = real32MinInt32
  · rw [if_pos hmin, hmin, show real32MinInt32.toNat % 2 ^ 31 = 158 * 2 ^ 23 by decide,
      int_pow mode real32MinInt32.msb (t := 31) rfl]
    exact ExactOrFlagged.of_some (by decide) (by decide)
  rw [if_neg hmin]
  have hsub : (s.1 - realXcess).toNat = E - 127 := by
    rw [BitVec.toNat_sub, hxexp]
    change (2 ^ 32 - 127 + E) % 2 ^ 32 = E - 127
    omega
  have hsub' : (s.1 - realXcess).toInt = E - 127 := by
    rw [toInt_of_lt (by omega), hsub]
    omega
  rw [hsub', show (bitsPerWord32 - 2).toInt = 30 by decide]
  by_cases hbig : (E : ℤ) - 127 > 30
  · rw [if_pos hbig]
    have hne : x.toNat ≠ real32MinInt32.toNat := fun h => hmin (eq_iff_toNat.mpr h)
    exact ExactOrFlagged.of_none
      (not_fits_of_exponent mode x (E := 158) (t := 31) rfl (by norm_num) (by omega) hne)
  rw [if_neg hbig]
  obtain ⟨e, rfl⟩ := Nat.exists_eq_add_of_le hE127
  rw [Nat.add_sub_cancel_left] at hsub
  have he : e ≤ 30 := by omega
  have hS : dword (shiftleft 1 s.2 (s.1 - realXcess)) = (2 ^ 23 + F) * 2 ^ (9 + e) := by
    have hpow : 2 ^ (9 + e) ≤ 2 ^ 39 := Nat.pow_le_pow_right Nat.two_pos (by omega)
    have hlt : (2 ^ 23 + F) * 2 ^ (9 + e) < 2 ^ 24 * 2 ^ 40 :=
      Nat.mul_lt_mul_of_lt_of_le (by omega) (hpow.trans (by norm_num)) (Nat.two_pow_pos _)
    have hword : dword (1, s.2) = (2 ^ 23 + F) * 2 ^ 9 := by
      rw [dword, toNat_one, hxfrac]
      omega
    rw [shiftleft_spec, hword, hsub, Nat.mul_assoc, ← pow_add, Nat.mod_eq_of_lt (by omega)]
  rw [hp, real32_value (a := 9 + e) (b := 32) (by omega) hF (by push_cast; ring),
    mode.int_eq x.msb _ (by norm_num), ← hS]
  exact exact_guard mode x (hS ▸ quot_mantissa_lt mode hF he)

/-- **A magnitude that fits** in two words is delivered with its sign. -/
theorem exact_magnitude64 {b : Words} {n : ℕ} (neg : Bool) (hb : dword b = n) (hn : n < 2 ^ 63) :
    ExactOrFlagged signed (SignedFits 64) (some ((if neg then -1 else 1) * (n : ℤ)))
      (some (if neg then diff (0, 0) b else b)) := by
  have hval := signed_magnitude (x := b) (n := n) hb (p := neg = true) (by split_ifs <;> omega)
  have heq : (if neg = true then -(n : ℤ) else n) = (if neg then -1 else 1) * (n : ℤ) := by
    split_ifs <;> ring
  rw [heq] at hval
  exact ExactOrFlagged.of_some (hval ▸ signed_fits _) hval

theorem ite_sign_words {α : Type*} (x : Bit32) (y z : α) :
    (if x &&& signBit32 ≠ 0 then y else z) = if x.msb then y else z := by
  cases hmsb : x.msb with
  | true =>
    have hsign : x &&& signBit32 ≠ 0 := by rw [Ne, msb_iff, hmsb]; decide
    rw [if_pos hsign, if_pos rfl]
  | false =>
    rw [if_neg (not_not.mpr ((msb_iff x).mpr hmsb)), if_neg Bool.false_ne_true]

/-- One more, or not, with its carry. -/
theorem dword_carry (up : Bool) (x : Bit32) :
    dword (if up then (longadd 0 0 (longsum 1 x 0).1, (longsum 1 x 0).2) else (0, x)) =
      x.toNat + up.toNat := by
  cases up with
  | true =>
    obtain ⟨hsum, hcarry⟩ := longsum_spec 1 x 0
    have hadd := toNat_longadd 0 0 (longsum 1 x 0).1
    rw [if_pos rfl, Bool.toNat_true, dword]
    rw [dword, toNat_one, toNat_zero] at hsum
    rw [toNat_zero] at hadd
    dsimp only
    omega
  | false =>
    rw [if_neg Bool.false_ne_true, Bool.toNat_false, dword, toNat_zero]
    dsimp only
    omega

/-- **`R32ToI64`** rounds, and is flagged where the integer does not fit. -/
theorem r32ToI64_exact (mode : Mode) (a : Bit32) :
    ExactOrFlagged signed (SignedFits 64) ((real32 a).map mode.int) (r32ToI64 mode a) := by
  obtain ⟨E, F, hE, hF, hp, hexp, -, -⟩ := real32_fields a
  have ha := a.isLt
  have hword : dword (0, a <<< 1) = 2 * a.toNat % 2 ^ 32 := by
    rw [dword, toNat_zero, toNat_shiftLeft_one, Nat.mul_zero, Nat.zero_add]
  have hs : dword (shiftleft 0 (a <<< 1) realShift) = 2 ^ 32 * E + F * 2 ^ 9 := by
    rw [shiftleft_spec, hword, show realShift.toNat = 8 from rfl]
    omega
  unfold r32ToI64
  by_cases hmin : a = real32MinInt64
  · rw [if_pos hmin, hmin, real32_eq_some (by decide), Option.map_some,
      show real32MinInt64.toNat % 2 ^ 31 = 190 * 2 ^ 23 by decide,
      int_pow mode real32MinInt64.msb (t := 63) rfl]
    exact ExactOrFlagged.of_some (by decide) (by decide)
  rw [if_neg hmin]
  dsimp only
  have hxexp := toNat_fst (shiftleft 0 (a <<< 1) realShift)
  have hxfrac := toNat_snd (shiftleft 0 (a <<< 1) realShift)
  generalize shiftleft 0 (a <<< 1) realShift = s at *
  replace hxexp : s.1.toNat = E := by omega
  replace hxfrac : s.2.toNat = F * 2 ^ 9 := by omega
  by_cases hsmall : s.1 < realXcess - 1
  · rw [if_pos hsmall]
    have hE126 : E < 126 := by
      rw [BitVec.lt_def, hxexp] at hsmall
      exact hsmall
    rw [real32_eq_some (by omega), Option.map_some, int_eq_zero_of_exponent mode a.msb (by omega)]
    exact ExactOrFlagged.of_some (by decide) rfl
  have hE126 : 126 ≤ E := by
    rw [BitVec.lt_def, hxexp, not_lt] at hsmall
    exact hsmall
  rw [if_neg hsmall]
  by_cases hbig : s.1 > 2 * bitsPerWord32 - 2 + realXcess
  · rw [if_pos hbig]
    have hE189 : 189 < E := by
      rw [gt_iff_lt, BitVec.lt_def, hxexp] at hbig
      exact hbig
    by_cases hinf : E = 255
    · rw [real32_eq_none (hexp.trans hinf)]
      exact ExactOrFlagged.of_undefined
    rw [real32_eq_some (fun h => hinf (hexp.symm.trans h)), Option.map_some]
    have hne : a.toNat ≠ real32MinInt64.toNat := fun h => hmin (eq_iff_toNat.mpr h)
    exact ExactOrFlagged.of_none
      (not_fits_of_exponent mode a (E := 190) (t := 63) rfl (by norm_num) (by omega) hne)
  have hE189 : E ≤ 189 := by
    rw [gt_iff_lt, BitVec.lt_def, hxexp, not_lt] at hbig
    exact hbig
  rw [if_neg hbig, real32_eq_some (by omega), Option.map_some, ite_sign_words]
  have hmant : (shiftright 1 s.2 1).2.toNat = (2 ^ 23 + F) * 2 ^ 8 := by
    have hone : dword (1, s.2) = (2 ^ 23 + F) * 2 ^ 9 := by
      rw [dword, toNat_one, hxfrac]
      omega
    rw [toNat_snd, shiftright_spec, hone, toNat_one]
    omega
  generalize (shiftright 1 s.2 1).2 = xfrac at *
  have hmant' : dword (0, xfrac) = (2 ^ 23 + F) * 2 ^ 8 := by
    rw [dword, toNat_zero, hmant, Nat.mul_zero, Nat.zero_add]
  by_cases hlow : s.1 < realXcess + bitsPerWord32
  · rw [if_pos hlow]
    have hE159 : E < 159 := by
      rw [BitVec.lt_def, hxexp] at hlow
      exact hlow
    obtain ⟨k, rfl⟩ := Nat.exists_eq_add_of_le hE126
    have hplaces : ((1 + s.1) - realXcess).toNat = k := by
      rw [BitVec.toNat_sub, BitVec.toNat_add, hxexp]
      change (2 ^ 32 - 127 + (1 + (126 + k)) % 2 ^ 32) % 2 ^ 32 = k
      omega
    have hprod : (2 ^ 23 + F) * 2 ^ (8 + k) ≤ (2 ^ 24 - 1) * 2 ^ 40 :=
      Nat.mul_le_mul (by omega) (Nat.pow_le_pow_right Nat.two_pos (by omega))
    have hS : dword (shiftleft 0 xfrac ((1 + s.1) - realXcess)) = (2 ^ 23 + F) * 2 ^ (8 + k) := by
      rw [shiftleft_spec, hmant', hplaces, Nat.mul_assoc, ← pow_add, Nat.mod_eq_of_lt (by omega)]
    rw [hp, real32_value (a := 8 + k) (b := 32) (by omega) hF (by push_cast; ring),
      mode.int_eq a.msb _ (by norm_num), ← hS]
    generalize shiftleft 0 xfrac ((1 + s.1) - realXcess) = t at *
    refine exact_magnitude64 a.msb ?_ (by
      have := mode.quot_le (dword t) (2 ^ 32)
      have := dword_lt t
      omega)
    rw [quot_dword]
    exact dword_carry _ t.1
  · rw [if_neg hlow]
    have hE159 : 159 ≤ E := by
      rw [BitVec.lt_def, hxexp, not_lt] at hlow
      exact hlow
    obtain ⟨k, rfl⟩ := Nat.exists_eq_add_of_le hE159
    have hplaces : ((1 + s.1) - realXcess - bitsPerWord32).toNat = k + 1 := by
      rw [BitVec.toNat_sub, BitVec.toNat_sub, BitVec.toNat_add, hxexp]
      change (2 ^ 32 - 32 + (2 ^ 32 - 127 + (1 + (159 + k)) % 2 ^ 32) % 2 ^ 32) % 2 ^ 32 = k + 1
      omega
    have hprod : (2 ^ 23 + F) * 2 ^ (9 + k) ≤ (2 ^ 24 - 1) * 2 ^ 39 :=
      Nat.mul_le_mul (by omega) (Nat.pow_le_pow_right Nat.two_pos (by omega))
    have hb : dword (shiftleft 0 xfrac ((1 + s.1) - realXcess - bitsPerWord32)) =
        (2 ^ 23 + F) * 2 ^ (9 + k) := by
      rw [shiftleft_spec, hmant', hplaces, Nat.mul_assoc, ← pow_add,
        show 8 + (k + 1) = 9 + k by omega, Nat.mod_eq_of_lt (by omega)]
    have hone := mode.quot_mul ((2 ^ 23 + F) * 2 ^ (9 + k)) Nat.one_pos
    rw [Nat.mul_one] at hone
    rw [hp, real32_value (a := 9 + k) (b := 0) (by omega) hF (by push_cast; ring),
      mode.int_eq a.msb _ (by norm_num), pow_zero, hone]
    exact exact_magnitude64 a.msb hb (by omega)

end Extlib

end Kroc
