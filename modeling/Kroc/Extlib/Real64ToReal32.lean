import Kroc.Extlib.Real64ToInt32

/-!
# Extlib/Real64ToReal32 — REAL64 to REAL32

`R64ToR32` rounds, down to what underflows gradually, and is flagged where it overflows.  Where the
number is so small that no bit of it is left, its exponent is put into the result.
-/

namespace Kroc

namespace Extlib

variable {mode : Mode} {x : Words}

/-! ## The words -/

/-- The sign bit set in a word. -/
theorem toNat_or_sign (a : Bit32) : (a ||| signBit32).toNat = 2 ^ 31 + a.toNat % 2 ^ 31 := by
  have hlow := toNat_clear_sign a
  have hor := sign_or true (x := a &&& ~~~signBit32) (by omega)
  rw [if_pos rfl, if_pos rfl, hlow] at hor
  rw [← hor]
  congr 1
  have hset : ∀ s b : Bit32, b ||| s = s ||| (b &&& ~~~s) := fun s b => by
    ext i hi
    simp
    cases s[i] <;> simp
  exact hset signBit32 a

/-- The exponent, and the significand as the code makes it from a fraction. -/
theorem real64_parts (x : Words) : ∃ E F : ℕ, E < 2048 ∧ F < 2 ^ 52 ∧
    dword x % 2 ^ 63 = E * 2 ^ 52 + F ∧ dword x / 2 ^ 52 % 2 ^ 11 = E ∧
    ((x.1 >>> dRealExpSh) &&& dRealExp).toNat = E ∧
    dword (shiftleft x.1 x.2 dRealShift) = E % 2 * 2 ^ 63 + F * 2 ^ 11 := by
  have hx := dword_lt x
  have hfst := toNat_fst x
  refine ⟨dword x % 2 ^ 63 / 2 ^ 52, dword x % 2 ^ 52, by omega, by omega, by omega, by omega, ?_,
    ?_⟩
  · have hand := toNat_and_low (x.1 >>> dRealExpSh) (n := 11) (by norm_num)
    have hshift : (x.1 >>> dRealExpSh).toNat = x.1.toNat / 2 ^ 20 := by
      rw [BitVec.ushiftRight_eq', BitVec.toNat_ushiftRight, Nat.shiftRight_eq_div_pow]
      rfl
    refine hand.trans ?_
    rw [hshift]
    omega
  · rw [shiftleft_spec, show dword (x.1, x.2) = dword x from rfl,
      show dRealShift.toNat = 11 from rfl]
    omega

/-- The leading bit is put where the exponent was. -/
theorem dword_leading {f : Words} {b F : ℕ} (hF : F < 2 ^ 52)
    (hf : dword f = b * 2 ^ 63 + F * 2 ^ 11) :
    dword (f.1 ||| signBit32, f.2) = (2 ^ 52 + F) * 2 ^ 11 := by
  have hfst := toNat_fst f
  have hsnd := toNat_snd f
  rw [dword, toNat_or_sign]
  dsimp only
  omega

theorem and_sign_eq (x : Bit32) : x &&& signBit32 = if x.msb then signBit32 else 0 := by
  have hand := BitVec.and_twoPow x 31
  rw [BitVec.msb_eq_getLsbD_last]
  exact hand

/-- A sign put over a word. -/
theorem sign_or_any (negative : Bool) (x : Bit32) :
    ((if negative then signBit32 else 0) ||| x).msb = (negative || x.msb) ∧
      ((if negative then signBit32 else 0) ||| x).toNat % 2 ^ 31 = x.toNat % 2 ^ 31 := by
  cases negative with
  | true =>
    rw [if_pos rfl]
    refine ⟨by rw [BitVec.msb_or]; rfl, ?_⟩
    rw [BitVec.or_comm, toNat_or_sign]
    omega
  | false =>
    rw [if_neg Bool.false_ne_true, show (0 : Bit32) ||| x = x from BitVec.zero_or]
    exact ⟨rfl, rfl⟩

/-! ## The cases of the exponent -/

/-- **What `R64ToR32` should do**: round, and be flagged where the result is infinite, or there is
no number. -/
def R64ToR32Right (mode : Mode) (x : Words) : Prop :=
  match real64 x with
  | none => (r64ToR32 mode x).1 = true
  | some q => RoundsToReal32 mode x.1.msb |q| (r64ToR32 mode x).2 ∧
      ((r64ToR32 mode x).1 = true ↔ (r64ToR32 mode x).2.toNat % 2 ^ 31 = realInf.toNat)

/-- The result from its parts, as long as the exponent is not the largest. -/
theorem r64ToR32_eq {yexp yfrac guard : Bit32}
    (hparts : r64ToR32Parts x = (false, yexp, yfrac, guard))
    (hexp : yexp.toInt < realExp.toInt) :
    let frac := (shiftright yexp (yfrac <<< 1) (realShift + 1)).2
    let r :=
      if increases mode (yfrac &&& realExp) realRBit realXcess guard frac then frac + 1 else frac
    (r64ToR32 mode x).2 = (if x.1.msb then signBit32 else 0) ||| r ∧
      (r64ToR32 mode x).1 = (increases mode (yfrac &&& realExp) realRBit realXcess guard frac &&
        decide (r = realInf)) := by
  intro frac r
  unfold r64ToR32
  rw [hparts]
  dsimp only
  rw [if_pos hexp, ← and_sign_eq]
  change (_ ||| (if increases mode (yfrac &&& realExp) realRBit realXcess guard frac then
      (false || decide (frac + 1 = realInf), frac + 1) else (false, frac)).2 = _) ∧
    (if increases mode (yfrac &&& realExp) realRBit realXcess guard frac then
      (false || decide (frac + 1 = realInf), frac + 1) else (false, frac)).1 = _
  cases h : increases mode (yfrac &&& realExp) realRBit realXcess guard frac <;> simp [r, h]

/-- **A significand that is rounded** by the bits below its fraction. -/
theorem right_of_bits (mode : Mode) {yexp yfrac guard : Bit32} {S h e : ℕ}
    (hparts : r64ToR32Parts x = (false, yexp, yfrac, guard)) (hexp : yexp.toNat < 255)
    (hE : dword x / 2 ^ 52 % 2 ^ 11 ≠ 2047) (hh : 0 < h) (he : 1 ≤ e) (he' : e < 255)
    (hfrac : (shiftright yexp (yfrac <<< 1) (realShift + 1)).2.toNat =
      (e - 1) * 2 ^ 23 + S / (2 * h))
    (hbit : yfrac.toNat / 2 ^ 7 % 2 = S / h % 2)
    (hrest : yfrac.toNat % 2 ^ 7 = 0 ∧ guard.toNat = 0 ↔ S % h = 0)
    (hq : S / (2 * h) < 2 ^ 24) (hlow : e = 1 ∨ 2 ^ 23 ≤ S / (2 * h))
    (hval : patternValue 52 (-1074) (dword x % 2 ^ 63) =
      (S : ℚ) / (2 * h : ℕ) * 2 ^ ((e : ℤ) - 1 + -149)) :
    R64ToR32Right mode x := by
  have hinf : realInf.toNat = 255 * 2 ^ 23 := rfl
  have hexp' : yexp.toInt < realExp.toInt := by
    rw [toInt_of_lt (by omega), show realExp.toInt = 255 by decide]
    omega
  obtain ⟨hres, herror⟩ := @r64ToR32_eq mode x _ _ _ hparts hexp'
  have hv := patternValue_nonneg 52 (-1074) (dword x % 2 ^ 63)
  rw [R64ToR32Right, real64_eq_some hE]
  dsimp only at hres herror ⊢
  generalize (shiftright yexp (yfrac <<< 1) (realShift + 1)).2 = frac at *
  obtain ⟨hround, hword⟩ := roundsToReal32_of_bits mode x.1.msb hh he he' hfrac
    (by rw [hfrac]; omega) hbit hrest hq hlow
  rw [abs_value _ hv, hres, herror, hval]
  refine ⟨hround, ?_⟩
  have hle := mode.quot_le S (2 * h)
  have hmod := (sign_or_spec (x :=
    if increases mode (yfrac &&& realExp) realRBit realXcess guard frac then frac + 1 else frac)
    x.1.msb (by omega)).2
  rw [hmod, Bool.and_eq_true, decide_eq_true_eq, ← eq_iff_toNat]
  refine ⟨And.right, fun h => ⟨?_, h⟩⟩
  -- Without an increase the fraction is not as large.
  by_contra hup
  rw [if_neg hup, eq_iff_toNat, hfrac, hinf] at h
  omega

/-- **The numbers that `R64ToR32` rounds**: those that are nought or have a bit left, or whose
exponent leaves no mark in the result. -/
def LeavesNoMark (x : Words) : Prop :=
  dword x / 2 ^ 52 % 2 ^ 11 = 0 ∨ 866 ≤ dword x / 2 ^ 52 % 2 ^ 11 ∨
    dword x / 2 ^ 52 % 2 ^ 11 = 384 ∨
    x.1.msb = true ∧ (dword x / 2 ^ 52 % 2 ^ 11 = 128 ∨ dword x / 2 ^ 52 % 2 ^ 11 = 640)

/-- What is flagged has the largest exponent. -/
theorem r64ToR32_of_flagged {yexp yfrac guard : Bit32}
    (hparts : r64ToR32Parts x = (true, yexp, yfrac, guard)) (hexp : yexp = realExp) :
    (r64ToR32 mode x).1 = true ∧ (r64ToR32 mode x).2 = (if x.1.msb then signBit32 else 0) |||
      (shiftright realExp (yfrac <<< 1) (realShift + 1)).2 := by
  unfold r64ToR32
  rw [hparts, hexp, ← and_sign_eq]
  dsimp only
  rw [if_neg (lt_irrefl _)]
  exact ⟨rfl, rfl⟩

/-- An infinity, or no number. -/
theorem right_of_undefined (hE : dword x / 2 ^ 52 % 2 ^ 11 = 2047)
    (hexp : (x.1 >>> dRealExpSh) &&& dRealExp = dRealExp) : R64ToR32Right mode x := by
  obtain ⟨yfrac, guard, hparts⟩ : ∃ yfrac guard, r64ToR32Parts x =
      (true, realExp, yfrac, guard) := by
    unfold r64ToR32Parts
    dsimp only
    rw [hexp, if_neg (not_not.mpr rfl)]
    exact ⟨_, _, rfl⟩
  rw [R64ToR32Right, real64_eq_none hE]
  exact (r64ToR32_of_flagged hparts rfl).1

/-- **A number that is too large**. -/
theorem right_of_large {yfrac guard : Bit32}
    (hparts : r64ToR32Parts x = (true, realExp, yfrac, guard)) (hfrac : yfrac = signBit32)
    (hE : dword x / 2 ^ 52 % 2 ^ 11 ≠ 2047) (hp : 1151 * 2 ^ 52 ≤ dword x % 2 ^ 63) :
    R64ToR32Right mode x := by
  obtain ⟨herror, hres⟩ := @r64ToR32_of_flagged mode x _ _ _ hparts rfl
  have hword : (shiftright realExp (yfrac <<< 1) (realShift + 1)).2 = realInf := by
    rw [hfrac]
    decide
  rw [hword] at hres
  have hle : patternValue 52 (-1074) (1151 * 2 ^ 52) ≤ patternValue 52 (-1074) (dword x % 2 ^ 63) :=
    real64_le_iff.mpr hp
  rw [real64_pow (t := 128) (by norm_num) (by norm_num)] at hle
  have htop : patternValue 23 (-149) realInf.toNat = 2 ^ (128 : ℤ) :=
    real32_pow (E := 255) (by norm_num) (by norm_num)
  obtain ⟨hmsb, hmod⟩ := sign_or_spec (x := realInf) x.1.msb (by decide)
  rw [R64ToR32Right, real64_eq_some hE]
  dsimp only
  rw [herror, hres, abs_value _ (patternValue_nonneg _ _ _)]
  refine ⟨⟨hmsb, ?_⟩, iff_of_true rfl hmod⟩
  rw [hmod]
  exact IsRounded.of_top_le (patternValue_strictMono 23 (-149)) mode (htop ▸ hle)

/-- **A number that is too small for any bit to be left**: the exponent is part of the result. -/
theorem right_iff_of_small {E F : ℕ} {yexp guard : Bit32}
    (hparts : r64ToR32Parts x = (false, yexp, 0, guard)) (hexp : yexp.toInt = (E : ℤ) - 896)
    (hE : 1 ≤ E) (hE' : E ≤ 865) (hF : F < 2 ^ 52) (hp : dword x % 2 ^ 63 = E * 2 ^ 52 + F)
    (hfield : dword x / 2 ^ 52 % 2 ^ 11 = E) :
    R64ToR32Right mode x ↔ E = 384 ∨ x.1.msb = true ∧ (E = 128 ∨ E = 640) := by
  have hlt : yexp.toInt < realExp.toInt := by
    rw [hexp, show realExp.toInt = 255 by decide]
    omega
  obtain ⟨hres, herror⟩ := @r64ToR32_eq mode x _ _ _ hparts hlt
  have hkeep : ∀ frac, increases mode ((0 : Bit32) &&& realExp) realRBit realXcess guard frac =
      false := fun frac =>
    if_pos (Or.inr rfl)
  rw [hkeep, if_neg Bool.false_ne_true] at hres
  rw [hkeep, Bool.false_and] at herror
  have hcases := toInt_cases yexp
  have hword : (shiftright yexp ((0 : Bit32) <<< 1) (realShift + 1)).2.toNat =
      yexp.toNat % 2 ^ 9 * 2 ^ 23 := by
    rw [toNat_snd, shiftright_spec, show (realShift + 1).toNat = 9 from rfl, dword]
    change (2 ^ 32 * yexp.toNat + 0) / 2 ^ 9 % 2 ^ 32 = _
    omega
  -- What a correct result has to be.
  have hval : patternValue 52 (-1074) (dword x % 2 ^ 63) =
      ((2 ^ 52 + F : ℕ) : ℚ) / (2 ^ (926 - E) : ℕ) * 2 ^ (((1 : ℕ) : ℤ) - 1 + -149) := by
    rw [hp, patternValue_fields (-1074) hE hF, Nat.cast_pow, Nat.cast_ofNat, div_mul_eq_mul_div,
      eq_div_iff (by positivity), mul_assoc, ← zpow_natCast, ← zpow_add₀ two_ne_zero]
    congr 2
    omega
  have hpow : 2 ^ 61 ≤ 2 ^ (926 - E) := Nat.pow_le_pow_right Nat.two_pos (by omega)
  have hzero : IsRounded (patternValue 23 (-149)) realInf.toNat mode _ _ :=
    isRounded_significand (e := 1) (-149) (S := 2 ^ 52 + F) (D := 2 ^ (926 - E))
    (by norm_num) (Nat.two_pow_pos _) le_rfl
    (by rw [Nat.div_eq_of_lt (by omega)]; norm_num) (Or.inl rfl)
    (by rw [Nat.div_eq_of_lt (by omega)]; decide) mode
  rw [RoundMode.quot_eq_zero mode (by omega), ← hval] at hzero
  obtain ⟨hmsb, hmod⟩ :=
    sign_or_any x.1.msb (shiftright yexp ((0 : Bit32) <<< 1) (realShift + 1)).2
  have hsign := toNat_eq_sign (shiftright yexp ((0 : Bit32) <<< 1) (realShift + 1)).2
  rw [← hres] at hmsb hmod
  rw [hword] at hmod hsign
  rw [R64ToR32Right, real64_eq_some (by omega)]
  dsimp only
  rw [abs_value _ (patternValue_nonneg _ _ _), herror, RoundsToReal32, hmsb, hmod]
  generalize (shiftright yexp ((0 : Bit32) <<< 1) (realShift + 1)).2.msb = b at *
  constructor
  · rintro ⟨⟨hneg, hround⟩, -⟩
    have hnone := hround.unique (patternValue_strictMono 23 (-149)) hzero
    cases b <;> cases hm : x.1.msb <;> simp [hm] at hneg hsign ⊢ <;> omega
  · intro h
    have hnone : yexp.toNat % 2 ^ 9 * 2 ^ 23 % 2 ^ 31 = 0 := by omega
    rw [hnone]
    refine ⟨⟨?_, hzero⟩, iff_of_false Bool.false_ne_true (by decide)⟩
    cases b with
    | false => rw [Bool.or_false]
    | true =>
      rw [if_pos rfl] at hsign
      rw [Bool.or_true]
      rcases h with h | ⟨hm, -⟩
      · omega
      · exact hm.symm

/-- The parts of what underflows gradually. -/
theorem shifted_right {b : Words} {p : ℕ} (hp : p ≤ 31) {places : Bit32}
    (hplaces : places.toNat = p) :
    let s := shiftright b.1 b.2 places
    (s.1.toNat / 2 ^ 7 % 2 = dword b / 2 ^ (39 + p) % 2) ∧
      (s.1.toNat % 2 ^ 7 = 0 ∧ (b.2 ||| s.2).toNat = 0 ↔ dword b % 2 ^ (39 + p) = 0) ∧
      s.1.toNat / 2 ^ 8 = dword b / 2 ^ (40 + p) := by
  intro s
  have hs : dword s = dword b / 2 ^ p := by
    rw [← hplaces]
    exact shiftright_spec b.1 b.2 places
  have hfst := toNat_fst s
  have hsnd := toNat_snd s
  have hlow := toNat_snd b
  have hdiv : ∀ k, dword b / 2 ^ (k + p) = dword b / 2 ^ p / 2 ^ k := fun k => by
    rw [Nat.add_comm, pow_add, Nat.div_div_eq_div_mul]
  refine ⟨by rw [hdiv, hfst, hs]; omega, ?_, by rw [hdiv, hfst, hs]; omega⟩
  have hor : (b.2 ||| s.2).toNat = 0 ↔ b.2.toNat = 0 ∧ s.2.toNat = 0 := by
    rw [← or_eq_zero_iff, eq_iff_toNat, toNat_zero]
  have hsplit : dword b % 2 ^ (39 + p) = dword b / 2 ^ p % 2 ^ 39 * 2 ^ p + dword b % 2 ^ p := by
    rw [Nat.add_comm 39 p, pow_add, Nat.mod_mul]
    ring
  have hsmall : dword b % 2 ^ p = dword b % 2 ^ 32 % 2 ^ p :=
    (Nat.mod_mod_of_dvd _ (Nat.pow_dvd_pow 2 (by omega))).symm
  have hpos := Nat.two_pow_pos p
  rw [hor, hsplit, hfst, hsnd, hlow, hs, Nat.add_eq_zero_iff, Nat.mul_eq_zero]
  constructor
  · rintro ⟨h₁, h₂, h₃⟩
    refine ⟨Or.inl (by omega), ?_⟩
    rw [hsmall, h₂, Nat.zero_mod]
  · rintro ⟨h₁ | h₁, h₂⟩
    · refine ⟨by omega, ?_, by omega⟩
      have hall : dword b % 2 ^ (39 + p) = 0 := by rw [hsplit, h₁, h₂, Nat.zero_mul]
      exact Nat.mod_eq_zero_of_dvd
        ((Nat.pow_dvd_pow 2 (by omega)).trans (Nat.dvd_of_mod_eq_zero hall))
    · omega

/-- The parts of a number that is not nought. -/
theorem r64ToR32Parts_eq {yexp : Bit32} {b : Words}
    (hexp : (x.1 >>> dRealExpSh) &&& dRealExp ≠ dRealExp)
    (hexp0 : (x.1 >>> dRealExpSh) &&& dRealExp ≠ 0)
    (hyexp : ((x.1 >>> dRealExpSh) &&& dRealExp) - (dRealXcess - realXcess) = yexp)
    (hb : ((shiftleft x.1 x.2 dRealShift).1 ||| signBit32, (shiftleft x.1 x.2 dRealShift).2) = b) :
    r64ToR32Parts x =
      if yexp.toInt ≥ realExp.toInt then (true, realExp, signBit32, b.2)
      else if yexp.toInt > 0 then (false, yexp, b.1, b.2)
      else if yexp.toInt > (1 - bitsPerWord32).toInt then
        (false, 0, (shiftright b.1 b.2 (1 - yexp)).1, b.2 ||| (shiftright b.1 b.2 (1 - yexp)).2)
      else (false, yexp, 0, b.2 ||| b.1) := by
  unfold r64ToR32Parts
  dsimp only
  rw [if_pos hexp, if_pos hexp0, hyexp, ← hb]

/-- A multiple of a power of two, counted in others. -/
theorem scaled_eq (M : ℕ) {n : ℕ} {s t : ℤ} (ht : s = t - (n + 1)) :
    (M : ℚ) * 2 ^ s = (M : ℚ) / (2 * 2 ^ n : ℕ) * 2 ^ t := by
  rw [← pow_succ', Nat.cast_pow, Nat.cast_ofNat, div_mul_eq_mul_div, eq_div_iff (by positivity),
    mul_assoc, ← zpow_natCast, ← zpow_add₀ two_ne_zero, ht]
  congr 2
  push_cast
  ring

/-- Nought, and what is smaller than every power of two that has its own exponent. -/
theorem right_of_nought {guard : Bit32} {F : ℕ} (hparts : r64ToR32Parts x = (false, 0, 0, guard))
    (hguard : guard.toNat = 0 ↔ F = 0) (hF : F < 2 ^ 52) (hp : dword x % 2 ^ 63 = F)
    (hfield : dword x / 2 ^ 52 % 2 ^ 11 = 0) : R64ToR32Right mode x := by
  obtain ⟨n, hn⟩ : ∃ n, n = 924 := ⟨_, rfl⟩
  have hdiv : F < 2 ^ n := hF.trans (Nat.pow_lt_pow_right (by norm_num) (by omega))
  have hdiv' : F / (2 * 2 ^ n) = 0 := by
    rw [← pow_succ']
    exact Nat.div_eq_of_lt (hdiv.trans (Nat.pow_lt_pow_right (by norm_num) (by omega)))
  refine right_of_bits mode hparts (S := F) (h := 2 ^ n) (e := 1) (by decide) (by omega)
    (Nat.two_pow_pos _) le_rfl (by norm_num) ?_ ?_ ?_ (by rw [hdiv']; norm_num) (Or.inl rfl) ?_
  · rw [hdiv']
    decide
  · rw [Nat.div_eq_of_lt hdiv]
    rfl
  · rw [Nat.mod_eq_of_lt hdiv, ← hguard]
    exact and_iff_right rfl
  · have hval := @patternValue_eq 52 1 F (-1074) le_rfl (by omega) (Or.inl rfl)
    rw [Nat.sub_self, Nat.zero_mul, Nat.zero_add] at hval
    rw [hp, hval]
    exact scaled_eq F (by omega)

/-- The value of a number, by its significand with the leading bit at the top. -/
theorem significand_eq {E F n : ℕ} {t : ℤ} (hE : 1 ≤ E) (hF : F < 2 ^ 52) (ht : t = E - 1085 + n) :
    patternValue 52 (-1074) (E * 2 ^ 52 + F) =
      (((2 ^ 52 + F) * 2 ^ 11 : ℕ) : ℚ) / (2 * 2 ^ n : ℕ) * 2 ^ t := by
  rw [patternValue_fields (-1074) hE hF,
    ← scaled_eq _ (s := (E : ℤ) - 1086) (by rw [ht]; ring), Nat.cast_mul, Nat.cast_pow,
    Nat.cast_ofNat, mul_assoc, ← zpow_natCast, ← zpow_add₀ two_ne_zero]
  congr 2
  push_cast
  ring

/-- **A number that keeps its exponent**. -/
theorem right_of_normal {E F : ℕ} {yexp : Bit32} {b : Words}
    (hparts : r64ToR32Parts x = (false, yexp, b.1, b.2))
    (hexp : yexp.toNat = (2 ^ 32 - 896 + E) % 2 ^ 32) (hE : 897 ≤ E) (hE' : E ≤ 1150)
    (hF : F < 2 ^ 52) (hb : dword b = (2 ^ 52 + F) * 2 ^ 11)
    (hp : dword x % 2 ^ 63 = E * 2 ^ 52 + F) (hfield : dword x / 2 ^ 52 % 2 ^ 11 = E) :
    R64ToR32Right mode x := by
  have hfst := toNat_fst b
  have hsnd := toNat_snd b
  have hfrac := @toNat_fraction32 yexp b.1 (by omega)
  refine right_of_bits mode hparts (S := dword b) (h := 2 ^ 39) (e := E - 896) (by omega) (by omega)
    (by norm_num) (by omega) (by omega) (by rw [hfrac]; omega) (by omega) (by omega) (by omega)
    (Or.inr (by omega)) ?_
  rw [hp, hb]
  exact significand_eq (n := 39) (by omega) hF (by omega)

/-- **A number that underflows gradually**. -/
theorem right_of_gradual {E F : ℕ} {yexp : Bit32} {b : Words}
    (hparts : r64ToR32Parts x = (false, 0, (shiftright b.1 b.2 (1 - yexp)).1,
      b.2 ||| (shiftright b.1 b.2 (1 - yexp)).2))
    (hexp : yexp.toNat = (2 ^ 32 - 896 + E) % 2 ^ 32) (hE : 866 ≤ E) (hE' : E ≤ 896)
    (hF : F < 2 ^ 52) (hb : dword b = (2 ^ 52 + F) * 2 ^ 11)
    (hp : dword x % 2 ^ 63 = E * 2 ^ 52 + F) (hfield : dword x / 2 ^ 52 % 2 ^ 11 = E) :
    R64ToR32Right mode x := by
  have hplaces : (1 - yexp).toNat = 897 - E := by
    rw [BitVec.toNat_sub, hexp, toNat_one]
    omega
  obtain ⟨hbit, hrest, hfrac⟩ := shifted_right (b := b) (p := 897 - E) (by omega) hplaces
  have hdiv : dword b / (2 * 2 ^ (39 + (897 - E))) =
      (shiftright b.1 b.2 (1 - yexp)).1.toNat / 2 ^ 8 := by
    rw [hfrac, ← pow_succ', Nat.add_right_comm]
  have hspec := shiftright_spec b.1 b.2 (1 - yexp)
  have hsmall : dword (shiftright b.1 b.2 (1 - yexp)) < 2 ^ 63 := by
    have hpow : 2 ^ 1 ≤ 2 ^ (897 - E) := Nat.pow_le_pow_right Nat.two_pos (by omega)
    have hlt := dword_lt b
    rw [hspec, hplaces, Nat.div_lt_iff_lt_mul (Nat.two_pow_pos _)]
    exact lt_of_lt_of_le hlt (Nat.mul_le_mul_left (2 ^ 63) hpow)
  have hfst := toNat_fst (shiftright b.1 b.2 (1 - yexp))
  generalize shiftright b.1 b.2 (1 - yexp) = s at *
  have hfraction := @toNat_fraction32 0 s.1 (by decide)
  rw [toNat_zero] at hfraction
  refine right_of_bits mode hparts (S := dword b) (h := 2 ^ (39 + (897 - E))) (e := 1) (by decide)
    (by omega) (Nat.two_pow_pos _) le_rfl (by norm_num) ?_ hbit hrest (by rw [hdiv]; omega)
    (Or.inl rfl) ?_
  · rw [hfraction, hdiv]
    omega
  · rw [hp, hb]
    exact significand_eq (n := 39 + (897 - E)) (by omega) hF (by omega)

/-- **`R64ToR32`** rounds what leaves no mark, and nothing else. -/
theorem r64ToR32_right_iff (mode : Mode) (x : Words) : R64ToR32Right mode x ↔ LeavesNoMark x := by
  obtain ⟨E, F, hE, hF, hp, hfield, hxexp, hxfrac⟩ := real64_parts x
  have hlead := dword_leading hF hxfrac
  rw [LeavesNoMark, hfield]
  by_cases hinf : E = 2047
  · have hexp : (x.1 >>> dRealExpSh) &&& dRealExp = dRealExp := by
      rw [eq_iff_toNat, hxexp, hinf]
      rfl
    exact iff_of_true (right_of_undefined (hfield.trans hinf) hexp) (by omega)
  have hexp : (x.1 >>> dRealExpSh) &&& dRealExp ≠ dRealExp := fun h => hinf <| by
    rw [← hxexp, h]
    rfl
  by_cases hnought : E = 0
  · have hexp0 : ¬ (x.1 >>> dRealExpSh) &&& dRealExp ≠ 0 := not_not.mpr <| by
      rw [eq_iff_toNat, hxexp, hnought]
      rfl
    have hparts : r64ToR32Parts x = (false, 0, 0, (shiftleft x.1 x.2 dRealShift).1 |||
        (shiftleft x.1 x.2 dRealShift).2) := by
      unfold r64ToR32Parts
      dsimp only
      rw [if_pos hexp, if_neg hexp0]
    refine iff_of_true (right_of_nought hparts ?_ hF (by omega) (by omega)) (Or.inl hnought)
    have hword : dword (shiftleft x.1 x.2 dRealShift) = 2 ^ 32 *
      (shiftleft x.1 x.2 dRealShift).1.toNat + (shiftleft x.1 x.2 dRealShift).2.toNat := rfl
    have hor := (or_eq_zero_iff (shiftleft x.1 x.2 dRealShift).1 (shiftleft x.1 x.2 dRealShift).2)
    rw [eq_iff_toNat, toNat_zero] at hor
    rw [hor]
    omega
  have hexp0 : (x.1 >>> dRealExpSh) &&& dRealExp ≠ 0 := fun h => hnought <| by
    rw [← hxexp, h]
    rfl
  obtain ⟨yexp, hyexp⟩ : ∃ yexp, ((x.1 >>> dRealExpSh) &&& dRealExp) - (dRealXcess - realXcess) =
      yexp := ⟨_, rfl⟩
  obtain ⟨b, hb⟩ : ∃ b : Words,
      ((shiftleft x.1 x.2 dRealShift).1 ||| signBit32, (shiftleft x.1 x.2 dRealShift).2) = b :=
          ⟨_, rfl⟩
  have hparts := r64ToR32Parts_eq hexp hexp0 hyexp hb
  rw [hb] at hlead
  have hword : yexp.toNat = (2 ^ 32 - 896 + E) % 2 ^ 32 := by
    rw [← hyexp, BitVec.toNat_sub, hxexp]
    rfl
  have hint : yexp.toInt = (E : ℤ) - 896 := by
    have := toInt_cases yexp
    omega
  rw [hint, show realExp.toInt = 255 by decide,
    show (1 - bitsPerWord32).toInt = -31 by decide] at hparts
  by_cases hlarge : (E : ℤ) - 896 ≥ 255
  · rw [if_pos hlarge] at hparts
    exact iff_of_true (right_of_large hparts rfl (by omega) (by omega)) (by omega)
  rw [if_neg hlarge] at hparts
  by_cases hnormal : (E : ℤ) - 896 > 0
  · rw [if_pos hnormal] at hparts
    exact iff_of_true (right_of_normal hparts hword (by omega) (by omega) hF hlead hp hfield)
      (by omega)
  rw [if_neg hnormal] at hparts
  by_cases hgradual : (E : ℤ) - 896 > -31
  · rw [if_pos hgradual] at hparts
    exact iff_of_true (right_of_gradual hparts hword (by omega) (by omega) hF hlead hp hfield)
      (by omega)
  rw [if_neg hgradual] at hparts
  rw [right_iff_of_small hparts hint (by omega) (by omega) hF hp hfield, or_iff_right hnought,
    or_iff_right (show ¬ 866 ≤ E by omega)]

end Extlib

end Kroc
