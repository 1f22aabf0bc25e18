import Kroc.Extlib.RealWords

/-!
# Extlib/IntToReal — integers to reals

`I32ToR32` and `I64ToR32` round every number; `I64ToR64` looks for the highest of the bits that are
cut off one place too low.
-/

namespace Kroc

namespace Extlib

variable {n : ℕ}

/-! ## Integers to REAL32 -/

/-- **`I32ToR32`** rounds. -/
theorem i32ToR32_rounds (mode : Mode) (n : Bit32) :
    RoundsToReal32 mode (decide (n.toInt < 0)) (n.toInt.natAbs : ℕ) (i32ToR32 mode n) := by
  have hmag := magnitude32 n
  unfold i32ToR32
  by_cases hn : n = 0
  · rw [if_pos hn, hn]
    exact ⟨rfl, isRounded_zero (by norm_num) (by decide) mode⟩
  rw [if_neg hn]
  simp only [sign32_iff, decide_eq_true_eq]
  generalize (if n.toInt < 0 then (n ^^^ -1) + 1 else n) = xint at *
  have hne : n.toInt.natAbs ≠ 0 := fun h => hn <| by
    have := toInt_cases n
    have := n.isLt
    rw [eq_iff_toNat, toNat_zero]
    omega
  have hdword : dword (xint, 0) = n.toInt.natAbs * 2 ^ 32 := by
    rw [dword, hmag, toNat_zero]
    ring
  obtain ⟨p, hp, hplaces, hb, htop⟩ := exists_normalise (b := (xint, 0))
      (by rw [hdword]; positivity)
  dsimp only at hplaces hb htop
  generalize normalise xint 0 = norm at *
  obtain ⟨places, b⟩ := norm
  dsimp only at *
  rw [hdword, Nat.mul_assoc, ← pow_add] at hb
  have hlt := dword_lt b
  have hp' : p ≤ 31 := by
    by_contra hgt
    have hpow : 2 ^ 64 ≤ 2 ^ (32 + p) := Nat.pow_le_pow_right Nat.two_pos (by omega)
    have := Nat.mul_le_mul (Nat.one_le_iff_ne_zero.mpr hne) hpow
    omega
  have hlo : b.2 = 0 := by
    rw [eq_iff_toNat, toNat_snd, hb, pow_add, mul_left_comm, Nat.mul_mod_right, toNat_zero]
  have hxexp : ((realXcess - 1) + (bitsPerWord32 - places)).toNat = 158 - p := by
    rw [BitVec.toNat_add, BitVec.toNat_sub, BitVec.toNat_sub, hplaces]
    change ((2 ^ 32 - 1 + 127) % 2 ^ 32 + (2 ^ 32 - p + 32) % 2 ^ 32) % 2 ^ 32 = 158 - p
    omega
  obtain ⟨hround, -⟩ := roundsToReal32_of_significand mode (decide (n.toInt < 0)) htop hxexp
    (by omega) (by omega) rfl
  rw [hb, normalised_eq _ (by push_cast [Nat.cast_sub (show p ≤ 158 by omega)]; ring), hlo]
    at hround
  simp only [decide_eq_true_eq] at hround
  by_cases hbig : places.toInt > realShift.toInt
  · have hclear : increases mode (b.1 &&& realExp) realRBit realXcess 0
        (shiftright ((realXcess - 1) + (bitsPerWord32 - places)) (b.1 <<< 1) (realShift + 1)).2 =
          false := by
      have h9 : 9 ≤ p := by
        rw [toInt_of_lt (by omega), toInt_of_lt (by decide), hplaces] at hbig
        have : realShift.toNat = 8 := rfl
        omega
      have hbits := toNat_and_low b.1 (n := 8) (by norm_num)
      have hfst : b.1.toNat = n.toInt.natAbs * 2 ^ p := by
        rw [toNat_fst, hb, pow_add, mul_left_comm, Nat.mul_div_cancel_left _ (by norm_num)]
      have hzero : b.1.toNat % 2 ^ 8 = 0 := by
        obtain ⟨d, rfl⟩ := Nat.exists_eq_add_of_le h9
        rw [hfst, show n.toInt.natAbs * 2 ^ (9 + d) =
            2 ^ 8 * (2 * (n.toInt.natAbs * 2 ^ d)) by ring,
          Nat.mul_mod_right]
      refine Bool.eq_false_iff.mpr fun h => ?_
      rw [show realRBit = BitVec.ofNat 32 (2 ^ 7) from rfl,
        show realXcess = BitVec.ofNat 32 (2 ^ 7 - 1) from rfl] at h
      refine ((increases_iff mode _ _ _ (by norm_num)).mp h).1 (Or.inr ?_)
      rw [show realExp = BitVec.ofNat 32 (2 ^ 8 - 1) from rfl, hbits, hzero, Nat.zero_div]
    rw [hclear] at hround
    rw [if_pos hbig]
    exact hround
  · rw [if_neg hbig]
    exact hround

/-- **`I64ToR32`** rounds. -/
theorem i64ToR32_rounds (mode : Mode) (a : Words) :
    RoundsToReal32 mode (decide (signed a < 0)) ((signed a).natAbs : ℕ) (i64ToR32 mode a) := by
  have hmag := dword_magnitude a
  have hsign : a.1 &&& signBit32 ≠ 0 ↔ signed a < 0 := (not_congr (sign_iff a)).trans not_le
  unfold i64ToR32
  simp only [hsign, decide_eq_true_eq]
  generalize (if signed a < 0 then diff (0, 0) a else a) = b at *
  by_cases hzero : dword b = 0
  · have hb : normalise b.1 b.2 = (64, 0, 0) := by
      rw [dword_eq_zero_iff] at hzero
      rw [normalise, if_pos ⟨hzero.2, hzero.1⟩]
    rw [hb]
    dsimp only
    rw [if_pos (show (64 : Bit32) = 2 * bitsPerWord32 from rfl)]
    rw [hzero] at hmag
    have hneg : signed a = 0 := by omega
    rw [hneg]
    exact ⟨rfl, isRounded_zero (by norm_num) (by decide) mode⟩
  · obtain ⟨p, hp, hplaces, hb, htop⟩ := exists_normalise hzero
    generalize normalise b.1 b.2 = norm at *
    obtain ⟨places, c⟩ := norm
    dsimp only at *
    have hne : places ≠ 2 * bitsPerWord32 := fun h => by
      rw [h] at hplaces
      have : (2 * bitsPerWord32).toNat = 64 := rfl
      omega
    have hxexp : (((2 * bitsPerWord32 - 1) - places) + realXcess).toNat = 190 - p := by
      rw [BitVec.toNat_add, BitVec.toNat_sub, hplaces]
      change ((2 ^ 32 - p + 63) % 2 ^ 32 + 127) % 2 ^ 32 = 190 - p
      omega
    obtain ⟨hround, -⟩ := roundsToReal32_of_significand mode (decide (signed a < 0)) htop hxexp
      (by omega) (by omega) rfl
    rw [hb, normalised_eq _ (by push_cast [Nat.cast_sub (show p ≤ 190 by omega)]; ring), hmag]
      at hround
    rw [if_neg hne]
    simpa only [decide_eq_true_eq] using hround

/-! ## Integers to REAL64 -/

/-- The magnitude of a number, shifted up until its highest bit is that of two words. -/
def normalised (n : ℤ) : ℕ := n.natAbs * 2 ^ (63 - Nat.log 2 n.natAbs)

/-- **`I64ToR64` rounds to nearest** the numbers whose bits that are cut off are the same with and
without the highest: a rest of less than a quarter or more than three, and at these and in the
middle those that are rounded to even. -/
def RoundsRight (n : ℤ) : Prop :=
  let rest := normalised n % 2 ^ 11
  let odd := normalised n / 2 ^ 11 % 2 = 1
  rest < 2 ^ 9 ∨ 3 * 2 ^ 9 < rest ∨ ((rest = 2 ^ 9 ∨ rest = 2 ^ 10) ∧ ¬ odd) ∨
    (rest = 3 * 2 ^ 9 ∧ odd)

instance (n : ℤ) : Decidable (RoundsRight n) := inferInstanceAs (Decidable (_ ∨ _))

theorem normalised_eq_of_le {n : ℤ} {p : ℕ} (hp : p ≤ 63) (hlo : 2 ^ 63 ≤ n.natAbs * 2 ^ p)
    (hhi : n.natAbs * 2 ^ p < 2 ^ 64) : normalised n = n.natAbs * 2 ^ p := by
  have hsplit : 2 ^ 63 = 2 ^ (63 - p) * 2 ^ p := by rw [← pow_add, Nat.sub_add_cancel hp]
  have hlog : Nat.log 2 n.natAbs = 63 - p := by
    refine Nat.log_eq_of_pow_le_of_lt_pow ?_ ?_
    · rw [hsplit] at hlo
      exact Nat.le_of_mul_le_mul_right hlo (Nat.two_pow_pos p)
    · rw [show 2 ^ 64 = 2 ^ (63 - p + 1) * 2 ^ p by rw [← pow_add]; congr 1; omega] at hhi
      exact Nat.lt_of_mul_lt_mul_right hhi
  rw [normalised, hlog, Nat.sub_sub_self hp]

/-- A step that changes nothing, left out. -/
theorem ite_eq_of_clear {α : Type*} {p : Prop} [Decidable p] {up : Bool} {x y : α}
    (h : p → up = false) : (if p then x else if up then y else x) = if up then y else x := by
  split_ifs with hp hu
  · rw [h hp] at hu
    cases hu
  all_goals rfl

/-- The increase of `I64ToR64`. -/
theorem increases64_iff (mode : Mode) {b frac : Bit32} {S : ℕ} (hb : b.toNat = 2 * S % 2 ^ 32)
    (hfrac : frac.toNat % 2 = S / 2 ^ 11 % 2) :
    increases mode (b &&& dRealExp) dRealRBit dRealXcess 0 frac = true ↔
      ¬ (mode = .truncate ∨ S / 2 ^ 9 % 2 = 0) ∧ ¬ (S % 2 ^ 9 = 0 ∧ S / 2 ^ 11 % 2 = 0) := by
  have hbits := toNat_and_low b (n := 11) (by norm_num)
  have h := increases_iff mode (b &&& dRealExp) 0 frac (k := 10) (by norm_num)
  rw [show dRealExp = BitVec.ofNat 32 (2 ^ 11 - 1) from rfl, hbits, hb, hfrac, toNat_zero] at h
  exact h.trans (and_congr (not_congr (or_congr Iff.rfl (by omega)))
    (not_congr (and_congr (by omega) Iff.rfl)))

/-- **`I64ToR64`** gives the exponent and the significand, increased by one or not. -/
theorem i64ToR64_eq (mode : Mode) {n : Words} (hne : dword n ≠ 0) : ∃ p ≤ 63, ∃ up : Bool,
    normalised (signed n) = (signed n).natAbs * 2 ^ p ∧ 2 ^ 63 ≤ normalised (signed n) ∧
    normalised (signed n) < 2 ^ 64 ∧
    (up = true ↔ ¬ (mode = .truncate ∨ normalised (signed n) / 2 ^ 9 % 2 = 0) ∧
      ¬ (normalised (signed n) % 2 ^ 9 = 0 ∧ normalised (signed n) / 2 ^ 11 % 2 = 0)) ∧
    (i64ToR64 mode n).1.msb = decide (signed n < 0) ∧
    dword (i64ToR64 mode n) % 2 ^ 63 =
      (1086 - p - 1) * 2 ^ 52 + (normalised (signed n) / 2 ^ 11 + up.toNat) := by
  have hmag := dword_magnitude n
  have hsign : n.1 &&& signBit32 ≠ 0 ↔ signed n < 0 := (not_congr (sign_iff n)).trans not_le
  have hzero : ¬ n.1 ||| n.2 = 0 := by
    rw [or_eq_zero_iff]
    unfold dword at hne
    omega
  have hmag0 : (signed n).natAbs ≠ 0 := by
    have := signed_cases n
    have := dword_lt n
    omega
  unfold i64ToR64
  rw [if_neg hzero]
  simp only [hsign, decide_eq_true_eq]
  generalize (if signed n < 0 then diff (0, 0) n else n) = b at *
  obtain ⟨p, hp, hplaces, hb, htop⟩ := exists_normalise (b := b) (by rw [hmag]; exact hmag0)
  generalize normalise b.1 b.2 = norm at *
  obtain ⟨places, c⟩ := norm
  dsimp only at *
  have hlt := dword_lt c
  rw [hmag] at hb
  have hnorm := normalised_eq_of_le hp (hb ▸ htop) (hb ▸ hlt)
  rw [← hb] at hnorm
  have hxexp : ((dRealXcess - 1) + (2 * bitsPerWord32 - places)).toNat = 1086 - p := by
    rw [BitVec.toNat_add, BitVec.toNat_sub, BitVec.toNat_sub, hplaces]
    change ((2 ^ 32 - 1 + 1023) % 2 ^ 32 + (2 ^ 32 - p + 64) % 2 ^ 32) % 2 ^ 32 = 1086 - p
    omega
  generalize (dRealXcess - 1) + (2 * bitsPerWord32 - places) = xexp at *
  have hx : dword (shiftleft c.1 c.2 1) = 2 * dword c - 2 ^ 64 := by
    rw [dword_shiftleft_one]
    omega
  generalize shiftleft c.1 c.2 1 = xint at *
  have hxhi := toNat_fst xint
  have hxlo := toNat_snd xint
  have hhi : (shiftright xexp xint.1 (dRealShift + 1)).2.toNat =
      (1086 - p) * 2 ^ 20 + xint.1.toNat / 2 ^ 12 := by
    have hlt' := xint.1.isLt
    have hword : dword (xexp, xint.1) = 2 ^ 32 * xexp.toNat + xint.1.toNat := rfl
    rw [toNat_snd, shiftright_spec, show (dRealShift + 1).toNat = 12 from rfl, hword, hxexp]
    clear hword
    omega
  have hlo : (shiftright xint.1 xint.2 (dRealShift + 1)).2.toNat =
      dword xint / 2 ^ 12 % 2 ^ 32 := by
    rw [toNat_snd, shiftright_spec]
    rfl
  have hfrac : dword ((shiftright xexp xint.1 (dRealShift + 1)).2,
      (shiftright xint.1 xint.2 (dRealShift + 1)).2) =
        (1086 - p - 1) * 2 ^ 52 + dword c / 2 ^ 11 := by
    rw [dword]
    dsimp only
    rw [hhi, hlo]
    omega
  generalize (shiftright xexp xint.1 (dRealShift + 1)).2 = fhi at *
  generalize (shiftright xint.1 xint.2 (dRealShift + 1)).2 = flo at *
  have hup := @increases64_iff mode xint.2 flo (dword c) (by omega) (by omega)
  refine ⟨p, hp, increases mode (xint.2 &&& dRealExp) dRealRBit dRealXcess 0 flo, ?_, ?_, ?_, ?_,
      ?_⟩
  · rw [hnorm, hb]
  · rw [hnorm]; exact htop
  · rw [hnorm]; exact hlt
  · rw [hnorm]; exact hup
  · have hsucc := dword_ite_succ (increases mode (xint.2 &&& dRealExp) dRealRBit dRealXcess 0 flo)
      (x := (fhi, flo)) (by rw [hfrac]; omega)
    have hle := Bool.toNat_le (increases mode (xint.2 &&& dRealExp) dRealRBit dRealXcess 0 flo)
    rw [ite_eq_of_clear]
    · rw [hfrac, Nat.add_assoc] at hsucc
      generalize (if increases mode (xint.2 &&& dRealExp) dRealRBit dRealXcess 0 flo then
        ((longsum fhi 0 (longsum flo 1 0).1).2, (longsum flo 1 0).2) else (fhi, flo)) = r at *
      obtain ⟨hmsb, hmod⟩ := sign_or_words (decide (signed n < 0)) (x := r) (by rw [hsucc]; omega)
      simp only [decide_eq_true_eq] at hmsb hmod
      rw [hnorm]
      exact ⟨hmsb, hmod.trans hsucc⟩
    · -- all the bits of a small number are there
      intro hbig
      have h44 : 44 ≤ p := by
        rw [toInt_of_lt (by omega), toInt_of_lt (by decide), hplaces] at hbig
        have : (bitsPerWord32 + dRealShift).toNat = 43 := rfl
        omega
      refine Bool.eq_false_iff.mpr fun h => (hup.mp h).1 (Or.inr ?_)
      obtain ⟨d, rfl⟩ := Nat.exists_eq_add_of_le h44
      rw [hb, show (signed n).natAbs * 2 ^ (44 + d) =
        2 ^ 9 * (2 * (2 ^ 34 * ((signed n).natAbs * 2 ^ d))) by ring,
        Nat.mul_div_cancel_left _ (by norm_num), Nat.mul_mod_right]

/-- When the bits without the highest say the same. -/
theorem increase_eq_iff {n : ℤ} {up : Bool} (hup : up = true ↔
    ¬ (RoundMode.nearest = .truncate ∨ normalised n / 2 ^ 9 % 2 = 0) ∧
      ¬ (normalised n % 2 ^ 9 = 0 ∧ normalised n / 2 ^ 11 % 2 = 0)) :
    (if RoundMode.nearest = .truncate ∨ normalised n / 2 ^ 10 % 2 = 0 then 0
      else if normalised n % 2 ^ 10 = 0 ∧ normalised n / (2 * 2 ^ 10) % 2 = 0 then 0 else 1) =
        up.toNat ↔ RoundsRight n := by
  have hne : ¬ RoundMode.nearest = .truncate := by decide
  unfold RoundsRight
  simp only [or_iff_right hne] at hup ⊢
  generalize normalised n = S at *
  simp only [Nat.reducePow, Nat.reduceMul] at hup ⊢
  cases up with
  | true =>
    have h := hup.mp rfl
    rw [Bool.toNat_true]
    constructor
    · intro hright
      split_ifs at hright
      omega
    · intro hright
      split_ifs <;> omega
  | false =>
    have h := mt hup.mpr Bool.false_ne_true
    rw [Bool.toNat_false]
    constructor
    · intro hright
      split_ifs at hright <;> omega
    · intro hright
      split_ifs <;> omega

/-- **`I64ToR64`** truncates, and rounds to nearest where the highest of the bits that are cut off
makes no difference. -/
theorem i64ToR64_rounds_iff (mode : Mode) (n : Words) :
    RoundsToReal64 mode (decide (signed n < 0)) ((signed n).natAbs : ℕ) (i64ToR64 mode n) ↔
      mode = .truncate ∨ RoundsRight (signed n) := by
  by_cases hzero : dword n = 0
  · have hn := dword_eq_zero_iff.mp hzero
    have hsigned : signed n = 0 := by
      have := signed_cases n
      omega
    have hres : i64ToR64 mode n = (0, 0) := by
      rw [i64ToR64, if_pos ((or_eq_zero_iff _ _).mpr
          ⟨by rw [hn.2, toNat_zero], by rw [hn.1, toNat_zero]⟩)]
    rw [hres, hsigned]
    exact iff_of_true ⟨rfl, isRounded_zero (by norm_num) (by norm_num) mode⟩ (Or.inr (by decide))
  obtain ⟨p, hp, up, hnorm, hlo, hhi, hup, hmsb, hmod⟩ := i64ToR64_eq mode hzero
  have hround : IsRounded (patternValue 52 (-1074)) (2047 * 2 ^ 52) mode ((signed n).natAbs : ℕ)
      ((1086 - p - 1) * 2 ^ 52 + mode.quot (normalised (signed n)) (2 ^ 11)) := by
    have h := isRounded_significand (-1074) (f := 52) (S := normalised (signed n)) (D := 2 ^ 11)
      (e := 1086 - p) (by norm_num) (by norm_num) (by omega) (by omega) (Or.inr (by omega))
      (show (1086 - p - 1) * 2 ^ 52 + normalised (signed n) / 2 ^ 11 + 1 ≤ 2047 * 2 ^ 52 by omega)
      mode
    rw [hnorm, normalised_eq _ (by push_cast [Nat.cast_sub (show p ≤ 1086 by omega)]; ring),
      ← hnorm] at h
    exact h
  have hright : RoundsToReal64 mode (decide (signed n < 0)) ((signed n).natAbs : ℕ)
      (i64ToR64 mode n) ↔ mode.quot (normalised (signed n)) (2 ^ 11) =
        normalised (signed n) / 2 ^ 11 + up.toNat := by
    rw [RoundsToReal64, hmsb, hmod, and_iff_right rfl]
    constructor
    · intro h
      exact Nat.add_left_cancel (hround.unique (patternValue_strictMono 52 _) h)
    · intro h
      rw [← h]
      exact hround
  rw [hright, show 2 ^ 11 = 2 * 2 ^ 10 from rfl, RoundMode.quot_eq mode _ (by norm_num),
    Nat.add_left_cancel_iff]
  cases mode with
  | truncate =>
    rw [if_pos (Or.inl rfl), Bool.eq_false_iff.mpr fun h => (hup.mp h).1 (Or.inl rfl)]
    exact iff_of_true rfl (Or.inl rfl)
  | nearest => exact (increase_eq_iff hup).trans (or_iff_right (by decide)).symm

end Extlib

end Kroc
