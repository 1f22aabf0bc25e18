import Kroc.Lib.RoundEven

/-!
# Lib/FloatPattern — patterns of floating point numbers

A pattern without its sign has `f` bits of fraction, and the exponent above them.  Its value goes up
with the pattern, in equal steps between two powers of two, so that what a significand rounds to is
an even pattern and a rounded quotient.  A value is truncated or rounded to nearest, ties to even.
-/

/-! ## Two ways to round -/

inductive RoundMode
  | truncate
  | nearest
  deriving DecidableEq

namespace RoundMode

variable {mode : RoundMode} {N D N' D' h : ℕ}

/-- A rounded quotient. -/
def quot : RoundMode → ℕ → ℕ → ℕ
  | truncate, N, D => N / D
  | nearest, N, D => roundEven N D

/-- **Rounding by bits**: that of half a step, and what is below it. -/
theorem quot_eq (mode : RoundMode) (N : ℕ) (hh : 0 < h) : mode.quot N (2 * h) = N / (2 * h) +
    if mode = truncate ∨ N / h % 2 = 0 then 0
    else if N % h = 0 ∧ N / (2 * h) % 2 = 0 then 0 else 1 := by
  cases mode with
  | truncate => rw [if_pos (Or.inl rfl)]; rfl
  | nearest =>
    have hdiv : N / (2 * h) = N / h / 2 := by rw [mul_comm, Nat.div_div_eq_div_mul]
    have hmod : N % (2 * h) = N / h % 2 * h + N % h := by rw [mul_comm 2 h, Nat.mod_mul]; ring
    have hlt := Nat.mod_lt N hh
    rw [quot, roundEven, roundUp, hmod, hdiv]
    clear hmod hdiv
    generalize N / h = a
    generalize N % h = b at *
    rcases Nat.mod_two_eq_zero_or_one a with ha | ha
    · rw [ha, zero_mul, zero_add, if_pos (Or.inr rfl), if_neg (by omega)]
    · have hne : ¬ (nearest = truncate ∨ a % 2 = 0) := by simp [ha]
      rw [if_neg hne, ha, one_mul]
      split_ifs <;> omega

theorem quot_mul_right (mode : RoundMode) (N D : ℕ) {c : ℕ} (hc : 0 < c) :
    mode.quot (N * c) (D * c) = mode.quot N D := by
  have hdiv : N * c / (D * c) = N / D := Nat.mul_div_mul_right N D hc
  cases mode with
  | truncate => exact hdiv
  | nearest =>
    have hlt : D * c < 2 * (N % D * c) ↔ D < 2 * (N % D) := by
      rw [← mul_assoc]
      exact Nat.mul_lt_mul_right hc
    have heq : D * c = 2 * (N % D * c) ↔ D = 2 * (N % D) := by
      rw [← mul_assoc]
      exact Nat.mul_left_inj hc.ne'
    simp only [quot, roundEven, roundUp, hdiv, Nat.mul_mod_mul_right, hlt, heq]

/-- Equal quotients round alike. -/
theorem quot_congr (hD : 0 < D) (hD' : 0 < D') (heq : N * D' = N' * D) :
    mode.quot N D = mode.quot N' D' := by
  rw [← quot_mul_right mode N D hD', heq, mul_comm D D', quot_mul_right mode N' D' hD]

theorem div_le_quot (mode : RoundMode) (N D : ℕ) : N / D ≤ mode.quot N D := by
  cases mode with
  | truncate => exact le_rfl
  | nearest => exact Nat.le_add_right _ _

theorem quot_le (mode : RoundMode) (N D : ℕ) : mode.quot N D ≤ N / D + 1 := by
  cases mode with
  | truncate => exact Nat.le_succ _
  | nearest => exact Nat.add_le_add_left (roundUp_le N D) _

/-- Less than a half. -/
theorem quot_eq_zero (mode : RoundMode) (hlt : 2 * N < D) : mode.quot N D = 0 := by
  have hdiv : N / D = 0 := Nat.div_eq_of_lt (by omega)
  cases mode with
  | truncate => exact hdiv
  | nearest =>
    rw [quot, roundEven, roundUp, hdiv, Nat.mod_eq_of_lt (by omega), if_neg (by omega)]

/-- What there is no rest of. -/
theorem quot_mul (mode : RoundMode) (n : ℕ) (hD : 0 < D) : mode.quot (n * D) D = n := by
  have hdiv : n * D / D = n := Nat.mul_div_cancel n hD
  cases mode with
  | truncate => exact hdiv
  | nearest => rw [quot, roundEven, roundUp, hdiv, Nat.mul_mod_left, if_neg (by omega), add_zero]

/-- From a half up to one. -/
theorem quot_half (mode : RoundMode) {F : ℕ} (hF : F < h) :
    mode.quot (h + F) (2 * h) = if mode = truncate ∨ F = 0 then 0 else 1 := by
  have hh := Nat.zero_lt_of_lt hF
  have hdiv : (h + F) / h = 1 := by
    rw [Nat.add_div_left _ hh, Nat.div_eq_of_lt hF]
  have hdiv' : (h + F) / (2 * h) = 0 := Nat.div_eq_of_lt (by omega)
  have hmod : (h + F) % h = F := by rw [Nat.add_mod_left, Nat.mod_eq_of_lt hF]
  rw [quot_eq mode _ hh, hdiv, hdiv', hmod]
  cases mode with
  | truncate => rfl
  | nearest => simp

/-- A number, rounded to an integer. -/
def int (mode : RoundMode) (x : ℚ) : ℤ := x.num.sign * mode.quot x.num.natAbs x.den

/-- **A quotient with a sign** rounds to the rounded quotient. -/
theorem int_eq (mode : RoundMode) (neg : Bool) (N : ℕ) (hD : 0 < D) :
    mode.int ((if neg then -1 else 1) * (N / D)) =
      (if neg then -1 else 1) * (mode.quot N D : ℤ) := by
  generalize hx : (if neg then -1 else 1) * ((N : ℚ) / D) = x
  have hDQ : (0 : ℚ) < D := Nat.cast_pos.mpr hD
  have hden : (0 : ℚ) < x.den := Nat.cast_pos.mpr x.den_pos
  have habs : |x| = N / D := by
    rw [← hx]
    split_ifs
    · rw [neg_one_mul, abs_neg, abs_of_nonneg (by positivity)]
    · rw [one_mul, abs_of_nonneg (by positivity)]
  have hcross : x.num.natAbs * D = N * x.den := by
    have hq : |x| = (x.num.natAbs : ℚ) / x.den := by
      conv_lhs => rw [← Rat.num_div_den x]
      rw [abs_div, abs_of_pos hden, Nat.cast_natAbs, Int.cast_abs]
    rw [habs, div_eq_div_iff hDQ.ne' hden.ne'] at hq
    exact_mod_cast hq.symm
  rw [int, quot_congr x.den_pos hD hcross]
  rcases Nat.eq_zero_or_pos N with rfl | hN
  · rw [quot_eq_zero mode (by omega)]
    simp
  · have hpos : (0 : ℚ) < N / D := div_pos (Nat.cast_pos.mpr hN) hDQ
    cases neg with
    | true =>
      have hneg : x.num < 0 := by
        rw [Rat.num_neg, ← hx]
        simpa using hpos
      rw [Int.sign_eq_neg_one_of_neg hneg]
      rfl
    | false =>
      have hneg : 0 < x.num := by
        rw [Rat.num_pos, ← hx]
        simpa using hpos
      rw [Int.sign_eq_one_of_pos hneg]
      rfl

/-- **What an even number is rounded from.** -/
theorem quot_nearest_iff {q : ℕ} (hD : 0 < D) (hq : q % 2 = 0) : nearest.quot N D = q ↔
    2 * (q * D) ≤ 2 * N + D ∧ 2 * N ≤ 2 * (q * D) + D := by
  rw [quot, roundEven_eq_iff hD]
  omega

/-- **A magnitude with a sign** rounds to one with the same sign, that is not less than the integers
below the magnitude. -/
theorem exists_int_eq (mode : RoundMode) (neg : Bool) {v : ℚ} (hv : 0 ≤ v) : ∃ m : ℕ,
    mode.int ((if neg then -1 else 1) * v) = (if neg then -1 else 1) * (m : ℤ) ∧
      (∀ B : ℕ, (B : ℚ) ≤ v → B ≤ m) ∧ (2 * v < 1 → m = 0) := by
  have hden : (0 : ℚ) < v.den := Nat.cast_pos.mpr v.den_pos
  have hquot : v = (v.num.natAbs : ℚ) / v.den := by
    conv_lhs => rw [← Rat.num_div_den v]
    rw [Nat.cast_natAbs, abs_of_nonneg (Rat.num_nonneg.mpr hv)]
  refine ⟨mode.quot v.num.natAbs v.den, ?_, fun B hB => ?_, fun hlt => ?_⟩
  · conv_lhs => rw [hquot]
    exact int_eq mode neg _ v.den_pos
  · refine le_trans ?_ (div_le_quot mode _ _)
    rw [hquot, le_div_iff₀ hden] at hB
    exact (Nat.le_div_iff_mul_le v.den_pos).mpr (by exact_mod_cast hB)
  · rw [hquot, ← mul_div_assoc, div_lt_one hden] at hlt
    exact quot_eq_zero mode (by exact_mod_cast hlt)

end RoundMode

/-! ## Values and patterns -/

/-- `v n` is the value of those up to `v top` that is nearest to `x` from below. -/
def IsTruncated (v : ℕ → ℚ) (top : ℕ) (x : ℚ) (n : ℕ) : Prop :=
  n ≤ top ∧ v n ≤ x ∧ ∀ p ≤ top, v p ≤ x → p ≤ n

/-- `x` rounds to `v n`. -/
def IsRounded (v : ℕ → ℚ) (top : ℕ) : RoundMode → ℚ → ℕ → Prop
  | .truncate => IsTruncated v top
  | .nearest => IsNearestEven v top

namespace IsRounded

variable {v : ℕ → ℚ} {top n n' : ℕ} {mode : RoundMode} {x : ℚ}

/-- **A number rounds to one value.** -/
theorem unique (hv : StrictMono v) (h : IsRounded v top mode x n) (h' : IsRounded v top mode x n') :
    n = n' := by
  cases mode with
  | truncate => exact le_antisymm (h'.2.2 n h.1 h.2.1) (h.2.2 n' h'.1 h'.2.1)
  | nearest => exact IsNearestEven.unique hv h h'

theorem of_top_le (hv : StrictMono v) (mode : RoundMode) (hx : v top ≤ x) :
    IsRounded v top mode x top := by
  cases mode with
  | truncate => exact ⟨le_rfl, hx, fun _ hp _ => hp⟩
  | nearest => exact IsNearestEven.of_top_le hv hx

/-- **Where the values go up in equal steps** of `u`, a number rounds to the rounded quotient. -/
theorem of_quotient (hv : StrictMono v) {k N D : ℕ} {u : ℚ} (hu : 0 < u) (hD : 0 < D)
    (hk : k % 2 = 0) (htop : k + N / D + 1 ≤ top)
    (hval : ∀ i ≤ 1, v (k + (N / D + i)) = ((N / D + i : ℕ) : ℚ) * u)
    (hx : x = (N : ℚ) / D * u) (mode : RoundMode) :
    IsRounded v top mode x (k + mode.quot N D) := by
  cases mode with
  | truncate =>
    have hDQ : (0 : ℚ) < D := Nat.cast_pos.mpr hD
    have hlo := hval 0 (Nat.zero_le 1)
    have hhi := hval 1 le_rfl
    have hle : ((N / D : ℕ) : ℚ) ≤ N / D := Nat.cast_div_le
    have hlt : (N : ℚ) / D < (N / D + 1 : ℕ) := by
      rw [div_lt_iff₀ hDQ]
      have hmul : N < (N / D + 1) * D := by
        rw [mul_comm]
        exact Nat.lt_mul_div_succ N hD
      exact_mod_cast hmul
    refine ⟨(Nat.le_succ _).trans htop, ?_, fun p _ hp => ?_⟩
    · rw [show v (k + RoundMode.truncate.quot N D) = _ from hlo, hx]
      exact mul_le_mul_of_nonneg_right hle hu.le
    · by_contra hgt
      have hge : k + (N / D + 1) ≤ p := by
        have : k + N / D < p := not_le.mp hgt
        omega
      have hmono := hv.monotone hge
      rw [hhi] at hmono
      have := mul_lt_mul_of_pos_right hlt hu
      rw [← hx] at this
      linarith
  | nearest => exact IsNearestEven.of_quotient hv hu hD hk htop hval hx

end IsRounded

/-- The value of a pattern. -/
def patternValue (f : ℕ) (emin : ℤ) (p : ℕ) : ℚ :=
  if p / 2 ^ f = 0 then (p % 2 ^ f : ℕ) * 2 ^ emin
  else (2 ^ f + p % 2 ^ f : ℕ) * 2 ^ ((p / 2 ^ f : ℕ) - 1 + emin)

section Pattern

variable {f e n S D top : ℕ} {emin : ℤ}

/-- **A pattern counts up from an even one**, in steps that are those of its exponent. -/
theorem patternValue_eq (he : 1 ≤ e) (hn : n ≤ 2 ^ (f + 1)) (h : e = 1 ∨ 2 ^ f ≤ n) :
    patternValue f emin ((e - 1) * 2 ^ f + n) = (n : ℚ) * 2 ^ ((e : ℤ) - 1 + emin) := by
  obtain ⟨e, rfl⟩ := Nat.exists_eq_add_of_le' he
  have hpos := Nat.two_pow_pos f
  rw [Nat.add_sub_cancel, patternValue, Nat.mul_comm e, Nat.mul_add_div hpos, Nat.mul_add_mod]
  rcases Nat.lt_or_ge n (2 ^ f) with hlt | hge
  · obtain rfl : e = 0 := by omega
    rw [Nat.div_eq_of_lt hlt, Nat.mod_eq_of_lt hlt, if_pos rfl]
    norm_num
  · rcases hn.eq_or_lt with rfl | hlt
    · have hdiv : 2 ^ (f + 1) / 2 ^ f = 2 := by
        rw [pow_succ, Nat.mul_div_cancel_left _ hpos]
      have hmod : 2 ^ (f + 1) % 2 ^ f = 0 := by rw [pow_succ, Nat.mul_mod_right]
      rw [hdiv, hmod, if_neg (Nat.succ_ne_zero _), Nat.add_zero]
      push_cast
      rw [show (e : ℤ) + 2 - 1 + emin = 1 + (e + 1 - 1 + emin) by ring, zpow_add₀ two_ne_zero]
      ring
    · have hdiv : n / 2 ^ f = 1 := by
        rw [Nat.div_eq_iff hpos]
        rw [pow_succ] at hlt
        omega
      have hmod : n % 2 ^ f = n - 2 ^ f := by
        rw [Nat.mod_eq_sub_mod hge, Nat.mod_eq_of_lt]
        rw [pow_succ] at hlt
        omega
      rw [hdiv, hmod, if_neg (Nat.succ_ne_zero _), Nat.add_sub_cancel' hge]

/-- The value of an exponent and a fraction. -/
theorem patternValue_fields {F : ℕ} (emin : ℤ) (he : 1 ≤ e) (hF : F < 2 ^ f) :
    patternValue f emin (e * 2 ^ f + F) = (2 ^ f + F : ℕ) * 2 ^ ((e : ℤ) - 1 + emin) := by
  have hn : 2 ^ f + F ≤ 2 ^ (f + 1) := by
    rw [pow_succ]
    omega
  rw [← patternValue_eq he hn (Or.inr (Nat.le_add_right _ _))]
  obtain ⟨e, rfl⟩ := Nat.exists_eq_add_of_le' he
  congr 1
  rw [Nat.add_sub_cancel]
  ring

/-- The value of a power of two. -/
theorem patternValue_pow (f : ℕ) (emin : ℤ) (he : 1 ≤ e) :
    patternValue f emin (e * 2 ^ f) = 2 ^ ((f : ℤ) + (e - 1 + emin)) := by
  have h := patternValue_fields emin he (Nat.two_pow_pos f)
  rw [Nat.add_zero, Nat.add_zero] at h
  rw [h]
  generalize (e : ℤ) - 1 + emin = t
  rw [zpow_add₀ two_ne_zero, zpow_natCast]
  push_cast
  rfl

/-- A pattern, from the even one below it. -/
theorem exists_pattern (f p : ℕ) : ∃ e n, p = (e - 1) * 2 ^ f + n ∧ 1 ≤ e ∧ n < 2 ^ (f + 1) ∧
    (e = 1 ∨ 2 ^ f ≤ n) := by
  have hpos := Nat.two_pow_pos f
  have hmod := Nat.div_add_mod' p (2 ^ f)
  have hlt := Nat.mod_lt p hpos
  have hpow : 2 ^ (f + 1) = 2 * 2 ^ f := by ring
  rcases Nat.eq_zero_or_pos (p / 2 ^ f) with hz | hp
  · rw [hz, zero_mul, zero_add] at hmod
    exact ⟨1, p, by simp, le_rfl, by omega, Or.inl rfl⟩
  · obtain ⟨e, he⟩ := Nat.exists_eq_add_of_le' hp
    refine ⟨e + 1, 2 ^ f + p % 2 ^ f, ?_, by omega, by omega, Or.inr (by omega)⟩
    rw [he] at hmod
    rw [Nat.add_sub_cancel]
    linarith [Nat.add_mul e 1 (2 ^ f)]

theorem patternValue_strictMono (f : ℕ) (emin : ℤ) : StrictMono (patternValue f emin) := by
  refine strictMono_nat_of_lt_succ fun p => ?_
  obtain ⟨e, n, rfl, he, hn, h⟩ := exists_pattern f p
  rw [Nat.add_assoc, patternValue_eq he hn.le h,
    patternValue_eq he hn (h.imp_right fun h => h.trans (Nat.le_succ n))]
  refine mul_lt_mul_of_pos_right ?_ (by positivity)
  push_cast
  linarith

/-- **A significand rounds** at the lowest bit of the fraction. -/
theorem isRounded_significand (emin : ℤ) (hf : 0 < f) (hD : 0 < D) (he : 1 ≤ e)
    (hq : S / D < 2 ^ (f + 1))
    (hlow : e = 1 ∨ 2 ^ f ≤ S / D) (htop : (e - 1) * 2 ^ f + S / D + 1 ≤ top) (mode : RoundMode) :
    IsRounded (patternValue f emin) top mode ((S : ℚ) / D * 2 ^ ((e : ℤ) - 1 + emin))
      ((e - 1) * 2 ^ f + mode.quot S D) := by
  have heven : (e - 1) * 2 ^ f % 2 = 0 := by
    obtain ⟨f, rfl⟩ := Nat.exists_eq_add_of_le' hf
    rw [pow_succ, ← mul_assoc, Nat.mul_mod_left]
  refine IsRounded.of_quotient (patternValue_strictMono f emin) (by positivity) hD heven htop
    (fun i hi => ?_) rfl mode
  exact patternValue_eq he (by omega) (hlow.imp_right fun h => by omega)

/-- Zero rounds to the pattern of zero. -/
theorem isRounded_zero (hf : 0 < f) (htop : 0 < top) (mode : RoundMode) :
    IsRounded (patternValue f emin) top mode 0 0 := by
  have h : IsRounded (patternValue f emin) top mode
      (((0 : ℕ) : ℚ) / (1 : ℕ) * 2 ^ (((1 : ℕ) : ℤ) - 1 + emin))
          ((1 - 1) * 2 ^ f + mode.quot 0 1) :=
    isRounded_significand emin hf Nat.one_pos le_rfl (by simp) (Or.inl rfl)
      (by simpa using Nat.one_le_iff_ne_zero.mpr htop.ne') mode
  rw [RoundMode.quot_eq_zero mode (by norm_num)] at h
  simpa using h

theorem patternValue_nonneg (f : ℕ) (emin : ℤ) (p : ℕ) : 0 ≤ patternValue f emin p := by
  unfold patternValue
  split_ifs <;> positivity

/-- A multiple of a power of two, as a quotient. -/
theorem mul_zpow_eq_div (M : ℕ) {a b : ℕ} {t : ℤ} (ht : t = a - b) :
    (M : ℚ) * 2 ^ t = ((M * 2 ^ a : ℕ) : ℚ) / (2 ^ b : ℕ) := by
  rw [ht, zpow_sub₀ two_ne_zero, zpow_natCast, zpow_natCast]
  push_cast
  ring

/-- A number that has been shifted up stands for itself. -/
theorem normalised_eq (M : ℕ) {P W : ℕ} {t : ℤ} (ht : t = W - P) :
    ((M * 2 ^ P : ℕ) : ℚ) / (2 ^ W : ℕ) * 2 ^ t = M := by
  rw [ht, zpow_sub₀ two_ne_zero, zpow_natCast, zpow_natCast]
  push_cast
  field_simp

end Pattern
