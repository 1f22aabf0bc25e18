import Mathlib.Tactic

/-!
# Lib/RoundEven — rounding to nearest, ties to even

`roundEven N D` is the quotient of two natural numbers, rounded.  `IsNearestEven v top x n` says
what rounding is for: among the values `v 0, …, v top` none is nearer to `x` than `v n`, and `n` is
even if another is as near.  **A strictly increasing `v` has one such `n`**, and where it goes up in
equal steps it is given by the rounded quotient.
-/

/-! ## Quotients -/

/-- What rounding adds to the quotient of `N` by `D`. -/
def roundUp (N D : ℕ) : ℕ :=
  if D < 2 * (N % D) ∨ D = 2 * (N % D) ∧ N / D % 2 = 1 then 1 else 0

/-- The quotient of `N` by `D`, rounded to nearest, ties to even. -/
def roundEven (N D : ℕ) : ℕ := N / D + roundUp N D

section Quotient

variable {N D q : ℕ}

theorem roundUp_le (N D : ℕ) : roundUp N D ≤ 1 := by
  unfold roundUp
  split_ifs <;> simp

/-- **What rounds to `q`**: the numbers up to half a step from it, with the middles if it is
even. -/
theorem roundEven_eq_iff (hD : 0 < D) : roundEven N D = q ↔
    (2 * (q * D) < 2 * N + D ∨ 2 * (q * D) = 2 * N + D ∧ q % 2 = 0) ∧
      (2 * N < 2 * (q * D) + D ∨ 2 * N = 2 * (q * D) + D ∧ q % 2 = 0) := by
  have hN := Nat.div_add_mod' N D
  have hr := Nat.mod_lt N hD
  unfold roundEven roundUp
  generalize N / D = a at *
  generalize N % D = r at *
  subst hN
  rcases lt_trichotomy q a with hq | rfl | hq
  · obtain ⟨c, rfl⟩ := Nat.exists_eq_add_of_lt hq
    have hmul : (q + c + 1) * D = q * D + c * D + D := by ring
    rw [hmul]
    have hc := Nat.zero_le (c * D)
    split_ifs <;> constructor <;> intro h <;> omega
  · split_ifs <;> constructor <;> intro h <;> omega
  · obtain ⟨c, rfl⟩ := Nat.exists_eq_add_of_lt hq
    have hmul : (a + c + 1) * D = a * D + c * D + D := by ring
    rw [hmul]
    rcases Nat.eq_zero_or_pos c with rfl | hc
    · split_ifs <;> constructor <;> intro h <;> omega
    · have hcD : D ≤ c * D := Nat.le_mul_of_pos_left D hc
      split_ifs <;> constructor <;> intro h <;> omega

/-- **Rounding what was cut off** at a multiple of `c`: it is right unless the rest of the number is
above the middle by less than `c`, and the quotient is even. -/
theorem roundEven_div_iff {c h : ℕ} (hc : 0 < c) :
    roundEven (N / c) (2 * h) = roundEven N (c * (2 * h)) ↔
      ¬ (N / (c * (2 * h)) % 2 = 0 ∧ c * h < N % (c * (2 * h)) ∧
        N % (c * (2 * h)) < c * h + c) := by
  have hdiv : N / c / (2 * h) = N / (c * (2 * h)) := Nat.div_div_eq_div_mul ..
  have hmod : N / c % (2 * h) = N % (c * (2 * h)) / c := (Nat.mod_mul_right_div_self ..).symm
  unfold roundEven roundUp
  rw [hdiv, hmod]
  generalize N / (c * (2 * h)) = q
  generalize N % (c * (2 * h)) = r
  have hr := Nat.div_add_mod' r c
  have hlt := Nat.mod_lt r hc
  generalize r / c = a at *
  generalize r % c = d at *
  subst hr
  have hmul : c * (2 * h) = 2 * (h * c) := by ring
  have hmul' : c * h = h * c := Nat.mul_comm ..
  rw [hmul, hmul']
  rcases lt_trichotomy a h with ha | rfl | ha
  · obtain ⟨b, rfl⟩ := Nat.exists_eq_add_of_lt ha
    have hab : (a + b + 1) * c = a * c + b * c + c := by ring
    rw [hab]
    split_ifs <;> omega
  · split_ifs <;> omega
  · obtain ⟨b, rfl⟩ := Nat.exists_eq_add_of_lt ha
    have hab : (h + b + 1) * c = h * c + b * c + c := by ring
    rw [hab]
    split_ifs <;> omega

end Quotient

/-! ## Values -/

section Values

variable {K : Type*} [Field K] [LinearOrder K] [IsStrictOrderedRing K]

/-- `v n` is the value nearest to `x` of those up to `v top`, and ties are even. -/
def IsNearestEven (v : ℕ → K) (top : ℕ) (x : K) (n : ℕ) : Prop :=
  n ≤ top ∧ ∀ p ≤ top, |v n - x| ≤ |v p - x| ∧ (p ≠ n → |v p - x| = |v n - x| → n % 2 = 0)

namespace IsNearestEven

variable {v : ℕ → K} {top n n' : ℕ} {x : K}

/-- **The nearest value is one.** -/
theorem unique (hv : StrictMono v) (h : IsNearestEven v top x n) (h' : IsNearestEven v top x n') :
    n = n' := by
  wlog hlt : n < n' generalizing n n'
  · rcases Nat.lt_or_ge n' n with hlt' | hge
    · exact (this h' h hlt').symm
    · exact le_antisymm hge (Nat.le_of_not_lt hlt)
  obtain ⟨hn, hnear⟩ := h
  obtain ⟨hn', hnear'⟩ := h'
  have htie : |v n' - x| = |v n - x| := le_antisymm (hnear' n hn).1 (hnear n' hn').1
  have heven := (hnear n' hn').2 hlt.ne' htie
  have heven' := (hnear' n hn).2 hlt.ne htie.symm
  -- both are even, and the one between them is nearer
  have hmid := (hnear (n + 1) (by omega)).1
  have h₁ : v n < v (n + 1) := hv (Nat.lt_succ_self n)
  have h₂ : v (n + 1) < v n' := hv (by omega)
  rcases abs_cases (v n' - x) with ⟨e', h'⟩ | ⟨e', h'⟩ <;>
    rcases abs_cases (v n - x) with ⟨e, h⟩ | ⟨e, h⟩ <;>
    rcases abs_cases (v (n + 1) - x) with ⟨e₁, h₃⟩ | ⟨e₁, h₃⟩ <;>
    linarith

/-- From the last value on, the last is the nearest. -/
theorem of_top_le (hv : StrictMono v) (hx : v top ≤ x) : IsNearestEven v top x top := by
  refine ⟨le_rfl, fun p hp => ?_⟩
  rcases hp.eq_or_lt with rfl | hp
  · exact ⟨le_rfl, fun hne => absurd rfl hne⟩
  · have hlt := hv hp
    rw [abs_of_nonpos (by linarith), abs_of_nonpos (by linarith)]
    exact ⟨by linarith, fun _ htie => by linarith⟩

/-- **Between two values**, the nearest is one of them. -/
theorem of_between (hv : StrictMono v) (htop : n + 1 ≤ top) (hlo : v n ≤ x) (hhi : x ≤ v (n + 1))
    {c : ℕ} (hc : c = if v n + v (n + 1) < 2 * x ∨ v n + v (n + 1) = 2 * x ∧ n % 2 = 1 then 1
      else 0) : IsNearestEven v top x (n + c) := by
  have hfar : ∀ p, v p ≤ v n ∨ v (n + 1) ≤ v p := fun p => by
    rcases Nat.lt_or_ge n p with hp | hp
    · exact .inr (hv.monotone hp)
    · exact .inl (hv.monotone hp)
  have hne : ∀ p, p ≠ n → v p ≠ v n := fun p hp e => hp (hv.injective e)
  have hne' : ∀ p, p ≠ n + 1 → v p ≠ v (n + 1) := fun p hp e => hp (hv.injective e)
  have hstep : v n < v (n + 1) := hv (Nat.lt_succ_self n)
  split_ifs at hc with hup
  · subst hc
    refine ⟨htop, fun p _ => ?_⟩
    rw [abs_of_nonneg (sub_nonneg.mpr hhi)]
    rcases hfar p with hp | hp
    · rw [abs_of_nonpos (by linarith)]
      refine ⟨?_, fun _ htie => ?_⟩
      · rcases hup with hup | ⟨hup, -⟩ <;> linarith
      · rcases hup with hup | ⟨-, hodd⟩
        · linarith
        · omega
    · rw [abs_of_nonneg (by linarith)]
      exact ⟨by linarith, fun hpn htie => absurd (by linarith) (hne' p hpn)⟩
  · subst hc
    obtain ⟨hup, htie⟩ := not_or.mp hup
    have hup := not_lt.mp hup
    refine ⟨by omega, fun p _ => ?_⟩
    rw [Nat.add_zero, abs_of_nonpos (sub_nonpos.mpr hlo)]
    rcases hfar p with hp | hp
    · rw [abs_of_nonpos (by linarith)]
      exact ⟨by linarith, fun hpn htie => absurd (by linarith) (hne p hpn)⟩
    · rw [abs_of_nonneg (by linarith)]
      refine ⟨by linarith, fun _ hsame => ?_⟩
      have hmid : v n + v (n + 1) = 2 * x := by linarith
      have hodd : ¬ n % 2 = 1 := fun hodd => htie ⟨hmid, hodd⟩
      omega

/-- **Where the values go up in equal steps** of `u`, the nearest is the rounded quotient. -/
theorem of_quotient (hv : StrictMono v) {k N D : ℕ} {u : K} (hu : 0 < u) (hD : 0 < D)
    (hk : k % 2 = 0) (htop : k + N / D + 1 ≤ top)
    (hval : ∀ i ≤ 1, v (k + (N / D + i)) = ((N / D + i : ℕ) : K) * u)
    (hx : x = (N : K) / D * u) : IsNearestEven v top x (k + roundEven N D) := by
  have hDK : (0 : K) < D := Nat.cast_pos.mpr hD
  have hN : (N : K) = (N / D : ℕ) * D + (N % D : ℕ) := by
    exact_mod_cast (Nat.div_add_mod' N D).symm
  have hlo := hval 0 (Nat.zero_le 1)
  have hhi := hval 1 le_rfl
  rw [Nat.add_zero] at hlo
  rw [← Nat.add_assoc] at hhi
  push_cast at hhi
  have hfrac : x = (N / D : ℕ) * u + (N % D : ℕ) / D * u := by
    rw [hx, hN]
    field_simp
  have hr₀ : (0 : K) ≤ (N % D : ℕ) / D := by positivity
  have hr₁ : ((N % D : ℕ) : K) / D ≤ 1 := by
    rw [div_le_one hDK]
    exact_mod_cast (Nat.mod_lt N hD).le
  have htwice : v (k + N / D) + v (k + N / D + 1) - 2 * x = (1 - 2 * ((N % D : ℕ) / D)) * u := by
    rw [hlo, hhi, hfrac]
    ring
  rw [roundEven, ← Nat.add_assoc]
  refine of_between hv htop ?_ ?_ ?_
  · rw [hlo, hfrac]
    have := mul_nonneg hr₀ hu.le
    linarith
  · rw [hhi, hfrac, add_mul, one_mul]
    have := mul_le_mul_of_nonneg_right hr₁ hu.le
    linarith
  · have hodd : (k + N / D) % 2 = 1 ↔ N / D % 2 = 1 := by omega
    have hlt : v (k + N / D) + v (k + N / D + 1) < 2 * x ↔ D < 2 * (N % D) := by
      rw [← sub_neg, htwice, ← zero_mul u, mul_lt_mul_iff_of_pos_right hu, sub_neg,
        ← mul_div_assoc, lt_div_iff₀ hDK, one_mul]
      exact_mod_cast Iff.rfl
    have heq : v (k + N / D) + v (k + N / D + 1) = 2 * x ↔ D = 2 * (N % D) := by
      rw [← sub_eq_zero, htwice, mul_eq_zero, or_iff_left hu.ne', sub_eq_zero, ← mul_div_assoc,
        eq_div_iff hDK.ne', one_mul]
      exact_mod_cast Iff.rfl
    simp only [roundUp, hodd, hlt, heq]

end IsNearestEven

end Values
