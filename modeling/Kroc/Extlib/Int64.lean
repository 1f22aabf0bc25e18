import Kroc.Extlib.Long
import Mathlib.Tactic.LinearCombination

/-!
# Extlib/Int64 — integers of two words

The arithmetic of `exti64.c` over the words of `Extlib/Long`.  An operation that sets `Error` gives
nothing.  The division estimates a quotient by the high words and then adds back; its estimate is at
most two too large.
-/

namespace Kroc

namespace Extlib

/-- The high and the low word of an operand. -/
abbrev Words := Bit32 × Bit32

/-! ## The operations -/

/-- `add back as required`, which is done twice at most: see `addBack_spec`. -/
def addBack (v : Words) : ℕ → Bit32 × Bit32 × Words → Bit32 × Bit32 × Words
  | 0, r => r
  | rounds + 1, (quotLo, u2, u) =>
    if u2 &&& signBit32 ≠ 0 then
      let s0 := longsum u.2 v.2 0
      let s1 := longsum u.1 v.1 s0.1
      let s2 := longsum u2 0 s1.1
      addBack v rounds (quotLo - 1, s2.2, s1.2, s0.2)
    else (quotLo, u2, u)

/-- The dividend less the divisor times the estimate `q`, three words at a time. -/
def remainder (q : Bit32) (v : Words) (u2 : Bit32) (u : Words) : Bit32 × Bit32 × Words :=
  let w0 := longprod q v.2 0
  let w1 := longprod q v.1 w0.1
  let d0 := longdiff u.2 w0.2 0
  let d1 := longdiff u.1 w1.2 d0.1
  let d2 := longdiff u2 w1.1 d1.1
  (q, d2.2, d1.2, d0.2)

/-- `Int64UnsDiv`: the quotient and the remainder. -/
def int64UnsDiv (dvd dvsr : Words) : Option (Words × Words) :=
  if dvsr.2 = 0 ∧ dvsr.1 = 0 then none
  else if dvsr.1 = 0 then
    -- double by single
    let first := longdiv 0 dvd.1 dvsr.2
    let second := longdiv first.2 dvd.2 dvsr.2
    some ((first.1, second.1), (0, second.2))
  else
    -- double by double
    let n := normalise dvsr.1 dvsr.2
    let v := n.2
    let u2 := if n.1 = 0 then 0 else (shiftleft 0 dvd.1 n.1).1
    let u := if n.1 = 0 then dvd else shiftleft dvd.1 dvd.2 n.1
    let quotLo := if u2 = v.1 then maxUnsignedInt32 else (longdiv u2 u.1 v.1).1
    let r := if quotLo ≠ 0 then addBack v 2 (remainder quotLo v u2 u) else (quotLo, u2, u)
    some ((0, r.1), if n.1 = 0 then r.2.2 else shiftright r.2.2.1 r.2.2.2 n.1)

/-- `LONGDIFF` of two words, from the low one. -/
def diff (a b : Words) : Words :=
  let d0 := longdiff a.2 b.2 0
  ((longdiff a.1 b.1 d0.1).2, d0.2)

/-- `Int64DivRem` -/
def int64DivRem (dvd dvsr : Words) : Option (Words × Words) :=
  let negRem := decide (dvd.1 &&& signBit32 ≠ 0)
  let u := if negRem then diff (0, 0) dvd else dvd
  let negative := decide (dvsr.1 &&& signBit32 ≠ 0)
  let negQuot := if negative then !negRem else negRem
  let v := if negative then diff (0, 0) dvsr else dvsr
  match int64UnsDiv u v with
  | none => none
  | some (quot, rem) =>
    if quot.1 &&& signBit32 ≠ 0 ∧ negQuot = false then none
    else some (if negQuot then diff (0, 0) quot else quot, if negRem then diff (0, 0) rem else rem)

/-- `Int64Add` -/
def int64Add (a b : Words) : Option Words :=
  let s0 := longsum a.2 b.2 0
  let hi := longadd a.1 b.1 s0.1
  if (a.1 ^^^ b.1) &&& signBit32 = 0 ∧ (a.1 ^^^ hi) &&& signBit32 ≠ 0 then none else some (hi, s0.2)

/-- `Int64Plus` -/
def int64Plus (a b : Words) : Words :=
  let s0 := longsum a.2 b.2 0
  ((longsum a.1 b.1 s0.1).2, s0.2)

/-- `Int64Sub` -/
def int64Sub (a b : Words) : Option Words :=
  let d := diff a b
  if (a.1 ^^^ b.1) &&& signBit32 ≠ 0 ∧ (a.1 ^^^ d.1) &&& signBit32 ≠ 0 then none else some d

/-- `Int64Minus` -/
def int64Minus (a b : Words) : Words := diff a b

/-- The carry part of the product of `Int64Mul`, and its result part. -/
def product (a b : Words) : Words × Words :=
  let p0 := longprod a.2 b.2 0
  let p1 := longprod a.1 b.2 p0.1
  let p2 := longprod a.2 b.1 p1.2
  let p3 := longprod a.1 b.1 p2.1
  let s2 := longsum p3.2 p1.1 0
  let s3 := longsum p3.1 s2.1 0
  ((s3.2, s2.2), (p2.2, p0.2))

/-- `Int64Mul` -/
def int64Mul (a b : Words) : Option Words :=
  let p := product a b
  -- if A < 0 subtract B from carry part, and the other way round
  let w := if a.1 &&& signBit32 ≠ 0 then diff p.1 b else p.1
  let w := if b.1 &&& signBit32 ≠ 0 then diff w a else w
  if p.2.1.toInt < 0 then
    if w.2 &&& w.1 ≠ -1 then none else some p.2
  else
    if w.2 ||| w.1 ≠ 0 then none else some p.2

/-- `Int64Times` -/
def int64Times (a b : Words) : Words :=
  let p0 := longprod a.2 b.2 0
  let p1 := longprod a.1 b.2 p0.1
  let p2 := longprod a.2 b.1 p1.2
  (p2.2, p0.2)

/-- `MOSTNEG_INT32` -/
def mostnegInt32 : Bit32 := 0x80000000

/-- `Int64Div` -/
def int64Div (a b : Words) : Option Words :=
  if b.1 = 0 ∧ b.2 = 0 then none
  else if (a.1 = mostnegInt32 ∧ a.2 = 0) ∧ (b.1 = -1 ∧ b.2 = -1) then none
  else (int64DivRem a b).map Prod.fst

/-- `Int64Rem` -/
def int64Rem (a b : Words) : Option Words :=
  if b.1 = 0 ∧ b.2 = 0 then none
  else if (b.1 = 0 ∧ b.2 = 1) ∨ (b.1 = -1 ∧ b.2 = -1) then some (0, 0)
  else (int64DivRem a b).map Prod.snd

/-- `Int64LShift` -/
def int64LShift (a : Words) (b : Bit32) : Words := shiftleft a.1 a.2 b

/-- `Int64RShift` -/
def int64RShift (a : Words) (b : Bit32) : Words := shiftright a.1 a.2 b

/-! ## Unsigned division -/

/-- The number in three words. -/
def tword (u2 : Bit32) (u : Words) : ℕ := 2 ^ 64 * u2.toNat + dword u

/-- The triple stands for `x` modulo `2 ^ 96`, which is above `- 2 ^ 95` and below `2 ^ 95`. -/
def Stands (u2 : Bit32) (u : Words) (x : ℤ) : Prop :=
  (tword u2 u : ℤ) = x ∨ (tword u2 u : ℤ) = x + 2 ^ 96

theorem stands_sign {u2 : Bit32} {u : Words} {x : ℤ} (h : Stands u2 u x) (hlo : -(2 : ℤ) ^ 66 ≤ x)
    (hhi : x < 2 ^ 64) : u2 &&& signBit32 ≠ 0 ↔ x < 0 := by
  rw [Ne, and_signBit32]
  have := dword_lt u
  have := u2.isLt
  unfold Stands tword at h
  omega

theorem stands_addBack {v u : Words} {u2 : Bit32} {x : ℤ} (h : Stands u2 u x) (hx : x < 0)
    (hlo : -(2 : ℤ) ^ 66 ≤ x) :
    Stands (longsum u2 0 (longsum u.1 v.1 (longsum u.2 v.2 0).1).1).2
      ((longsum u.1 v.1 (longsum u.2 v.2 0).1).2, (longsum u.2 v.2 0).2) (x + dword v) := by
  obtain ⟨h0, hc0⟩ := longsum_spec u.2 v.2 0
  generalize longsum u.2 v.2 0 = s0 at *
  obtain ⟨h1, hc1⟩ := longsum_spec u.1 v.1 s0.1
  generalize longsum u.1 v.1 s0.1 = s1 at *
  obtain ⟨h2, hc2⟩ := longsum_spec u2 0 s1.1
  generalize longsum u2 0 s1.1 = s2 at *
  rw [toNat_zero] at h0 h2
  have := s0.2.isLt
  have := s1.2.isLt
  have := s2.2.isLt
  have := dword_lt v
  unfold Stands tword dword at *
  dsimp only at *
  omega

/-- **Adding back** ends with the remainder, and with the quotient that belongs to it. -/
theorem addBack_spec {v : Words} {n : ℤ} : ∀ (rounds : ℕ) {quotLo u2 : Bit32} {u : Words} {x : ℤ},
    Stands u2 u x → -((rounds : ℤ) * dword v) ≤ x → x < dword v → rounds ≤ 2 →
      n = quotLo.toNat * dword v + x → 0 ≤ n →
      ∃ quot : Bit32, ∃ u' : Words, ∃ y : ℕ, addBack v rounds (quotLo, u2, u) = (quot, 0, u') ∧
        dword u' = y ∧ y < dword v ∧ n = quot.toNat * dword v + y := by
  intro rounds
  have hv := dword_lt v
  have hdone : ∀ {u2 : Bit32} {u : Words} {x : ℤ}, Stands u2 u x → 0 ≤ x → x < dword v →
      u2 = 0 ∧ (dword u : ℤ) = x := fun {u2} {u} {x} h hx hxv => by
    have := dword_lt u
    have := u2.isLt
    rw [eq_iff_toNat, toNat_zero]
    unfold Stands tword at h
    omega
  induction rounds with
  | zero =>
    intro quotLo u2 u x h hlo hhi _ hn _
    obtain ⟨rfl, hu⟩ := hdone h (by simpa using hlo) hhi
    exact ⟨quotLo, u, dword u, rfl, rfl, by omega, hn.trans (by rw [hu])⟩
  | succ rounds ih =>
    intro quotLo u2 u x h hlo hhi hle hn hpos
    have hlow : -(2 : ℤ) ^ 66 ≤ x := by
      have hmul : (rounds + 1 : ℤ) * dword v ≤ 2 * dword v :=
        mul_le_mul_of_nonneg_right (by omega) (by positivity)
      push_cast at hlo
      omega
    rw [addBack]
    by_cases hsign : u2 &&& signBit32 ≠ 0
    · rw [if_pos hsign]
      have hx := (stands_sign h hlow (by omega)).mp hsign
      have hquot : quotLo.toNat ≠ 0 := fun hzero => by
        rw [hzero] at hn
        push_cast at hn
        omega
      have hsub : (quotLo - 1).toNat = quotLo.toNat - 1 := by
        have := quotLo.isLt
        rw [BitVec.toNat_sub, toNat_one]
        omega
      have hlo' : -((rounds : ℤ) * dword v) ≤ x + dword v := by
        push_cast at hlo
        linarith
      refine ih (stands_addBack h hx hlow) hlo' (by omega) (by omega) ?_ hpos
      rw [hsub, hn, Nat.cast_sub (by omega)]
      push_cast
      ring
    · rw [if_neg hsign]
      have hx := not_lt.mp (mt (stands_sign h hlow (by omega)).mpr hsign)
      obtain ⟨rfl, hu⟩ := hdone h hx hhi
      exact ⟨quotLo, u, dword u, rfl, rfl, by omega, hn.trans (by rw [hu])⟩

theorem dword_eq_zero_iff {a : Words} : dword a = 0 ↔ a.2 = 0 ∧ a.1 = 0 := by
  rw [eq_iff_toNat, eq_iff_toNat, toNat_zero]
  unfold dword
  omega

/-- Double by single. -/
theorem longdiv_twice {dvd : Words} {d : Bit32} (hd : d ≠ 0) :
    dword ((longdiv 0 dvd.1 d).1, (longdiv (longdiv 0 dvd.1 d).2 dvd.2 d).1) = dword dvd / d.toNat ∧
      (longdiv (longdiv 0 dvd.1 d).2 dvd.2 d).2.toNat = dword dvd % d.toNat := by
  have hpos : 0 < d.toNat := by
    rw [Ne, eq_iff_toNat, toNat_zero] at hd
    omega
  obtain ⟨hq, hr⟩ := @longdiv_spec 0 dvd.1 d hpos
  have hhi : dword (0, dvd.1) = dvd.1.toNat := by
    rw [dword, toNat_zero, mul_zero, zero_add]
  rw [hhi] at hq hr
  generalize longdiv 0 dvd.1 d = first at *
  obtain ⟨hq', hr'⟩ := @longdiv_spec first.2 dvd.2 d (hr ▸ Nat.mod_lt _ hpos)
  have hdvd : dword dvd = d.toNat * (2 ^ 32 * (dvd.1.toNat / d.toNat)) +
    dword (first.2, dvd.2) := by
    have := Nat.div_add_mod dvd.1.toNat d.toNat
    calc dword dvd = 2 ^ 32 * dvd.1.toNat + dvd.2.toNat := rfl
      _ = 2 ^ 32 * (d.toNat * (dvd.1.toNat / d.toNat) + dvd.1.toNat % d.toNat) + dvd.2.toNat := by
          rw [this]
      _ = _ := by
          rw [dword, hr]
          ring
  rw [dword, hq, hq', hr', hdvd]
  exact ⟨(Nat.mul_add_div hpos _ _).symm, (Nat.mul_add_mod _ _ _).symm⟩

/-- The estimate of a quotient by the high words is not too small, and at most two too large. -/
theorem estimate {b u1 u0 v1 v0 q : ℕ} (hb : b ≤ 2 * v1) (hu0 : u0 < b) (hv0 : v0 < b)
    (hq : q = u1 / v1) (hqb : q < b) (hv1 : 0 < v1) :
    (b * u1 + u0 : ℤ) < (q + 1) * (b * v1 + v0) ∧
      -(2 * (b * v1 + v0 : ℤ)) ≤ b * u1 + u0 - q * (b * v1 + v0) := by
  have hle : q * v1 ≤ u1 := hq ▸ Nat.div_mul_le_self u1 v1
  have hlt : u1 < (q + 1) * v1 := by
    rw [hq, add_mul, one_mul]
    exact Nat.lt_div_mul_add hv1
  zify at *
  constructor
  · have : (b : ℤ) * (u1 + 1) ≤ b * ((q + 1) * v1) := mul_le_mul_of_nonneg_left hlt (by positivity)
    nlinarith
  · have h1 : (b : ℤ) * (q * v1) ≤ b * u1 := mul_le_mul_of_nonneg_left hle (by positivity)
    have h2 : (q : ℤ) * v0 ≤ b * b := mul_le_mul hqb.le hv0.le (by positivity) (by positivity)
    have h3 : (b : ℤ) * b ≤ b * (2 * v1) := mul_le_mul_of_nonneg_left hb (by positivity)
    nlinarith

/-- The dividend that is shifted as the divisor was. -/
theorem tword_shift {dvd : Words} {count : Bit32} (hcount : count.toNat ≤ 31) :
    tword (if count = 0 then 0 else (shiftleft 0 dvd.1 count).1)
      (if count = 0 then dvd else shiftleft dvd.1 dvd.2 count) = dword dvd * 2 ^ count.toNat := by
  by_cases hzero : count = 0
  · rw [if_pos hzero, if_pos hzero, hzero, tword, toNat_zero, mul_zero, zero_add, pow_zero, mul_one]
  rw [if_neg hzero, if_neg hzero, tword, shiftleft_spec]
  have hhi := shiftleft_spec 0 dvd.1 count
  generalize shiftleft 0 dvd.1 count = s at *
  have hpow := two_pow_split (show count.toNat ≤ 32 by omega)
  have hle : 2 ^ count.toNat ≤ 2 ^ 31 := Nat.pow_le_pow_right two_pos hcount
  have hhilt := dvd.1.isLt
  have hlolt := dvd.2.isLt
  have hppos : 0 < 2 ^ count.toNat := by positivity
  have hrpos : 0 < 2 ^ (32 - count.toNat) := by positivity
  generalize 2 ^ count.toNat = p at *
  generalize 2 ^ (32 - count.toNat) = r at *
  have hmod : dword (0, dvd.1) * p % 2 ^ 64 = dvd.1.toNat * p := by
    rw [dword, toNat_zero, mul_zero, zero_add]
    refine Nat.mod_eq_of_lt ?_
    calc dvd.1.toNat * p ≤ 2 ^ 32 * 2 ^ 31 := Nat.mul_le_mul hhilt.le hle
      _ < 2 ^ 64 := by norm_num
  rw [hmod] at hhi
  have hs : s.1.toNat = dvd.1.toNat / r := by
    have := s.2.isLt
    have hdiv : dvd.1.toNat * p / 2 ^ 32 = dvd.1.toNat / r := by
      rw [← hpow, mul_comm, Nat.mul_div_mul_left _ _ hppos]
    rw [← hdiv, ← hhi]
    unfold dword
    omega
  have hsum : dword dvd * p =
      2 ^ 64 * (dvd.1.toNat / r) + (2 ^ 32 * p * (dvd.1.toNat % r) + dvd.2.toNat * p) := by
    have := Nat.div_add_mod dvd.1.toNat r
    calc dword dvd * p = 2 ^ 32 * p * dvd.1.toNat + dvd.2.toNat * p := by
          unfold dword
          ring
      _ = 2 ^ 32 * p * (r * (dvd.1.toNat / r) + dvd.1.toNat % r) + dvd.2.toNat * p := by rw [this]
      _ = 2 ^ 32 * (p * r) * (dvd.1.toNat / r) + (2 ^ 32 * p * (dvd.1.toNat % r) +
            dvd.2.toNat * p) := by ring
      _ = _ := by rw [hpow]; ring
  have hlt : 2 ^ 32 * p * (dvd.1.toNat % r) + dvd.2.toNat * p < 2 ^ 64 := by
    have hmodlt := Nat.mod_lt dvd.1.toNat hrpos
    calc 2 ^ 32 * p * (dvd.1.toNat % r) + dvd.2.toNat * p
        < 2 ^ 32 * p * (dvd.1.toNat % r) + 2 ^ 32 * p :=
          Nat.add_lt_add_left (Nat.mul_lt_mul_of_pos_right hlolt hppos) _
      _ = 2 ^ 32 * p * (dvd.1.toNat % r + 1) := by ring
      _ ≤ 2 ^ 32 * p * r := Nat.mul_le_mul_left _ hmodlt
      _ = 2 ^ 64 := by
          rw [mul_assoc, hpow]
          norm_num
  rw [hs, hsum, Nat.mul_add_mod, Nat.mod_eq_of_lt hlt]

/-- The words of a difference, and of the product that is taken away. -/
theorem sub_words {b q v1 v0 u2 u1 u0 w2 w1 w0 h c2 c1 c0 d2 d1 d0 : ℕ} (hw0 : b * h + w0 = q * v0)
    (hw1 : b * w2 + w1 = q * v1 + h) (h0 : b * c0 + u0 = d0 + w0) (h1 : b * c1 + u1 = d1 + w1 + c0)
    (h2 : b * c2 + u2 = d2 + w2 + c1) : (b * b * d2 + (b * d1 + d0) : ℤ) =
      b * b * u2 + (b * u1 + u0) - q * (b * v1 + v0) + b * b * b * c2 := by
  zify at *
  linear_combination -hw0 - b * hw1 - h0 - b * h1 - b * b * h2

theorem cast_dword (u : Words) : (dword u : ℤ) = ((2 ^ 32 : ℕ) : ℤ) * u.1.toNat + u.2.toNat := by
  rw [dword, Nat.cast_add, Nat.cast_mul]

theorem cast_tword (u2 : Bit32) (u : Words) : (tword u2 u : ℤ) =
    ((2 ^ 32 : ℕ) : ℤ) * ((2 ^ 32 : ℕ) : ℤ) * u2.toNat +
      (((2 ^ 32 : ℕ) : ℤ) * u.1.toNat + u.2.toNat) := by
  rw [tword, Nat.cast_add, Nat.cast_mul, cast_dword, ← Nat.cast_mul (2 ^ 32) (2 ^ 32), ← pow_add]

theorem stands_of_borrow {u2 : Bit32} {u : Words} {x : ℤ} {c : ℕ}
    (h : (tword u2 u : ℤ) = x + 2 ^ 96 * c) (hc : c ≤ 1) : Stands u2 u x := by
  obtain rfl | rfl := Nat.le_one_iff_eq_zero_or_eq_one.mp hc
  · exact Or.inl (h.trans (by rw [Nat.cast_zero, mul_zero, add_zero]))
  · exact Or.inr (h.trans (by rw [Nat.cast_one, mul_one]))

theorem stands_sub {q u2 : Bit32} {v u w0 w1 d0 d1 d2 : Words}
    (hw0 : dword w0 = q.toNat * v.2.toNat)
    (hw1 : dword w1 = q.toNat * v.1.toNat + w0.1.toNat)
    (h0 : 2 ^ 32 * d0.1.toNat + u.2.toNat = d0.2.toNat + w0.2.toNat)
    (h1 : 2 ^ 32 * d1.1.toNat + u.1.toNat = d1.2.toNat + w1.2.toNat + d0.1.toNat)
    (h2 : 2 ^ 32 * d2.1.toNat + u2.toNat = d2.2.toNat + w1.1.toNat + d1.1.toNat)
    (hc : d2.1.toNat ≤ 1) : Stands d2.2 (d1.2, d0.2) (tword u2 u - q.toNat * dword v) := by
  have hsum := sub_words hw0 hw1 h0 h1 h2
  have hcube : ((2 ^ 32 : ℕ) : ℤ) * ((2 ^ 32 : ℕ) : ℤ) * ((2 ^ 32 : ℕ) : ℤ) = 2 ^ 96 := by norm_num
  rw [hcube, ← cast_tword u2 u, ← cast_tword d2.2 (d1.2, d0.2), ← cast_dword v] at hsum
  exact stands_of_borrow hsum hc

theorem stands_remainder (q u2 : Bit32) (v u : Words) : ∃ t2 t,
    remainder q v u2 u = (q, t2, t) ∧ Stands t2 t (tword u2 u - q.toNat * dword v) := by
  refine ⟨_, _, rfl, ?_⟩
  have hw0 := longprod_spec q v.2 0
  have hw1 := longprod_spec q v.1 (longprod q v.2 0).1
  obtain ⟨hd0, hb0⟩ := longdiff_spec u.2 (longprod q v.2 0).2 0
  generalize longprod q v.2 0 = w0 at *
  generalize longprod q v.1 w0.1 = w1 at *
  obtain ⟨hd1, hb1⟩ := longdiff_spec u.1 w1.2 (longdiff u.2 w0.2 0).1
  obtain ⟨hd2, hb2⟩ := longdiff_spec u2 w1.1 (longdiff u.1 w1.2 (longdiff u.2 w0.2 0).1).1
  rw [toNat_zero, Nat.zero_mod, add_zero] at hd0
  rw [toNat_zero, add_zero] at hw0
  rw [Nat.mod_eq_of_lt (by omega)] at hd1 hd2
  exact stands_sub hw0 hw1 hd0 hd1 hd2 hb2

/-- The quotient of the words, and its remainder. -/
theorem quotient_spec {q u2 : Bit32} {v u : Words}
    (hupper : (tword u2 u : ℤ) < (q.toNat + 1) * dword v)
    (hlower : -(2 * (dword v : ℤ)) ≤ tword u2 u - q.toNat * dword v) :
    ∃ quot : Bit32, ∃ u' : Words,
      (if q ≠ 0 then addBack v 2 (remainder q v u2 u) else (q, u2, u)) = (quot, 0, u') ∧
      dword u' < dword v ∧ tword u2 u = quot.toNat * dword v + dword u' := by
  by_cases hzero : q ≠ 0
  · rw [if_pos hzero]
    have hhigh : (tword u2 u : ℤ) - q.toNat * dword v < dword v := by
      rw [add_mul, one_mul] at hupper
      exact sub_lt_iff_lt_add'.mpr hupper
    obtain ⟨t2, t, hrem, hstands⟩ := stands_remainder q u2 v u
    have hlow : -(((2 : ℕ) : ℤ) * dword v) ≤ tword u2 u - q.toNat * dword v := hlower
    rw [hrem]
    obtain ⟨quot, u', y, heq, hy, hylt, hn⟩ := addBack_spec 2 hstands hlow hhigh le_rfl
      (add_sub_cancel _ _).symm (Int.natCast_nonneg _)
    refine ⟨quot, u', heq, hy ▸ hylt, ?_⟩
    rw [hy]
    exact_mod_cast hn
  · rw [if_neg hzero]
    rw [not_not] at hzero
    have hzero' : (q.toNat : ℤ) = 0 := by rw [hzero, toNat_zero, Nat.cast_zero]
    rw [hzero', zero_add, one_mul] at hupper
    have hlt := dword_lt v
    have hu2zero : u2 = 0 := by
      rw [eq_iff_toNat, toNat_zero]
      unfold tword at hupper
      omega
    subst hu2zero
    have htword : tword 0 u = dword u := by rw [tword, toNat_zero, mul_zero, zero_add]
    rw [htword] at hupper ⊢
    refine ⟨q, u, rfl, by exact_mod_cast hupper, ?_⟩
    rw [hzero, toNat_zero, zero_mul, zero_add]

/-- **`Int64UnsDiv`** divides. -/
theorem int64UnsDiv_spec {dvd dvsr : Words} (hd : dword dvsr ≠ 0) :
    ∃ quot rem, int64UnsDiv dvd dvsr = some (quot, rem) ∧
      dword quot = dword dvd / dword dvsr ∧ dword rem = dword dvd % dword dvsr := by
  have hne : ¬ (dvsr.2 = 0 ∧ dvsr.1 = 0) := mt dword_eq_zero_iff.mpr hd
  rw [int64UnsDiv, if_neg hne]
  by_cases hhi : dvsr.1 = 0
  · rw [if_pos hhi]
    have hlo : dvsr.2 ≠ 0 := fun h => hne ⟨h, hhi⟩
    obtain ⟨hq, hr⟩ := @longdiv_twice dvd _ hlo
    have hdvsr : dword dvsr = dvsr.2.toNat := by
      rw [dword, hhi, toNat_zero, mul_zero, zero_add]
    refine ⟨_, _, rfl, by rw [hdvsr, hq], ?_⟩
    rw [dword, toNat_zero, mul_zero, zero_add, hdvsr, hr]
  rw [if_neg hhi]
  obtain ⟨-, hv, hnorm⟩ := @normalise_spec dvsr.1 dvsr.2 hd
  generalize normalise dvsr.1 dvsr.2 = n at *
  dsimp only
  have hcount : n.1.toNat ≤ 31 := by
    by_contra hlt
    have hge : 2 ^ 32 ≤ 2 ^ n.1.toNat := Nat.pow_le_pow_right two_pos (by omega)
    rw [eq_iff_toNat, toNat_zero] at hhi
    have hdvsr : 2 ^ 32 ≤ dword (dvsr.1, dvsr.2) := by
      unfold dword
      dsimp only
      omega
    have hmul := Nat.mul_le_mul hdvsr hge
    rw [← hv] at hmul
    have := dword_lt n.2
    omega
  have hu := @tword_shift dvd _ hcount
  have hple : 2 ^ n.1.toNat ≤ 2 ^ 31 := Nat.pow_le_pow_right two_pos hcount
  have hppos : 0 < 2 ^ n.1.toNat := by positivity
  generalize (if n.1 = 0 then (0 : Bit32) else (shiftleft 0 dvd.1 n.1).1) = u2 at *
  generalize (if n.1 = 0 then dvd else shiftleft dvd.1 dvd.2 n.1) = u at *
  have hv1 : 2 ^ 31 ≤ n.2.1.toNat := by
    have := n.2.2.isLt
    unfold dword at hnorm
    omega
  have hu2 : u2.toNat < 2 ^ n.1.toNat := by
    by_contra hle
    have hlt : dword dvd * 2 ^ n.1.toNat < 2 ^ 64 * 2 ^ n.1.toNat :=
      Nat.mul_lt_mul_of_pos_right (dword_lt dvd) hppos
    rw [← hu] at hlt
    unfold tword at hlt
    omega
  have hu2v : u2.toNat < n.2.1.toNat := by omega
  rw [if_neg (show u2 ≠ n.2.1 from fun h => absurd hu2v (by rw [h]; exact lt_irrefl _))]
  obtain ⟨hq, -⟩ := @longdiv_spec u2 u.1 n.2.1 hu2v
  generalize (longdiv u2 u.1 n.2.1).1 = q at *
  obtain ⟨hupper, hlower⟩ := @estimate (2 ^ 32) (dword (u2, u.1)) u.2.toNat
    n.2.1.toNat n.2.2.toNat q.toNat (by omega) u.2.isLt n.2.2.isLt hq q.isLt
    (by omega)
  have hU : ((2 ^ 32 : ℕ) : ℤ) * dword (u2, u.1) + u.2.toNat = tword u2 u := by
    unfold tword dword
    push_cast
    ring
  have hV : ((2 ^ 32 : ℕ) : ℤ) * n.2.1.toNat + n.2.2.toNat = dword n.2 := by
    unfold dword
    push_cast
    ring
  rw [hU, hV] at hupper hlower
  obtain ⟨quot, u', heq, hlt, hsum⟩ := quotient_spec hupper hlower
  rw [heq]
  dsimp only
  have hdvsr : dword (dvsr.1, dvsr.2) = dword dvsr := rfl
  rw [hu, hv, hdvsr] at hsum
  rw [hv, hdvsr] at hlt
  have hdvd : 2 ^ n.1.toNat ∣ quot.toNat * (dword dvsr * 2 ^ n.1.toNat) :=
    ⟨quot.toNat * dword dvsr, by ring⟩
  obtain ⟨y, hy⟩ : 2 ^ n.1.toNat ∣ dword u' :=
    (Nat.dvd_add_right hdvd).mp (hsum ▸ Dvd.intro_left _ rfl)
  have hdiv : dword dvd = quot.toNat * dword dvsr + y := by
    refine Nat.eq_of_mul_eq_mul_right hppos ?_
    rw [hsum, hy]
    ring
  have hylt : y < dword dvsr := by
    rw [hy, mul_comm] at hlt
    exact lt_of_mul_lt_mul_right hlt (Nat.zero_le _)
  have hdivmod := (Nat.div_mod_unique (Nat.pos_of_ne_zero hd)).mpr
    ⟨show y + dword dvsr * quot.toNat = dword dvd by rw [hdiv]; ring, hylt⟩
  refine ⟨_, _, rfl, ?_, ?_⟩
  · rw [dword, toNat_zero, mul_zero, zero_add, hdivmod.1]
  · have hshift : dword (if n.1 = 0 then u' else shiftright u'.1 u'.2 n.1) =
        dword u' / 2 ^ n.1.toNat := by
      by_cases hzero : n.1 = 0
      · rw [if_pos hzero, hzero, toNat_zero, pow_zero, Nat.div_one]
      · rw [if_neg hzero, shiftright_spec]
    rw [hshift, hy, Nat.mul_div_cancel_left _ hppos, hdivmod.2]

end Extlib

end Kroc
