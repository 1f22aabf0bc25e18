import Kroc.Extlib.Long
import Kroc.Lib.QuotientDigit
import Kroc.Tvm.Arith

/-!
# Tvm/DoubleWord — the instructions on double words, with and without a double-word type

`ins_ldiv`, `ins_lmul`, `ins_lshr` and `ins_lshl` of `runtime/libtvm/ins_sec.c` are written twice:
with `TVM_HAVE_DWORD` on a `UDWORD` (`Dword`), and without it on words of 32 bits (`Fallback`).  A
division by zero is `none`, and so is a loop that goes on for `2 ^ 32` rounds.

The two ways are related to the same natural numbers.
-/

open QuotientDigit

namespace Kroc

namespace Tvm

namespace Regs

open Ectx (Ret)

/-! ## With a double-word type -/

namespace Dword

/-- `((UDWORD) CREG << WORD_BITS) | BREG` -/
def dividend (r : Regs 32) : BitVec 64 := (r.creg.setWidth 64 <<< 32) ||| r.breg.setWidth 64

/-- `ins_ldiv` -/
def insLdiv (r : Regs 32) : Option (Ret × Regs 32) :=
  if r.areg = 0 then none
  else
    let value := dividend r
    some (.cont, { r with
      breg := (value % r.areg.setWidth 64).setWidth 32
      areg := (value / r.areg.setWidth 64).setWidth 32 })

/-- `ins_lmul` -/
def insLmul (r : Regs 32) : Option (Ret × Regs 32) :=
  let value := r.breg.setWidth 64 * r.areg.setWidth 64 + r.creg.setWidth 64
  some (.cont, { r with areg := value.setWidth 32, breg := (value >>> 32).setWidth 32 })

/-- `ins_lshr` -/
def insLshr (r : Regs 32) : Option (Ret × Regs 32) :=
  if r.areg.toNat < 64 then
    let value := dividend r >>> r.areg.toNat
    some (.cont, { r with areg := value.setWidth 32, breg := (value >>> 32).setWidth 32 })
  else some (.cont, { r with areg := 0, breg := 0 })

/-- `ins_lshl` -/
def insLshl (r : Regs 32) : Option (Ret × Regs 32) :=
  if r.areg.toNat < 64 then
    let value := dividend r <<< r.areg.toNat
    some (.cont, { r with areg := value.setWidth 32, breg := (value >>> 32).setWidth 32 })
  else some (.cont, { r with areg := 0, breg := 0 })

end Dword

/-! ## Without one -/

namespace Fallback

/-- `nlz` -/
def nlz (x : Word) : ℕ :=
  if x = 0 then 32
  else
    let n := 0
    let (n, x) := if x ≤ 0x0000FFFF then (n + 16, x <<< 16) else (n, x)
    let (n, x) := if x ≤ 0x00FFFFFF then (n + 8, x <<< 8) else (n, x)
    let (n, x) := if x ≤ 0x0FFFFFFF then (n + 4, x <<< 4) else (n, x)
    let (n, x) := if x ≤ 0x3FFFFFFF then (n + 2, x <<< 2) else (n, x)
    if x ≤ 0x7FFFFFFF then n + 1 else n

/-- `b`, the number base. -/
def base : Word := 65536

/-- The loops at `again1` and `again2`; `un` is the next digit of the dividend. -/
def again (vn1 vn0 un : Word) : ℕ → Word → Word → Option Word
  | 0, _, _ => none
  | fuel + 1, q, rhat =>
    if q ≥ base ∨ q * vn0 > base * rhat + un then
      let q := q - 1
      let rhat := rhat + vn1
      if rhat < base then again vn1 vn0 un fuel q rhat else some q
    else some q

/-- A digit of the quotient: `un32` and `un1`, or `un21` and `un0`, by `vn1` and `vn0`. -/
def digit (vn1 vn0 un32 un : Word) : Option Word :=
  let q := un32 / vn1
  let rhat := un32 - q * vn1
  again vn1 vn0 un (2 ^ 32) q rhat

/-- `ins_ldiv` -/
def insLdiv (r : Regs 32) : Option (Ret × Regs 32) :=
  let u1 := r.creg
  let u0 := r.breg
  let v := r.areg
  if u1 ≥ v then some r.setErrorFlag
  else
    let s := nlz v
    let v := v <<< s
    let vn1 := v >>> 16
    let vn0 := v &&& 0xFFFF
    let un32 := (u1 <<< s) ||| ((u0 >>> (32 - s)) &&& (BitVec.ofInt 32 (-s)).sshiftRight 31)
    let un10 := u0 <<< s
    let un1 := un10 >>> 16
    let un0 := un10 &&& 0xFFFF
    (digit vn1 vn0 un32 un1).bind fun q1 =>
      let un21 := un32 * base + un1 - q1 * v
      (digit vn1 vn0 un21 un0).map fun q0 =>
        (.cont, { r with
          breg := (un21 * base + un0 - q0 * v) >>> s
          areg := q1 * base + q0 })

/-- `ins_lmul` -/
def insLmul (r : Regs 32) : Option (Ret × Regs 32) :=
  let u := r.breg
  let v := r.areg
  let u0 := u >>> 16
  let u1 := u &&& 0xFFFF
  let v0 := v >>> 16
  let v1 := v &&& 0xFFFF
  let t := u1 * v1
  let w3 := t &&& 0xFFFF
  let k := t >>> 16
  let t := u0 * v1 + k
  let w2 := t &&& 0xFFFF
  let w1 := t >>> 16
  let t := u1 * v0 + w2
  let k := t >>> 16
  let breg := u0 * v0 + w1 + k
  let areg := (t <<< 16) + w3
  let res := areg + r.creg
  let carry := ((areg &&& r.creg) ||| ((areg ||| r.creg) &&& ~~~res)) >>> 31
  some (.cont, { r with areg := res, breg := breg + carry })

/-- The shift length, `AREG` as a signed word: none where it is negative, and 64 at most. -/
def shifts (areg : Word) : ℕ := if areg.toInt > 64 then 64 else areg.toInt.toNat

/-- The loop of `ins_lshr`. -/
def lshrLoop : ℕ → Regs 32 → Regs 32
  | 0, r => r
  | n + 1, r =>
    let bit : Word := if r.creg &&& 1 = 0 then 0 else 0x80000000
    lshrLoop n { r with creg := r.creg >>> 1, breg := (r.breg >>> 1) ||| bit }

/-- `ins_lshr` -/
def insLshr (r : Regs 32) : Option (Ret × Regs 32) :=
  let r := lshrLoop (shifts r.areg) r
  some (.cont, { r with areg := r.breg, breg := r.creg })

/-- The loop of `ins_lshl`. -/
def lshlLoop : ℕ → Regs 32 → Regs 32
  | 0, r => r
  | n + 1, r =>
    let bit : Word := if r.breg &&& 0x80000000 = 0 then 0 else 1
    lshlLoop n { r with breg := r.breg <<< 1, creg := (r.creg <<< 1) ||| bit }

/-- `ins_lshl` -/
def insLshl (r : Regs 32) : Option (Ret × Regs 32) :=
  let r := lshlLoop (shifts r.areg) r
  some (.cont, { r with areg := r.breg, breg := r.creg })

end Fallback

/-! ## Two ways that agree -/

/-- What is left of an instruction: what it returned, the error flag, `AREG` and `BREG`. -/
def outcome (out : Ret × Regs 32) : Ret × Bool × Word × Word :=
  (out.1, out.2.intov, out.2.areg, out.2.breg)

/-- Both end, and leave the same. -/
def Agree (x y : Option (Ret × Regs 32)) : Prop :=
  ∃ out out', x = some out ∧ y = some out' ∧ outcome out = outcome out'

/-! ## Words as numbers -/

open Extlib (dword dword_lt toNat_or_of_lt)

variable {r : Regs 32}

theorem toNat_dividend (r : Regs 32) : (Dword.dividend r).toNat = dword (r.creg, r.breg) := by
  have hc := r.creg.isLt
  have hb := r.breg.isLt
  have hhigh : (r.creg.setWidth 64 <<< 32).toNat = 2 ^ 32 * r.creg.toNat := by
    rw [BitVec.toNat_shiftLeft, BitVec.toNat_setWidth, Nat.shiftLeft_eq,
      Nat.mod_eq_of_lt (by omega), Nat.mod_eq_of_lt (by omega), mul_comm]
  have hlow : (r.breg.setWidth 64).toNat = r.breg.toNat := by
    rw [BitVec.toNat_setWidth, Nat.mod_eq_of_lt (by omega)]
  rw [Dword.dividend, BitVec.toNat_or, hhigh, hlow, dword]
  exact (Nat.two_pow_add_eq_or_of_lt hb _).symm

/-- The two words of a double word. -/
theorem dword_halves (x : BitVec 64) :
    dword ((x >>> 32).setWidth 32, x.setWidth 32) = x.toNat := by
  have hx := x.isLt
  rw [dword, BitVec.toNat_setWidth, BitVec.toNat_setWidth, BitVec.toNat_ushiftRight,
    Nat.shiftRight_eq_div_pow, Nat.mod_eq_of_lt (a := x.toNat / 2 ^ 32) (by omega),
    Nat.div_add_mod]

/-- Two words are what they stand for. -/
theorem dword_inj {a b a' b' : Word} (h : dword (a, b) = dword (a', b')) : a = a' ∧ b = b' := by
  have hb := b.isLt
  have hb' := b'.isLt
  unfold dword at h
  dsimp only at h
  exact ⟨BitVec.eq_of_toNat_eq (by omega), BitVec.eq_of_toNat_eq (by omega)⟩

/-! ## Shifts -/

theorem toNat_shiftRight_one (x : Word) : (x >>> 1).toNat = x.toNat / 2 := by
  rw [BitVec.toNat_ushiftRight, Nat.shiftRight_eq_div_pow]

theorem toNat_shiftLeft_one (x : Word) : (x <<< 1).toNat = 2 * x.toNat % 2 ^ 32 := by
  rw [BitVec.toNat_shiftLeft, Nat.shiftLeft_eq, mul_comm]

theorem and_one_eq_zero_iff (x : Word) : x &&& 1 = 0 ↔ x.toNat % 2 = 0 := by
  rw [← BitVec.toNat_inj, Extlib.toNat_and_one]
  rfl

theorem and_signBit_eq_zero_iff (x : Word) : x &&& 0x80000000 = 0 ↔ x.toNat < 2 ^ 31 := by
  have htwo : (0x80000000 : Word) = BitVec.twoPow 32 31 := rfl
  have hmsb := msb_iff_toNat x
  rw [BitVec.msb_eq_getLsbD_last] at hmsb
  rw [htwo, BitVec.and_twoPow]
  split_ifs with h
  · exact iff_of_false (by decide) (hmsb.mp h).not_gt
  · exact iff_of_true rfl (Nat.lt_of_not_le fun hle => h (hmsb.mpr hle))

/-- One round of `ins_lshr` halves. -/
theorem dword_lshrLoop (n : ℕ) (r : Regs 32) :
    dword ((Fallback.lshrLoop n r).creg, (Fallback.lshrLoop n r).breg) =
        dword (r.creg, r.breg) / 2 ^ n := by
  induction n generalizing r with
  | zero => rw [Fallback.lshrLoop, pow_zero, Nat.div_one]
  | succ n ih =>
    have hb := r.breg.isLt
    have hor : ((r.breg >>> 1) ||| (if r.creg &&& 1 = 0 then (0 : Word) else 0x80000000)).toNat =
        r.breg.toNat / 2 + 2 ^ 31 * (r.creg.toNat % 2) := by
      rw [BitVec.or_comm, BitVec.toNat_or, toNat_shiftRight_one]
      split_ifs with hbit
      · rw [and_one_eq_zero_iff] at hbit
        rw [hbit]
        exact Nat.zero_or _
      · rw [and_one_eq_zero_iff] at hbit
        rw [show r.creg.toNat % 2 = 1 by omega, mul_one, add_comm]
        exact (Nat.two_pow_add_eq_or_of_lt (i := 31) (by omega) 1).symm
    have hround : dword (r.creg >>> 1,
        (r.breg >>> 1) ||| (if r.creg &&& 1 = 0 then (0 : Word) else 0x80000000)) =
          dword (r.creg, r.breg) / 2 := by
      rw [dword, dword, hor, toNat_shiftRight_one]
      dsimp only
      omega
    rw [Fallback.lshrLoop, ih, pow_succ' 2 n, ← Nat.div_div_eq_div_mul]
    exact congrArg (· / 2 ^ n) hround

/-- One round of `ins_lshl` doubles. -/
theorem dword_lshlLoop (n : ℕ) (r : Regs 32) :
    dword ((Fallback.lshlLoop n r).creg, (Fallback.lshlLoop n r).breg) =
        dword (r.creg, r.breg) * 2 ^ n % 2 ^ 64 := by
  induction n generalizing r with
  | zero => rw [Fallback.lshlLoop, pow_zero, mul_one, Nat.mod_eq_of_lt (dword_lt _)]
  | succ n ih =>
    have hb := r.breg.isLt
    have hor : ((r.creg <<< 1) ||| (if r.breg &&& 0x80000000 = 0 then (0 : Word) else 1)).toNat =
        2 * r.creg.toNat % 2 ^ 32 + r.breg.toNat / 2 ^ 31 := by
      rw [BitVec.toNat_or, toNat_shiftLeft_one]
      have heven : 2 * r.creg.toNat % 2 ^ 32 = 2 ^ 1 * (r.creg.toNat % 2 ^ 31) := by omega
      split_ifs with hbit
      · rw [and_signBit_eq_zero_iff] at hbit
        rw [Nat.div_eq_of_lt hbit]
        exact Nat.or_zero _
      · rw [and_signBit_eq_zero_iff] at hbit
        rw [show r.breg.toNat / 2 ^ 31 = 1 by omega, heven]
        exact (Nat.two_pow_add_eq_or_of_lt (i := 1) (b := 1) (by decide) _).symm
    have hround : dword ((r.creg <<< 1) ||| (if r.breg &&& 0x80000000 = 0 then (0 : Word) else 1),
        r.breg <<< 1) = dword (r.creg, r.breg) * 2 % 2 ^ 64 := by
      rw [dword, dword, hor, toNat_shiftLeft_one]
      dsimp only
      omega
    rw [Fallback.lshlLoop, ih, pow_succ' 2 n, ← mul_assoc]
    refine (congrArg (· * 2 ^ n % 2 ^ 64) hround).trans ?_
    exact (Nat.mod_modEq _ _).mul_right _

theorem intov_lshrLoop (n : ℕ) (r : Regs 32) : (Fallback.lshrLoop n r).intov = r.intov := by
  induction n generalizing r with
  | zero => rfl
  | succ n ih => exact ih _

theorem intov_lshlLoop (n : ℕ) (r : Regs 32) : (Fallback.lshlLoop n r).intov = r.intov := by
  induction n generalizing r with
  | zero => rfl
  | succ n ih => exact ih _

/-- Two instructions that go on agree if they leave the same double word. -/
theorem agree_iff_dword {s t : Regs 32} (h : s.intov = t.intov) :
    Agree (some (.cont, s)) (some (.cont, t)) ↔
      dword (s.breg, s.areg) = dword (t.breg, t.areg) := by
  constructor
  · rintro ⟨_, _, hs, ht, hout⟩
    cases hs
    cases ht
    have harea : s.areg = t.areg := congrArg (fun o => o.2.2.1) hout
    have hbreg : s.breg = t.breg := congrArg (fun o => o.2.2.2) hout
    rw [harea, hbreg]
  · intro hd
    obtain ⟨hb, ha⟩ := dword_inj hd
    exact ⟨_, _, rfl, rfl, by rw [outcome, outcome, h, ha, hb]⟩

/-- How often the fallback shifts. -/
theorem shifts_eq (a : Word) :
    a.toNat < 2 ^ 31 ∧ Fallback.shifts a = min a.toNat 64 ∨
      ¬ a.toNat < 2 ^ 31 ∧ Fallback.shifts a = 0 := by
  have ha := a.isLt
  unfold Fallback.shifts
  by_cases h : a.toNat < 2 ^ 31
  · have hint : a.toInt = a.toNat := BitVec.toInt_eq_toNat_of_lt (by omega)
    refine Or.inl ⟨h, ?_⟩
    rw [hint]
    split_ifs <;> omega
  · have hint : a.toInt < 0 := (msb_iff a).mp ((msb_iff_toNat a).mpr (Nat.le_of_not_lt h))
    refine Or.inr ⟨h, ?_⟩
    rw [if_neg (by omega)]
    omega

/-- What `ins_lshr` leaves with a double-word type. -/
theorem insLshr_dword (r : Regs 32) : ∃ s, Dword.insLshr r = some (.cont, s) ∧
    s.intov = r.intov ∧ dword (s.breg, s.areg) = dword (r.creg, r.breg) / 2 ^ r.areg.toNat := by
  unfold Dword.insLshr
  split_ifs with h
  · refine ⟨_, rfl, rfl, (dword_halves _).trans ?_⟩
    rw [BitVec.toNat_ushiftRight, Nat.shiftRight_eq_div_pow, toNat_dividend]
  · refine ⟨_, rfl, rfl, Eq.symm (Nat.div_eq_of_lt ?_)⟩
    exact (dword_lt _).trans_le (Nat.pow_le_pow_right (by decide) (Nat.le_of_not_lt h))

theorem insLshl_dword (r : Regs 32) : ∃ s, Dword.insLshl r = some (.cont, s) ∧
    s.intov = r.intov ∧
      dword (s.breg, s.areg) = dword (r.creg, r.breg) * 2 ^ r.areg.toNat % 2 ^ 64 := by
  unfold Dword.insLshl
  split_ifs with h
  · refine ⟨_, rfl, rfl, (dword_halves _).trans ?_⟩
    rw [BitVec.toNat_shiftLeft, Nat.shiftLeft_eq, toNat_dividend]
  · refine ⟨_, rfl, rfl, Eq.symm (Nat.mod_eq_zero_of_dvd ?_)⟩
    exact (pow_dvd_pow 2 (Nat.le_of_not_lt h)).mul_left _

theorem dword_eq_zero_iff {a b : Word} : dword (a, b) = 0 ↔ b = 0 ∧ a = 0 := by
  rw [dword, Nat.add_eq_zero_iff, Nat.mul_eq_zero, ← BitVec.toNat_inj (x := a),
    ← BitVec.toNat_inj (x := b)]
  dsimp only
  constructor
  · rintro ⟨ha | ha, hb⟩
    · exact absurd ha (by decide)
    · exact ⟨hb, ha⟩
  · exact fun h => ⟨Or.inr h.2, h.1⟩

/-- **Right shifts agree** when the shift is no negative word, or shifts zero. -/
theorem lshr_agree_iff (r : Regs 32) : Agree (Dword.insLshr r) (Fallback.insLshr r) ↔
    r.areg.toNat < 2 ^ 31 ∨ r.breg = 0 ∧ r.creg = 0 := by
  obtain ⟨s, hs, hflag, hdword⟩ := insLshr_dword r
  rw [hs, Fallback.insLshr, agree_iff_dword]
  swap
  · exact hflag.trans (intov_lshrLoop _ r).symm
  dsimp only
  rw [hdword, dword_lshrLoop]
  rcases shifts_eq r.areg with ⟨h, hn⟩ | ⟨h, hn⟩
  · refine iff_of_true ?_ (Or.inl h)
    rw [hn]
    rcases Nat.le_total r.areg.toNat 64 with hle | hle
    · rw [min_eq_left hle]
    · rw [min_eq_right hle, Nat.div_eq_of_lt (dword_lt _), Nat.div_eq_of_lt]
      exact (dword_lt _).trans_le (Nat.pow_le_pow_right (by decide) hle)
  · rw [hn, pow_zero, Nat.div_one, or_iff_right h, ← dword_eq_zero_iff, Nat.div_eq_of_lt, eq_comm]
    refine (dword_lt _).trans_le (Nat.pow_le_pow_right (by decide) ?_)
    omega

/-- **Left shifts agree** under the same condition. -/
theorem lshl_agree_iff (r : Regs 32) : Agree (Dword.insLshl r) (Fallback.insLshl r) ↔
    r.areg.toNat < 2 ^ 31 ∨ r.breg = 0 ∧ r.creg = 0 := by
  obtain ⟨s, hs, hflag, hdword⟩ := insLshl_dword r
  have hzero : ∀ {n}, 64 ≤ n → dword (r.creg, r.breg) * 2 ^ n % 2 ^ 64 = 0 := fun hn =>
    Nat.mod_eq_zero_of_dvd ((pow_dvd_pow 2 hn).mul_left _)
  rw [hs, Fallback.insLshl, agree_iff_dword]
  swap
  · exact hflag.trans (intov_lshlLoop _ r).symm
  dsimp only
  rw [hdword, dword_lshlLoop]
  rcases shifts_eq r.areg with ⟨h, hn⟩ | ⟨h, hn⟩
  · refine iff_of_true ?_ (Or.inl h)
    rw [hn]
    rcases Nat.le_total r.areg.toNat 64 with hle | hle
    · rw [min_eq_left hle]
    · rw [min_eq_right hle, hzero hle, hzero le_rfl]
  · rw [hn, pow_zero, mul_one, Nat.mod_eq_of_lt (dword_lt _), or_iff_right h, ← dword_eq_zero_iff,
      hzero (by omega), eq_comm]

/-! ## Division -/

/-- One round of `nlz`. -/
theorem nlz_round {x n k m : ℕ} {y c : Word} (hbound : c.toNat + 1 = 2 ^ (32 - k))
    (hk : k ≤ 32) (hm : 2 ^ m * 2 ^ k = 2 ^ (32 - k)) (hy : y.toNat = x * 2 ^ n)
    (hlow : 2 ^ m ≤ y.toNat) :
    (if y ≤ c then (n + k, y <<< k) else (n, y)).2.toNat =
        x * 2 ^ (if y ≤ c then (n + k, y <<< k) else (n, y)).1 ∧
      2 ^ (32 - k) ≤ (if y ≤ c then (n + k, y <<< k) else (n, y)).2.toNat ∧
      (if y ≤ c then (n + k, y <<< k) else (n, y)).1 ≤ n + k := by
  by_cases h : y ≤ c
  · simp only [if_pos h]
    have hlt : y.toNat < 2 ^ (32 - k) := by
      rw [← hbound]
      exact Nat.lt_succ_of_le h
    have hfits : y.toNat * 2 ^ k < 2 ^ 32 := by
      calc y.toNat * 2 ^ k < 2 ^ (32 - k) * 2 ^ k := Nat.mul_lt_mul_of_pos_right hlt (by positivity)
        _ = 2 ^ 32 := by rw [← pow_add, Nat.sub_add_cancel hk]
    have hshift : (y <<< k).toNat = y.toNat * 2 ^ k := by
      rw [BitVec.toNat_shiftLeft, Nat.shiftLeft_eq, Nat.mod_eq_of_lt hfits]
    refine ⟨?_, ?_, le_rfl⟩
    · rw [hshift, hy, mul_assoc, ← pow_add]
    · rw [hshift, ← hm]
      exact Nat.mul_le_mul_right _ hlow
  · simp only [if_neg h]
    refine ⟨hy, ?_, Nat.le_add_right _ _⟩
    rw [← hbound]
    exact Nat.lt_of_not_le h

/-- **`nlz` normalises.** -/
theorem nlz_spec {x : Word} (hx : x ≠ 0) : Fallback.nlz x ≤ 31 ∧
    2 ^ 31 ≤ x.toNat * 2 ^ Fallback.nlz x ∧ x.toNat * 2 ^ Fallback.nlz x < 2 ^ 32 := by
  have hpos : 0 < x.toNat := Nat.pos_of_ne_zero fun h => hx (BitVec.eq_of_toNat_eq h)
  rw [Fallback.nlz, if_neg hx]
  dsimp only
  obtain ⟨h₁, hlow₁, hn₁⟩ := nlz_round (x := x.toNat) (n := 0) (k := 16)
    (m := 0) (y := x) (c := 0x0000FFFF) rfl (by decide) rfl (by rw [pow_zero, mul_one]) hpos
  generalize (if x ≤ 0x0000FFFF then (0 + 16, x <<< 16) else (0, x)) = p₁ at *
  obtain ⟨h₂, hlow₂, hn₂⟩ := nlz_round (k := 8) (m := 16) (c := 0x00FFFFFF) rfl (by decide) rfl
    h₁ hlow₁
  generalize (if p₁.2 ≤ 0x00FFFFFF then (p₁.1 + 8, p₁.2 <<< 8) else (p₁.1, p₁.2)) = p₂ at *
  obtain ⟨h₃, hlow₃, hn₃⟩ := nlz_round (k := 4) (m := 24) (c := 0x0FFFFFFF) rfl (by decide) rfl
    h₂ hlow₂
  generalize (if p₂.2 ≤ 0x0FFFFFFF then (p₂.1 + 4, p₂.2 <<< 4) else (p₂.1, p₂.2)) = p₃ at *
  obtain ⟨h₄, hlow₄, hn₄⟩ := nlz_round (k := 2) (m := 28) (c := 0x3FFFFFFF) rfl (by decide) rfl
    h₃ hlow₃
  generalize (if p₃.2 ≤ 0x3FFFFFFF then (p₃.1 + 2, p₃.2 <<< 2) else (p₃.1, p₃.2)) = p₄ at *
  obtain ⟨h₅, hlow₅, hn₅⟩ := nlz_round (k := 1) (m := 30) (c := 0x7FFFFFFF) rfl (by decide) rfl
    h₄ hlow₄
  have hlast : (if p₄.2 ≤ 0x7FFFFFFF then p₄.1 + 1 else p₄.1) =
      (if p₄.2 ≤ 0x7FFFFFFF then (p₄.1 + 1, p₄.2 <<< 1) else (p₄.1, p₄.2)).1 := by
    split_ifs <;> rfl
  rw [hlast, ← h₅]
  exact ⟨by omega, hlow₅, BitVec.isLt _⟩

/-- The divisor's digits and what the digits of the dividend are. -/
structure Normalised (vn1 vn0 un : Word) : Prop where
  half : 2 ^ 15 ≤ vn1.toNat
  high : vn1.toNat < 2 ^ 16
  low : vn0.toNat < 2 ^ 16
  next : un.toNat < 2 ^ 16

theorem again_spec {vn1 vn0 un : Word} (hn : Normalised vn1 vn0 un) {N : ℕ}
    (hN : N < 2 ^ 16 * vn1.toNat + vn0.toNat) : ∀ (fuel : ℕ) (q rhat : Word),
      N = q.toNat * vn1.toNat + rhat.toNat → q.toNat ≤ 2 ^ 16 + 1 → rhat.toNat < 2 ^ 16 →
      QuotientDigit.digit (2 ^ 16) vn1.toNat vn0.toNat N un.toNat ≤ q.toNat →
      2 ^ 16 ≤ rhat.toNat + fuel * 2 ^ 15 →
      ∃ out, Fallback.again vn1 vn0 un fuel q rhat = some out ∧
        out.toNat = QuotientDigit.digit (2 ^ 16) vn1.toNat vn0.toNat N un.toNat := by
  obtain ⟨hhalf, hhigh, hlow, hnext⟩ := hn
  intro fuel
  induction fuel with
  | zero => intro q rhat _ _ hr _ hfuel; omega
  | succ fuel ih =>
    intro q rhat hq hmax hr hdigit hfuel
    have htest : (q ≥ Fallback.base ∨ q * vn0 > Fallback.base * rhat + un) ↔
        2 ^ 16 ≤ q.toNat ∨ 2 ^ 16 * rhat.toNat + un.toNat < q.toNat * vn0.toNat := by
      by_cases hbase : 2 ^ 16 ≤ q.toNat
      · exact iff_of_true (Or.inl hbase) (Or.inl hbase)
      · have hprod : q.toNat * vn0.toNat < 2 ^ 32 :=
          Nat.mul_lt_mul'' (c := 2 ^ 16) (d := 2 ^ 16) (lt_of_not_ge hbase) hlow
        have hright : (Fallback.base * rhat + un).toNat = 2 ^ 16 * rhat.toNat + un.toNat := by
          rw [BitVec.toNat_add, BitVec.toNat_mul, Nat.mod_add_mod]
          exact Nat.mod_eq_of_lt (show 2 ^ 16 * rhat.toNat + un.toNat < 2 ^ 32 by omega)
        have hleft : (q * vn0).toNat = q.toNat * vn0.toNat := by
          rw [BitVec.toNat_mul, Nat.mod_eq_of_lt hprod]
        refine or_congr Iff.rfl ?_
        rw [gt_iff_lt, BitVec.lt_def, hright, hleft]
    rw [Fallback.again]
    split_ifs with hlarge
    · rw [htest] at hlarge
      have hless := digit_lt_of_lt hN hnext hq hlarge
      have hpred : (q - 1).toNat = q.toNat - 1 :=
        BitVec.toNat_sub_of_le (show 1 ≤ q.toNat by omega)
      have hsum : (rhat + vn1).toNat = rhat.toNat + vn1.toNat := by
        rw [BitVec.toNat_add, Nat.mod_eq_of_lt (by omega)]
      have hq' := decrease hq (show 0 < q.toNat by omega)
      dsimp only
      split_ifs with hgo
      · have hgo' : (rhat + vn1).toNat < 2 ^ 16 := hgo
        refine ih _ _ ?_ ?_ hgo' ?_ ?_
        · rw [hpred, hsum]
          exact hq'
        · omega
        · omega
        · omega
      · have hgo' : ¬ (rhat + vn1).toNat < 2 ^ 16 := hgo
        refine ⟨_, rfl, hpred.trans ?_⟩
        refine eq_digit hN hq' (Nat.le_sub_one_of_lt hless) (fits_of_base_le hlow ?_ ?_)
        · omega
        · omega
    · rw [htest, not_or, not_lt] at hlarge
      exact ⟨q, rfl, eq_digit hN hq hdigit hlarge.2⟩

/-- **A digit is right.** -/
theorem digit_spec {vn1 vn0 un un32 : Word} (hn : Normalised vn1 vn0 un)
    (hN : un32.toNat < 2 ^ 16 * vn1.toNat + vn0.toNat) :
    ∃ out, Fallback.digit vn1 vn0 un32 un = some out ∧
      out.toNat = QuotientDigit.digit (2 ^ 16) vn1.toNat vn0.toNat un32.toNat un.toNat := by
  obtain ⟨hhalf, hhigh, hlow, hnext⟩ := hn
  have hq : (un32 / vn1).toNat = un32.toNat / vn1.toNat := BitVec.toNat_udiv
  have hprod : (un32 / vn1 * vn1).toNat = un32.toNat / vn1.toNat * vn1.toNat := by
    rw [BitVec.toNat_mul, hq]
    exact Nat.mod_eq_of_lt ((Nat.div_mul_le_self _ _).trans_lt un32.isLt)
  have hle : un32 / vn1 * vn1 ≤ un32 := by
    rw [BitVec.le_def, hprod]
    exact Nat.div_mul_le_self _ _
  have hr : (un32 - un32 / vn1 * vn1).toNat = un32.toNat % vn1.toNat := by
    rw [BitVec.toNat_sub_of_le hle, hprod, Nat.mod_eq_sub_div_mul]
  have hsmall : un32.toNat % vn1.toNat < vn1.toNat := Nat.mod_lt _ (by omega)
  refine again_spec ⟨hhalf, hhigh, hlow, hnext⟩ hN _ _ _ ?_ ?_ ?_ ?_ ?_
  · rw [hq, hr, Nat.div_add_mod']
  · rw [hq]
    exact estimate_le (by omega) hlow hN
  · rw [hr]
    exact hsmall.trans hhigh
  · rw [hq]
    exact digit_le_estimate (by omega) hnext
  · omega

/-- The dividend's upper words, shifted. -/
theorem toNat_un32 {u v : Word} {s : ℕ} (hs : s ≤ 31) (hfits : u.toNat * 2 ^ s < 2 ^ 32) :
    ((u <<< s) ||| ((v >>> (32 - s)) &&& (BitVec.ofInt 32 (-s)).sshiftRight 31)).toNat =
      u.toNat * 2 ^ s + v.toNat / 2 ^ (32 - s) := by
  have hhigh : (u <<< s).toNat = 2 ^ s * u.toNat := by
    rw [BitVec.toNat_shiftLeft, Nat.shiftLeft_eq, Nat.mod_eq_of_lt hfits, mul_comm]
  have hlow : (v >>> (32 - s)).toNat = v.toNat / 2 ^ (32 - s) := by
    rw [BitVec.toNat_ushiftRight, Nat.shiftRight_eq_div_pow]
  have hlt : v.toNat / 2 ^ (32 - s) < 2 ^ s := by
    refine Nat.div_lt_of_lt_mul ?_
    rw [← pow_add, Nat.sub_add_cancel (by omega)]
    exact v.isLt
  have hmask : (v >>> (32 - s)) &&& (BitVec.ofInt 32 (-s)).sshiftRight 31 = v >>> (32 - s) := by
    rcases Nat.eq_zero_or_pos s with rfl | hpos
    · refine BitVec.eq_of_toNat_eq ?_
      rw [BitVec.toNat_and, hlow, Nat.div_eq_of_lt v.isLt, Nat.zero_and]
    · have hones : (BitVec.ofInt 32 (-s)).sshiftRight 31 = BitVec.allOnes 32 := by
        interval_cases s <;> rfl
      rw [hones, BitVec.and_allOnes]
  rw [hmask, Extlib.toNat_or_of_lt hhigh (hlow.trans_lt hlt), hhigh, hlow, mul_comm]

/-- What is left when a digit's multiple is taken away. -/
theorem toNat_rest {n x q v : Word} {m : ℕ}
    (h : n.toNat * 2 ^ 16 + x.toNat = q.toNat * v.toNat + m) (hm : m < 2 ^ 32) :
    (n * Fallback.base + x - q * v).toNat = m := by
  have hsum : n * Fallback.base + x = q * v + BitVec.ofNat 32 m := by
    refine BitVec.eq_of_toNat_eq ?_
    rw [BitVec.toNat_add, BitVec.toNat_mul, Nat.mod_add_mod, BitVec.toNat_add, BitVec.toNat_mul,
      Nat.mod_add_mod, BitVec.toNat_ofNat, Nat.add_mod_mod]
    exact congrArg (· % 2 ^ 32) h
  rw [hsum, add_sub_cancel_left, BitVec.toNat_ofNat, Nat.mod_eq_of_lt hm]

/-- A word is its two digits. -/
theorem toNat_digits (x : Word) : x.toNat = 2 ^ 16 * (x >>> 16).toNat + (x &&& 0xFFFF).toNat := by
  have hlow := Extlib.toNat_and_lowBits16 x
  rw [Extlib.lowBits16] at hlow
  rw [hlow, Extlib.toNat_ushiftRight_16, Nat.div_add_mod]

theorem low_digit_lt (x : Word) : (x &&& 0xFFFF).toNat < 2 ^ 16 := by
  have hlow := Extlib.toNat_and_lowBits16 x
  rw [Extlib.lowBits16] at hlow
  rw [hlow]
  exact Nat.mod_lt _ (by decide)

theorem high_digit_lt (x : Word) : (x >>> 16).toNat < 2 ^ 16 := by
  rw [Extlib.toNat_ushiftRight_16]
  exact Nat.div_lt_of_lt_mul x.isLt

/-- Dividing what is `2 ^ s` times as much. -/
theorem div_mod_of_shifted {D v Q R s : ℕ} (h : D * 2 ^ s = Q * (v * 2 ^ s) + R)
    (hR : R < v * 2 ^ s) : D / v = Q ∧ D % v = R / 2 ^ s := by
  have hpos : 0 < 2 ^ s := Nat.two_pow_pos s
  have hdvd : 2 ^ s ∣ R := by
    refine (Nat.dvd_add_right (Dvd.intro_left (Q * v) ?_)).mp (Dvd.intro_left D h)
    rw [mul_assoc]
  obtain ⟨r, rfl⟩ := hdvd
  have hD : D = r + v * Q := by
    refine Nat.eq_of_mul_eq_mul_right hpos (h.trans ?_)
    ring
  have hr : r < v := by
    rw [mul_comm] at hR
    exact Nat.lt_of_mul_lt_mul_right hR
  rw [Nat.mul_div_cancel_left _ hpos, hD, Nat.add_mul_div_left _ _ (Nat.zero_lt_of_lt hr),
    Nat.div_eq_of_lt hr, zero_add, Nat.add_mul_mod_self_left, Nat.mod_eq_of_lt hr]
  exact ⟨rfl, rfl⟩

/-- The dividend, shifted. -/
theorem dword_shifted {c b n n' : Word} {s : ℕ} (hsplit : 2 ^ (32 - s) * 2 ^ s = 2 ^ 32)
    (hN : n.toNat = c.toNat * 2 ^ s + b.toNat / 2 ^ (32 - s))
    (hlow : n'.toNat = b.toNat % 2 ^ (32 - s) * 2 ^ s) :
    dword (c, b) * 2 ^ s = n.toNat * (2 ^ 16 * 2 ^ 16) + n'.toNat := by
  have hb := Nat.div_add_mod b.toNat (2 ^ (32 - s))
  have hbase : (2 ^ 16 * 2 ^ 16 : ℕ) = 2 ^ (32 - s) * 2 ^ s := hsplit.symm
  rw [hN, hlow, hbase, dword, ← hsplit]
  dsimp only
  calc (2 ^ (32 - s) * 2 ^ s * c.toNat + b.toNat) * 2 ^ s
      = (2 ^ (32 - s) * 2 ^ s * c.toNat +
          (2 ^ (32 - s) * (b.toNat / 2 ^ (32 - s)) + b.toNat % 2 ^ (32 - s))) * 2 ^ s := by rw [hb]
    _ = (c.toNat * 2 ^ s + b.toNat / 2 ^ (32 - s)) * (2 ^ (32 - s) * 2 ^ s) +
          b.toNat % 2 ^ (32 - s) * 2 ^ s := by ring

/-- **The fallback's division** gives quotient and remainder, where the quotient is a word. -/
theorem insLdiv_fallback {r : Regs 32} (h : r.creg < r.areg) : ∃ s,
    Fallback.insLdiv r = some (.cont, s) ∧ s.intov = r.intov ∧
      s.areg.toNat = dword (r.creg, r.breg) / r.areg.toNat ∧
      s.breg.toNat = dword (r.creg, r.breg) % r.areg.toNat := by
  have hlt : r.creg.toNat < r.areg.toNat := h
  obtain ⟨hs, hhalf, hmax⟩ := nlz_spec (x := r.areg) fun h0 => by
    rw [h0] at hlt
    exact Nat.not_lt_zero _ hlt
  unfold Fallback.insLdiv
  dsimp only
  rw [if_neg (show ¬ r.creg ≥ r.areg from Nat.not_le_of_lt hlt)]
  generalize Fallback.nlz r.areg = s at *
  have hV : (r.areg <<< s).toNat = r.areg.toNat * 2 ^ s := by
    rw [BitVec.toNat_shiftLeft, Nat.shiftLeft_eq, Nat.mod_eq_of_lt hmax]
  have hcreg : (r.creg.toNat + 1) * 2 ^ s ≤ r.areg.toNat * 2 ^ s := Nat.mul_le_mul_right _ hlt
  have hsplit : 2 ^ (32 - s) * 2 ^ s = 2 ^ 32 := by rw [← pow_add, Nat.sub_add_cancel (by omega)]
  have hlow : r.breg.toNat / 2 ^ (32 - s) < 2 ^ s :=
    Nat.div_lt_of_lt_mul (hsplit ▸ r.breg.isLt)
  have hN := toNat_un32 (u := r.creg) (v := r.breg) hs (by
    refine (Nat.mul_le_mul_right _ hlt.le).trans_lt hmax)
  have hun10 : (r.breg <<< s).toNat = r.breg.toNat % 2 ^ (32 - s) * 2 ^ s := by
    rw [BitVec.toNat_shiftLeft, Nat.shiftLeft_eq, ← hsplit, Nat.mul_mod_mul_right]
  generalize (r.creg <<< s ||| r.breg >>> (32 - s) &&& (BitVec.ofInt 32 (-s)).sshiftRight 31) =
    un32 at *
  generalize r.areg <<< s = v at *
  generalize r.breg <<< s = un10 at *
  have hv := toNat_digits v
  have hun := toNat_digits un10
  have hnorm : ∀ un : Word, un.toNat < 2 ^ 16 → Normalised (v >>> 16) (v &&& 0xFFFF) un :=
    fun un hun => ⟨by rw [Extlib.toNat_ushiftRight_16]; omega, high_digit_lt v, low_digit_lt v, hun⟩
  have hun32 : un32.toNat < v.toNat := by
    rw [hN, hV]
    rw [Nat.add_mul] at hcreg
    omega
  -- the first digit
  obtain ⟨q1, hq1, hq1'⟩ := digit_spec (hnorm (un10 >>> 16) (high_digit_lt un10)) (hv ▸ hun32)
  have hrest1 := rest_eq (2 ^ 16) (v >>> 16).toNat (v &&& 0xFFFF).toNat un32.toNat
    (un10 >>> 16).toNat
  rw [← hq1', ← hv] at hrest1
  have hlt1 : (un32.toNat * 2 ^ 16 + (un10 >>> 16).toNat) % v.toNat < v.toNat :=
    Nat.mod_lt _ (by omega)
  generalize (un32.toNat * 2 ^ 16 + (un10 >>> 16).toNat) % v.toNat = m1 at *
  have hun21 := toNat_rest hrest1 (hlt1.trans v.isLt)
  -- the second
  rw [hq1, Option.bind_some]
  generalize un32 * Fallback.base + un10 >>> 16 - q1 * v = un21 at *
  obtain ⟨q0, hq0, hq0'⟩ := digit_spec (hnorm (un10 &&& 0xFFFF) (low_digit_lt un10))
    (hv ▸ hun21.trans_lt hlt1)
  have hrest0 := rest_eq (2 ^ 16) (v >>> 16).toNat (v &&& 0xFFFF).toNat un21.toNat
    (un10 &&& 0xFFFF).toNat
  rw [← hq0', ← hv] at hrest0
  have hlt0 : (un21.toNat * 2 ^ 16 + (un10 &&& 0xFFFF).toNat) % v.toNat < v.toNat :=
    Nat.mod_lt _ (by omega)
  generalize (un21.toNat * 2 ^ 16 + (un10 &&& 0xFFFF).toNat) % v.toNat = m0 at *
  have hun0 := toNat_rest hrest0 (hlt0.trans v.isLt)
  have hD : dword (r.creg, r.breg) * 2 ^ s =
      (q1.toNat * 2 ^ 16 + q0.toNat) * (r.areg.toNat * 2 ^ s) + m0 :=
    calc dword (r.creg, r.breg) * 2 ^ s = un32.toNat * (2 ^ 16 * 2 ^ 16) + un10.toNat :=
          dword_shifted hsplit hN hun10
      _ = (q1.toNat * v.toNat + m1) * 2 ^ 16 + (un10 &&& 0xFFFF).toNat := by
          rw [← hrest1, hun]
          ring
      _ = q1.toNat * v.toNat * 2 ^ 16 + (un21.toNat * 2 ^ 16 + (un10 &&& 0xFFFF).toNat) := by
          rw [hun21]
          ring
      _ = (q1.toNat * 2 ^ 16 + q0.toNat) * (r.areg.toNat * 2 ^ s) + m0 := by
          rw [hrest0, hV]
          ring
  obtain ⟨hdiv, hmod⟩ := div_mod_of_shifted hD (hV ▸ hlt0)
  have hquot : q1.toNat * 2 ^ 16 + q0.toNat < 2 ^ 32 := by
    rw [← hdiv]
    refine Nat.div_lt_of_lt_mul ?_
    rw [dword]
    dsimp only
    have hb := r.breg.isLt
    omega
  rw [hq0, Option.map_some]
  refine ⟨_, rfl, rfl, ?_, ?_⟩
  · rw [hdiv, BitVec.toNat_add, BitVec.toNat_mul, Nat.mod_add_mod]
    exact Nat.mod_eq_of_lt hquot
  · rw [hmod, BitVec.toNat_ushiftRight, Nat.shiftRight_eq_div_pow, hun0]

/-- The division with a double-word type, where the quotient is a word. -/
theorem insLdiv_dword {r : Regs 32} (h : r.creg < r.areg) : ∃ s,
    Dword.insLdiv r = some (.cont, s) ∧ s.intov = r.intov ∧
      s.areg.toNat = dword (r.creg, r.breg) / r.areg.toNat ∧
      s.breg.toNat = dword (r.creg, r.breg) % r.areg.toNat := by
  have hlt : r.creg.toNat < r.areg.toNat := h
  have ha := r.areg.isLt
  have hb := r.breg.isLt
  have hwide : (r.areg.setWidth 64).toNat = r.areg.toNat := by
    rw [BitVec.toNat_setWidth, Nat.mod_eq_of_lt (by omega)]
  have hquot : dword (r.creg, r.breg) / r.areg.toNat < 2 ^ 32 := by
    refine Nat.div_lt_of_lt_mul ?_
    rw [dword]
    dsimp only
    omega
  unfold Dword.insLdiv
  rw [if_neg fun h0 => Nat.not_lt_zero r.creg.toNat (by rw [h0] at hlt; exact hlt)]
  refine ⟨_, rfl, rfl, ?_, ?_⟩
  · rw [BitVec.toNat_setWidth, BitVec.toNat_udiv, toNat_dividend, hwide, Nat.mod_eq_of_lt hquot]
  · rw [BitVec.toNat_setWidth, BitVec.toNat_umod, toNat_dividend, hwide]
    exact Nat.mod_eq_of_lt ((Nat.mod_lt _ (Nat.zero_lt_of_lt hlt)).trans ha)

/-- **Divisions agree** exactly when the divisor is above the high word. -/
theorem ldiv_agree_iff (r : Regs 32) :
    Agree (Dword.insLdiv r) (Fallback.insLdiv r) ↔ r.creg < r.areg := by
  constructor
  · rintro ⟨out, out', hd, hf, hout⟩
    by_contra h
    have hflag : out'.1 = .error := by
      rw [Fallback.insLdiv] at hf
      dsimp only at hf
      have hle : r.creg ≥ r.areg := Nat.le_of_not_lt h
      rw [if_pos hle] at hf
      cases hf
      rfl
    have hcont : out.1 = .cont := by
      unfold Dword.insLdiv at hd
      split_ifs at hd
      cases hd
      rfl
    have hret : out.1 = out'.1 := congrArg (fun o => o.1) hout
    rw [hcont, hflag] at hret
    cases hret
  · intro h
    obtain ⟨s, hs, hflag, hdiv, hmod⟩ := insLdiv_dword h
    obtain ⟨t, ht, hflag', hdiv', hmod'⟩ := insLdiv_fallback h
    refine ⟨_, _, hs, ht, ?_⟩
    rw [outcome, outcome, hflag, hflag', BitVec.eq_of_toNat_eq (hdiv.trans hdiv'.symm),
      BitVec.eq_of_toNat_eq (hmod.trans hmod'.symm)]

/-! ## Multiplication -/

/-- The product of two words in digits, as `ins_lmul` adds it up. -/
theorem product_carries {p00 p01 p10 p11 k w1 w2 w3 k' x3 : ℕ} (h11 : p11 = 2 ^ 16 * k + w3)
    (h01 : p01 + k = 2 ^ 16 * w1 + w2) (h10 : p10 + w2 = 2 ^ 16 * k' + x3) :
    2 ^ 32 * (p00 + w1 + k') + (2 ^ 16 * x3 + w3) =
      2 ^ 32 * p00 + 2 ^ 16 * (p01 + p10) + p11 := by
  omega

theorem toNat_mul_digits {a b : Word} (ha : a.toNat < 2 ^ 16) (hb : b.toNat < 2 ^ 16) :
    (a * b).toNat = a.toNat * b.toNat ∧ (a * b).toNat ≤ 4294836225 := by
  have hle := Nat.mul_le_mul (Nat.le_sub_one_of_lt ha) (Nat.le_sub_one_of_lt hb)
  rw [BitVec.toNat_mul, Nat.mod_eq_of_lt (hle.trans_lt (by decide))]
  exact ⟨rfl, hle⟩

theorem toNat_add_digit {a b : Word} (ha : a.toNat ≤ 4294836225) (hb : b.toNat < 2 ^ 16) :
    (a + b).toNat = a.toNat + b.toNat := by
  rw [BitVec.toNat_add, Nat.mod_eq_of_lt (by omega)]

/-- **The fallback's product**, before the carry is added. -/
theorem lmul_product {u0 u1 v0 v1 t1 t2 t3 : Word} (hu0 : u0.toNat < 2 ^ 16)
    (hu1 : u1.toNat < 2 ^ 16) (hv0 : v0.toNat < 2 ^ 16) (hv1 : v1.toNat < 2 ^ 16)
    (ht1 : t1 = u1 * v1) (ht2 : t2 = u0 * v1 + t1 >>> 16) (ht3 : t3 = u1 * v0 + (t2 &&& 0xFFFF)) :
    dword (u0 * v0 + t2 >>> 16 + t3 >>> 16, t3 <<< 16 + (t1 &&& 0xFFFF)) =
      (2 ^ 16 * u0.toNat + u1.toNat) * (2 ^ 16 * v0.toNat + v1.toNat) := by
  obtain ⟨h00, hle00⟩ := toNat_mul_digits hu0 hv0
  obtain ⟨h01, hle01⟩ := toNat_mul_digits hu0 hv1
  obtain ⟨h10, hle10⟩ := toNat_mul_digits hu1 hv0
  obtain ⟨h11, -⟩ := toNat_mul_digits hu1 hv1
  have hsplit : (2 ^ 16 * u0.toNat + u1.toNat) * (2 ^ 16 * v0.toNat + v1.toNat) =
      2 ^ 32 * (u0 * v0).toNat + 2 ^ 16 * ((u0 * v1).toNat + (u1 * v0).toNat) + t1.toNat := by
    rw [ht1, h00, h01, h10, h11]
    ring
  have hsum2 := toNat_add_digit hle01 (high_digit_lt t1)
  have hsum3 := toNat_add_digit hle10 (low_digit_lt t2)
  rw [← ht2] at hsum2
  rw [← ht3] at hsum3
  have hx3 := Extlib.toNat_shiftLeft_16 t3
  have hlow3 : (t3 &&& 0xFFFF).toNat = t3.toNat % 2 ^ 16 := Extlib.toNat_and_lowBits16 t3
  rw [← hlow3] at hx3
  have hw1 := high_digit_lt t2
  have hk := high_digit_lt t3
  have hw3 := low_digit_lt t1
  have hl3 := low_digit_lt t3
  have harea : (t3 <<< 16 + (t1 &&& 0xFFFF)).toNat =
      2 ^ 16 * (t3 &&& 0xFFFF).toNat + (t1 &&& 0xFFFF).toNat := by
    rw [BitVec.toNat_add, hx3, Nat.mod_eq_of_lt (by omega)]
  have hbreg : (u0 * v0 + t2 >>> 16 + t3 >>> 16).toNat =
      (u0 * v0).toNat + (t2 >>> 16).toNat + (t3 >>> 16).toNat := by
    rw [BitVec.toNat_add, BitVec.toNat_add, Nat.mod_add_mod, Nat.mod_eq_of_lt (by omega)]
  rw [hsplit, dword]
  dsimp only
  rw [harea, hbreg]
  exact product_carries (toNat_digits t1) (hsum2.symm.trans (toNat_digits t2))
    (hsum3.symm.trans (toNat_digits t3))

/-- A word added to a double word, with the carry of `ins_lmul`. -/
theorem dword_add_carry {hi lo c : Word} (h : dword (hi, lo) + c.toNat < 2 ^ 64) :
    dword (hi + ((lo &&& c) ||| ((lo ||| c) &&& ~~~(lo + c))) >>> 31, lo + c) =
      dword (hi, lo) + c.toNat := by
  have hlo := lo.isLt
  have hc := c.isLt
  have hcarry := lsum_carry (w := 32) (by decide) lo c
  unfold dword at *
  dsimp only at *
  rw [BitVec.toNat_add, hcarry, BitVec.toNat_add]
  omega

/-- **Multiplications agree**, always. -/
theorem lmul_agree (r : Regs 32) : Agree (Dword.insLmul r) (Fallback.insLmul r) := by
  have hu := r.breg.isLt
  have hv := r.areg.isLt
  have hc := r.creg.isLt
  have hmax : r.breg.toNat * r.areg.toNat + r.creg.toNat < 2 ^ 64 := by
    have := Nat.mul_le_mul (Nat.le_sub_one_of_lt hu) (Nat.le_sub_one_of_lt hv)
    omega
  have hwide : ∀ x : Word, (x.setWidth 64).toNat = x.toNat := fun x => by
    rw [BitVec.toNat_setWidth, Nat.mod_eq_of_lt (x.isLt.trans (by decide))]
  have hvalue : (r.breg.setWidth 64 * r.areg.setWidth 64 + r.creg.setWidth 64).toNat =
      r.breg.toNat * r.areg.toNat + r.creg.toNat := by
    rw [BitVec.toNat_add, BitVec.toNat_mul, Nat.mod_add_mod, hwide, hwide, hwide,
      Nat.mod_eq_of_lt hmax]
  have hproduct := lmul_product (high_digit_lt r.breg) (low_digit_lt r.breg) (high_digit_lt r.areg)
    (low_digit_lt r.areg) rfl rfl rfl
  rw [← toNat_digits, ← toNat_digits] at hproduct
  rw [← hproduct] at hmax
  rw [Dword.insLmul, Fallback.insLmul, agree_iff_dword]
  swap
  · rfl
  dsimp only
  rw [dword_halves, hvalue, ← hproduct]
  exact (dword_add_carry hmax).symm

/-! ## All four -/

/-- **The two ways agree** exactly when the divisor is above the high word and the shift count is
no negative word, or there is nothing to shift. -/
theorem doubleWord_agree_iff (r : Regs 32) :
    (Agree (Dword.insLdiv r) (Fallback.insLdiv r) ∧ Agree (Dword.insLmul r) (Fallback.insLmul r) ∧
      Agree (Dword.insLshr r) (Fallback.insLshr r) ∧
        Agree (Dword.insLshl r) (Fallback.insLshl r)) ↔
      r.creg < r.areg ∧ (r.areg.toNat < 2 ^ 31 ∨ r.breg = 0 ∧ r.creg = 0) := by
  rw [ldiv_agree_iff, lshr_agree_iff, lshl_agree_iff]
  constructor
  · exact fun h => ⟨h.1, h.2.2.1⟩
  · exact fun h => ⟨h.1, lmul_agree r, h.2, h.2⟩

/-- A division whose quotient is no word, and a shift that is too long. -/
theorem doubleWord_disagree :
    ¬ Agree (Dword.insLdiv ⟨1, 0, 1, 0, false⟩) (Fallback.insLdiv ⟨1, 0, 1, 0, false⟩) ∧
      ¬ Agree (Dword.insLshr ⟨0x80000000, 1, 0, 0, false⟩)
        (Fallback.insLshr ⟨0x80000000, 1, 0, 0, false⟩) := by
  rw [ldiv_agree_iff, lshr_agree_iff]
  decide

end Regs

end Tvm

end Kroc
