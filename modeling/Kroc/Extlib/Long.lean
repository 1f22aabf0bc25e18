import Mathlib.Data.BitVec
import Mathlib.Data.Nat.Bitwise
import Mathlib.Tactic.Ring
import Mathlib.Tactic.Linarith

/-!
# Extlib/Long — words of 32 bits and carries

The multiple-length routines of `occ21/extlib/extlong.c`.  A `BIT32` is a `BitVec 32`; what a
routine returns through two pointers is a pair in the order of the pointers.  Every routine is
related to the natural number that a pair of words stands for.
-/

namespace Kroc

namespace Extlib

/-- `BIT32` -/
abbrev Bit32 := BitVec 32

/-- `MaxUnsignedInt32` -/
def maxUnsignedInt32 : Bit32 := 0xFFFFFFFF

/-- `SignBit32` -/
def signBit32 : Bit32 := 0x80000000

/-- `LowBits16` -/
def lowBits16 : Bit32 := 0x0000FFFF

/-! ## The routines -/

/-- `LONGSUM`: the carry and the sum. -/
def longsum (left right carryIn : Bit32) : Bit32 × Bit32 :=
  let carryIn := carryIn &&& 1
  if maxUnsignedInt32 - left ≥ right then
    let sum := left + right
    if carryIn ≠ 0 ∧ sum = maxUnsignedInt32 then (1, 0) else (0, sum + carryIn)
  else (1, (right - ((maxUnsignedInt32 - left) + 1)) + carryIn)

/-- `LONGADD` -/
def longadd (left right carryIn : Bit32) : Bit32 := left + (right + (carryIn &&& 1))

/-- `LONGDIFF`: the borrow and the difference. -/
def longdiff (left right borrowIn : Bit32) : Bit32 × Bit32 :=
  let borrowIn := borrowIn &&& 1
  let out := if left ≥ right then (0, left - right)
    else (1, ((maxUnsignedInt32 - right) + left) + 1)
  if borrowIn ≠ 0 then
    if out.2 > 0 then (out.1, out.2 - 1) else (1, maxUnsignedInt32)
  else out

/-- `LONGPROD`: the high and the low word. -/
def longprod (left right carryIn : Bit32) : Bit32 × Bit32 :=
  let temp1 := left &&& lowBits16
  let temp2 := (left >>> 16) &&& lowBits16
  let temp3 := right &&& lowBits16
  let temp4 := (right >>> 16) &&& lowBits16
  let prodLo := temp1 * temp3
  let tempLo := temp2 * temp3
  let tempHi := (tempLo >>> 16) &&& lowBits16
  let sum := longsum prodLo (tempLo <<< 16) 0
  let prodHi := sum.1 + tempHi
  let tempLo := temp1 * temp4
  let tempHi := (tempLo >>> 16) &&& lowBits16
  let sum := longsum sum.2 (tempLo <<< 16) 0
  let prodHi := (prodHi + sum.1) + tempHi
  let sum := longsum sum.2 carryIn 0
  ((prodHi + sum.1) + (temp2 * temp4), sum.2)

/-- `SHIFTRIGHT` -/
def shiftright (inHi inLo places : Bit32) : Bit32 × Bit32 :=
  if places ≥ 64 then (0, 0)
  else if places ≥ 32 then (0, inHi >>> (places - 32))
  else if places = 0 then (inHi, inLo)
  else (inHi >>> places, (inLo >>> places) ||| (inHi <<< (32 - places)))

/-- `SHIFTLEFT` -/
def shiftleft (inHi inLo places : Bit32) : Bit32 × Bit32 :=
  if places ≥ 64 then (0, 0)
  else if places ≥ 32 then (inLo <<< (places - 32), 0)
  else if places = 0 then (inHi, inLo)
  else ((inHi <<< places) ||| (inLo >>> (32 - places)), inLo <<< places)

/-- The loop of `NORMALISE`, which ends after 63 rounds at the latest. -/
def normaliseLoop : ℕ → Bit32 → Bit32 → Bit32 → Bit32 × Bit32 × Bit32
  | 0, places, outHi, outLo => (places, outHi, outLo)
  | rounds + 1, places, outHi, outLo =>
    if outHi &&& signBit32 = 0 then
      let out := shiftleft outHi outLo 1
      normaliseLoop rounds (places + 1) out.1 out.2
    else (places, outHi, outLo)

/-- `NORMALISE` -/
def normalise (inHi inLo : Bit32) : Bit32 × Bit32 × Bit32 :=
  if inHi = 0 ∧ inLo = 0 then (64, 0, 0) else normaliseLoop 63 0 inHi inLo

/-- One bit of `LONGDIV`: the remainder and the quotient move left together. -/
def longdivStep (divis : Bit32) (r : (Bit32 × Bit32) × Bit32 × Bit32) :
    (Bit32 × Bit32) × Bit32 × Bit32 :=
  let rem := shiftleft r.1.1 r.1.2 1
  let remLo := if r.2.1 &&& signBit32 ≠ 0 then rem.2 + 1 else rem.2
  let quot := shiftleft r.2.1 r.2.2 1
  if rem.1 > 0 ∨ (rem.1 = 0 ∧ remLo ≥ divis) then
    let diffLo := longdiff remLo divis 0
    let diffHi := longdiff rem.1 0 diffLo.1
    ((diffHi.2, diffLo.2), (quot.1, quot.2 + 1))
  else ((rem.1, remLo), quot)

/-- `LONGDIV`: the quotient and the remainder. -/
def longdiv (dividHi dividLo divis : Bit32) : Bit32 × Bit32 :=
  if divis = 0 then (0, 0)
  else if dividHi = 0 ∧ dividLo = 0 then (0, 0)
  else
    let n := normalise dividHi dividLo
    let r := (longdivStep divis)^[64 - n.1.toNat] ((0, 0), (n.2.1, n.2.2))
    (r.2.2, r.1.2)

/-! ## What they compute -/

/-- The number in two words. -/
def dword (x : Bit32 × Bit32) : ℕ := 2 ^ 32 * x.1.toNat + x.2.toNat

theorem dword_lt (x : Bit32 × Bit32) : dword x < 2 ^ 64 := by
  have := x.1.isLt
  have := x.2.isLt
  unfold dword
  omega

variable {left right carryIn : Bit32}

theorem toNat_and_one (x : Bit32) : (x &&& 1).toNat = x.toNat % 2 := by
  rw [BitVec.toNat_and]
  exact Nat.and_one_is_mod _

theorem toNat_and_lowBits16 (x : Bit32) : (x &&& lowBits16).toNat = x.toNat % 2 ^ 16 := by
  rw [BitVec.toNat_and]
  exact Nat.and_two_pow_sub_one_eq_mod _ 16

theorem toNat_shiftLeft_16 (x : Bit32) : (x <<< 16).toNat = 2 ^ 16 * (x.toNat % 2 ^ 16) := by
  rw [BitVec.toNat_shiftLeft, Nat.shiftLeft_eq, Nat.mul_comm]
  exact Nat.mul_mod_mul_left (2 ^ 16) x.toNat (2 ^ 16)

theorem toNat_ushiftRight_16 (x : Bit32) : (x >>> 16).toNat = x.toNat / 2 ^ 16 := by
  rw [BitVec.toNat_ushiftRight, Nat.shiftRight_eq_div_pow]

theorem toNat_maxUnsignedInt32 : maxUnsignedInt32.toNat = 4294967295 := rfl

theorem toNat_zero : (0 : Bit32).toNat = 0 := rfl

theorem toNat_one : (1 : Bit32).toNat = 1 := rfl

theorem eq_iff_toNat {x y : Bit32} : x = y ↔ x.toNat = y.toNat := BitVec.toNat_inj.symm

/-- **`LONGSUM`** adds with carry. -/
theorem longsum_spec (left right carryIn : Bit32) :
    dword (longsum left right carryIn) = left.toNat + right.toNat + carryIn.toNat % 2 ∧
      (longsum left right carryIn).1.toNat ≤ 1 := by
  have hcarry := toNat_and_one carryIn
  have hleft := left.isLt
  have hright := right.isLt
  unfold longsum dword
  generalize carryIn &&& 1 = c at *
  dsimp only
  by_cases hle : maxUnsignedInt32 - left ≥ right
  · rw [if_pos hle]
    rw [ge_iff_le, BitVec.le_def, BitVec.toNat_sub, toNat_maxUnsignedInt32] at hle
    by_cases hmax : c ≠ 0 ∧ left + right = maxUnsignedInt32
    · rw [if_pos hmax]
      obtain ⟨hc, hsum⟩ := hmax
      rw [Ne, eq_iff_toNat, toNat_zero] at hc
      rw [eq_iff_toNat, BitVec.toNat_add, toNat_maxUnsignedInt32] at hsum
      rw [toNat_one, toNat_zero]
      omega
    · rw [if_neg hmax]
      rw [Ne, eq_iff_toNat, eq_iff_toNat, BitVec.toNat_add, toNat_maxUnsignedInt32,
        toNat_zero] at hmax
      rw [BitVec.toNat_add, BitVec.toNat_add, toNat_zero]
      omega
  · rw [if_neg hle]
    rw [ge_iff_le, BitVec.le_def, BitVec.toNat_sub, toNat_maxUnsignedInt32] at hle
    rw [BitVec.toNat_add, BitVec.toNat_sub, BitVec.toNat_add, BitVec.toNat_sub,
      toNat_maxUnsignedInt32, toNat_one]
    omega

/-- **`LONGADD`** adds what fits. -/
theorem toNat_longadd (left right carryIn : Bit32) :
    (longadd left right carryIn).toNat =
      (left.toNat + right.toNat + carryIn.toNat % 2) % 2 ^ 32 := by
  rw [longadd, BitVec.toNat_add, BitVec.toNat_add, toNat_and_one]
  omega

/-- **`LONGDIFF`** subtracts with borrow. -/
theorem longdiff_spec (left right borrowIn : Bit32) :
    (2 ^ 32 * (longdiff left right borrowIn).1.toNat + left.toNat =
      (longdiff left right borrowIn).2.toNat + right.toNat + borrowIn.toNat % 2) ∧
      (longdiff left right borrowIn).1.toNat ≤ 1 := by
  have hborrow := toNat_and_one borrowIn
  have hleft := left.isLt
  have hright := right.isLt
  unfold longdiff
  generalize borrowIn &&& 1 = c at *
  dsimp only
  obtain ⟨out, hout⟩ : ∃ out, out = if left ≥ right then ((0 : Bit32), left - right)
      else (1, maxUnsignedInt32 - right + left + 1) := ⟨_, rfl⟩
  rw [← hout]
  have hdiff : 2 ^ 32 * out.1.toNat + left.toNat = out.2.toNat + right.toNat ∧ out.1.toNat ≤ 1 := by
    rw [hout]
    by_cases hle : left ≥ right
    · rw [if_pos hle]
      rw [ge_iff_le, BitVec.le_def] at hle
      rw [BitVec.toNat_sub, toNat_zero]
      omega
    · rw [if_neg hle]
      rw [ge_iff_le, BitVec.le_def] at hle
      rw [BitVec.toNat_add, BitVec.toNat_add, BitVec.toNat_sub, toNat_maxUnsignedInt32, toNat_one]
      omega
  have hlt := out.2.isLt
  have hzero : c ≠ 0 ↔ c.toNat ≠ 0 := by rw [Ne, eq_iff_toNat, toNat_zero]
  have hgt : out.2 > 0 ↔ 0 < out.2.toNat := by rw [gt_iff_lt, BitVec.lt_def, toNat_zero]
  by_cases hc : c ≠ 0
  · rw [if_pos hc]
    rw [hzero] at hc
    by_cases hpos : out.2 > 0
    · rw [if_pos hpos]
      dsimp only
      rw [BitVec.toNat_sub, toNat_one]
      rw [hgt] at hpos
      omega
    · rw [if_neg hpos]
      dsimp only
      rw [toNat_maxUnsignedInt32, toNat_one]
      rw [hgt] at hpos
      omega
  · rw [if_neg hc]
    rw [hzero] at hc
    omega

/-- The carries of `LONGPROD`, where the middle products are `2 ^ 16 * x + y1` and `2 ^ 16 * y +
y2`. -/
theorem longprod_carries {p x y p13 y1 y2 c h1 l1 h2 l2 h3 l3 : ℕ}
    (hs1 : 2 ^ 32 * h1 + l1 = p13 + 2 ^ 16 * y1) (hs2 : 2 ^ 32 * h2 + l2 = l1 + 2 ^ 16 * y2)
    (hs3 : 2 ^ 32 * h3 + l3 = l2 + c) :
    2 ^ 32 * (h1 + x + h2 + y + h3 + p) + l3 =
      p13 + 2 ^ 16 * (2 ^ 16 * x + y1 + (2 ^ 16 * y + y2)) + 2 ^ 32 * p + c := by
  omega

/-- **`LONGPROD`** multiplies and adds. -/
theorem longprod_spec (left right carryIn : Bit32) :
    dword (longprod left right carryIn) = left.toNat * right.toNat + carryIn.toNat := by
  have hleft := left.isLt
  have hright := right.isLt
  have hcarry := carryIn.isLt
  have h1 := toNat_and_lowBits16 left
  have h2 := toNat_and_lowBits16 (left >>> 16)
  have h3 := toNat_and_lowBits16 right
  have h4 := toNat_and_lowBits16 (right >>> 16)
  rw [toNat_ushiftRight_16] at h2 h4
  unfold longprod
  generalize left &&& lowBits16 = t1 at *
  generalize left >>> 16 &&& lowBits16 = t2 at *
  generalize right &&& lowBits16 = t3 at *
  generalize right >>> 16 &&& lowBits16 = t4 at *
  dsimp only
  -- the four products of halves
  have hbound : ∀ {a b : ℕ}, a ≤ 65535 → b ≤ 65535 → a * b ≤ 4294836225 :=
    fun ha hb => Nat.mul_le_mul ha hb
  have hprod : ∀ {a b : Bit32}, a.toNat ≤ 65535 → b.toNat ≤ 65535 →
      (a * b).toNat = a.toNat * b.toNat := fun ha hb => by
    rw [BitVec.toNat_mul, Nat.mod_eq_of_lt]
    have := hbound ha hb
    omega
  have hb1 : t1.toNat ≤ 65535 := by omega
  have hb2 : t2.toNat ≤ 65535 := by omega
  have hb3 : t3.toNat ≤ 65535 := by omega
  have hb4 : t4.toNat ≤ 65535 := by omega
  have h13 := hprod hb1 hb3
  have h23 := hprod hb2 hb3
  have h14 := hprod hb1 hb4
  have h24 := hprod hb2 hb4
  have hb13 := hbound hb1 hb3
  have hb23 := hbound hb2 hb3
  have hb14 := hbound hb1 hb4
  have hb24 := hbound hb2 hb4
  have hsplit : left.toNat * right.toNat = t1.toNat * t3.toNat +
      2 ^ 16 * (t2.toNat * t3.toNat + t1.toNat * t4.toNat) + 2 ^ 32 * (t2.toNat * t4.toNat) := by
    rw [show left.toNat = 2 ^ 16 * t2.toNat + t1.toNat by omega,
      show right.toNat = 2 ^ 16 * t4.toNat + t3.toNat by omega]
    ring
  rw [hsplit]
  generalize t1 * t3 = p13 at *
  generalize t2 * t3 = p23 at *
  generalize t1 * t4 = p14 at *
  generalize t2 * t4 = p24 at *
  rw [← h13, ← h23, ← h14, ← h24]
  rw [← h13] at hb13
  rw [← h23] at hb23
  rw [← h14] at hb14
  rw [← h24] at hb24
  obtain ⟨hs1, hc1⟩ := longsum_spec p13 (p23 <<< 16) 0
  generalize longsum p13 (p23 <<< 16) 0 = s1 at *
  obtain ⟨hs2, hc2⟩ := longsum_spec s1.2 (p14 <<< 16) 0
  generalize longsum s1.2 (p14 <<< 16) 0 = s2 at *
  obtain ⟨hs3, hc3⟩ := longsum_spec s2.2 carryIn 0
  generalize longsum s2.2 carryIn 0 = s3 at *
  have hh23 := toNat_and_lowBits16 (p23 >>> 16)
  have hh14 := toNat_and_lowBits16 (p14 >>> 16)
  rw [toNat_ushiftRight_16] at hh23 hh14
  rw [toNat_shiftLeft_16, toNat_zero] at hs1 hs2
  rw [toNat_zero] at hs3
  unfold dword at *
  dsimp only
  simp only [BitVec.toNat_add]
  rw [hh23, hh14]
  have hlo := s3.2.isLt
  have hcarries := longprod_carries (p := p24.toNat) (x := p23.toNat / 2 ^ 16)
    (y := p14.toNat / 2 ^ 16) hs1 hs2 hs3
  rw [Nat.div_add_mod, Nat.div_add_mod] at hcarries
  have hhi : s1.1.toNat + p23.toNat / 2 ^ 16 + s2.1.toNat + p14.toNat / 2 ^ 16 + s3.1.toNat +
      p24.toNat < 2 ^ 32 := by
    clear h1 h2 h3 h4 h13 h23 h14 h24 hsplit hb1 hb2 hb3 hb4 hbound hprod hh23 hh14 hs1 hs2 hs3
    omega
  rw [Nat.mod_eq_of_lt (a := p23.toNat / 2 ^ 16) (Nat.div_lt_of_lt_mul p23.isLt),
    Nat.mod_eq_of_lt (a := p14.toNat / 2 ^ 16) (Nat.div_lt_of_lt_mul p14.isLt)]
  simp only [Nat.mod_add_mod]
  rw [Nat.mod_eq_of_lt hhi]
  exact hcarries

/-! ## Shifts -/

section Shift

variable {places : Bit32} {n : ℕ}

theorem toNat_shiftLeft_of (x : Bit32) (h : places.toNat = n) (hn : n ≤ 32) :
    (x <<< places).toNat = 2 ^ n * (x.toNat % 2 ^ (32 - n)) := by
  rw [BitVec.shiftLeft_eq', BitVec.toNat_shiftLeft, Nat.shiftLeft_eq, h, Nat.mul_comm]
  have hpow : 2 ^ 32 = 2 ^ n * 2 ^ (32 - n) := by rw [← pow_add, Nat.add_sub_cancel' hn]
  exact (congrArg (2 ^ n * x.toNat % ·) hpow).trans (Nat.mul_mod_mul_left _ _ _)

theorem toNat_ushiftRight_of (x : Bit32) (h : places.toNat = n) :
    (x >>> places).toNat = x.toNat / 2 ^ n := by
  rw [BitVec.ushiftRight_eq', BitVec.toNat_ushiftRight, Nat.shiftRight_eq_div_pow, h]

/-- Two parts of a word that do not meet. -/
theorem toNat_or_of_lt {x y : Bit32} {a : ℕ} (hx : x.toNat = 2 ^ n * a) (hy : y.toNat < 2 ^ n) :
    (x ||| y).toNat = x.toNat + y.toNat := by
  rw [BitVec.toNat_or, hx, Nat.two_pow_add_eq_or_of_lt hy]

theorem dword_eq_mod {x : Bit32 × Bit32} {a b : ℕ} (h : a = 2 ^ 64 * b + dword x) :
    dword x = a % 2 ^ 64 := by
  rw [h, Nat.mul_add_mod, Nat.mod_eq_of_lt (dword_lt x)]

theorem two_pow_split (hn : n ≤ 32) : 2 ^ n * 2 ^ (32 - n) = 2 ^ 32 := by
  rw [← pow_add, Nat.add_sub_cancel' hn]

/-- **`SHIFTLEFT`** multiplies. -/
theorem shiftleft_spec (hi lo places : Bit32) :
    dword (shiftleft hi lo places) = dword (hi, lo) * 2 ^ places.toNat % 2 ^ 64 := by
  have hge : ∀ {b : Bit32}, places ≥ b ↔ b.toNat ≤ places.toNat := fun {b} => BitVec.le_def
  unfold shiftleft
  by_cases h64 : places ≥ 64
  · rw [if_pos h64]
    rw [hge] at h64
    have hdvd : 2 ^ 64 ∣ 2 ^ places.toNat := pow_dvd_pow 2 h64
    rw [Nat.mod_eq_zero_of_dvd (hdvd.mul_left _)]
    rfl
  rw [if_neg h64]
  rw [hge] at h64
  replace h64 : places.toNat < 64 := not_le.mp h64
  by_cases h32 : places ≥ 32
  · rw [if_pos h32]
    rw [hge] at h32
    replace h32 : 32 ≤ places.toNat := h32
    obtain ⟨n, hn⟩ := Nat.exists_eq_add_of_le h32
    have hsub : (places - 32).toNat = n := by
      rw [BitVec.toNat_sub]
      change (2 ^ 32 - 32 + places.toNat) % 2 ^ 32 = n
      omega
    have hpow := two_pow_split (show n ≤ 32 by omega)
    refine dword_eq_mod (b := 2 ^ n * hi.toNat + lo.toNat / 2 ^ (32 - n)) ?_
    rw [dword, dword, toNat_shiftLeft_of lo hsub (by omega), hn, pow_add, toNat_zero]
    have hlo := Nat.div_add_mod lo.toNat (2 ^ (32 - n))
    dsimp only
    calc (2 ^ 32 * hi.toNat + lo.toNat) * (2 ^ 32 * 2 ^ n)
        = 2 ^ 64 * (2 ^ n * hi.toNat) + 2 ^ 32 * (2 ^ n * lo.toNat) := by ring
      _ = 2 ^ 64 * (2 ^ n * hi.toNat) + 2 ^ 32 * (2 ^ n * 2 ^ (32 - n) * (lo.toNat / 2 ^ (32 - n)) +
            2 ^ n * (lo.toNat % 2 ^ (32 - n))) := by rw [mul_assoc (2 ^ n), ← mul_add, hlo]
      _ = _ := by rw [hpow]; ring
  rw [if_neg h32]
  rw [hge] at h32
  replace h32 : places.toNat < 32 := not_le.mp h32
  by_cases hzero : places = 0
  · rw [if_pos hzero, hzero, toNat_zero, pow_zero, mul_one, Nat.mod_eq_of_lt (dword_lt _)]
  rw [if_neg hzero]
  obtain ⟨n, hn⟩ : ∃ n, places.toNat = n := ⟨_, rfl⟩
  have hpos : 0 < n := by
    rw [eq_iff_toNat, toNat_zero] at hzero
    omega
  have hsub : (32 - places).toNat = 32 - n := by
    rw [BitVec.toNat_sub]
    change (2 ^ 32 - places.toNat + 32) % 2 ^ 32 = 32 - n
    omega
  have hpow := two_pow_split (show n ≤ 32 by omega)
  have hright := toNat_ushiftRight_of lo hsub
  have hleft := toNat_shiftLeft_of hi hn (by omega)
  have hlt : (lo >>> (32 - places)).toNat < 2 ^ n := by
    rw [hright]
    exact Nat.div_lt_of_lt_mul ((mul_comm (2 ^ (32 - n)) (2 ^ n)).trans hpow ▸ lo.isLt)
  refine dword_eq_mod (b := hi.toNat / 2 ^ (32 - n)) ?_
  rw [dword, dword, toNat_or_of_lt hleft hlt, hright, hleft, toNat_shiftLeft_of lo hn (by omega),
    hn]
  have hhi := Nat.div_add_mod hi.toNat (2 ^ (32 - n))
  have hlo := Nat.div_add_mod lo.toNat (2 ^ (32 - n))
  dsimp only
  calc (2 ^ 32 * hi.toNat + lo.toNat) * 2 ^ n
      = 2 ^ 32 * (2 ^ n * hi.toNat) + 2 ^ n * lo.toNat := by ring
    _ = 2 ^ 32 * (2 ^ n * 2 ^ (32 - n) * (hi.toNat / 2 ^ (32 - n)) +
          2 ^ n * (hi.toNat % 2 ^ (32 - n))) + (2 ^ n * 2 ^ (32 - n) * (lo.toNat / 2 ^ (32 - n)) +
          2 ^ n * (lo.toNat % 2 ^ (32 - n))) := by
        rw [mul_assoc (2 ^ n), mul_assoc (2 ^ n), ← mul_add, ← mul_add, hhi, hlo]
    _ = _ := by rw [hpow]; ring

/-- **`SHIFTRIGHT`** divides. -/
theorem shiftright_spec (hi lo places : Bit32) :
    dword (shiftright hi lo places) = dword (hi, lo) / 2 ^ places.toNat := by
  have hge : ∀ {b : Bit32}, places ≥ b ↔ b.toNat ≤ places.toNat := fun {b} => BitVec.le_def
  unfold shiftright
  by_cases h64 : places ≥ 64
  · rw [if_pos h64]
    rw [hge] at h64
    have hlt : dword (hi, lo) < 2 ^ places.toNat :=
      (dword_lt _).trans_le (Nat.pow_le_pow_right two_pos h64)
    rw [Nat.div_eq_of_lt hlt]
    rfl
  rw [if_neg h64]
  rw [hge] at h64
  replace h64 : places.toNat < 64 := not_le.mp h64
  by_cases h32 : places ≥ 32
  · rw [if_pos h32]
    rw [hge] at h32
    replace h32 : 32 ≤ places.toNat := h32
    obtain ⟨n, hn⟩ := Nat.exists_eq_add_of_le h32
    have hsub : (places - 32).toNat = n := by
      rw [BitVec.toNat_sub]
      change (2 ^ 32 - 32 + places.toNat) % 2 ^ 32 = n
      omega
    rw [dword, dword, toNat_ushiftRight_of hi hsub, hn, pow_add, toNat_zero,
      ← Nat.div_div_eq_div_mul]
    dsimp only
    rw [Nat.mul_add_div (by positivity), Nat.div_eq_of_lt lo.isLt, mul_zero, zero_add, add_zero]
  rw [if_neg h32]
  rw [hge] at h32
  replace h32 : places.toNat < 32 := not_le.mp h32
  by_cases hzero : places = 0
  · rw [if_pos hzero, hzero, toNat_zero, pow_zero, Nat.div_one]
  rw [if_neg hzero]
  obtain ⟨n, hn⟩ : ∃ n, places.toNat = n := ⟨_, rfl⟩
  have hpos : 0 < n := by
    rw [eq_iff_toNat, toNat_zero] at hzero
    omega
  have hsub : (32 - places).toNat = 32 - n := by
    rw [BitVec.toNat_sub]
    change (2 ^ 32 - places.toNat + 32) % 2 ^ 32 = 32 - n
    omega
  have hpow := two_pow_split (show n ≤ 32 by omega)
  have hright := toNat_ushiftRight_of lo hn
  have hleft := toNat_shiftLeft_of hi hsub (by omega)
  rw [show 32 - (32 - n) = n by omega] at hleft
  have hlt : (lo >>> places).toNat < 2 ^ (32 - n) := by
    rw [hright]
    exact Nat.div_lt_of_lt_mul (hpow.symm ▸ lo.isLt)
  rw [dword, dword, BitVec.or_comm, toNat_or_of_lt hleft hlt, hright, hleft,
    toNat_ushiftRight_of hi hn, hn]
  have hhi := Nat.div_add_mod hi.toNat (2 ^ n)
  have hsum : 2 ^ 32 * hi.toNat + lo.toNat =
      2 ^ n * (2 ^ 32 * (hi.toNat / 2 ^ n) + 2 ^ (32 - n) * (hi.toNat % 2 ^ n)) + lo.toNat := by
    calc 2 ^ 32 * hi.toNat + lo.toNat
        = 2 ^ 32 * (2 ^ n * (hi.toNat / 2 ^ n)) +
            2 ^ n * 2 ^ (32 - n) * (hi.toNat % 2 ^ n) + lo.toNat := by rw [hpow, ← mul_add, hhi]
      _ = _ := by ring
  dsimp only
  rw [hsum, Nat.mul_add_div (by positivity)]
  ring

end Shift

theorem dword_shiftleft_one (x : Bit32 × Bit32) :
    dword (shiftleft x.1 x.2 1) = 2 * dword x % 2 ^ 64 := by
  rw [shiftleft_spec, toNat_one, pow_one, mul_comm]

/-! ## Division of two words by one -/

theorem and_signBit32 (x : Bit32) : x &&& signBit32 = 0 ↔ x.toNat < 2 ^ 31 := by
  have hlt := x.isLt
  have hand : (x &&& signBit32).toNat = 2 ^ 31 * (x.toNat / 2 ^ 31 % 2) := by
    rw [BitVec.toNat_and, show signBit32.toNat = 2 ^ 31 from rfl, Nat.and_two_pow,
      Nat.testBit_eq_decide_div_mod_eq]
    rcases Nat.mod_two_eq_zero_or_one (x.toNat / 2 ^ 31) with h | h <;> rw [h] <;> rfl
  rw [eq_iff_toNat, hand, toNat_zero]
  omega

theorem normaliseLoop_spec (rounds : ℕ) (places : Bit32) (x : Bit32 × Bit32)
    (hplaces : places.toNat + rounds ≤ 63) (hx : 2 ^ (63 - rounds) ≤ dword x) :
    ∃ k ≤ rounds, (normaliseLoop rounds places x.1 x.2).1.toNat = places.toNat + k ∧
      dword (normaliseLoop rounds places x.1 x.2).2 = dword x * 2 ^ k ∧
      2 ^ 63 ≤ dword (normaliseLoop rounds places x.1 x.2).2 := by
  induction rounds generalizing places x with
  | zero => exact ⟨0, le_rfl, rfl, (Nat.mul_one _).symm, hx⟩
  | succ rounds ih =>
    rw [normaliseLoop]
    by_cases hsign : x.1 &&& signBit32 = 0
    · rw [if_pos hsign]
      rw [and_signBit32] at hsign
      have hlo := x.2.isLt
      have hshift := dword_shiftleft_one x
      have hlt : dword x < 2 ^ 63 := by
        unfold dword
        omega
      rw [Nat.mod_eq_of_lt (by omega)] at hshift
      have hone : (places + 1).toNat = places.toNat + 1 := by
        rw [BitVec.toNat_add, toNat_one]
        omega
      obtain ⟨k, hk, hp, hd, hge⟩ := ih (places + 1) (shiftleft x.1 x.2 1) (by omega) (by
          rw [hshift, show 63 - rounds = 63 - (rounds + 1) + 1 by omega, pow_succ']
          exact Nat.mul_le_mul_left 2 hx)
      refine ⟨k + 1, by omega, hp.trans (by omega), hd.trans ?_, hge⟩
      rw [hshift, pow_succ']
      ring
    · rw [if_neg hsign]
      rw [and_signBit32, not_lt] at hsign
      refine ⟨0, Nat.zero_le _, rfl, (Nat.mul_one _).symm, ?_⟩
      unfold dword
      dsimp only
      omega

/-- **`NORMALISE`** shifts until the highest bit is set. -/
theorem normalise_spec {hi lo : Bit32} (h : dword (hi, lo) ≠ 0) :
    (normalise hi lo).1.toNat ≤ 63 ∧
      dword (normalise hi lo).2 = dword (hi, lo) * 2 ^ (normalise hi lo).1.toNat ∧
      2 ^ 63 ≤ dword (normalise hi lo).2 := by
  have hne : ¬ (hi = 0 ∧ lo = 0) := by
    rintro ⟨rfl, rfl⟩
    exact h rfl
  obtain ⟨k, hk, hp, hd, hge⟩ := normaliseLoop_spec 63 0 (hi, lo) le_rfl
    (Nat.one_le_iff_ne_zero.mpr h)
  rw [toNat_zero, zero_add] at hp
  rw [normalise, if_neg hne, hp]
  exact ⟨hk, hd, hge⟩

/-- The division after some of its steps: of the `p * s = 2 ^ 64` values of the quotient's words,
the high part of the dividend, `a`, has been divided by `d`, with quotient `q` and remainder `r`,
and `b` is left of it. -/
structure Dividing (d p s n : ℕ) (x : (Bit32 × Bit32) × Bit32 × Bit32) (q : ℕ) : Prop where
  words : p * s = 2 ^ 64
  quot : dword x.2 = p * (n % s) + q
  quot_lt : q < p
  rem : d * q + dword x.1 = n / s
  rem_lt : dword x.1 < d

/-- The next bit of the dividend. -/
theorem exists_bit (n s : ℕ) : ∃ bit ≤ 1,
    n % (2 * s) = bit * s + n % s ∧ n / s = 2 * (n / (2 * s)) + bit := by
  refine ⟨n / s % 2, by omega, ?_, ?_⟩
  · rw [mul_comm 2 s, Nat.mod_mul, add_comm, mul_comm s]
  · rw [mul_comm 2 s, ← Nat.div_div_eq_div_mul, Nat.div_add_mod]

/-- A word that is even takes one more. -/
theorem dword_succ {hi lo : Bit32} {a : ℕ} (h : dword (hi, lo) = 2 * a) :
    dword (hi, lo + 1) = 2 * a + 1 := by
  have hlt := lo.isLt
  unfold dword at *
  dsimp only at *
  rw [BitVec.toNat_add, toNat_one]
  omega

theorem dividing_step {d p s n : ℕ} {x : (Bit32 × Bit32) × Bit32 × Bit32} {q : ℕ} {divis : Bit32}
    (hd : divis.toNat = d) (h : Dividing d p (2 * s) n x q) :
    ∃ q', Dividing d (2 * p) s n (longdivStep divis x) q' := by
  obtain ⟨hwords, hquot, hlt, hrem, hrem_lt⟩ := h
  have hs : 0 < s := Nat.pos_of_ne_zero fun hzero => by
    rw [hzero] at hwords
    omega
  obtain ⟨bit, hbit, hmod, hdiv⟩ := exists_bit n s
  have hps : p * s = 2 ^ 63 := by
    have : 2 * (p * s) = 2 ^ 64 := by rw [← hwords]; ring
    omega
  -- what is left of the dividend is below the quotient's highest bit
  have hleft : p * (n % s) + q < 2 ^ 63 := by
    calc p * (n % s) + q < p * (n % s) + p := Nat.add_lt_add_left hlt _
      _ = p * (n % s + 1) := by ring
      _ ≤ p * s := Nat.mul_le_mul_left p (Nat.mod_lt n hs)
      _ = 2 ^ 63 := hps
  have hquot' : dword x.2 = 2 ^ 63 * bit + (p * (n % s) + q) := by
    rw [hquot, hmod, ← hps]
    ring
  have hsign : x.2.1 &&& signBit32 ≠ 0 ↔ bit = 1 := by
    rw [Ne, and_signBit32]
    have hlo := x.2.2.isLt
    unfold dword at hquot'
    omega
  have hshift : dword (shiftleft x.2.1 x.2.2 1) = 2 * (p * (n % s) + q) := by
    rw [dword_shiftleft_one, hquot']
    omega
  have hdivis := divis.isLt
  have hrem' : dword (shiftleft x.1.1 x.1.2 1) = 2 * dword x.1 := by
    rw [dword_shiftleft_one]
    omega
  unfold longdivStep
  dsimp only
  generalize shiftleft x.2.1 x.2.2 1 = quot at *
  generalize shiftleft x.1.1 x.1.2 1 = rem at *
  obtain ⟨remLo, hremLo⟩ : ∃ remLo, remLo = if x.2.1 &&& signBit32 ≠ 0 then rem.2 + 1 else rem.2 :=
    ⟨_, rfl⟩
  rw [← hremLo]
  have hR : dword (rem.1, remLo) = 2 * dword x.1 + bit := by
    rw [hremLo]
    by_cases hb : x.2.1 &&& signBit32 ≠ 0
    · rw [if_pos hb, hsign.mp hb]
      exact dword_succ hrem'
    · rw [if_neg hb, show bit = 0 from Nat.lt_one_iff.mp (lt_of_le_of_ne hbit (mt hsign.mpr hb))]
      exact hrem'
  have hcmp : rem.1 > 0 ∨ (rem.1 = 0 ∧ remLo ≥ divis) ↔ d ≤ 2 * dword x.1 + bit := by
    rw [← hR, gt_iff_lt, BitVec.lt_def, eq_iff_toNat, ge_iff_le, BitVec.le_def, toNat_zero, hd,
      dword]
    have := remLo.isLt
    dsimp only
    omega
  by_cases hge : rem.1 > 0 ∨ (rem.1 = 0 ∧ remLo ≥ divis)
  · rw [if_pos hge]
    rw [hcmp] at hge
    obtain ⟨hlo, hlo'⟩ := longdiff_spec remLo divis 0
    generalize longdiff remLo divis 0 = diffLo at *
    obtain ⟨hhi, hhi'⟩ := longdiff_spec rem.1 0 diffLo.1
    generalize longdiff rem.1 0 diffLo.1 = diffHi at *
    rw [toNat_zero] at hlo hhi
    have hdiff : dword (diffHi.2, diffLo.2) + d = 2 * dword x.1 + bit := by
      rw [← hR] at hge ⊢
      rw [hd] at hlo
      have := diffHi.2.isLt
      have := diffLo.2.isLt
      unfold dword at hge ⊢
      dsimp only at hge ⊢
      omega
    have hrem_lt' : dword (diffHi.2, diffLo.2) < d := by omega
    refine ⟨2 * q + 1, by rw [← hwords]; ring, ?_, by omega, ?_, hrem_lt'⟩
    · rw [dword_succ hshift]
      ring
    · rw [hdiv, ← hrem]
      calc d * (2 * q + 1) + dword (diffHi.2, diffLo.2)
          = 2 * (d * q) + (dword (diffHi.2, diffLo.2) + d) := by ring
        _ = 2 * (d * q + dword x.1) + bit := by rw [hdiff]; ring
  · rw [if_neg hge]
    rw [hcmp, not_le] at hge
    refine ⟨2 * q, by rw [← hwords]; ring, ?_, by omega, ?_, hR.trans_lt hge⟩
    · rw [show dword quot = _ from hshift]
      ring
    · rw [hdiv, ← hrem, hR]
      ring

theorem dividing_iterate {d n : ℕ} {divis : Bit32} (hd : divis.toNat = d) : ∀ (m : ℕ) {p s q : ℕ}
    {x : (Bit32 × Bit32) × Bit32 × Bit32}, Dividing d p (2 ^ m * s) n x q →
      ∃ q', Dividing d (2 ^ m * p) s n ((longdivStep divis)^[m] x) q' := by
  intro m
  induction m with
  | zero =>
    intro p s q x h
    rw [pow_zero, one_mul] at *
    exact ⟨q, h⟩
  | succ m ih =>
    intro p s q x h
    rw [pow_succ', mul_assoc] at h
    obtain ⟨q', h'⟩ := dividing_step hd h
    obtain ⟨q'', h''⟩ := ih h'
    rw [Function.iterate_succ_apply]
    exact ⟨q'', by rwa [pow_succ, mul_assoc]⟩

/-- **`LONGDIV`** divides, if the quotient fits in a word. -/
theorem longdiv_spec {dividHi dividLo divis : Bit32} (h : dividHi.toNat < divis.toNat) :
    (longdiv dividHi dividLo divis).1.toNat = dword (dividHi, dividLo) / divis.toNat ∧
      (longdiv dividHi dividLo divis).2.toNat = dword (dividHi, dividLo) % divis.toNat := by
  have hne : divis ≠ 0 := by
    rintro rfl
    exact absurd h (Nat.not_lt_zero _)
  unfold longdiv
  rw [if_neg hne]
  by_cases hzero : dividHi = 0 ∧ dividLo = 0
  · rw [if_pos hzero, hzero.1, hzero.2]
    exact ⟨(Nat.zero_div _).symm, (Nat.zero_mod _).symm⟩
  rw [if_neg hzero]
  have hdword : dword (dividHi, dividLo) ≠ 0 := fun hd => hzero <| by
    unfold dword at hd
    dsimp only at hd
    rw [eq_iff_toNat, eq_iff_toNat, toNat_zero]
    omega
  obtain ⟨hplaces, hquot, -⟩ := normalise_spec hdword
  generalize normalise dividHi dividLo = norm at *
  dsimp only
  have hlt := dword_lt norm.2
  have hstart : Dividing divis.toNat 1 (2 ^ (64 - norm.1.toNat) * 2 ^ norm.1.toNat) (dword norm.2)
      ((0, 0), norm.2.1, norm.2.2) 0 := by
    rw [← pow_add, Nat.sub_add_cancel (by omega)]
    refine ⟨one_mul _, ?_, one_pos, ?_, lt_of_le_of_lt (Nat.zero_le _) h⟩
    · rw [one_mul, Nat.mod_eq_of_lt hlt, add_zero]
    · rw [Nat.div_eq_of_lt hlt]
      rfl
  obtain ⟨q, hwords, hq, hqlt, hrem, hremlt⟩ := dividing_iterate rfl _ hstart
  generalize (longdivStep divis)^[64 - norm.1.toNat] ((0, 0), norm.2.1, norm.2.2) = x at *
  rw [hquot, Nat.mul_mod_left, mul_zero, zero_add] at hq
  rw [hquot, Nat.mul_div_cancel _ (by positivity)] at hrem
  have hdivmod := (Nat.div_mod_unique (Nat.zero_lt_of_lt h)).mpr ⟨(add_comm _ _).trans hrem, hremlt⟩
  rw [hdivmod.1, hdivmod.2]
  have hqle : q < 2 ^ 32 := by
    rw [← hdivmod.1]
    refine Nat.div_lt_of_lt_mul ?_
    have hlo := dividLo.isLt
    calc dword (dividHi, dividLo) < 2 ^ 32 * (dividHi.toNat + 1) := by
          unfold dword
          dsimp only
          omega
      _ ≤ 2 ^ 32 * divis.toNat := Nat.mul_le_mul_left _ h
      _ = divis.toNat * 2 ^ 32 := mul_comm _ _
  have hdivis := divis.isLt
  unfold dword at hq hremlt ⊢
  omega

end Extlib

end Kroc
