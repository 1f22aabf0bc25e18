import Kroc.Extlib.Int64Exact

/-!
# Extlib/UInt64 — unsigned arithmetic of two words

`extui64.c` works on a union of a quadword and its two words.  Its check of a difference compares
the operands the wrong way round, its check of a product counts the bits of one operand only, and
its shifts leave the count to the language, which defines them for the counts below 64.
-/

namespace Kroc

namespace Extlib

/-! ## The operations -/

/-- `val` of the union, by its words. -/
def quad (a : Words) : BitVec 64 := a.1 ++ a.2

/-- The words of the union, by `val`. -/
def parts (q : BitVec 64) : Words := (q.extractLsb' 32 32, q.extractLsb' 0 32)

/-- `UInt64Add` -/
def uint64Add (a b : Words) : Option Words :=
  let res := quad a + quad b
  if res < quad a ∨ res < quad b then none else some (parts res)

/-- `UInt64Plus` -/
def uint64Plus (a b : Words) : Words := parts (quad a + quad b)

/-- `UInt64Sub`, whose check asks for the wrong operand to be the larger. -/
def uint64Sub (a b : Words) : Option Words :=
  if quad a > quad b then none else some (parts (quad a - quad b))

/-- `UInt64Minus` -/
def uint64Minus (a b : Words) : Words := parts (quad a - quad b)

/-- `for (i=0; r; r >>= 1, i++);` -/
def countBits (r : Bit32) (i : ℕ) : ℕ :=
  if r = 0 then i else countBits (r >>> 1) (i + 1)
termination_by r.toNat
decreasing_by
  rename_i h
  rw [eq_iff_toNat, toNat_zero] at h
  rw [BitVec.toNat_ushiftRight, Nat.shiftRight_one]
  omega

/-- `UInt64Mul` -/
def uint64Mul (a b : Words) : Option Words :=
  let res := quad a * quad b
  if a.1 = 0 ∧ b.1 = 0 then some (parts res)
  else
    -- the loop over `BHi` does not go on from the count of `AHi`, but starts again at zero
    let i := countBits b.1 0
    if i ≥ 32 then none else some (parts res)

/-- `UInt64Times` -/
def uint64Times (a b : Words) : Words := parts (quad a * quad b)

/-- `UInt64Div` -/
def uint64Div (a b : Words) : Option Words :=
  if b.1 = 0 ∧ b.2 = 0 then none else some (parts (quad a / quad b))

/-- `UInt64Rem` -/
def uint64Rem (a b : Words) : Option Words :=
  if b.1 = 0 ∧ b.2 = 0 then none else some (parts (quad a % quad b))

/-- The count `(int)B` of a shift of 64 bits, where the language defines the shift. -/
def shiftCount (b : Bit32) : Option ℕ :=
  if 0 ≤ b.toInt ∧ b.toInt < 64 then some b.toInt.toNat else none

/-- `UInt64LShift`, where it is defined. -/
def uint64LShift (a : Words) (b : Bit32) : Option Words :=
  (shiftCount b).map fun count => parts (quad a <<< count)

/-- `UInt64RShift`, where it is defined. -/
def uint64RShift (a : Words) (b : Bit32) : Option Words :=
  (shiftCount b).map fun count => parts (quad a >>> count)

/-! ## The union -/

@[simp] theorem toNat_quad (a : Words) : (quad a).toNat = dword a := by
  rw [quad, BitVec.toNat_append, ← Nat.shiftLeft_add_eq_or_of_lt a.2.isLt, Nat.shiftLeft_eq, dword,
    mul_comm]

@[simp] theorem dword_parts (q : BitVec 64) : dword (parts q) = q.toNat := by
  have := q.isLt
  rw [dword, parts, BitVec.extractLsb'_toNat, BitVec.extractLsb'_toNat, Nat.shiftRight_eq_div_pow,
    Nat.shiftRight_zero]
  omega

theorem dword_inj {a b : Words} : dword a = dword b ↔ a = b := by
  refine ⟨fun h => ?_, fun h => h ▸ rfl⟩
  have := a.2.isLt
  have := b.2.isLt
  unfold dword at h
  exact Prod.ext (eq_iff_toNat.mpr (by omega)) (eq_iff_toNat.mpr (by omega))

theorem countBits_ge (r : Bit32) (i : ℕ) : i ≤ countBits r i := by
  induction r, i using countBits.induct with
  | case1 i => rw [countBits, if_pos rfl]
  | case2 r i hr ih =>
    rw [countBits, if_neg hr]
    omega

theorem lt_countBits_iff (n : ℕ) : ∀ (r : Bit32) (i : ℕ), i + n < countBits r i ↔
    2 ^ n ≤ r.toNat := by
  induction n with
  | zero =>
    intro r i
    by_cases hr : r = 0
    · rw [countBits, if_pos hr, hr, toNat_zero]
      omega
    · have := countBits_ge (r >>> 1) (i + 1)
      rw [countBits, if_neg hr]
      rw [eq_iff_toNat, toNat_zero] at hr
      omega
  | succ n ih =>
    intro r i
    by_cases hr : r = 0
    · rw [countBits, if_pos hr, hr, toNat_zero]
      have : 0 < 2 ^ (n + 1) := by positivity
      omega
    · rw [countBits, if_neg hr, ← add_assoc, add_right_comm, ih, BitVec.toNat_ushiftRight,
        Nat.shiftRight_one, pow_succ]
      omega

/-! ## What is exact -/

/-- The numbers of `n` bits. -/
def UnsignedFits (n : ℕ) (x : ℤ) : Prop := 0 ≤ x ∧ x < 2 ^ n

/-- The number of two words without a sign. -/
def unsigned (a : Words) : ℤ := dword a

theorem unsigned_parts (q : BitVec 64) : unsigned (parts q) = q.toNat := by
  rw [unsigned, dword_parts]

theorem unsigned_fits (a : Words) : UnsignedFits 64 (unsigned a) := by
  have := dword_lt a
  unfold UnsignedFits unsigned
  omega

/-- **`UInt64Add`** is exact or flagged. -/
theorem uint64Add_exact (a b : Words) :
    ExactOrFlagged unsigned (UnsignedFits 64) (some (unsigned a + unsigned b)) (uint64Add a b) := by
  have := dword_lt a
  have := dword_lt b
  have hsum : (quad a + quad b).toNat = (dword a + dword b) % 2 ^ 64 := by
    rw [BitVec.toNat_add, toNat_quad, toNat_quad]
  refine ExactOrFlagged.of_ite ?_ fun hx => ?_
  · rw [BitVec.lt_def, BitVec.lt_def, hsum, toNat_quad, toNat_quad]
    unfold UnsignedFits unsigned
    omega
  · rw [unsigned_parts, hsum]
    unfold UnsignedFits unsigned at *
    omega

/-- **`UInt64Sub`** is exact or flagged for equal operands only. -/
theorem uint64Sub_exact_iff (a b : Words) :
    ExactOrFlagged unsigned (UnsignedFits 64) (some (unsigned a - unsigned b)) (uint64Sub a b) ↔
      a = b := by
  have := dword_lt a
  have := dword_lt b
  have hdiff : (quad a - quad b).toNat = (2 ^ 64 - dword b + dword a) % 2 ^ 64 := by
    rw [BitVec.toNat_sub, toNat_quad, toNat_quad]
  have hgt : quad a > quad b ↔ dword b < dword a := by
    rw [gt_iff_lt, BitVec.lt_def, toNat_quad, toNat_quad]
  unfold uint64Sub
  rw [← dword_inj]
  by_cases h : dword b < dword a
  · rw [if_pos (hgt.mpr h), ExactOrFlagged.none_iff]
    unfold UnsignedFits unsigned
    omega
  · rw [if_neg (mt hgt.mp h), ExactOrFlagged.some_iff, unsigned_parts, hdiff]
    unfold UnsignedFits unsigned
    omega

theorem uint64Mul_eq (a b : Words) : uint64Mul a b =
    if 2 ^ 31 ≤ b.1.toNat then none else some (uint64Times a b) := by
  have hbits : countBits b.1 0 ≥ 32 ↔ 2 ^ 31 ≤ b.1.toNat := by
    rw [← lt_countBits_iff 31 b.1 0]
    omega
  unfold uint64Mul
  dsimp only
  by_cases hzero : a.1 = 0 ∧ b.1 = 0
  · rw [if_pos hzero, hzero.2, toNat_zero]
    rfl
  · rw [if_neg hzero]
    exact if_congr hbits rfl rfl

/-- The product of a large operand and another is no word, unless the other is at most one. -/
theorem two_le_iff_of_large {x y : ℕ} (hlo : 2 ^ 63 ≤ y) (hhi : y < 2 ^ 64) :
    2 ≤ x ↔ 2 ^ 64 ≤ x * y := by
  constructor
  · intro hx
    calc 2 ^ 64 = 2 * 2 ^ 63 := by norm_num
      _ ≤ x * y := Nat.mul_le_mul hx hlo
  · intro hmul
    by_contra hx
    have : x * y ≤ 1 * y := Nat.mul_le_mul_right y (by omega)
    omega

/-- **`UInt64Mul`** is exact or flagged where the sign bit of its right operand, which is all it
looks at, is right about the product. -/
theorem uint64Mul_exact_iff (a b : Words) :
    ExactOrFlagged unsigned (UnsignedFits 64) (some (unsigned a * unsigned b)) (uint64Mul a b) ↔
      if b.1.toNat < 2 ^ 31 then dword a * dword b < 2 ^ 64 else 2 ≤ dword a := by
  have hcast : unsigned a * unsigned b = (dword a * dword b : ℕ) := (Nat.cast_mul _ _).symm
  have hfits : UnsignedFits 64 (unsigned a * unsigned b) ↔ dword a * dword b < 2 ^ 64 := by
    rw [hcast, UnsignedFits]
    omega
  rw [uint64Mul_eq]
  by_cases hsign : b.1.toNat < 2 ^ 31
  · rw [if_pos hsign, if_neg (not_le.mpr hsign), ExactOrFlagged.some_iff, hfits,
      and_iff_left_iff_imp]
    intro hlt
    rw [uint64Times, unsigned_parts, BitVec.toNat_mul, toNat_quad, toNat_quad,
      Nat.mod_eq_of_lt hlt, hcast]
  · have hlarge : 2 ^ 63 ≤ dword b := not_lt.mp (mt (hi_lt_iff b).mpr hsign)
    rw [if_neg hsign, if_pos (not_lt.mp hsign), ExactOrFlagged.none_iff, hfits, not_lt,
      two_le_iff_of_large hlarge (dword_lt b)]

theorem uint64_zero_iff (b : Words) : b.1 = 0 ∧ b.2 = 0 ↔ unsigned b = 0 := by
  have hzero : dword ((0, 0) : Words) = 0 := rfl
  rw [unsigned, Nat.cast_eq_zero, ← hzero, dword_inj, Prod.ext_iff]

/-- **`UInt64Div`** is exact, and flagged where the divisor is zero. -/
theorem uint64Div_exact (a b : Words) : ExactOrFlagged unsigned (UnsignedFits 64)
    (if unsigned b = 0 then none else some (unsigned a / unsigned b)) (uint64Div a b) := by
  unfold uint64Div
  simp only [uint64_zero_iff]
  by_cases hb : unsigned b = 0
  · rw [if_pos hb, if_pos hb]
    exact ExactOrFlagged.of_undefined
  · rw [if_neg hb, if_neg hb]
    have hval : unsigned (parts (quad a / quad b)) = unsigned a / unsigned b := by
      rw [unsigned_parts, BitVec.toNat_udiv, toNat_quad, toNat_quad, Int.natCast_div]
      rfl
    exact ExactOrFlagged.of_some (hval ▸ unsigned_fits _) hval

/-- **`UInt64Rem`** is exact, and flagged where the divisor is zero. -/
theorem uint64Rem_exact (a b : Words) : ExactOrFlagged unsigned (UnsignedFits 64)
    (if unsigned b = 0 then none else some (unsigned a % unsigned b)) (uint64Rem a b) := by
  unfold uint64Rem
  simp only [uint64_zero_iff]
  by_cases hb : unsigned b = 0
  · rw [if_pos hb, if_pos hb]
    exact ExactOrFlagged.of_undefined
  · rw [if_neg hb, if_neg hb]
    have hval : unsigned (parts (quad a % quad b)) = unsigned a % unsigned b := by
      rw [unsigned_parts, BitVec.toNat_umod, toNat_quad, toNat_quad, Int.natCast_mod]
      rfl
    exact ExactOrFlagged.of_some (hval ▸ unsigned_fits _) hval

/-! ## Shifts -/

theorem shiftCount_eq (b : Bit32) : shiftCount b = if b.toNat < 64 then some b.toNat else none := by
  have hcond := BitVec.toInt_eq_toNat_cond b
  have := b.isLt
  unfold shiftCount
  by_cases h : b.toNat < 64
  · have hint : b.toInt = b.toNat := by omega
    rw [if_pos h, if_pos ⟨by omega, by omega⟩, hint, Int.toNat_natCast]
  · rw [if_neg h, if_neg (by omega)]

/-- **`UInt64LShift`** shifts as `Int64LShift` does for the counts below 64 only. -/
theorem uint64LShift_eq_iff (a : Words) (b : Bit32) :
    uint64LShift a b = some (int64LShift a b) ↔ b.toNat < 64 := by
  unfold uint64LShift
  rw [shiftCount_eq]
  by_cases h : b.toNat < 64
  · rw [if_pos h, Option.map_some]
    refine iff_of_true (congrArg some (dword_inj.mp ?_)) h
    rw [dword_parts, int64LShift, shiftleft_spec, BitVec.toNat_shiftLeft, toNat_quad,
      Nat.shiftLeft_eq]
  · rw [if_neg h, Option.map_none]
    exact iff_of_false (Option.some_ne_none _).symm h

/-- **`UInt64RShift`** shifts as `Int64RShift` does for the counts below 64 only. -/
theorem uint64RShift_eq_iff (a : Words) (b : Bit32) :
    uint64RShift a b = some (int64RShift a b) ↔ b.toNat < 64 := by
  unfold uint64RShift
  rw [shiftCount_eq]
  by_cases h : b.toNat < 64
  · rw [if_pos h, Option.map_some]
    refine iff_of_true (congrArg some (dword_inj.mp ?_)) h
    rw [dword_parts, int64RShift, shiftright_spec, BitVec.toNat_ushiftRight, toNat_quad,
      Nat.shiftRight_eq_div_pow]
  · rw [if_neg h, Option.map_none]
    exact iff_of_false (Option.some_ne_none _).symm h

/-- **The unsigned arithmetic of two words**: sums, quotients and remainders are exact or flagged,
and the others are for these operands and counts. -/
theorem uint64_exact_iff (a b : Words) (count : Bit32) :
    ExactOrFlagged unsigned (UnsignedFits 64) (some (unsigned a + unsigned b)) (uint64Add a b) ∧
    (ExactOrFlagged unsigned (UnsignedFits 64) (some (unsigned a - unsigned b)) (uint64Sub a b) ↔
      a = b) ∧
    (ExactOrFlagged unsigned (UnsignedFits 64) (some (unsigned a * unsigned b)) (uint64Mul a b) ↔
      if b.1.toNat < 2 ^ 31 then dword a * dword b < 2 ^ 64 else 2 ≤ dword a) ∧
    ExactOrFlagged unsigned (UnsignedFits 64)
      (if unsigned b = 0 then none else some (unsigned a / unsigned b)) (uint64Div a b) ∧
    ExactOrFlagged unsigned (UnsignedFits 64)
      (if unsigned b = 0 then none else some (unsigned a % unsigned b)) (uint64Rem a b) ∧
    (uint64LShift a count = some (int64LShift a count) ↔ count.toNat < 64) ∧
    (uint64RShift a count = some (int64RShift a count) ↔ count.toNat < 64) :=
  ⟨uint64Add_exact a b, uint64Sub_exact_iff a b, uint64Mul_exact_iff a b, uint64Div_exact a b,
    uint64Rem_exact a b, uint64LShift_eq_iff a count, uint64RShift_eq_iff a count⟩

/-- `1 - 0` is flagged. -/
theorem uint64Sub_one_zero : ¬ ExactOrFlagged unsigned (UnsignedFits 64)
    (some (unsigned (0, 1) - unsigned (0, 0))) (uint64Sub (0, 1) (0, 0)) := fun h => by
  have := (uint64Sub_exact_iff (0, 1) (0, 0)).mp h
  revert this
  decide

end Extlib

end Kroc
