import Kroc.Extlib.Int32

/-!
# Extlib/Conv — conversions and comparisons of words

`I32ToI64` of `extconv.c` and `Int64Gt` of `exti64.c`.
-/

namespace Kroc

namespace Extlib

/-- `I32ToI64` -/
def i32ToI64 (a : Bit32) : Words := if a &&& signBit32 ≠ 0 then (-1, a) else (0, a)

/-- `Int64Gt` -/
def int64Gt (a b : Words) : Bool := if a.1 = b.1 then a.2 > b.2 else a.1.toInt > b.1.toInt

/-- The high word with its sign, and the low one. -/
theorem signed_eq (a : Words) : signed a = 2 ^ 32 * a.1.toInt + a.2.toNat := by
  have hlo := a.2.isLt
  have hword : dword a = 2 ^ 32 * a.1.toNat + a.2.toNat := rfl
  obtain ⟨h, heq⟩ | ⟨h, heq⟩ := signed_cases a <;> obtain ⟨h', heq'⟩ | ⟨h', heq'⟩ :=
    toInt_cases a.1 <;> omega

/-- **`I32ToI64`** extends the sign. -/
theorem signed_i32ToI64 (a : Bit32) : signed (i32ToI64 a) = a.toInt := by
  unfold i32ToI64
  split_ifs with h
  · rw [signed_eq]
    obtain ⟨h', -⟩ | ⟨-, heq⟩ := toInt_cases a
    · exact absurd ((and_signBit32 a).mpr h') h
    · rw [heq, show ((-1 : Bit32)).toInt = -1 from rfl]
      ring
  · rw [signed_eq]
    obtain ⟨-, heq⟩ | ⟨h', -⟩ := toInt_cases a
    · rw [heq, show ((0 : Bit32)).toInt = 0 from rfl]
      ring
    · have := (and_signBit32 a).mp (not_ne_iff.mp h)
      omega

/-- **`Int64Gt`** compares the numbers. -/
theorem int64Gt_iff (a b : Words) : int64Gt a b = true ↔ signed b < signed a := by
  have ha := a.2.isLt
  have hb := b.2.isLt
  rw [signed_eq, signed_eq, int64Gt]
  split_ifs with h
  · rw [h, decide_eq_true_eq, gt_iff_lt, BitVec.lt_def]
    omega
  · have hne : a.1.toInt ≠ b.1.toInt := fun heq => h (BitVec.eq_of_toInt_eq heq)
    rw [decide_eq_true_eq]
    omega

end Extlib

end Kroc
