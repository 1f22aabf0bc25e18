import Kroc.Extlib.IntToReal
import Kroc.Extlib.Real64ToInt64
import Kroc.Extlib.Real64ToReal32

/-!
# Extlib/Conversions — the conversions together

Eight routines convert between integers and reals.  Four are right everywhere; of the others it is
said exactly where.
-/

namespace Kroc

namespace Extlib

/-- A call of a conversion. -/
inductive Conversion
  | i32ToR32 (mode : Mode) (n : Bit32)
  | i64ToR32 (mode : Mode) (n : Words)
  | i64ToR64 (mode : Mode) (n : Words)
  | r32ToI32 (mode : Mode) (x : Bit32)
  | r32ToI64 (mode : Mode) (x : Bit32)
  | r64ToI32 (mode : Mode) (x : Words)
  | r64ToI64 (mode : Mode) (x : Words)
  | r64ToR32 (mode : Mode) (x : Words)

namespace Conversion

/-- **The call does what it should**: an integer is rounded to a real, a real to an integer that is
flagged where it does not fit or there is no number, and a long real to a short one that is flagged
where it is infinite or there is no number. -/
def Right : Conversion → Prop
  | i32ToR32 mode n =>
    RoundsToReal32 mode (decide (n.toInt < 0)) (n.toInt.natAbs : ℕ) (Extlib.i32ToR32 mode n)
  | i64ToR32 mode n =>
    RoundsToReal32 mode (decide (signed n < 0)) ((signed n).natAbs : ℕ) (Extlib.i64ToR32 mode n)
  | i64ToR64 mode n =>
    RoundsToReal64 mode (decide (signed n < 0)) ((signed n).natAbs : ℕ) (Extlib.i64ToR64 mode n)
  | r32ToI32 mode x => ExactOrFlagged BitVec.toInt (SignedFits 32) ((real32 x).map mode.int)
      (Extlib.r32ToI32 mode x)
  | r32ToI64 mode x => ExactOrFlagged signed (SignedFits 64) ((real32 x).map mode.int)
      (Extlib.r32ToI64 mode x)
  | r64ToI32 mode x => ExactOrFlagged BitVec.toInt (SignedFits 32) ((real64 x).map mode.int)
      (Extlib.r64ToI32 mode x)
  | r64ToI64 mode x => ExactOrFlagged signed (SignedFits 64) ((real64 x).map mode.int)
      (Extlib.r64ToI64 mode x)
  | r64ToR32 mode x => R64ToR32Right mode x

/-- **What the call is asked for is none of what goes wrong.** -/
def Avoids : Conversion → Prop
  | i32ToR32 _ _ | i64ToR32 _ _ | r32ToI32 _ _ | r32ToI64 _ _ => True
  | i64ToR64 mode n => mode = .truncate ∨ RoundsRight (signed n)
  | r64ToI32 mode x => mode = .truncate ∨ ∀ q ∈ real64 x, ¬ MissesLeast q
  | r64ToI64 _ x => ∀ q ∈ real64 x, ¬ MissesLong q
  | r64ToR32 _ x => LeavesNoMark x

/-- **A conversion is right exactly where nothing goes wrong.** -/
theorem right_iff (c : Conversion) : c.Right ↔ c.Avoids := by
  cases c with
  | i32ToR32 mode n => exact iff_of_true (i32ToR32_rounds mode n) trivial
  | i64ToR32 mode n => exact iff_of_true (i64ToR32_rounds mode n) trivial
  | i64ToR64 mode n => exact i64ToR64_rounds_iff mode n
  | r32ToI32 mode x => exact iff_of_true (r32ToI32_exact mode x) trivial
  | r32ToI64 mode x => exact iff_of_true (r32ToI64_exact mode x) trivial
  | r64ToI32 mode x => exact r64ToI32_exact_iff mode x
  | r64ToI64 mode x => exact r64ToI64_exact_iff mode x
  | r64ToR32 mode x => exact r64ToR32_right_iff mode x

/-- `2 ^ 31` as a REAL64. -/
theorem real64_two_pow : real64 (0x41E00000, 0) = some (2 ^ 31) := by
  have hpow := real64_pow (E := 1054) (t := 31) (by norm_num) (by norm_num)
  rw [real64_eq_some (by decide),
    show dword ((0x41E00000 : Bit32), (0 : Bit32)) % 2 ^ 63 = 1054 * 2 ^ 52 by decide, hpow,
    if_neg (by decide), one_mul]
  rfl

/-- `R64ToI64` flags `2 ^ 31`. -/
theorem r64ToI64_two_pow : ¬ (Conversion.r64ToI64 .truncate (0x41E00000, 0)).Right := by
  intro h
  refine (r64ToI64_exact_iff .truncate _).mp h _ real64_two_pow (Or.inl ?_)
  rw [abs_of_pos (by norm_num)]
  norm_num

end Conversion

end Extlib

end Kroc
