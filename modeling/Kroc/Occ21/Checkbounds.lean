import Kroc.Extlib.Conv

/-!
# Occ21/Checkbounds — range checks of the constant folder

`checkbounds` and `exactconversion` of `occ21/fe/const1.c`, between the integer types.  Every source
but an `INT64` is taken for a signed word, and the upper bound of `UINT64` is `-1` to the signed
comparison.
-/

namespace Kroc

namespace Occ21

open Extlib

/-- The types that `checkbounds` knows. -/
inductive IntType
  | bool
  | byte
  | int16
  | uint16
  | int32
  | uint32
  | int64
  | uint64
  deriving DecidableEq

namespace IntType

/-- `minhi`, `minlo` -/
def minWords : IntType → Words
  | bool | byte | uint16 | uint32 | uint64 => (0, 0)
  | int16 => (0xffffffff, 0xffff8000)
  | int32 => (0xffffffff, 0x80000000)
  | int64 => (0x80000000, 0)

/-- `maxhi`, `maxlo` -/
def maxWords : IntType → Words
  | bool => (0, 1)
  | byte => (0, 255)
  | int16 => (0, 32767)
  | uint16 => (0, 0x0000ffff)
  | int32 => (0, 2147483647)
  | uint32 => (0, 0xffffffff)
  | int64 => (2147483647, 0xffffffff)
  | uint64 => (0xffffffff, 0xffffffff)

/-- The least value. -/
def least : IntType → ℤ
  | bool | byte | uint16 | uint32 | uint64 => 0
  | int16 => -2 ^ 15
  | int32 => -2 ^ 31
  | int64 => -2 ^ 63

/-- The greatest value. -/
def greatest : IntType → ℤ
  | bool => 1
  | byte => 2 ^ 8 - 1
  | int16 => 2 ^ 15 - 1
  | uint16 => 2 ^ 16 - 1
  | int32 => 2 ^ 31 - 1
  | uint32 => 2 ^ 32 - 1
  | int64 => 2 ^ 63 - 1
  | uint64 => 2 ^ 64 - 1

/-- The value that is held in two words; the high one counts for the longest types only. -/
def value (type : IntType) (w : Words) : ℤ :=
  match type with
  | int64 => signed w
  | uint64 => dword w
  | uint32 => w.2.toNat
  | bool | byte | int16 | uint16 | int32 => w.2.toInt

/-- A value of the type. -/
def Holds (type : IntType) (v : ℤ) : Prop := type.least ≤ v ∧ v ≤ type.greatest

instance (type : IntType) (v : ℤ) : Decidable (type.Holds v) := inferInstanceAs (Decidable (_ ∧ _))

end IntType

/-- What is compared. -/
def widened (sourcetype : IntType) (w : Words) : Words :=
  if sourcetype ≠ .int64 then i32ToI64 w.2 else w

/-- `checkbounds` -/
def checkbounds (sourcetype desttype : IntType) (w : Words) : ℤ :=
  let toobig := int64Gt (widened sourcetype w) desttype.maxWords
  let toosmall := int64Gt desttype.minWords (widened sourcetype w)
  if toobig then 1 else if toosmall then -1 else 0

/-- `exactconversion`, behind the replacement of `INT` and `UINT`: what is delivered, and whether an
overflow is reported. -/
def exactconversion (sourcetype desttype : IntType) (w : Words) : Words × Bool :=
  let d :=
    if desttype = .int64 ∧ sourcetype ≠ .int64 then i32ToI64 w.2
    else if desttype = .uint64 ∧ sourcetype ≠ .uint64 then i32ToI64 w.2
    else w
  (d, checkbounds sourcetype desttype d ≠ 0)

/-! ## What they are to do -/

/-- 1 above the range, -1 below it, 0 within. -/
def place (v least greatest : ℤ) : ℤ := if greatest < v then 1 else if v < least then -1 else 0

/-- **`checkbounds` tells where the value lies.** -/
def ChecksBounds (sourcetype desttype : IntType) (w : Words) : Prop :=
  checkbounds sourcetype desttype w =
    place (sourcetype.value w) desttype.least desttype.greatest

/-- **`exactconversion` keeps the value**, or reports that the type does not hold it. -/
def ConvertsExactly (sourcetype desttype : IntType) (w : Words) : Prop :=
  if desttype.Holds (sourcetype.value w) then
    (exactconversion sourcetype desttype w).2 = false ∧
      desttype.value (exactconversion sourcetype desttype w).1 = sourcetype.value w
  else (exactconversion sourcetype desttype w).2 = true

/-- Where both do: a `UINT64` is asked for with a negative value only, and a `UINT32` or a `UINT64`
is below `2 ^ 31`; or a `UINT64` has a low word that is above a short range by itself. -/
def FitsSigned (sourcetype desttype : IntType) (w : Words) : Prop :=
  (desttype = .uint64 → sourcetype.value w < 0) ∧
    (sourcetype = .uint32 ∨ sourcetype = .uint64 → sourcetype.value w < 2 ^ 31 ∨
      sourcetype = .uint64 ∧ desttype.greatest < 2 ^ 31 - 1 ∧ desttype.greatest < w.2.toInt)

/-! ## What they do -/

variable {sourcetype desttype : IntType} {w : Words}

/-- What the signed comparison takes for the value. -/
def compared (sourcetype : IntType) (w : Words) : ℤ :=
  if sourcetype = .int64 then signed w else w.2.toInt

theorem signed_widened (sourcetype : IntType) (w : Words) :
    signed (widened sourcetype w) = compared sourcetype w := by
  unfold widened compared
  by_cases h : sourcetype = .int64
  · rw [if_neg (not_not.mpr h), if_pos h]
  · rw [if_pos h, if_neg h, signed_i32ToI64]

theorem signed_minWords (type : IntType) : signed type.minWords = type.least := by
  cases type <;> rfl

/-- The upper bound that is compared with. -/
theorem signed_maxWords (type : IntType) :
    signed type.maxWords = if type = .uint64 then -1 else type.greatest := by
  cases type <;> rfl

/-- **What `checkbounds` returns.** -/
theorem checkbounds_eq (sourcetype desttype : IntType) (w : Words) :
    checkbounds sourcetype desttype w = place (compared sourcetype w) desttype.least
      (if desttype = .uint64 then -1 else desttype.greatest) := by
  simp only [checkbounds, int64Gt_iff, signed_widened, signed_minWords, signed_maxWords, place]

theorem place_eq_zero_iff {v least greatest : ℤ} :
    place v least greatest = 0 ↔ least ≤ v ∧ v ≤ greatest := by
  unfold place
  split_ifs with h₁ h₂
  · exact ⟨fun h => absurd h (by decide), fun h => by omega⟩
  · exact ⟨fun h => absurd h (by decide), fun h => by omega⟩
  · exact ⟨fun _ => by omega, fun _ => rfl⟩

/-- The low word of the longest types. -/
theorem toNat_low (w : Words) : (w.2.toNat : ℤ) = dword w % 2 ^ 32 := by
  have := w.2.isLt
  rw [dword]
  omega

theorem compared_of_signed (h₁ : sourcetype ≠ .uint32) (h₂ : sourcetype ≠ .uint64) :
    compared sourcetype w = sourcetype.value w := by
  cases sourcetype <;> first | rfl | contradiction

theorem compared_of_lt (h : sourcetype = .uint32 ∨ sourcetype = .uint64)
    (hlt : sourcetype.value w < 2 ^ 31) : compared sourcetype w = sourcetype.value w := by
  have hlow := toNat_low w
  have hcases := toInt_cases w.2
  rcases h with rfl | rfl
  · change (w.2.toNat : ℤ) < 2 ^ 31 at hlt
    change w.2.toInt = w.2.toNat
    omega
  · change (dword w : ℤ) < 2 ^ 31 at hlt
    change w.2.toInt = dword w
    omega

/-- `exactconversion` checks what it was given, but for an `INT64` that is cut off first. -/
theorem compared_cut (h : sourcetype ≠ .int64 ∨ desttype ≠ .uint64) :
    compared sourcetype (exactconversion sourcetype desttype w).1 = compared sourcetype w := by
  unfold exactconversion
  dsimp only
  split_ifs with h₁ h₂
  · rw [compared, compared, if_neg h₁.2, if_neg h₁.2, i32ToI64]
    split_ifs <;> rfl
  · have hne : sourcetype ≠ .int64 := h.resolve_right (not_not.mpr h₂.1)
    rw [compared, compared, if_neg hne, if_neg hne, i32ToI64]
    split_ifs <;> rfl
  · rfl

/-- **What `exactconversion` reports.** -/
theorem reported_iff : (exactconversion sourcetype desttype w).2 = true ↔
    ¬ (desttype ≠ .uint64 ∧ desttype.Holds (compared sourcetype w)) := by
  have hrep : (exactconversion sourcetype desttype w).2 = true ↔
      ¬ checkbounds sourcetype desttype (exactconversion sourcetype desttype w).1 = 0 :=
    decide_eq_true_iff
  rw [hrep, checkbounds_eq, place_eq_zero_iff]
  by_cases hd : desttype = .uint64
  · subst hd
    rw [if_pos rfl]
    refine ⟨fun _ h => h.1 rfl, fun _ h => ?_⟩
    have hle := h.1.trans h.2
    exact absurd hle (by decide)
  · rw [if_neg hd, compared_cut (.inr hd)]
    exact not_congr ⟨fun h => ⟨hd, h⟩, fun h => h.2⟩

/-- What `exactconversion` delivers for the other types. -/
theorem value_exactconversion (hd : desttype ≠ .uint64) :
    desttype.value (exactconversion sourcetype desttype w).1 =
      if desttype = .int64 ∧ sourcetype ≠ .int64 then w.2.toInt else desttype.value w := by
  have hu : ¬ (desttype = .uint64 ∧ sourcetype ≠ .uint64) := fun h => hd h.1
  unfold exactconversion
  dsimp only
  rw [if_neg hu]
  split_ifs with h
  · rw [h.1]
    exact signed_i32ToI64 w.2
  · rfl

/-- `exactconversion`, by what it compares. -/
theorem convertsExactly_iff : ConvertsExactly sourcetype desttype w ↔
    if desttype.Holds (sourcetype.value w) then
      (desttype ≠ .uint64 ∧ desttype.Holds (compared sourcetype w)) ∧
        desttype.value (exactconversion sourcetype desttype w).1 = sourcetype.value w
    else ¬ (desttype ≠ .uint64 ∧ desttype.Holds (compared sourcetype w)) := by
  unfold ConvertsExactly
  split_ifs with h
  · rw [← Bool.not_eq_true, reported_iff, not_not]
  · exact reported_iff

theorem place_eq_one_iff {v least greatest : ℤ} : place v least greatest = 1 ↔ greatest < v := by
  unfold place
  split_ifs with h₁ h₂
  · exact ⟨fun _ => h₁, fun _ => rfl⟩
  · exact ⟨fun h => absurd h (by decide), fun h => absurd h h₁⟩
  · exact ⟨fun h => absurd h (by decide), fun h => absurd h h₁⟩

theorem place_of_lt {v least greatest : ℤ} (h₁ : v < least) (h₂ : v ≤ greatest) :
    place v least greatest = -1 := by
  rw [place, if_neg (not_lt.mpr h₂), if_pos h₁]

theorem le_greatest_uint64 (type : IntType) : type.greatest ≤ IntType.uint64.greatest := by
  cases type <;> decide

/-- **A `UINT64` is refused** unless the value is negative. -/
theorem exact_uint64_iff (hv : sourcetype.Holds (sourcetype.value w)) :
    ChecksBounds sourcetype .uint64 w ∧ ConvertsExactly sourcetype .uint64 w ↔
      FitsSigned sourcetype .uint64 w := by
  have hle := hv.2.trans (le_greatest_uint64 sourcetype)
  rw [ChecksBounds, convertsExactly_iff, checkbounds_eq, FitsSigned, if_pos rfl]
  rcases lt_or_ge (sourcetype.value w) 0 with hneg | hpos
  · have hdown : ¬ IntType.uint64.Holds (sourcetype.value w) :=
      fun h => absurd h.1 (not_le.mpr hneg)
    have hsame : compared sourcetype w = sourcetype.value w := by
      refine compared_of_signed (fun h => ?_) fun h => ?_
      · rw [h] at hneg
        exact absurd hneg (not_lt.mpr (Int.natCast_nonneg _))
      · rw [h] at hneg
        exact absurd hneg (not_lt.mpr (Int.natCast_nonneg _))
    have hbelow : sourcetype.value w < IntType.uint64.least := hneg
    rw [if_neg hdown, hsame, place_of_lt hbelow (by omega), place_of_lt hbelow hle]
    exact ⟨fun _ => ⟨fun _ => hneg, fun _ => .inl (by omega)⟩, fun _ => ⟨rfl, fun h => h.1 rfl⟩⟩
  · rw [if_pos ⟨hpos, hle⟩]
    exact ⟨fun h => absurd rfl h.2.1.1, fun h => absurd (h.1 rfl) (not_lt.mpr hpos)⟩

/-- The low word is what is compared, modulo its size. -/
theorem exists_compared_eq (sourcetype : IntType) (w : Words) :
    ∃ k : ℤ, compared sourcetype w = 2 ^ 32 * k + w.2.toNat := by
  unfold compared
  split_ifs with h
  · exact ⟨_, signed_eq w⟩
  · rcases toInt_cases w.2 with ⟨-, heq⟩ | ⟨-, heq⟩
    · exact ⟨0, by omega⟩
    · exact ⟨-1, by omega⟩

/-- **The other types**, where the comparison has the value itself. -/
theorem exact_of_compared (hd : desttype ≠ .uint64)
    (hs : compared sourcetype w = sourcetype.value w) :
    ChecksBounds sourcetype desttype w ∧ ConvertsExactly sourcetype desttype w := by
  rw [ChecksBounds, convertsExactly_iff, checkbounds_eq, if_neg hd, hs,
    value_exactconversion hd]
  refine ⟨rfl, ?_⟩
  split_ifs with h h'
  · refine ⟨⟨hd, h⟩, ?_⟩
    rw [← hs, compared, if_neg h'.2]
  · refine ⟨⟨hd, h⟩, ?_⟩
    obtain ⟨k, hk⟩ := exists_compared_eq sourcetype w
    have hlt := w.2.isLt
    have hcases := toInt_cases w.2
    rw [← hs] at h ⊢
    cases desttype with
    | uint64 => exact absurd rfl hd
    | int64 =>
      have hsrc : sourcetype = .int64 := by
        by_contra hne
        exact h' ⟨rfl, hne⟩
      rw [compared, if_pos hsrc]
      rfl
    | uint32 =>
      obtain ⟨hlo, hhi⟩ : 0 ≤ compared sourcetype w ∧ compared sourcetype w ≤ 2 ^ 32 - 1 := h
      change (w.2.toNat : ℤ) = compared sourcetype w
      omega
    | _ =>
      obtain ⟨hlo, hhi⟩ : -2 ^ 31 ≤ compared sourcetype w ∧ compared sourcetype w < 2 ^ 31 := by
        constructor
        · exact le_trans (by decide) h.1
        · exact lt_of_le_of_lt h.2 (by decide)
      change w.2.toInt = compared sourcetype w
      omega
  · exact fun h' => h h'.2

theorem long_of_le (hd : desttype ≠ .uint64) (h : 2 ^ 31 ≤ desttype.greatest) :
    desttype = .uint32 ∨ desttype = .int64 := by
  cases desttype with
  | uint32 => exact .inl rfl
  | int64 => exact .inr rfl
  | uint64 => exact absurd rfl hd
  | _ => exact absurd h (by decide)

/-- **The other types**, where it does not. -/
theorem exact_iff_of_le (hd : desttype ≠ .uint64)
    (hsrc : sourcetype = .uint32 ∨ sourcetype = .uint64) (hle : 2 ^ 31 ≤ sourcetype.value w) :
    ChecksBounds sourcetype desttype w ∧ ConvertsExactly sourcetype desttype w ↔
      sourcetype = .uint64 ∧ desttype.greatest < 2 ^ 31 - 1 ∧ desttype.greatest < w.2.toInt := by
  have hs : compared sourcetype w = w.2.toInt := by
    rcases hsrc with rfl | rfl <;> rfl
  have hlt := w.2.isLt
  have hcases := toInt_cases w.2
  rw [ChecksBounds, convertsExactly_iff, checkbounds_eq, if_neg hd, hs, value_exactconversion hd]
  rcases lt_or_ge desttype.greatest (sourcetype.value w) with habove | hin
  · have hup : ¬ desttype.Holds (sourcetype.value w) := fun h => absurd h.2 (not_le.mpr habove)
    rw [if_neg hup, place_eq_one_iff.mpr habove, place_eq_one_iff]
    constructor
    · rintro ⟨habove', -⟩
      have hpos : 0 ≤ desttype.greatest := by cases desttype <;> decide
      refine ⟨hsrc.resolve_left fun h => ?_, by omega, habove'⟩
      subst h
      change 2 ^ 31 ≤ (w.2.toNat : ℤ) at hle
      omega
    · rintro ⟨-, -, habove'⟩
      exact ⟨habove', fun h => absurd h.2.2 (not_le.mpr habove')⟩
  · refine ⟨fun h => ?_, fun h => ?_⟩
    · obtain ⟨-, hconv⟩ := h
      rcases long_of_le hd (hle.trans hin) with rfl | rfl
      · have hholds : IntType.uint32.Holds (sourcetype.value w) := by
          exact ⟨le_trans (by decide) hle, hin⟩
        rw [if_pos hholds] at hconv
        have hpos : 0 ≤ w.2.toInt := hconv.1.2.1
        have hmax : sourcetype.value w ≤ 2 ^ 32 - 1 := hin
        have hlow : (w.2.toNat : ℤ) = sourcetype.value w % 2 ^ 32 := by
          rcases hsrc with rfl | rfl
          · change (w.2.toNat : ℤ) = (w.2.toNat : ℤ) % 2 ^ 32
            omega
          · exact toNat_low w
        omega
      · have hholds : IntType.int64.Holds (sourcetype.value w) := by
          exact ⟨le_trans (by decide) hle, hin⟩
        have hne : sourcetype ≠ .int64 := by
          rcases hsrc with rfl | rfl <;> decide
        rw [if_pos hholds, if_pos ⟨rfl, hne⟩] at hconv
        omega
    · exact absurd (hle.trans hin) (by omega)

/-- **Where range checks and conversions are exact**: for every pair of types and every value. -/
theorem exact_iff_fitsSigned (sourcetype desttype : IntType) (w : Words)
    (hv : sourcetype.Holds (sourcetype.value w)) :
    ChecksBounds sourcetype desttype w ∧ ConvertsExactly sourcetype desttype w ↔
      FitsSigned sourcetype desttype w := by
  by_cases hd : desttype = .uint64
  · subst hd
    exact exact_uint64_iff hv
  unfold FitsSigned
  by_cases hsrc : sourcetype = .uint32 ∨ sourcetype = .uint64
  · rcases lt_or_ge (sourcetype.value w) (2 ^ 31) with hlt | hle
    · have hexact := exact_of_compared hd (compared_of_lt hsrc hlt)
      exact ⟨fun _ => ⟨fun h => absurd h hd, fun _ => .inl hlt⟩, fun _ => hexact⟩
    · rw [exact_iff_of_le hd hsrc hle]
      refine ⟨fun h => ⟨fun h' => absurd h' hd, fun _ => .inr h⟩, fun h => ?_⟩
      exact (h.2 hsrc).resolve_left (not_lt.mpr hle)
  · obtain ⟨h₁, h₂⟩ := not_or.mp hsrc
    have hsame : compared sourcetype w = sourcetype.value w := compared_of_signed h₁ h₂
    have hexact := exact_of_compared hd hsame
    exact ⟨fun _ => ⟨fun h => absurd h hd, fun h => absurd h hsrc⟩, fun _ => hexact⟩

/-- A byte is one of the values of a `UINT64`, the high word of a `UINT64` is passed over, and a
`UINT32` from the upper half becomes a negative `INT32`. -/
theorem inexact_checks :
    checkbounds .byte .uint64 (0, 5) = 1 ∧ ¬ ChecksBounds .byte .uint64 (0, 5) ∧
    checkbounds .uint64 .byte (1, 0) = 0 ∧ ¬ ChecksBounds .uint64 .byte (1, 0) ∧
    ¬ ConvertsExactly .uint32 .int32 (0, 0x80000000) := by
  refine ⟨by decide, ?_, by decide, ?_, ?_⟩
  · unfold ChecksBounds
    decide
  · unfold ChecksBounds
    decide
  · unfold ConvertsExactly
    decide

theorem exact_iff_fitsSigned_byte : ChecksBounds .int64 .byte (-1, -1) ∧
    ConvertsExactly .int64 .byte (-1, -1) ↔ FitsSigned .int64 .byte (-1, -1) :=
  exact_iff_fitsSigned .int64 .byte (-1, -1) (by decide)

end Occ21

end Kroc
