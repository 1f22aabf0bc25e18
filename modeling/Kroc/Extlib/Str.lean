import Kroc.Extlib.Int32
import Kroc.Extlib.Int64Div
import Kroc.Lib.Numerals

/-!
# Extlib/Str — integer literals

The readers of `extstr.c` take in a digit when the next one has been read, and check the range of a
number at the end.  The check of a negative number of two words looks at its high word only.
-/

namespace Kroc

namespace Extlib

/-- `HighBits8` -/
def highBits8 : Bit32 := 0xFFFFFF00

/-- `HighBits16` -/
def highBits16 : Bit32 := 0xFFFF0000

/-! ## The readers

A reader gives `Error` and its number. -/

/-- `ValidDigit` -/
def validDigit (c : Char) : Bool × Bit32 :=
  if c.isDigit then (true, BitVec.ofNat 32 (c.toNat - '0'.toNat))
    else (false, BitVec.ofNat 32 c.toNat)

/-- `isxdigit` -/
def isxdigit (c : Char) : Bool := c.isDigit || ('A' ≤ c && c ≤ 'F') || ('a' ≤ c && c ≤ 'f')

/-- `ValidHexDigit` -/
def validHexDigit (c : Char) : Bool × Bit32 :=
  if isxdigit c then
    if c.isDigit then (true, BitVec.ofNat 32 (c.toNat - '0'.toNat))
    else if c.isUpper then (true, BitVec.ofNat 32 (c.toNat - 'A'.toNat + 10))
    else (true, BitVec.ofNat 32 (c.toNat - 'a'.toNat + 10))
  else (false, BitVec.ofNat 32 c.toNat)

/-- The loop of a reader and the step after it, where `Digit` is still to be taken in. -/
def scan {σ : Type} (step : σ → Bit32 → Bool × σ) (valid : Char → Bool × Bit32) :
    List Char → Bool → Bit32 → σ → Bool × σ
  | [], error, digit, x =>
    let r := step x digit
    (error || r.1, r.2)
  | c :: rest, error, digit, x =>
    let r := step x digit
    let next := valid c
    if next.1 then scan step valid rest (error || r.1) next.2 r.2 else (true, r.2)

/-- `Neg` -/
def isNeg (s : List Char) : Bool := s.head? = some '-'

/-- The characters that are scanned after the sign. -/
def afterSign (s : List Char) : List Char :=
  if s.head? = some '+' ∨ s.head? = some '-' then s.tail else s

/-- A word times 10, and a digit. -/
def takeDigit (n digit : Bit32) : Bool × Bit32 :=
  let p := longprod n 10 digit
  (p.1 ≠ 0, p.2)

/-- Two words times 10, and a digit. -/
def takeDigit64 (n : Words) (digit : Bit32) : Bool × Words :=
  let p0 := longprod n.2 10 digit
  let p1 := longprod n.1 10 p0.1
  (p1.1 ≠ 0, (p1.2, p0.2))

/-- A word shifted by four bits, and a digit. -/
def takeHexDigit (n digit : Bit32) : Bool × Bit32 :=
  let r := shiftleft 0 n 4
  (r.1 ≠ 0, r.2 ||| digit)

/-- Two words shifted by four bits, and a digit. -/
def takeHexDigit64 (n : Words) (digit : Bit32) : Bool × Words :=
  let r := shiftleft n.1 n.2 4
  ((shiftleft 0 n.1 4).1 ≠ 0, (r.1, r.2 ||| digit))

/-- `StrToInt` -/
def strToInt (s : List Char) : Bool × Bit32 :=
  let r := scan takeDigit validDigit (afterSign s) false 0 0
  if isNeg s then
    let n := ~~~r.2 + 1
    (r.1 || (n ≠ 0 && n &&& signBit32 = 0), n)
  else (r.1 || r.2 &&& signBit32 ≠ 0, r.2)

/-- `StrToI8` -/
def strToI8 (s : List Char) : Bool × Bit32 :=
  let r := strToInt s
  (r.1 || r.2 &&& highBits8 ≠ 0, r.2)

/-- `StrToI16` -/
def strToI16 (s : List Char) : Bool × Bit32 :=
  let r := strToInt s
  (r.1 || (r.2 &&& negBits16 ≠ 0 && r.2 &&& negBits16 ≠ negBits16), r.2)

/-- `StrToI64` -/
def strToI64 (s : List Char) : Bool × Words :=
  let r := scan takeDigit64 validDigit (afterSign s) false 0 (0, 0)
  if isNeg s then
    let n := diff (0, 0) r.2
    (r.1 || n.1.toInt > 0, n)
  else (r.1 || r.2.1.toInt < 0, r.2)

/-- `StrToHex` -/
def strToHex (s : List Char) : Bool × Bit32 := scan takeHexDigit validHexDigit s false 0 0

/-- `StrToH8` -/
def strToH8 (s : List Char) : Bool × Bit32 :=
  let r := strToHex s
  (r.1 || r.2 &&& highBits8 ≠ 0, r.2)

/-- `StrToH16`, whose result has its sign extended. -/
def strToH16 (s : List Char) : Bool × Bit32 :=
  let r := strToHex s
  let error := r.1 || r.2 &&& highBits16 ≠ 0
  (error, if error = false ∧ r.2 &&& signBit16 ≠ 0 then r.2 ||| highBits16 else r.2)

/-- `StrToH64` -/
def strToH64 (s : List Char) : Bool × Words := scan takeHexDigit64 validHexDigit s false 0 (0, 0)

/-! ## Taking in digits -/

/-- **A reader's loop** holds the number of the digits that it has seen. -/
theorem scan_spec {σ : Type} {base bound : ℕ} {value : σ → ℕ} {step : σ → Bit32 → Bool × σ}
    {valid : Char → Bool × Bit32} {digitOf : Char → ℕ}
    (hstep : Accumulates base bound value BitVec.toNat step) (hbase : 1 ≤ base) : ∀ (s : List Char)
      {error : Bool} {digit : Bit32} {x : σ} {v : ℕ},
      (∀ c ∈ s, (valid c).1 = true ∧ (valid c).2.toNat = digitOf c ∧ digitOf c < base) →
      Holds bound value v (error, x) → digit.toNat < base →
      Holds bound value (number base v (digit.toNat :: s.map digitOf))
        (scan step valid s error digit x)
  | [], error, digit, x, v, _, h, hd => by
    rw [List.map_nil, number_cons]
    exact h.step hstep hbase hd
  | c :: rest, error, digit, x, v, hs, h, hd => by
    obtain ⟨hvalid, hdigit, hlt⟩ := hs c (List.mem_cons_self ..)
    rw [List.map_cons, number_cons, scan, ← hdigit, if_pos hvalid]
    exact scan_spec hstep hbase rest (fun c hc => hs c (List.mem_cons_of_mem _ hc))
      (h.step hstep hbase hd) (hdigit ▸ hlt)

theorem takeDigit_spec : Accumulates 10 (2 ^ 32) BitVec.toNat BitVec.toNat takeDigit :=
  fun n d _ => by
  have h := longprod_spec n 10 d
  have hten : (10 : Bit32).toNat = 10 := rfl
  unfold takeDigit
  generalize longprod n 10 d = p at *
  have := p.2.isLt
  rw [hten] at h
  dsimp only
  rw [decide_eq_true_eq, Ne, eq_iff_toNat, toNat_zero]
  unfold dword at h
  omega

theorem words_mul_ten {n p0 p1 : Words} {d : ℕ} (h0 : dword p0 = n.2.toNat * 10 + d)
    (h1 : dword p1 = n.1.toNat * 10 + p0.1.toNat) :
    dword (p1.2, p0.2) = (10 * dword n + d) % 2 ^ 64 ∧
      (p1.1.toNat ≠ 0 ↔ 2 ^ 64 ≤ 10 * dword n + d) := by
  have := p0.2.isLt
  have := p1.2.isLt
  unfold dword at *
  dsimp only
  omega

theorem takeDigit64_spec : Accumulates 10 (2 ^ 64) dword BitVec.toNat takeDigit64 := fun n d _ => by
  obtain ⟨hval, hflag⟩ := words_mul_ten (longprod_spec n.2 10 d) (longprod_spec n.1 10 _)
  refine ⟨hval, Iff.trans ?_ hflag⟩
  unfold takeDigit64
  dsimp only
  rw [decide_eq_true_eq, Ne, eq_iff_toNat, toNat_zero]

/-- A word that ends in four zeros, with a hex digit in them. -/
theorem toNat_or_digit {x digit : Bit32} {a : ℕ} (hx : x.toNat = 16 * a) (hd : digit.toNat < 16) :
    (x ||| digit).toNat = 16 * a + digit.toNat := by
  rw [toNat_or_of_lt (n := 4) hx hd, hx]

theorem dword_shiftleft_four (x : Words) : dword (shiftleft x.1 x.2 4) = dword x * 16 % 2 ^ 64 := by
  rw [shiftleft_spec]
  rfl

theorem dword_zero_hi (lo : Bit32) : dword (0, lo) = lo.toNat := by
  rw [dword, toNat_zero, mul_zero, zero_add]

theorem word_mul_sixteen {n d : Bit32} {r : Words} (h : dword r = n.toNat * 16)
    (hd : d.toNat < 16) :
    (r.2 ||| d).toNat = (16 * n.toNat + d.toNat) % 2 ^ 32 ∧
      (r.1.toNat ≠ 0 ↔ 2 ^ 32 ≤ 16 * n.toNat + d.toNat) := by
  have := r.2.isLt
  unfold dword at h
  rw [toNat_or_digit (a := r.2.toNat / 16) (by omega) hd]
  omega

theorem takeHexDigit_spec : Accumulates 16 (2 ^ 32) BitVec.toNat BitVec.toNat takeHexDigit :=
  fun n d hd => by
  have h := dword_shiftleft_four (0, n)
  have hn := n.isLt
  rw [dword_zero_hi, Nat.mod_eq_of_lt (by omega)] at h
  obtain ⟨hval, hflag⟩ := word_mul_sixteen h hd
  refine ⟨hval, Iff.trans ?_ hflag⟩
  unfold takeHexDigit
  dsimp only
  rw [decide_eq_true_eq, Ne, eq_iff_toNat, toNat_zero]

theorem words_mul_sixteen {n c r : Words} {d : Bit32} (hc : dword c = n.1.toNat * 16)
    (hr : dword r = dword n * 16 % 2 ^ 64) (hd : d.toNat < 16) :
    dword (r.1, r.2 ||| d) = (16 * dword n + d.toNat) % 2 ^ 64 ∧
      (c.1.toNat ≠ 0 ↔ 2 ^ 64 ≤ 16 * dword n + d.toNat) := by
  have hn := n.2.isLt
  have hr2 := r.2.isLt
  have hc2 := c.2.isLt
  unfold dword at *
  dsimp only
  rw [toNat_or_digit (a := r.2.toNat / 16) (by omega) hd]
  omega

theorem takeHexDigit64_spec : Accumulates 16 (2 ^ 64) dword BitVec.toNat takeHexDigit64 :=
  fun n d hd => by
  have hc := dword_shiftleft_four (0, n.1)
  have hn := n.1.isLt
  rw [dword_zero_hi, Nat.mod_eq_of_lt (by omega)] at hc
  obtain ⟨hval, hflag⟩ := words_mul_sixteen hc (dword_shiftleft_four n) hd
  refine ⟨hval, Iff.trans ?_ hflag⟩
  unfold takeHexDigit64
  dsimp only
  rw [decide_eq_true_eq, Ne, eq_iff_toNat, toNat_zero]

/-! ## Literals -/

/-- The decimal digits. -/
def decimalDigits : List Char := "0123456789".toList

/-- The hex digits. -/
def hexDigits : List Char := "0123456789ABCDEFabcdef".toList

/-- The number of a digit. -/
def digitValue (c : Char) : ℕ := "0123456789abcdef".toList.idxOf c.toLower

/-- One or more digits. -/
structure Digits (alphabet : List Char) where
  text : List Char
  ne_nil : text ≠ []
  mem : ∀ c ∈ text, c ∈ alphabet

/-- The number that the digits denote. -/
def Digits.value {alphabet : List Char} (base : ℕ) (d : Digits alphabet) : ℕ :=
  number base 0 (d.text.map digitValue)

/-- The sign of a literal. -/
inductive Sign
  | none
  | plus
  | minus
deriving DecidableEq

/-- The characters of a sign. -/
def Sign.text : Sign → List Char
  | .none => []
  | .plus => ['+']
  | .minus => ['-']

/-- A decimal literal. -/
structure Decimal where
  sign : Sign
  digits : Digits decimalDigits

namespace Decimal

/-- The characters of a literal. -/
def text (d : Decimal) : List Char := d.sign.text ++ d.digits.text

/-- The number without its sign. -/
def magnitude (d : Decimal) : ℕ := d.digits.value 10

/-- **The number** that a literal denotes. -/
def value (d : Decimal) : ℤ := if d.sign = .minus then -(d.magnitude : ℤ) else d.magnitude

theorem isNeg_text (d : Decimal) : isNeg d.text = decide (d.sign = .minus) := by
  obtain ⟨sign, text, hne, hmem⟩ := d
  cases sign with
  | minus => rfl
  | plus => rfl
  | none =>
    cases text with
    | nil => exact absurd rfl hne
    | cons c rest =>
      have hc : c ≠ '-' := fun h => absurd (h ▸ hmem c (List.mem_cons_self ..)) (by decide)
      simpa [isNeg, Decimal.text, Sign.text] using hc

theorem afterSign_text (d : Decimal) : afterSign d.text = d.digits.text := by
  obtain ⟨sign, text, hne, hmem⟩ := d
  cases sign with
  | minus => rfl
  | plus => rfl
  | none =>
    cases text with
    | nil => exact absurd rfl hne
    | cons c rest =>
      have hplus : c ≠ '+' := fun h => absurd (h ▸ hmem c (List.mem_cons_self ..)) (by decide)
      have hminus : c ≠ '-' := fun h => absurd (h ▸ hmem c (List.mem_cons_self ..)) (by decide)
      simp [afterSign, Decimal.text, Sign.text, hplus, hminus]

end Decimal

theorem validDigit_spec : ∀ c ∈ decimalDigits, (validDigit c).1 = true ∧
    (validDigit c).2.toNat = digitValue c ∧ digitValue c < 10 :=
  List.forall_iff_forall_mem.mp (by decide +kernel)

theorem validHexDigit_spec : ∀ c ∈ hexDigits, (validHexDigit c).1 = true ∧
    (validHexDigit c).2.toNat = digitValue c ∧ digitValue c < 16 :=
  List.forall_iff_forall_mem.mp (by decide +kernel)

/-- What a reader's loop holds of the digits of a literal. -/
theorem scan_digits {σ : Type} {alphabet : List Char} {base bound : ℕ} {value : σ → ℕ}
    {step : σ → Bit32 → Bool × σ} {valid : Char → Bool × Bit32} {x : σ}
    (hstep : Accumulates base bound value BitVec.toNat step) (hbase : 1 ≤ base) (hbound : 0 < bound)
    (hvalid : ∀ c ∈ alphabet, (valid c).1 = true ∧ (valid c).2.toNat = digitValue c ∧
      digitValue c < base) (hx : value x = 0) (d : Digits alphabet) :
    Holds bound value (d.value base) (scan step valid d.text false 0 x) := by
  have h := scan_spec hstep hbase d.text (fun c hc => hvalid c (d.mem c hc))
    (Or.inr ⟨rfl, hx, hbound⟩ : Holds bound value 0 (false, x))
    (show (0 : Bit32).toNat < base by rw [toNat_zero]; omega)
  rw [number_cons, toNat_zero, mul_zero, add_zero] at h
  exact h

/-! ## What is read -/

open ExactOrFlagged (deliver)

/-- A number of one word, whose sign is to be changed. -/
theorem negate_exact {m : ℕ} {r : Bool × Bit32} (h : Holds (2 ^ 32) BitVec.toNat m r) :
    ExactOrFlagged BitVec.toInt (SignedFits 32) (some (-(m : ℤ)))
      (deliver (r.1 || (-r.2 ≠ 0 && -r.2 &&& signBit32 = 0), -r.2)) := by
  have hneg := BitVec.toNat_neg r.2
  have := r.2.isLt
  generalize -r.2 = n at *
  have hcases := toInt_cases n
  have hzero : n = 0 ↔ n.toNat = 0 := eq_iff_toNat
  refine ExactOrFlagged.of_ite ?_ fun hx => ?_
  · simp only [Bool.or_eq_true, Bool.and_eq_true, decide_eq_true_eq, ne_eq, hzero, and_signBit32,
      fits32_iff]
    obtain ⟨hflag, hm⟩ | ⟨hflag, hval, hm⟩ := h
    · exact iff_of_true (Or.inl hflag) (by omega)
    · rw [hflag, or_iff_right Bool.false_ne_true]
      omega
  · rw [fits32_iff] at hx
    have := h.value_eq (by omega)
    dsimp only
    omega

/-- A number of one word that has no sign. -/
theorem keep_exact {m : ℕ} {r : Bool × Bit32} (h : Holds (2 ^ 32) BitVec.toNat m r) :
    ExactOrFlagged BitVec.toInt (SignedFits 32) (some (m : ℤ))
      (deliver (r.1 || r.2 &&& signBit32 ≠ 0, r.2)) := by
  have hcases := toInt_cases r.2
  refine ExactOrFlagged.of_ite ?_ fun hx => ?_
  · simp only [Bool.or_eq_true, decide_eq_true_eq, ne_eq, and_signBit32, fits32_iff]
    obtain ⟨hflag, hm⟩ | ⟨hflag, hval, hm⟩ := h
    · exact iff_of_true (Or.inl hflag) (by omega)
    · rw [hflag, or_iff_right Bool.false_ne_true]
      omega
  · rw [fits32_iff] at hx
    have := h.value_eq (by omega)
    dsimp only
    omega

/-- **`StrToInt`** is exact or flagged. -/
theorem strToInt_exact (d : Decimal) :
    ExactOrFlagged BitVec.toInt (SignedFits 32) (some d.value) (deliver (strToInt d.text)) := by
  have h := scan_digits takeDigit_spec (by omega) (by positivity) validDigit_spec toNat_zero
    d.digits
  unfold strToInt
  rw [d.isNeg_text, d.afterSign_text, Decimal.value]
  by_cases hneg : d.sign = .minus
  · rw [if_pos hneg, if_pos (decide_eq_true hneg), not_add_one]
    exact negate_exact h
  · rw [if_neg hneg, if_neg (by simpa using hneg)]
    exact keep_exact h

theorem highBits8_eq : highBits8 = BitVec.allOnes 32 <<< 8 := by decide

theorem highBits16_eq : highBits16 = BitVec.allOnes 32 <<< 16 := by decide

/-- **`StrToI8`** is exact or flagged. -/
theorem strToI8_exact (d : Decimal) :
    ExactOrFlagged BitVec.toInt (UnsignedFits 8) (some d.value) (deliver (strToI8 d.text)) := by
  refine ExactOrFlagged.narrow (strToInt_exact d) (fun hx => ?_)
    (c := fun w => decide (w &&& highBits8 ≠ 0)) fun w => ?_
  · unfold UnsignedFits at hx
    rw [fits32_iff]
    omega
  · have := toInt_cases w
    have := w.isLt
    rw [decide_eq_true_eq, Ne, highBits8_eq, and_high_eq_zero_iff]
    unfold UnsignedFits
    omega

/-- **`StrToI16`** is exact or flagged. -/
theorem strToI16_exact (d : Decimal) :
    ExactOrFlagged BitVec.toInt (SignedFits 16) (some d.value) (deliver (strToI16 d.text)) := by
  refine ExactOrFlagged.narrow (strToInt_exact d) (fun hx => ?_)
    (c := fun w => w &&& negBits16 ≠ 0 && w &&& negBits16 ≠ negBits16) fun w => ?_
  · norm_num [SignedFits] at hx ⊢
    omega
  · rw [fits16_iff, Bool.and_eq_true, decide_eq_true_eq, decide_eq_true_eq, not_or]

/-- A number of two words, whose sign is to be changed: the check does not see a number that has a
high word of zero then. -/
theorem negate64_exact_iff {m : ℕ} {r : Bool × Words} (h : Holds (2 ^ 64) dword m r) :
    ExactOrFlagged signed (SignedFits 64) (some (-(m : ℤ)))
      (deliver (r.1 || (diff (0, 0) r.2).1.toInt > 0, diff (0, 0) r.2)) ↔
        ¬ (2 ^ 64 - 2 ^ 32 < m ∧ m < 2 ^ 64) := by
  obtain ⟨borrow, hneg⟩ := dword_negate r.2
  generalize diff (0, 0) r.2 = n at *
  have hlt := dword_lt n
  have hlt' := dword_lt r.2
  have hcases := signed_cases n
  have hhi := toInt_cases n.1
  have hlo := n.2.isLt
  have hfits : SignedFits 64 (-(m : ℤ)) ↔ m ≤ 2 ^ 63 := by
    rw [fits64_iff]
    omega
  have hn : dword n = 2 ^ 32 * n.1.toNat + n.2.toNat := rfl
  unfold deliver
  dsimp only
  obtain ⟨hflag, hm⟩ | ⟨hflag, hval, hm⟩ := h
  · rw [hflag, Bool.true_or, if_pos rfl, ExactOrFlagged.none_iff, hfits]
    omega
  · rw [hflag, Bool.false_or]
    by_cases hpos : n.1.toInt > 0
    · rw [if_pos (decide_eq_true hpos), ExactOrFlagged.none_iff, hfits]
      omega
    · rw [if_neg (by simpa using hpos), ExactOrFlagged.some_iff, hfits]
      omega

/-- A number of two words that has no sign. -/
theorem keep64_exact {m : ℕ} {r : Bool × Words} (h : Holds (2 ^ 64) dword m r) :
    ExactOrFlagged signed (SignedFits 64) (some (m : ℤ))
      (deliver (r.1 || r.2.1.toInt < 0, r.2)) := by
  have hcases := signed_cases r.2
  have hfits : SignedFits 64 (m : ℤ) ↔ m < 2 ^ 63 := by
    rw [fits64_iff]
    omega
  refine ExactOrFlagged.of_ite ?_ fun hx => ?_
  · rw [Bool.or_eq_true, decide_eq_true_eq, toInt_neg_iff, hfits]
    obtain ⟨hflag, hm⟩ | ⟨hflag, hval, hm⟩ := h
    · exact iff_of_true (Or.inl hflag) (by omega)
    · rw [hflag, or_iff_right Bool.false_ne_true]
      omega
  · rw [hfits] at hx
    have := h.value_eq (by omega)
    dsimp only
    omega

/-- **`StrToI64`** is exact or flagged, but for the negative numbers beyond all but a word's worth
of the range that two words have without a sign. -/
theorem strToI64_exact_iff (d : Decimal) :
    ExactOrFlagged signed (SignedFits 64) (some d.value) (deliver (strToI64 d.text)) ↔
      ¬ (d.sign = .minus ∧ 2 ^ 64 - 2 ^ 32 < d.magnitude ∧ d.magnitude < 2 ^ 64) := by
  have h := scan_digits (x := ((0, 0) : Words)) takeDigit64_spec (by omega) (by positivity)
    validDigit_spec rfl d.digits
  unfold strToI64
  rw [d.isNeg_text, d.afterSign_text, Decimal.value]
  by_cases hneg : d.sign = .minus
  · rw [if_pos hneg, if_pos (decide_eq_true hneg), and_iff_right hneg]
    exact negate64_exact_iff h
  · rw [if_neg hneg, if_neg (by simpa using hneg)]
    exact iff_of_true (keep64_exact h) fun hlarge => hneg hlarge.1

/-- A hex literal. -/
abbrev Hex := Digits hexDigits

/-- **`StrToHex`** is exact or flagged. -/
theorem strToHex_exact (d : Hex) :
    ExactOrFlagged unsignedWord (UnsignedFits 32) (some (d.value 16))
      (deliver (strToHex d.text)) := by
  have h := scan_digits takeHexDigit_spec (by omega) (by positivity) validHexDigit_spec toNat_zero d
  have hfits : UnsignedFits 32 (d.value 16 : ℤ) ↔ d.value 16 < 2 ^ 32 := by
    unfold UnsignedFits
    omega
  refine ExactOrFlagged.of_ite (h.flag_iff.trans (by rw [hfits, not_lt])) fun hx => ?_
  exact congrArg Nat.cast (h.value_eq (hfits.mp hx))

/-- **`StrToH64`** is exact or flagged. -/
theorem strToH64_exact (d : Hex) :
    ExactOrFlagged unsigned (UnsignedFits 64) (some (d.value 16)) (deliver (strToH64 d.text)) := by
  have h := scan_digits (x := ((0, 0) : Words)) takeHexDigit64_spec (by omega) (by positivity)
    validHexDigit_spec rfl d
  have hfits : UnsignedFits 64 (d.value 16 : ℤ) ↔ d.value 16 < 2 ^ 64 := by
    unfold UnsignedFits
    omega
  refine ExactOrFlagged.of_ite (h.flag_iff.trans (by rw [hfits, not_lt])) fun hx => ?_
  exact congrArg Nat.cast (h.value_eq (hfits.mp hx))

theorem unsignedWord_fits_iff (w : Bit32) (n : ℕ) :
    UnsignedFits n (unsignedWord w) ↔ w.toNat < 2 ^ n := by
  unfold UnsignedFits unsignedWord
  rw [and_iff_right (Int.natCast_nonneg _)]
  exact_mod_cast Iff.rfl

/-- **`StrToH8`** is exact or flagged. -/
theorem strToH8_exact (d : Hex) :
    ExactOrFlagged unsignedWord (UnsignedFits 8) (some (d.value 16))
      (deliver (strToH8 d.text)) := by
  refine ExactOrFlagged.narrow (strToHex_exact d) (fun hx => ⟨hx.1, hx.2.trans (by norm_num)⟩)
    (c := fun w => decide (w &&& highBits8 ≠ 0)) fun w => ?_
  rw [decide_eq_true_eq, Ne, highBits8_eq, and_high_eq_zero_iff, unsignedWord_fits_iff]

/-- The low 16 bits of a word. -/
def pattern16 (w : Bit32) : ℤ := (w.toNat % 2 ^ 16 : ℕ)

/-- A word with its sign extended from 16 bits. -/
def extend16 (w : Bit32) : Bit32 := if w &&& signBit16 ≠ 0 then w ||| highBits16 else w

theorem extend16_spec {w : Bit32} (hw : w.toNat < 2 ^ 16) :
    pattern16 (extend16 w) = unsignedWord w ∧ SignedFits 16 (extend16 w).toInt := by
  have hbit : w &&& signBit16 = 0 ↔ w.toNat / 2 ^ 15 % 2 ≠ 1 :=
    and_twoPow_eq_zero w (show 15 < 32 by omega)
  have hhigh : highBits16.toNat = 2 ^ 16 * 65535 := by decide
  unfold extend16 pattern16 unsignedWord
  by_cases hsign : w &&& signBit16 = 0
  · rw [if_neg (not_not.mpr hsign)]
    rw [hbit] at hsign
    have := toInt_cases w
    norm_num [SignedFits]
    omega
  · rw [if_pos hsign, BitVec.or_comm]
    have hor : (highBits16 ||| w).toNat = highBits16.toNat + w.toNat := toNat_or_of_lt hhigh hw
    generalize highBits16 ||| w = v at *
    have := toInt_cases v
    rw [hbit] at hsign
    rw [hhigh] at hor
    norm_num [SignedFits]
    omega

/-- The words of 16 bits, before their signs are extended. -/
theorem strToH16_narrow (d : Hex) : ExactOrFlagged unsignedWord (UnsignedFits 16)
    (some (d.value 16))
    (deliver ((strToHex d.text).1 || decide ((strToHex d.text).2 &&& highBits16 ≠ 0),
      (strToHex d.text).2)) := by
  refine ExactOrFlagged.narrow (strToHex_exact d) (fun hx => ⟨hx.1, hx.2.trans (by norm_num)⟩)
    (c := fun w => decide (w &&& highBits16 ≠ 0)) fun w => ?_
  rw [decide_eq_true_eq, Ne, highBits16_eq, and_high_eq_zero_iff, unsignedWord_fits_iff]

theorem deliver_strToH16 (s : List Char) : deliver (strToH16 s) =
    (deliver ((strToHex s).1 || decide ((strToHex s).2 &&& highBits16 ≠ 0), (strToHex s).2)).map
      extend16 := by
  unfold strToH16 deliver
  dsimp only
  by_cases h : ((strToHex s).1 || decide ((strToHex s).2 &&& highBits16 ≠ 0)) = true
  · rw [if_pos h, if_pos h, Option.map_none]
  · rw [if_neg h, if_neg h, Option.map_some, extend16]
    simp only [Bool.eq_false_of_not_eq_true h, true_and]

/-- **`StrToH16`** is exact or flagged, and extends the sign of what it delivers. -/
theorem strToH16_exact (d : Hex) :
    ExactOrFlagged pattern16 (UnsignedFits 16) (some (d.value 16)) (deliver (strToH16 d.text)) ∧
      ∀ w ∈ deliver (strToH16 d.text), SignedFits 16 w.toInt := by
  have h := strToH16_narrow d
  rw [deliver_strToH16]
  have hlt : ∀ {w}, w ∈ deliver (_, (strToHex d.text).2) → w.toNat < 2 ^ 16 := fun {w} hw =>
    (unsignedWord_fits_iff w 16).mp (h.fits hw)
  refine ⟨h.map fun w hw => (extend16_spec (hlt hw)).1, fun w hw => ?_⟩
  obtain ⟨v, hv, rfl⟩ := Option.mem_map.mp hw
  exact (extend16_spec (hlt hv)).2

/-- **Integer literals** are read exactly or flagged, but for a negative `INT64` that is far too
large. -/
theorem literals_exact (d : Decimal) (h : Hex) :
    ExactOrFlagged BitVec.toInt (UnsignedFits 8) (some d.value) (deliver (strToI8 d.text)) ∧
    ExactOrFlagged BitVec.toInt (SignedFits 16) (some d.value) (deliver (strToI16 d.text)) ∧
    ExactOrFlagged BitVec.toInt (SignedFits 32) (some d.value) (deliver (strToInt d.text)) ∧
    (ExactOrFlagged signed (SignedFits 64) (some d.value) (deliver (strToI64 d.text)) ↔
      ¬ (d.sign = .minus ∧ 2 ^ 64 - 2 ^ 32 < d.magnitude ∧ d.magnitude < 2 ^ 64)) ∧
    ExactOrFlagged unsignedWord (UnsignedFits 8) (some (h.value 16)) (deliver (strToH8 h.text)) ∧
    (ExactOrFlagged pattern16 (UnsignedFits 16) (some (h.value 16)) (deliver (strToH16 h.text)) ∧
      ∀ w ∈ deliver (strToH16 h.text), SignedFits 16 w.toInt) ∧
    ExactOrFlagged unsignedWord (UnsignedFits 32) (some (h.value 16)) (deliver (strToHex h.text)) ∧
    ExactOrFlagged unsigned (UnsignedFits 64) (some (h.value 16)) (deliver (strToH64 h.text)) :=
  ⟨strToI8_exact d, strToI16_exact d, strToInt_exact d, strToI64_exact_iff d, strToH8_exact h,
    strToH16_exact h, strToHex_exact h, strToH64_exact h⟩

/-- The literal `-18446744073709551615`. -/
def farNegative : Decimal where
  sign := .minus
  digits := ⟨"18446744073709551615".toList, by decide, List.forall_iff_forall_mem.mp (by decide)⟩

/-- It is read as `1`, with no `Error`. -/
theorem strToI64_farNegative : strToI64 farNegative.text = (false, (0, 1)) ∧
    ¬ ExactOrFlagged signed (SignedFits 64) (some farNegative.value)
      (deliver (strToI64 farNegative.text)) := by
  have hread : strToI64 farNegative.text = (false, (0, 1)) := by decide +kernel
  refine ⟨hread, fun h => ?_⟩
  rw [hread] at h
  have hval := h.delivered (0, 1) rfl
  revert hval
  decide +kernel

end Extlib

end Kroc
