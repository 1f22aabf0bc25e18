import Kroc.Tvm.Sched
import Mathlib.Data.BitVec
import Mathlib.Data.Nat.Digits.Defs
import Mathlib.Tactic

/-!
# Tvm/Arith — checked arithmetic, and sums of several words

`ins_adc` of `runtime/libtvm/ins_pri.c`, and `ins_add`, `ins_sub`, `ins_mul`, `ins_ladd`,
`ins_lsub`, `ins_lsum` and `ins_ldiff` of `ins_sec.c`, for words of `w = WORD_BITS` bits that wrap
around.  An instruction that sets an error flag returns there and then, with its registers as they
were.
-/

namespace Kroc

namespace Tvm

/-- The evaluation stack, the operand register, and `EFLAG_INTOV` of the error flags. -/
@[ext]
structure Regs (w : ℕ) where
  areg : BitVec w
  breg : BitVec w
  creg : BitVec w
  oreg : BitVec w
  intov : Bool
  deriving DecidableEq

namespace Regs

open Ectx (Ret)

variable {w : ℕ}

/-! ## The instructions -/

/-- `SET_ERROR_FLAG (EFLAG_INTOV)` -/
def setErrorFlag (r : Regs w) : Ret × Regs w := (.error, { r with intov := true })

/-- `ins_adc` -/
def insAdc (r : Regs w) : Ret × Regs w :=
  let result := r.areg + r.oreg
  if ((result ^^^ r.areg) &&& (result ^^^ r.oreg)) >>> (w - 1) ≠ 0 then r.setErrorFlag
  else (.cont, { r with areg := result, oreg := 0 })

/-- `ins_add` -/
def insAdd (r : Regs w) : Ret × Regs w :=
  let result := r.breg + r.areg
  if ((result ^^^ r.breg) &&& (result ^^^ r.areg)) >>> (w - 1) ≠ 0 then r.setErrorFlag
  else (.cont, { r with areg := result, breg := r.creg })

/-- `ins_sub` -/
def insSub (r : Regs w) : Ret × Regs w :=
  let result := r.breg - r.areg
  if ((r.breg ^^^ r.areg) &&& (result ^^^ r.breg)) >>> (w - 1) ≠ 0 then r.setErrorFlag
  else (.cont, { r with areg := r.breg - r.areg, breg := r.creg })

/-- `ins_mul` -/
def insMul (r : Regs w) : Ret × Regs w :=
  (.cont, { r with areg := r.breg * r.areg, breg := r.creg })

/-- `ins_ladd` -/
def insLadd (r : Regs w) : Ret × Regs w :=
  let result := r.breg + r.areg + (r.creg &&& 1)
  if ((result ^^^ r.breg) &&& (result ^^^ r.areg)) >>> (w - 1) ≠ 0 then r.setErrorFlag
  else (.cont, { r with areg := result })

/-- `ins_lsub` -/
def insLsub (r : Regs w) : Ret × Regs w :=
  let result := r.breg - r.areg - (r.creg &&& 1)
  if ((r.breg ^^^ r.areg) &&& (result ^^^ r.breg)) >>> (w - 1) ≠ 0 then r.setErrorFlag
  else (.cont, { r with areg := result })

/-- `ins_lsum` -/
def insLsum (r : Regs w) : Ret × Regs w :=
  let resnocarry := r.breg + r.areg
  let result := resnocarry + (r.creg &&& 1)
  let carry :=
    ((r.breg &&& r.areg) ||| ((r.breg ||| r.areg) &&& ~~~resnocarry)) >>> (w - 1)
  (.cont, { r with areg := result, breg := carry })

/-- `ins_ldiff` -/
def insLdiff (r : Regs w) : Ret × Regs w :=
  let resnocarry := r.breg - r.areg
  let result := resnocarry - (r.creg &&& 1)
  let equiv := (r.breg &&& r.areg) - (r.breg ||| r.areg) - 1
  let carry := ((~~~r.breg &&& r.areg) ||| (equiv &&& result)) >>> (w - 1)
  (.cont, { r with areg := result, breg := carry })

/-! ## Signs -/

variable {x y c : BitVec w} {m n : ℤ}

/-- A word stands for the number. -/
def Representable (w : ℕ) (m : ℤ) : Prop := (BitVec.ofInt w m).toInt = m

instance (w : ℕ) (m : ℤ) : Decidable (Representable w m) := inferInstanceAs (Decidable (_ = m))

theorem signBit_ne_zero_iff (x : BitVec w) : x >>> (w - 1) ≠ 0 ↔ x.msb = true := by
  rw [Ne, ← BitVec.toNat_inj, BitVec.toNat_ushiftRight, Nat.shiftRight_eq_div_pow,
    BitVec.msb_eq_decide, decide_eq_true_iff]
  have hpos : 0 < 2 ^ (w - 1) := by positivity
  have hzero : (0 : BitVec w).toNat = 0 := by simp
  rw [hzero]
  rw [Nat.div_eq_zero_iff, not_or, not_lt]
  exact ⟨fun h => h.2, fun h => ⟨hpos.ne', h⟩⟩

/-- A sign bit on its own. -/
theorem toNat_signBit (x : BitVec w) : (x >>> (w - 1)).toNat = x.msb.toNat := by
  have hlt := x.isLt
  rcases Nat.eq_zero_or_pos w with rfl | hw
  · rw [BitVec.eq_nil x]
    rfl
  · have hpow : 2 ^ w = 2 * 2 ^ (w - 1) := by rw [← pow_succ', Nat.sub_add_cancel hw]
    rw [BitVec.toNat_ushiftRight, Nat.shiftRight_eq_div_pow, BitVec.msb_eq_decide]
    by_cases h : 2 ^ (w - 1) ≤ x.toNat
    · rw [decide_eq_true h, Bool.toNat_true, Nat.div_eq_of_lt_le (k := 1) (by omega) (by omega)]
    · rw [decide_eq_false h, Bool.toNat_false, Nat.div_eq_of_lt (by omega)]

theorem representable_iff (hw : 0 < w) :
    Representable w m ↔ -2 ^ (w - 1) ≤ m ∧ m < 2 ^ (w - 1) := by
  constructor
  · intro h
    rw [← show (BitVec.ofInt w m).toInt = m from h]
    exact ⟨BitVec.le_toInt _, BitVec.toInt_lt⟩
  · exact fun h => BitVec.toInt_ofInt_eq_self hw h.1 h.2

theorem msb_iff (x : BitVec w) : x.msb = true ↔ x.toInt < 0 := by
  rw [BitVec.msb_eq_toInt, decide_eq_true_iff]

theorem toInt_bounds (hw : 0 < w) (x : BitVec w) :
    -2 ^ (w - 1) ≤ x.toInt ∧ x.toInt < 2 ^ (w - 1) ∧ (2 : ℤ) ^ w = 2 * 2 ^ (w - 1) := by
  refine ⟨BitVec.le_toInt x, BitVec.toInt_lt, ?_⟩
  rw [← pow_succ', Nat.sub_add_cancel hw]

/-- A word for a number of one bit more: what is wrong is a multiple of `2 ^ w`, and its sign. -/
theorem toInt_ofInt_cases (hw : 0 < w) (hlow : -2 ^ w ≤ m) (hhigh : m < 2 ^ w) :
    Representable w m ∧ (BitVec.ofInt w m).toInt = m ∨
      ¬ Representable w m ∧ 2 ^ (w - 1) ≤ m ∧ (BitVec.ofInt w m).toInt < 0 ∨
      ¬ Representable w m ∧ m < -2 ^ (w - 1) ∧ 0 ≤ (BitVec.ofInt w m).toInt := by
  obtain ⟨hge, hlt, hpow⟩ := toInt_bounds hw (BitVec.ofInt w m)
  by_cases h : Representable w m
  · exact Or.inl ⟨h, h⟩
  · right
    have hmod : (BitVec.ofInt w m).toInt % 2 ^ w = m % 2 ^ w := by
      rw [BitVec.toInt_ofInt]
      have := Int.bmod_emod (x := m) (m := 2 ^ w)
      exact_mod_cast this
    have hdvd : (2 : ℤ) ^ w ∣ m - (BitVec.ofInt w m).toInt :=
      Int.ModEq.dvd hmod
    obtain ⟨k, hk⟩ := hdvd
    have hne : k ≠ 0 := by
      rintro rfl
      exact h (by rw [Representable]; linarith)
    rw [hpow] at hk hlow hhigh
    rw [representable_iff hw] at h
    rcases lt_or_gt_of_ne hne with hneg | hpos
    · have : 2 * 2 ^ (w - 1) * k ≤ 2 * 2 ^ (w - 1) * (-1) :=
        mul_le_mul_of_nonneg_left (by omega) (by positivity)
      exact Or.inr ⟨by rwa [representable_iff hw], by omega, by omega⟩
    · have : 2 * 2 ^ (w - 1) * 1 ≤ 2 * 2 ^ (w - 1) * k :=
        mul_le_mul_of_nonneg_left (by omega) (by positivity)
      exact Or.inl ⟨by rwa [representable_iff hw], by omega, by omega⟩

/-- **Overflow of a sum** shows in the signs, also with a carry. -/
theorem add_overflows_iff (hw : 0 < w) {carry : ℤ} (hcarry : carry = 0 ∨ carry = 1)
    (hx : c = BitVec.ofInt w (x.toInt + y.toInt + carry)) :
    ((c ^^^ x) &&& (c ^^^ y)) >>> (w - 1) ≠ 0 ↔
      ¬ Representable w (x.toInt + y.toInt + carry) := by
  obtain ⟨hxl, hxu, hpow⟩ := toInt_bounds hw x
  obtain ⟨hyl, hyu, -⟩ := toInt_bounds hw y
  have hsigns : ((c ^^^ x) &&& (c ^^^ y)).msb = true ↔
      ((c.toInt < 0 ↔ ¬ x.toInt < 0) ∧ (c.toInt < 0 ↔ ¬ y.toInt < 0)) := by
    rw [BitVec.msb_and, BitVec.msb_xor, BitVec.msb_xor, ← msb_iff, ← msb_iff, ← msb_iff]
    cases c.msb <;> cases x.msb <;> cases y.msb <;> decide
  rw [signBit_ne_zero_iff, hsigns, hx]
  rcases toInt_ofInt_cases hw (m := x.toInt + y.toInt + carry) (by omega) (by omega) with
    ⟨h, heq⟩ | ⟨h, hm, hneg⟩ | ⟨h, hm, hpos⟩
  · rw [heq]
    exact iff_of_false (by omega) (not_not.mpr h)
  · exact iff_of_true (by omega) h
  · exact iff_of_true (by omega) h

/-- **Overflow of a difference.** -/
theorem sub_overflows_iff (hw : 0 < w) {borrow : ℤ} (hborrow : borrow = 0 ∨ borrow = 1)
    (hx : c = BitVec.ofInt w (x.toInt - y.toInt - borrow)) :
    ((x ^^^ y) &&& (c ^^^ x)) >>> (w - 1) ≠ 0 ↔
      ¬ Representable w (x.toInt - y.toInt - borrow) := by
  obtain ⟨hxl, hxu, hpow⟩ := toInt_bounds hw x
  obtain ⟨hyl, hyu, -⟩ := toInt_bounds hw y
  have hsigns : ((x ^^^ y) &&& (c ^^^ x)).msb = true ↔
      ((x.toInt < 0 ↔ ¬ y.toInt < 0) ∧ (c.toInt < 0 ↔ ¬ x.toInt < 0)) := by
    rw [BitVec.msb_and, BitVec.msb_xor, BitVec.msb_xor, ← msb_iff, ← msb_iff, ← msb_iff]
    cases c.msb <;> cases x.msb <;> cases y.msb <;> decide
  rw [signBit_ne_zero_iff, hsigns, hx]
  rcases toInt_ofInt_cases hw (m := x.toInt - y.toInt - borrow) (by omega) (by omega) with
    ⟨h, heq⟩ | ⟨h, hm, hneg⟩ | ⟨h, hm, hpos⟩
  · rw [heq]
    exact iff_of_false (by omega) (not_not.mpr h)
  · exact iff_of_true (by omega) h
  · exact iff_of_true (by omega) h

/-! ## Exact or flagged -/

/-- **Exact or flagged**: `m` in `AREG` and no error where it fits, `EFLAG_INTOV` where it does
not. -/
def Checked (r : Regs w) (m : ℤ) (out : Ret × Regs w) : Prop :=
  if Representable w m then out.1 = .cont ∧ out.2.areg.toInt = m ∧ out.2.intov = r.intov
  else out.1 = .error ∧ out.2.intov = true

instance (r : Regs w) (m : ℤ) (out : Ret × Regs w) : Decidable (Checked r m out) := by
  unfold Checked
  infer_instance

variable {r s : Regs w}

/-- A check that fails exactly when the result does not fit. -/
theorem checked_of_overflows {p : Prop} [Decidable p] (hp : p ↔ ¬ Representable w m)
    (harea : s.areg = BitVec.ofInt w m) (hflag : s.intov = r.intov) :
    Checked r m (if p then r.setErrorFlag else (.cont, s)) := by
  unfold Checked
  by_cases h : Representable w m
  · rw [if_pos h, if_neg (hp.not.mpr (not_not.mpr h))]
    exact ⟨rfl, by rw [harea]; exact h, hflag⟩
  · rw [if_neg h, if_pos (hp.mpr h)]
    exact ⟨rfl, rfl⟩

/-- The carry, as a number. -/
def carry (r : Regs w) : ℤ := (r.creg.toNat % 2 : ℕ)

theorem carry_eq (r : Regs w) : r.carry = 0 ∨ r.carry = 1 := by
  unfold carry
  omega

theorem creg_and_one (r : Regs w) : r.creg &&& 1 = BitVec.ofInt w r.carry := by
  rw [carry, BitVec.ofInt_natCast]
  rcases Nat.eq_zero_or_pos w with rfl | hw
  · exact (BitVec.eq_nil _).trans (BitVec.eq_nil _).symm
  · apply BitVec.eq_of_toNat_eq
    have hone : (1 : BitVec w).toNat = 1 := BitVec.toNat_one hw
    have htwo : 2 ≤ 2 ^ w := by
      calc 2 = 2 ^ 1 := rfl
        _ ≤ 2 ^ w := Nat.pow_le_pow_right (by decide) hw
    rw [BitVec.toNat_and, hone, Nat.and_one_is_mod, BitVec.toNat_ofNat]
    exact (Nat.mod_eq_of_lt (by omega)).symm

theorem checked_adc (hw : 0 < w) (r : Regs w) :
    Checked r (r.areg.toInt + r.oreg.toInt) r.insAdc := by
  have hsum : r.areg + r.oreg = BitVec.ofInt w (r.areg.toInt + r.oreg.toInt) := by
    rw [BitVec.ofInt_add, BitVec.ofInt_toInt, BitVec.ofInt_toInt]
  have hover := add_overflows_iff hw (Or.inl rfl)
    (x := r.areg) (y := r.oreg) (c := r.areg + r.oreg) (by rw [add_zero, hsum])
  rw [add_zero] at hover
  exact checked_of_overflows hover hsum rfl

theorem checked_add (hw : 0 < w) (r : Regs w) :
    Checked r (r.breg.toInt + r.areg.toInt) r.insAdd := by
  have hsum : r.breg + r.areg = BitVec.ofInt w (r.breg.toInt + r.areg.toInt) := by
    rw [BitVec.ofInt_add, BitVec.ofInt_toInt, BitVec.ofInt_toInt]
  have hover := add_overflows_iff hw (Or.inl rfl)
    (x := r.breg) (y := r.areg) (c := r.breg + r.areg) (by rw [add_zero, hsum])
  rw [add_zero] at hover
  exact checked_of_overflows hover hsum rfl

theorem ofInt_sub (m n : ℤ) : BitVec.ofInt w (m - n) = BitVec.ofInt w m - BitVec.ofInt w n := by
  rw [Int.sub_eq_add_neg, BitVec.ofInt_add, BitVec.ofInt_neg, BitVec.sub_eq_add_neg]

theorem checked_sub (hw : 0 < w) (r : Regs w) :
    Checked r (r.breg.toInt - r.areg.toInt) r.insSub := by
  have hdiff : r.breg - r.areg = BitVec.ofInt w (r.breg.toInt - r.areg.toInt) := by
    rw [ofInt_sub, BitVec.ofInt_toInt, BitVec.ofInt_toInt]
  have hover := sub_overflows_iff hw (Or.inl rfl)
    (x := r.breg) (y := r.areg) (c := r.breg - r.areg) (by rw [sub_zero, hdiff])
  rw [sub_zero] at hover
  exact checked_of_overflows hover hdiff rfl

theorem checked_ladd (hw : 0 < w) (r : Regs w) :
    Checked r (r.breg.toInt + r.areg.toInt + r.carry) r.insLadd := by
  have hsum : r.breg + r.areg + (r.creg &&& 1) =
      BitVec.ofInt w (r.breg.toInt + r.areg.toInt + r.carry) := by
    rw [creg_and_one, BitVec.ofInt_add, BitVec.ofInt_add, BitVec.ofInt_toInt, BitVec.ofInt_toInt]
  exact checked_of_overflows (add_overflows_iff hw r.carry_eq hsum) hsum rfl

theorem checked_lsub (hw : 0 < w) (r : Regs w) :
    Checked r (r.breg.toInt - r.areg.toInt - r.carry) r.insLsub := by
  have hdiff : r.breg - r.areg - (r.creg &&& 1) =
      BitVec.ofInt w (r.breg.toInt - r.areg.toInt - r.carry) := by
    rw [creg_and_one, ofInt_sub, ofInt_sub, BitVec.ofInt_toInt, BitVec.ofInt_toInt]
  exact checked_of_overflows (sub_overflows_iff hw r.carry_eq hdiff) hdiff rfl

/-- `ins_mul` looks at no product. -/
theorem checked_mul_iff (r : Regs w) : Checked r (r.breg.toInt * r.areg.toInt) r.insMul ↔
    Representable w (r.breg.toInt * r.areg.toInt) := by
  have hprod : r.breg * r.areg = BitVec.ofInt w (r.breg.toInt * r.areg.toInt) := by
    rw [BitVec.ofInt_mul, BitVec.ofInt_toInt, BitVec.ofInt_toInt]
  unfold Checked
  by_cases h : Representable w (r.breg.toInt * r.areg.toInt)
  · rw [if_pos h]
    refine iff_of_true ⟨rfl, ?_, rfl⟩ h
    rw [insMul, hprod]
    exact h
  · rw [if_neg h]
    exact iff_of_false (fun hout => nomatch hout.1) h

/-- **Checked arithmetic is exact or flagged if the product of the operands fits**, and else
multiplication is neither. -/
theorem arithmetic_checked_iff (hw : 0 < w) (r : Regs w) :
    (Checked r (r.areg.toInt + r.oreg.toInt) r.insAdc ∧
      Checked r (r.breg.toInt + r.areg.toInt) r.insAdd ∧
      Checked r (r.breg.toInt - r.areg.toInt) r.insSub ∧
      Checked r (r.breg.toInt * r.areg.toInt) r.insMul ∧
      Checked r (r.breg.toInt + r.areg.toInt + r.carry) r.insLadd ∧
      Checked r (r.breg.toInt - r.areg.toInt - r.carry) r.insLsub) ↔
        Representable w (r.breg.toInt * r.areg.toInt) := by
  constructor
  · exact fun h => (checked_mul_iff r).mp h.2.2.2.1
  · intro h
    exact ⟨checked_adc hw r, checked_add hw r, checked_sub hw r, (checked_mul_iff r).mpr h,
      checked_ladd hw r, checked_lsub hw r⟩

/-- Minus one times the least word. -/
def leastProduct : Regs 32 := ⟨0x80000000, -1, 0, 0, false⟩

theorem arithmetic_not_checked : ¬ Checked leastProduct
    (leastProduct.breg.toInt * leastProduct.areg.toInt) leastProduct.insMul := by decide

/-- Seven times six. -/
theorem arithmetic_checked_sevenSix :
    (Checked (⟨6, 7, 0, 1, false⟩ : Regs 32) 7 (insAdc ⟨6, 7, 0, 1, false⟩) ∧
      Checked (⟨6, 7, 0, 1, false⟩ : Regs 32) 13 (insAdd ⟨6, 7, 0, 1, false⟩) ∧
      Checked (⟨6, 7, 0, 1, false⟩ : Regs 32) 1 (insSub ⟨6, 7, 0, 1, false⟩) ∧
      Checked (⟨6, 7, 0, 1, false⟩ : Regs 32) 42 (insMul ⟨6, 7, 0, 1, false⟩) ∧
      Checked (⟨6, 7, 0, 1, false⟩ : Regs 32) 13 (insLadd ⟨6, 7, 0, 1, false⟩) ∧
      Checked (⟨6, 7, 0, 1, false⟩ : Regs 32) 1 (insLsub ⟨6, 7, 0, 1, false⟩)) ↔
        Representable 32 42 := arithmetic_checked_iff (by decide) _

/-! ## Carries and borrows -/

theorem toNat_creg_and_one (hw : 0 < w) (c : BitVec w) : (c &&& 1).toNat = c.toNat % 2 := by
  rw [BitVec.toNat_and, show (1 : BitVec w).toNat = 1 from BitVec.toNat_one hw,
    Nat.and_one_is_mod]

theorem msb_iff_toNat (x : BitVec w) : x.msb = true ↔ 2 ^ (w - 1) ≤ x.toNat := by
  rw [BitVec.msb_eq_decide, decide_eq_true_iff]

/-- **The carry of `lsum`** is that of the two words, whatever was carried in. -/
theorem lsum_carry (hw : 0 < w) (x y : BitVec w) :
    (((x &&& y) ||| ((x ||| y) &&& ~~~(x + y))) >>> (w - 1)).toNat =
      (x.toNat + y.toNat) / 2 ^ w := by
  have hx := x.isLt
  have hy := y.isLt
  have hpow : 2 ^ w = 2 * 2 ^ (w - 1) := by rw [← pow_succ', Nat.sub_add_cancel hw]
  have hxy : (x + y).toNat = (x.toNat + y.toNat) % 2 ^ w := BitVec.toNat_add x y
  have hmsb : ((x &&& y) ||| ((x ||| y) &&& ~~~(x + y))).msb = true ↔
      2 ^ w ≤ x.toNat + y.toNat := by
    have hbits : ((x &&& y) ||| ((x ||| y) &&& ~~~(x + y))).msb = true ↔
        (x.msb = true ∧ y.msb = true) ∨ (x.msb = true ∨ y.msb = true) ∧ ¬ (x + y).msb = true := by
      rw [BitVec.msb_or, BitVec.msb_and, BitVec.msb_and, BitVec.msb_or, BitVec.msb_not]
      cases x.msb <;> cases y.msb <;> cases (x + y).msb <;> simp [hw]
    rw [hbits, msb_iff_toNat, msb_iff_toNat, msb_iff_toNat, hxy]
    rcases Nat.lt_or_ge (x.toNat + y.toNat) (2 ^ w) with hlt | hge
    · rw [Nat.mod_eq_of_lt hlt]
      omega
    · rw [Nat.mod_eq_sub_mod hge, Nat.mod_eq_of_lt (by omega)]
      omega
  rw [toNat_signBit]
  by_cases h : 2 ^ w ≤ x.toNat + y.toNat
  · rw [hmsb.mpr h, Bool.toNat_true, Nat.div_eq_of_lt_le (k := 1) (by omega) (by omega)]
  · rw [Bool.eq_false_iff.mpr (hmsb.not.mpr h), Bool.toNat_false, Nat.div_eq_of_lt (by omega)]

/-- **One `lsum`**: the sum with the carry, and a carry that forgets it. -/
theorem insLsum_spec (hw : 0 < w) (r : Regs w) :
    r.insLsum.2.areg.toNat = (r.breg.toNat + r.areg.toNat + r.creg.toNat % 2) % 2 ^ w ∧
      r.insLsum.2.breg.toNat = (r.breg.toNat + r.areg.toNat) / 2 ^ w := by
  refine ⟨?_, lsum_carry hw r.breg r.areg⟩
  change (r.breg + r.areg + (r.creg &&& 1)).toNat = _
  rw [BitVec.toNat_add, BitVec.toNat_add, toNat_creg_and_one hw, Nat.mod_add_mod]

theorem equiv_eq (x y : BitVec w) : (x &&& y) - (x ||| y) - 1 = ~~~(x ^^^ y) := by
  have hdisjoint : (x &&& y) &&& (x ^^^ y) = 0#w := by
    ext i hi
    rw [BitVec.getElem_and, BitVec.getElem_and, BitVec.getElem_xor, BitVec.getElem_zero]
    cases x[i] <;> cases y[i] <;> rfl
  have hor : (x &&& y) + (x ^^^ y) = x ||| y := by
    rw [BitVec.add_eq_or_of_and_eq_zero _ _ hdisjoint]
    ext i hi
    rw [BitVec.getElem_or, BitVec.getElem_or, BitVec.getElem_and, BitVec.getElem_xor]
    cases x[i] <;> cases y[i] <;> rfl
  have hcancel : ∀ a b : BitVec w, a - (a + b) = -b := fun a b => by ring
  rw [← hor, BitVec.not_eq_neg_add, hcancel]
  rfl

theorem toNat_sub_eq_emod (x y : BitVec w) :
    ((x - y).toNat : ℤ) = (x.toNat - y.toNat) % 2 ^ w := by
  rw [BitVec.toNat_sub, Int.natCast_mod, Nat.cast_add, Nat.cast_sub y.isLt.le, Nat.cast_pow,
    Nat.cast_ofNat, sub_add_eq_add_sub, add_sub_assoc, Int.add_emod_left]

/-- A difference modulo `2 ^ w`, with and without a borrow. -/
theorem emod_cases {m : ℤ} (hlow : -2 ^ w ≤ m) (hhigh : m < 2 ^ w) :
    0 ≤ m ∧ m % 2 ^ w = m ∨ m < 0 ∧ m % 2 ^ w = m + 2 ^ w := by
  rcases lt_or_ge m 0 with hneg | hpos
  · right
    refine ⟨hneg, ?_⟩
    rw [← Int.add_emod_right, Int.emod_eq_of_lt (by omega) (by omega)]
  · exact Or.inl ⟨hpos, Int.emod_eq_of_lt hpos hhigh⟩

/-- **One `ldiff`**: the difference with the borrow, and the borrow of both. -/
theorem insLdiff_spec (hw : 0 < w) (r : Regs w) :
    (r.insLdiff.2.areg.toNat : ℤ) = (r.breg.toNat - r.areg.toNat - (r.creg.toNat % 2 : ℕ)) % 2 ^ w ∧
      r.insLdiff.2.breg.toNat =
        if r.breg.toNat < r.areg.toNat + r.creg.toNat % 2 then 1 else 0 := by
  have hresult : ((r.breg - r.areg - (r.creg &&& 1)).toNat : ℤ) =
      (r.breg.toNat - r.areg.toNat - (r.creg.toNat % 2 : ℕ)) % 2 ^ w := by
    rw [toNat_sub_eq_emod, toNat_sub_eq_emod, toNat_creg_and_one hw, Int.emod_sub_emod]
  refine ⟨hresult, ?_⟩
  have hx := r.breg.isLt
  have hy := r.areg.isLt
  have hc := Nat.mod_lt r.creg.toNat (Nat.zero_lt_two)
  have hpow : 2 ^ w = 2 * 2 ^ (w - 1) := by rw [← pow_succ', Nat.sub_add_cancel hw]
  have hpow' : (2 : ℤ) ^ w = (2 ^ w : ℕ) := by push_cast; rfl
  have hmsb : ((~~~r.breg &&& r.areg) |||
      (~~~(r.breg ^^^ r.areg) &&& (r.breg - r.areg - (r.creg &&& 1)))).msb = true ↔
        r.breg.toNat < r.areg.toNat + r.creg.toNat % 2 := by
    generalize r.breg - r.areg - (r.creg &&& 1) = d at hresult ⊢
    generalize r.creg.toNat % 2 = c at hresult hc ⊢
    have hbits : ((~~~r.breg &&& r.areg) ||| (~~~(r.breg ^^^ r.areg) &&& d)).msb = true ↔
        (¬ r.breg.msb = true ∧ r.areg.msb = true) ∨
          (r.breg.msb = true ↔ r.areg.msb = true) ∧ d.msb = true := by
      rw [BitVec.msb_or, BitVec.msb_and, BitVec.msb_and, BitVec.msb_not, BitVec.msb_not,
        BitVec.msb_xor]
      cases r.breg.msb <;> cases r.areg.msb <;> cases d.msb <;> simp [hw]
    rw [hbits, msb_iff_toNat, msb_iff_toNat, msb_iff_toNat]
    rcases emod_cases (w := w) (m := r.breg.toNat - r.areg.toNat - c) (by omega) (by omega) with
      ⟨hm, heq⟩ | ⟨hm, heq⟩
    · rw [heq] at hresult
      omega
    · rw [heq] at hresult
      omega
  change (((~~~r.breg &&& r.areg) ||| (((r.breg &&& r.areg) - (r.breg ||| r.areg) - 1) &&&
    (r.breg - r.areg - (r.creg &&& 1)))) >>> (w - 1)).toNat = _
  rw [equiv_eq, toNat_signBit]
  by_cases h : r.breg.toNat < r.areg.toNat + r.creg.toNat % 2
  · rw [hmsb.mpr h, if_pos h, Bool.toNat_true]
  · rw [Bool.eq_false_iff.mpr (hmsb.not.mpr h), if_neg h, Bool.toNat_false]

/-! ## Numbers of several words -/

/-- The number that words stand for, the least significant first. -/
def value (ds : List (BitVec w)) : ℕ := Nat.ofDigits (2 ^ w) (ds.map BitVec.toNat)

@[simp]
theorem value_nil : value ([] : List (BitVec w)) = 0 := rfl

theorem value_cons (d : BitVec w) (ds : List (BitVec w)) :
    value (d :: ds) = d.toNat + 2 ^ w * value ds := by
  rw [value, List.map_cons, Nat.ofDigits_cons]
  rfl

theorem value_lt (ds : List (BitVec w)) : value ds < (2 ^ w) ^ ds.length := by
  induction ds with
  | nil => exact Nat.zero_lt_one
  | cons d ds ih =>
    rw [value_cons, List.length_cons, pow_succ']
    calc d.toNat + 2 ^ w * value ds < 2 ^ w + 2 ^ w * value ds := by
          exact Nat.add_lt_add_right d.isLt _
      _ = 2 ^ w * (value ds + 1) := by ring
      _ ≤ 2 ^ w * (2 ^ w) ^ ds.length := Nat.mul_le_mul_left _ ih

/-- An instruction on the words of two numbers, `BREG` of one step the `CREG` of the next. -/
def chain (ins : Regs w → Ret × Regs w) : BitVec w → List (BitVec w × BitVec w) →
    List (BitVec w) × BitVec w
  | c, [] => ([], c)
  | c, (x, y) :: xys =>
    let r := (ins ⟨y, x, c, 0, false⟩).2
    let rest := chain ins r.breg xys
    (r.areg :: rest.1, rest.2)

/-- The first number, and the second. -/
def left (xys : List (BitVec w × BitVec w)) : ℕ := value (xys.map Prod.fst)

def right (xys : List (BitVec w × BitVec w)) : ℕ := value (xys.map Prod.snd)

variable {xys : List (BitVec w × BitVec w)} {i : ℕ}

theorem left_cons (x y : BitVec w) (xys : List (BitVec w × BitVec w)) :
    left ((x, y) :: xys) = x.toNat + 2 ^ w * left xys := value_cons x _

theorem right_cons (x y : BitVec w) (xys : List (BitVec w × BitVec w)) :
    right ((x, y) :: xys) = y.toNat + 2 ^ w * right xys := value_cons y _

theorem left_lt (xys : List (BitVec w × BitVec w)) : left xys < (2 ^ w) ^ xys.length := by
  have h := value_lt (xys.map Prod.fst)
  rwa [List.length_map] at h

theorem right_lt (xys : List (BitVec w × BitVec w)) : right xys < (2 ^ w) ^ xys.length := by
  have h := value_lt (xys.map Prod.snd)
  rwa [List.length_map] at h

theorem length_chain (ins : Regs w → Ret × Regs w) (c : BitVec w)
    (xys : List (BitVec w × BitVec w)) : (chain ins c xys).1.length = xys.length := by
  induction xys generalizing c with
  | nil => rfl
  | cons xy xys ih => exact congrArg Nat.succ (ih _)

/-! ### Sums -/

/-- The carry that comes to word `i` of a sum, with `c` carried in. -/
def carryInto (c : ℕ) (xys : List (BitVec w × BitVec w)) (i : ℕ) : ℕ :=
  (left (xys.take i) + right (xys.take i) + c) / (2 ^ w) ^ i

theorem carryInto_zero (c : ℕ) (xys : List (BitVec w × BitVec w)) : carryInto c xys 0 = c := by
  simp [carryInto, left, right]

theorem carryInto_succ (c : ℕ) (x y : BitVec w) (xys : List (BitVec w × BitVec w)) (i : ℕ) :
    carryInto c ((x, y) :: xys) (i + 1) =
      carryInto ((x.toNat + y.toNat + c) / 2 ^ w) xys i := by
  have hpos : 0 < 2 ^ w := by positivity
  rw [carryInto, List.take_succ_cons, left_cons, right_cons, pow_succ', ← Nat.div_div_eq_div_mul,
    carryInto]
  congr 1
  rw [show x.toNat + 2 ^ w * left (xys.take i) + (y.toNat + 2 ^ w * right (xys.take i)) + c =
      x.toNat + y.toNat + c + 2 ^ w * (left (xys.take i) + right (xys.take i)) by ring,
    Nat.add_mul_div_left _ _ hpos]
  ring

/-- **No carry comes to a word that it would have to pass through.** -/
def Stops (c : ℕ) (xys : List (BitVec w × BitVec w)) : Prop :=
  ∀ i x y, xys[i]? = some (x, y) → x.toNat + y.toNat = 2 ^ w - 1 → carryInto c xys i = 0

theorem stops_cons_iff (c : ℕ) (x y : BitVec w) (xys : List (BitVec w × BitVec w)) :
    Stops c ((x, y) :: xys) ↔ (x.toNat + y.toNat = 2 ^ w - 1 → c = 0) ∧
      Stops ((x.toNat + y.toNat + c) / 2 ^ w) xys := by
  constructor
  · intro h
    refine ⟨fun hfull => ?_, fun i x' y' hi hfull => ?_⟩
    · rw [← carryInto_zero c ((x, y) :: xys)]
      exact h 0 x y rfl hfull
    · rw [← carryInto_succ]
      exact h (i + 1) x' y' hi hfull
  · rintro ⟨hfirst, hrest⟩ i x' y' hi hfull
    cases i with
    | zero =>
      cases hi
      rw [carryInto_zero]
      exact hfirst hfull
    | succ i =>
      rw [carryInto_succ]
      exact hrest i x' y' hi hfull

/-- What a chain of sums leaves, its words and its carry. -/
def total (c : BitVec w) (xys : List (BitVec w × BitVec w)) : ℕ :=
  value (chain insLsum c xys).1 + (2 ^ w) ^ xys.length * (chain insLsum c xys).2.toNat

/-- One more word: what it adds up to, and what its carry forgets. -/
theorem total_cons (hw : 0 < w) {c : BitVec w} (hc : c.toNat ≤ 1) (x y : BitVec w)
    (xys : List (BitVec w × BitVec w)) : ∃ c' : BitVec w, c'.toNat ≤ 1 ∧
      c'.toNat = (x.toNat + y.toNat) / 2 ^ w ∧
      total c ((x, y) :: xys) = (x.toNat + y.toNat + c.toNat) % 2 ^ w + 2 ^ w * total c' xys := by
  obtain ⟨hsum, hcarry⟩ := insLsum_spec hw ⟨y, x, c, 0, false⟩
  refine ⟨(insLsum ⟨y, x, c, 0, false⟩).2.breg, ?_, hcarry, ?_⟩
  · rw [hcarry]
    have hx := x.isLt
    have hy := y.isLt
    exact Nat.le_of_lt_succ (Nat.div_lt_of_lt_mul (by omega))
  · rw [total, chain, value_cons, hsum, Nat.mod_eq_of_lt (Nat.lt_succ_of_le hc), total,
      List.length_cons, pow_succ']
    ring

/-- The next carry is lost exactly where it would have to pass through. -/
theorem carry_cases {x y : BitVec w} {c : ℕ} (hc : c ≤ 1) :
    (x.toNat + y.toNat + c) / 2 ^ w = (x.toNat + y.toNat) / 2 ^ w ∧
        (x.toNat + y.toNat = 2 ^ w - 1 → c = 0) ∨
      (x.toNat + y.toNat + c) / 2 ^ w = (x.toNat + y.toNat) / 2 ^ w + 1 ∧
        ¬ (x.toNat + y.toNat = 2 ^ w - 1 → c = 0) := by
  have hpos : 0 < 2 ^ w := by positivity
  by_cases hlost : x.toNat + y.toNat = 2 ^ w - 1 ∧ c = 1
  · right
    rw [hlost.1, hlost.2, Nat.sub_add_cancel hpos, Nat.div_self hpos, Nat.div_eq_of_lt (by omega)]
    exact ⟨rfl, fun h => absurd (h rfl) Nat.one_ne_zero⟩
  · left
    refine ⟨?_, fun hfull => by omega⟩
    have hx := x.isLt
    have hy := y.isLt
    rcases Nat.lt_or_ge (x.toNat + y.toNat) (2 ^ w) with hlt | hge
    · rw [Nat.div_eq_of_lt hlt, Nat.div_eq_of_lt (by omega)]
    · rw [Nat.div_eq_of_lt_le (k := 1) (by omega) (by omega),
        Nat.div_eq_of_lt_le (k := 1) (by omega) (by omega)]

/-- A chain never adds up to too much. -/
theorem total_le (hw : 0 < w) {c : BitVec w} (hc : c.toNat ≤ 1) :
    total c xys ≤ left xys + right xys + c.toNat := by
  induction xys generalizing c with
  | nil => simp [total, chain, left, right]
  | cons xy xys ih =>
    obtain ⟨x, y⟩ := xy
    obtain ⟨c', hc', hcarry, htotal⟩ := total_cons hw hc x y xys
    have hrest := ih hc'
    have hsplit := Nat.mod_add_div (x.toNat + y.toNat + c.toNat) (2 ^ w)
    have hle : c'.toNat ≤ (x.toNat + y.toNat + c.toNat) / 2 ^ w := by
      rw [hcarry]
      exact Nat.div_le_div_right (Nat.le_add_right _ _)
    rw [htotal, left_cons, right_cons]
    have hmul : 2 ^ w * total c' xys ≤ 2 ^ w * (left xys + right xys +
        (x.toNat + y.toNat + c.toNat) / 2 ^ w) :=
      Nat.mul_le_mul_left _ (hrest.trans (Nat.add_le_add_left hle _))
    rw [mul_add, mul_add] at hmul
    omega

/-- **A chain of sums is exact if every carry stops.** -/
theorem total_eq_iff (hw : 0 < w) {c : BitVec w} (hc : c.toNat ≤ 1) :
    total c xys = left xys + right xys + c.toNat ↔ Stops c.toNat xys := by
  induction xys generalizing c with
  | nil =>
    refine iff_of_true (by simp [total, chain, left, right]) fun i x y hi => ?_
    simp at hi
  | cons xy xys ih =>
    obtain ⟨x, y⟩ := xy
    obtain ⟨c', hc', hcarry, htotal⟩ := total_cons hw hc x y xys
    have hpos : 0 < 2 ^ w := by positivity
    have hsplit := Nat.mod_add_div (x.toNat + y.toNat + c.toNat) (2 ^ w)
    have hiff : total c ((x, y) :: xys) = left ((x, y) :: xys) + right ((x, y) :: xys) + c.toNat ↔
        total c' xys = left xys + right xys + (x.toNat + y.toNat + c.toNat) / 2 ^ w := by
      rw [htotal, left_cons, right_cons, ← Nat.mul_right_inj hpos.ne' (b := total c' xys), mul_add,
        mul_add]
      omega
    rw [hiff, stops_cons_iff]
    rcases carry_cases hc (x := x) (y := y) with ⟨hsame, hfirst⟩ | ⟨hmore, hfirst⟩
    · rw [hsame, ← hcarry, ih hc', hcarry]
      exact ⟨fun h => ⟨hfirst, h⟩, fun h => h.2⟩
    · refine iff_of_false (fun h => ?_) fun h => hfirst h.1
      have hle : total c' xys ≤ left xys + right xys + c'.toNat := total_le hw hc'
      rw [hmore, ← hcarry] at h
      omega

/-! ### Differences -/

/-- **A chain of differences is exact**, with its borrow. -/
theorem chain_insLdiff (hw : 0 < w) {c : BitVec w} (hc : c.toNat ≤ 1) :
    (value (chain insLdiff c xys).1 : ℤ) - (2 ^ w) ^ xys.length * (chain insLdiff c xys).2.toNat =
        left xys - right xys - c.toNat ∧ (chain insLdiff c xys).2.toNat ≤ 1 := by
  induction xys generalizing c with
  | nil => exact ⟨by simp [chain, left, right], hc⟩
  | cons xy xys ih =>
    obtain ⟨x, y⟩ := xy
    obtain ⟨hdiff, hborrow⟩ := insLdiff_spec hw ⟨y, x, c, 0, false⟩
    dsimp only at hdiff hborrow
    rw [Nat.mod_eq_of_lt (Nat.lt_succ_of_le hc)] at hdiff hborrow
    have hle : (insLdiff ⟨y, x, c, 0, false⟩).2.breg.toNat ≤ 1 := by
      rw [hborrow]
      split_ifs <;> decide
    obtain ⟨hrest, hlast⟩ := ih hle
    refine ⟨?_, hlast⟩
    have hx := x.isLt
    have hy := y.isLt
    have hpow : (2 : ℤ) ^ w = (2 ^ w : ℕ) := by push_cast; rfl
    have hword : ((insLdiff ⟨y, x, c, 0, false⟩).2.areg.toNat : ℤ) =
        x.toNat - y.toNat - c.toNat + 2 ^ w * (insLdiff ⟨y, x, c, 0, false⟩).2.breg.toNat := by
      rw [hdiff, hborrow]
      rcases emod_cases (w := w) (m := x.toNat - y.toNat - c.toNat) (by omega) (by omega) with
        ⟨hm, heq⟩ | ⟨hm, heq⟩
      · rw [heq, if_neg (by omega)]
        simp
      · rw [heq, if_pos (by omega)]
        simp
    rw [chain, value_cons, left_cons, right_cons, List.length_cons, pow_succ']
    push_cast
    rw [hword]
    linear_combination (2 : ℤ) ^ w * hrest

/-! ### Both -/

/-- What a chain of additions is to leave: the sum of as many words, and the carry. -/
def SumExact (xys : List (Word × Word)) : Prop :=
  value (chain insLsum 0 xys).1 = (left xys + right xys) % (2 ^ 32) ^ xys.length ∧
    (chain insLsum 0 xys).2.toNat = (left xys + right xys) / (2 ^ 32) ^ xys.length

/-- What a chain of subtractions is to leave: the difference of as many words, and the borrow. -/
def DiffExact (xys : List (Word × Word)) : Prop :=
  (value (chain insLdiff 0 xys).1 : ℤ) =
      ((left xys : ℤ) - right xys) % (2 ^ 32) ^ xys.length ∧
    (chain insLdiff 0 xys).2.toNat = if left xys < right xys then 1 else 0

theorem sumExact_iff (xys : List (Word × Word)) :
    SumExact xys ↔ total 0 xys = left xys + right xys := by
  have hlt := value_lt (chain insLsum 0 xys).1
  rw [length_chain] at hlt
  have hpos : 0 < (2 ^ 32) ^ xys.length := by positivity
  constructor
  · rintro ⟨hvalue, hcarry⟩
    rw [total, hvalue, hcarry, Nat.mod_add_div]
  · intro h
    rw [SumExact, ← h, total, Nat.add_mul_mod_self_left, Nat.mod_eq_of_lt hlt,
      Nat.add_mul_div_left _ _ hpos, Nat.div_eq_of_lt hlt, zero_add]
    exact ⟨rfl, rfl⟩

theorem diffExact (xys : List (Word × Word)) : DiffExact xys := by
  obtain ⟨hexact, hborrow⟩ := chain_insLdiff (by decide) (c := (0 : Word)) (by decide)
  have hlt := value_lt (chain insLdiff 0 xys).1
  rw [length_chain] at hlt
  have hleft := left_lt xys
  have hright := right_lt xys
  unfold DiffExact
  generalize chain insLdiff 0 xys = out at hexact hborrow hlt ⊢
  have hcast : ((2 : ℤ) ^ 32) ^ xys.length = ((2 ^ 32) ^ xys.length : ℕ) := by push_cast; rfl
  rw [hcast] at hexact ⊢
  generalize (2 ^ 32) ^ xys.length = B at hexact hlt hleft hright ⊢
  rw [show ((0 : Word).toNat : ℤ) = 0 from rfl, sub_zero] at hexact
  rcases Nat.le_one_iff_eq_zero_or_eq_one.mp hborrow with h | h
  · rw [h, Nat.cast_zero, mul_zero, sub_zero] at hexact
    rw [← hexact, Int.emod_eq_of_lt (by omega) (by omega), h, if_neg (by omega)]
    exact ⟨rfl, rfl⟩
  · rw [h, Nat.cast_one, mul_one] at hexact
    rw [← hexact, ← Int.add_emod_right, sub_add_cancel, Int.emod_eq_of_lt (by omega) (by omega), h,
      if_pos (by omega)]
    exact ⟨rfl, rfl⟩

/-- **Sums and differences of several words are exact if every carry stops**, that is, if no carry
comes to two words that add up to `2 ^ 32 - 1`. -/
theorem chains_exact_iff (xys : List (Word × Word)) :
    SumExact xys ∧ DiffExact xys ↔ Stops 0 xys := by
  rw [sumExact_iff, and_iff_left (diffExact xys)]
  exact total_eq_iff (by decide) (c := (0 : Word)) (by decide)

/-- `2 ^ 64 - 1` and one more: the carry of the first word does not get through the second. -/
theorem chains_not_exact : ¬ SumExact [(0xFFFFFFFF, 1), (0xFFFFFFFF, 0)] := by
  unfold SumExact
  decide

end Regs

end Tvm

end Kroc
