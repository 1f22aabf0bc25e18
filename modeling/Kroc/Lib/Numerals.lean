import Mathlib.Data.Nat.Notation
import Mathlib.Order.Nat
import Mathlib.Tactic.Linarith

/-!
# Lib/Numerals — numbers read a digit at a time

An accumulator takes in digits and holds a number below a bound.  Once a number does not fit, a flag
is set that stays, and more digits only make the number larger.
-/

/-- The number of `v` with more digits. -/
def number (base v : ℕ) (digits : List ℕ) : ℕ := digits.foldl (fun v d => base * v + d) v

theorem number_cons (base v d : ℕ) (digits : List ℕ) :
    number base v (d :: digits) = number base (base * v + d) digits := rfl

variable {σ : Type*} {δ : Type*} {base bound : ℕ} {value : σ → ℕ} {digit : δ → ℕ} {v : ℕ}

/-- What has been read is the number `v`, or flagged as it does not fit. -/
def Holds (bound : ℕ) (value : σ → ℕ) (v : ℕ) (r : Bool × σ) : Prop :=
  (r.1 = true ∧ bound ≤ v) ∨ (r.1 = false ∧ value r.2 = v ∧ v < bound)

/-- The accumulator takes in a digit, and says whether the number has become too large. -/
def Accumulates (base bound : ℕ) (value : σ → ℕ) (digit : δ → ℕ) (step : σ → δ → Bool × σ) : Prop :=
  ∀ x d, digit d < base → value (step x d).2 = (base * value x + digit d) % bound ∧
    ((step x d).1 = true ↔ bound ≤ base * value x + digit d)

/-- **One more digit**. -/
theorem Holds.step {step : σ → δ → Bool × σ} (hstep : Accumulates base bound value digit step)
    (hbase : 1 ≤ base) {r : Bool × σ} {d : δ} (h : Holds bound value v r) (hd : digit d < base) :
    Holds bound value (base * v + digit d) (r.1 || (step r.2 d).1, (step r.2 d).2) := by
  obtain ⟨hval, hflag⟩ := hstep r.2 d hd
  obtain ⟨herr, hv⟩ | ⟨herr, hr, hv⟩ := h
  · have hle : 1 * v ≤ base * v := Nat.mul_le_mul_right v hbase
    exact Or.inl ⟨by rw [herr, Bool.true_or], by omega⟩
  · rw [hr] at hval hflag
    dsimp only [Holds]
    rw [herr, Bool.false_or]
    obtain hlt | hge := lt_or_ge (base * v + digit d) bound
    · rw [Nat.mod_eq_of_lt hlt] at hval
      exact Or.inr ⟨by rw [← Bool.not_eq_true, hflag]; omega, hval, hlt⟩
    · exact Or.inl ⟨hflag.mpr hge, hge⟩

/-- The flag is set if and only if the number does not fit. -/
theorem Holds.flag_iff {r : Bool × σ} (h : Holds bound value v r) : r.1 = true ↔ bound ≤ v := by
  obtain ⟨herr, hv⟩ | ⟨herr, -, hv⟩ := h
  · exact iff_of_true herr hv
  · exact iff_of_false (by rw [herr]; exact Bool.false_ne_true) (not_le.mpr hv)

theorem Holds.value_eq {r : Bool × σ} (h : Holds bound value v r) (hv : v < bound) :
    value r.2 = v := by
  obtain ⟨-, hle⟩ | ⟨-, hval, -⟩ := h
  · exact absurd hv (not_lt.mpr hle)
  · exact hval
