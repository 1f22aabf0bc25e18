import Mathlib.Tactic

/-!
# Lib/Shifts — runs of logical shifts

A logical shift of a word of `w` bits is an integer, positive to the right; a run of shifts is a
list of them.  A bit survives a run when no partial sum takes it out of the word.  Hence a run is
the shift by its sum exactly when every partial sum lies between zero and the sum.
-/

namespace Shifts

variable {w : ℕ}

/-- Shifting right by `s`, or left by `-s`. -/
def shift (x : BitVec w) (s : ℤ) : BitVec w :=
  if 0 ≤ s then x >>> s.toNat else x <<< (-s).toNat

theorem shift_natCast (x : BitVec w) (n : ℕ) : shift x n = x >>> n := by
  rw [shift, if_pos (Int.natCast_nonneg n), Int.toNat_natCast]

theorem shift_neg_natCast (x : BitVec w) (n : ℕ) : shift x (-n) = x <<< n := by
  rw [shift]
  split_ifs with h
  · obtain rfl : n = 0 := by omega
    simp
  · rw [neg_neg, Int.toNat_natCast]

/-- One shift after the other. -/
def run (l : List ℤ) (x : BitVec w) : BitVec w := l.foldl shift x

@[simp] theorem run_nil (x : BitVec w) : run [] x = x := rfl

@[simp] theorem run_cons (s : ℤ) (l : List ℤ) (x : BitVec w) :
    run (s :: l) x = run l (shift x s) := rfl

/-- The bit `i` after a shift was the bit `i + s` before. -/
theorem getLsbD_shift (x : BitVec w) (s : ℤ) (i : ℕ) : (shift x s).getLsbD i = true ↔
    i < w ∧ ∃ j : ℕ, (j : ℤ) = i + s ∧ x.getLsbD j = true := by
  unfold shift
  split_ifs with hs
  · rw [BitVec.getLsbD_ushiftRight]
    constructor
    · intro h
      have hlt := BitVec.lt_of_getLsbD h
      exact ⟨by omega, s.toNat + i, by omega, h⟩
    · rintro ⟨-, j, hj, h⟩
      rwa [show s.toNat + i = j by omega]
  · rw [BitVec.getLsbD_shiftLeft]
    constructor
    · intro h
      simp only [Bool.and_eq_true, decide_eq_true_eq, Bool.not_eq_true',
        decide_eq_false_iff_not] at h
      exact ⟨h.1.1, i - (-s).toNat, by omega, h.2⟩
    · rintro ⟨hi, j, hj, h⟩
      simp only [Bool.and_eq_true, decide_eq_true_eq, Bool.not_eq_true', decide_eq_false_iff_not]
      exact ⟨⟨hi, by omega⟩, by rwa [show i - (-s).toNat = j by omega]⟩

/-- The bit `j` stays in the word during the whole run. -/
def Survives (w : ℕ) (l : List ℤ) (j : ℤ) : Prop :=
  ∀ k, 0 ≤ j - (l.take k).sum ∧ j - (l.take k).sum < w

theorem survives_cons {s : ℤ} {l : List ℤ} {j : ℤ} :
    Survives w (s :: l) j ↔ (0 ≤ j ∧ j < w) ∧ Survives w l (j - s) := by
  constructor
  · intro h
    refine ⟨by simpa using h 0, fun k => ?_⟩
    have := h (k + 1)
    rw [List.take_succ_cons, List.sum_cons] at this
    constructor <;> linarith [this.1, this.2]
  · rintro ⟨h₀, h⟩ k
    cases k with
    | zero => simpa using h₀
    | succ k =>
      have := h k
      rw [List.take_succ_cons, List.sum_cons]
      constructor <;> linarith [this.1, this.2]

/-- **The bits after a run** are those that survive it. -/
theorem getLsbD_run (l : List ℤ) (x : BitVec w) (i : ℕ) : (run l x).getLsbD i = true ↔
    i < w ∧ ∃ j : ℕ, (j : ℤ) = i + l.sum ∧ Survives w l j ∧ x.getLsbD j = true := by
  induction l generalizing x with
  | nil =>
    constructor
    · intro h
      have hi := BitVec.lt_of_getLsbD h
      exact ⟨hi, i, by simp, fun k => by simpa using hi, h⟩
    · rintro ⟨-, j, hj, -, h⟩
      rw [List.sum_nil, add_zero, Nat.cast_inj] at hj
      rwa [← hj]
  | cons s l ih =>
    rw [run_cons, ih]
    refine and_congr_right fun _ => ?_
    constructor
    · rintro ⟨j, hj, hsurv, h⟩
      obtain ⟨hjw, t, ht, h⟩ := (getLsbD_shift x s j).mp h
      refine ⟨t, by rw [List.sum_cons]; omega, survives_cons.mpr ⟨?_, ?_⟩, h⟩
      · exact ⟨by omega, by exact_mod_cast BitVec.lt_of_getLsbD h⟩
      · rwa [ht, add_sub_cancel_right]
    · rintro ⟨t, ht, hsurv, h⟩
      obtain ⟨-, hsurv⟩ := survives_cons.mp hsurv
      have h₀ := hsurv 0
      rw [List.take_zero, List.sum_nil, sub_zero] at h₀
      rw [List.sum_cons] at ht
      refine ⟨(t - s).toNat, by omega, ?_, (getLsbD_shift x s _).mpr ⟨by omega, t, by omega, h⟩⟩
      rwa [Int.toNat_of_nonneg h₀.1]

/-- **A partial sum beyond the word** leaves nothing. -/
theorem run_eq_zero {l : List ℤ} {k : ℕ} (hk : (w : ℤ) ≤ |(l.take k).sum|) (x : BitVec w) :
    run l x = 0#w := by
  apply BitVec.eq_of_getLsbD_eq
  intro i _
  rw [BitVec.getLsbD_zero, Bool.eq_false_iff]
  intro h
  obtain ⟨-, j, -, hsurv, -⟩ := (getLsbD_run l x i).mp h
  have h₀ := hsurv 0
  have hk' := hsurv k
  rw [List.take_zero, List.sum_nil] at h₀
  rcases le_abs.mp hk with h | h <;> omega

/-- A shift within the word leaves something of the word of ones. -/
theorem shift_allOnes_ne_zero {s : ℤ} (hs : |s| < w) : shift (BitVec.allOnes w) s ≠ 0#w := by
  obtain ⟨hs₁, hs₂⟩ := abs_lt.mp hs
  intro h
  have hbit : (shift (BitVec.allOnes w) s).getLsbD (-s).toNat = true := by
    refine (getLsbD_shift _ _ _).mpr ⟨by omega, ((-s).toNat + s).toNat, by omega, ?_⟩
    rw [BitVec.getLsbD_allOnes, decide_eq_true_eq]
    omega
  rw [h, BitVec.getLsbD_zero] at hbit
  exact absurd hbit (by simp)

/-- All partial sums are between zero and the sum. -/
def Between (l : List ℤ) : Prop := ∀ k, min 0 l.sum ≤ (l.take k).sum ∧ (l.take k).sum ≤ max 0 l.sum

/-- **A run is one shift** exactly when no partial sum leaves the way to its sum. -/
theorem run_eq_shift_iff {l : List ℤ} (hsum : |l.sum| < w) :
    (∀ x : BitVec w, run l x = shift x l.sum) ↔ Between l := by
  obtain ⟨hs₁, hs₂⟩ := abs_lt.mp hsum
  constructor
  · intro h
    have hsurv : ∀ j : ℕ, j < w → 0 ≤ (j : ℤ) - l.sum → (j : ℤ) - l.sum < w → Survives w l j := by
      intro j hj h₀ h₁
      have hbit : (shift (BitVec.allOnes w) l.sum).getLsbD (j - l.sum).toNat = true := by
        refine (getLsbD_shift _ _ _).mpr ⟨by omega, j, by omega, ?_⟩
        rwa [BitVec.getLsbD_allOnes, decide_eq_true_eq]
      rw [← h, getLsbD_run] at hbit
      obtain ⟨-, t, ht, hsurv, -⟩ := hbit
      rwa [show (j : ℤ) = t by omega]
    intro k
    rcases le_total 0 l.sum with hpos | hneg
    · have hlow := (hsurv l.sum.toNat (by omega) (by omega) (by omega) k).1
      have hhigh := (hsurv (w - 1) (by omega) (by omega) (by omega) k).2
      omega
    · have hlow := (hsurv 0 (by omega) (by omega) (by omega) k).1
      have hhigh := (hsurv (w - 1 + l.sum).toNat (by omega) (by omega) (by omega) k).2
      omega
  · intro h x
    apply BitVec.eq_of_getLsbD_eq
    intro i hi
    rw [Bool.eq_iff_iff, getLsbD_run, getLsbD_shift]
    refine and_congr_right fun _ => exists_congr fun j => and_congr_right fun hj => ?_
    refine ⟨fun h => h.2, fun hx => ⟨fun k => ?_, hx⟩⟩
    have hjw := BitVec.lt_of_getLsbD hx
    have := h k
    omega

end Shifts
