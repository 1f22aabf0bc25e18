import Mathlib.Tactic

/-!
# Lib/Triangle — a symmetric relation, packed

The rows `0 … n` of a symmetric matrix up to the diagonal, one after the other: row `i` has `i + 1`
places.  `index` is the place of a pair, in whichever order, and bits at these places of an array of
words are a symmetric relation.
-/

namespace Triangle

/-! ## Places -/

/-- Where row `n` starts. -/
def start (n : ℕ) : ℕ := ((n + 1) * n) >>> 1

/-- The place of a pair. -/
def index (i j : ℕ) : ℕ := if i > j then start i + j else start j + i

variable {i j k l m n : ℕ}

theorem two_mul_start (n : ℕ) : 2 * start n = (n + 1) * n := by
  rw [start, Nat.shiftRight_eq_div_pow, pow_one]
  exact Nat.mul_div_cancel' (even_iff_two_dvd.mp (mul_comm n (n + 1) ▸ Nat.even_mul_succ_self n))

theorem start_succ (n : ℕ) : start (n + 1) = start n + (n + 1) := by
  have h := two_mul_start n
  have h' := two_mul_start (n + 1)
  have : (n + 1 + 1) * (n + 1) = (n + 1) * n + 2 * (n + 1) := by ring
  omega

/-- A row ends before the next starts. -/
theorem start_add_lt (hi : i < k) (hj : j ≤ i) : start i + j < start k := by
  obtain ⟨d, rfl⟩ := Nat.exists_eq_add_of_lt hi
  induction d with
  | zero =>
    rw [add_zero, start_succ]
    omega
  | succ d ih =>
    have := ih (by omega)
    rw [show i + (d + 1) + 1 = i + d + 1 + 1 by ring, start_succ]
    omega

theorem start_add_inj (hj : j ≤ i) (hl : l ≤ k) (h : start i + j = start k + l) :
    i = k ∧ j = l := by
  rcases lt_trichotomy i k with hlt | rfl | hlt
  · have := start_add_lt hlt hj
    omega
  · exact ⟨rfl, by omega⟩
  · have := start_add_lt hlt hl
    omega

theorem index_comm (i j : ℕ) : index i j = index j i := by
  unfold index
  rcases lt_trichotomy i j with hlt | rfl | hlt
  · rw [if_neg (by omega), if_pos hlt]
  · rfl
  · rw [if_pos hlt, if_neg (by omega)]

/-- **A place is of one pair**, in either order. -/
theorem index_eq_iff : index i j = index k l ↔ (i = k ∧ j = l) ∨ (i = l ∧ j = k) := by
  constructor
  · intro h
    unfold index at h
    split_ifs at h with hij hkl hkl
    · exact Or.inl (start_add_inj hij.le hkl.le h)
    · exact Or.inr (start_add_inj hij.le (not_lt.mp hkl) h)
    · obtain ⟨hj, hi⟩ := start_add_inj (not_lt.mp hij) hkl.le h
      exact Or.inr ⟨hi, hj⟩
    · obtain ⟨hj, hi⟩ := start_add_inj (not_lt.mp hij) (not_lt.mp hkl) h
      exact Or.inl ⟨hi, hj⟩
  · rintro (⟨rfl, rfl⟩ | ⟨rfl, rfl⟩)
    · rfl
    · exact index_comm i j

/-! ## Bits -/

variable {s : ℕ}

/-- Bit `n` of an array of words of `2 ^ s` bits. -/
def testbit (array : ℕ → BitVec (2 ^ s)) (n : ℕ) : Bool :=
  array (n >>> s) &&& 1#(2 ^ s) <<< (n &&& (2 ^ s - 1)) ≠ 0

/-- The array with bit `n` set. -/
def setbit (array : ℕ → BitVec (2 ^ s)) (n : ℕ) : ℕ → BitVec (2 ^ s) :=
  Function.update array (n >>> s) (array (n >>> s) ||| 1#(2 ^ s) <<< (n &&& (2 ^ s - 1)))

theorem testbit_eq (array : ℕ → BitVec (2 ^ s)) (n : ℕ) :
    testbit array n = (array (n / 2 ^ s)).getLsbD (n % 2 ^ s) := by
  have hmod : n &&& (2 ^ s - 1) = n % 2 ^ s := Nat.and_two_pow_sub_one_eq_mod n s
  have hlt : n % 2 ^ s < 2 ^ s := Nat.mod_lt _ (Nat.two_pow_pos s)
  have hne : BitVec.twoPow (2 ^ s) (n % 2 ^ s) ≠ 0 := fun h => by
    have := congrArg (BitVec.getLsbD · (n % 2 ^ s)) h
    simp [hlt] at this
  rw [testbit, hmod, Nat.shiftRight_eq_div_pow, ← BitVec.twoPow_eq, BitVec.and_twoPow]
  split_ifs with hbit
  · rw [hbit]
    exact decide_eq_true hne
  · rw [Bool.eq_false_iff.mpr hbit]
    exact decide_eq_false (not_not.mpr rfl)

/-- **Setting a bit sets that bit.** -/
theorem testbit_setbit (array : ℕ → BitVec (2 ^ s)) (n m : ℕ) :
    testbit (setbit array n) m = (decide (m = n) || testbit array m) := by
  have hmod : n &&& (2 ^ s - 1) = n % 2 ^ s := Nat.and_two_pow_sub_one_eq_mod n s
  rw [testbit_eq, testbit_eq, setbit, hmod, Nat.shiftRight_eq_div_pow, ← BitVec.twoPow_eq]
  by_cases hword : m / 2 ^ s = n / 2 ^ s
  · have hbit : m % 2 ^ s = n % 2 ^ s ↔ m = n := by
      refine ⟨fun h => ?_, fun h => h ▸ rfl⟩
      rw [← Nat.div_add_mod m (2 ^ s), ← Nat.div_add_mod n (2 ^ s), hword, h]
    rw [hword, Function.update_self, BitVec.getLsbD_or, BitVec.getLsbD_twoPow, Bool.or_comm]
    have hlt : n % 2 ^ s < 2 ^ s := Nat.mod_lt _ (Nat.two_pow_pos s)
    rw [decide_eq_true hlt, Bool.true_and, decide_eq_decide.mpr (eq_comm.trans hbit)]
  · have hne : m ≠ n := fun h => hword (by rw [h])
    rw [Function.update_of_ne hword, decide_eq_false hne, Bool.false_or]

/-- The array with bit `n` clear. -/
def clearbit (array : ℕ → BitVec (2 ^ s)) (n : ℕ) : ℕ → BitVec (2 ^ s) :=
  Function.update array (n >>> s) (array (n >>> s) &&& ~~~(1#(2 ^ s) <<< (n &&& (2 ^ s - 1))))

/-- **Clearing a bit clears that bit.** -/
theorem testbit_clearbit (array : ℕ → BitVec (2 ^ s)) (n m : ℕ) :
    testbit (clearbit array n) m = (!decide (m = n) && testbit array m) := by
  have hmod : n &&& (2 ^ s - 1) = n % 2 ^ s := Nat.and_two_pow_sub_one_eq_mod n s
  rw [testbit_eq, testbit_eq, clearbit, hmod, Nat.shiftRight_eq_div_pow, ← BitVec.twoPow_eq]
  by_cases hword : m / 2 ^ s = n / 2 ^ s
  · have hbit : n % 2 ^ s = m % 2 ^ s ↔ m = n := by
      refine ⟨fun h => ?_, fun h => h ▸ rfl⟩
      rw [← Nat.div_add_mod m (2 ^ s), ← Nat.div_add_mod n (2 ^ s), hword, h]
    have hlt : n % 2 ^ s < 2 ^ s := Nat.mod_lt _ (Nat.two_pow_pos s)
    have hlt' : m % 2 ^ s < 2 ^ s := Nat.mod_lt _ (Nat.two_pow_pos s)
    rw [hword, Function.update_self, BitVec.getLsbD_and, BitVec.getLsbD_not, BitVec.getLsbD_twoPow,
      Bool.and_comm, decide_eq_true hlt, decide_eq_true hlt', Bool.true_and, Bool.true_and,
      decide_eq_decide.mpr hbit]
  · have hne : m ≠ n := fun h => hword (by rw [h])
    rw [Function.update_of_ne hword, decide_eq_false hne, Bool.not_false, Bool.true_and]

/-- No bit of words that are zero is set. -/
theorem testbit_of_word {array : ℕ → BitVec (2 ^ s)} (h : array (n / 2 ^ s) = 0) :
    testbit array n = false := by
  rw [testbit_eq, h]
  exact BitVec.getLsbD_zero

/-- The bit of a pair. -/
def testPair (array : ℕ → BitVec (2 ^ s)) (i j : ℕ) : Bool := testbit array (index i j)

def setPair (array : ℕ → BitVec (2 ^ s)) (i j : ℕ) : ℕ → BitVec (2 ^ s) := setbit array (index i j)

theorem testPair_comm (array : ℕ → BitVec (2 ^ s)) (i j : ℕ) :
    testPair array i j = testPair array j i := by
  rw [testPair, testPair, index_comm]

/-- Setting the pairs of `n` with some of a list. -/
theorem testbit_foldl_setPair (c : ℕ → Bool) (n p : ℕ) : ∀ (l : List ℕ)
    (array : ℕ → BitVec (2 ^ s)),
    testbit (l.foldl (fun array i => if c i then setPair array i n else array) array) p = true ↔
      testbit array p = true ∨ ∃ i ∈ l, c i = true ∧ p = index i n
  | [], _ => by simp
  | k :: l, array => by
    have hk : testbit (if c k then setPair array k n else array) p = true ↔
        testbit array p = true ∨ (c k = true ∧ p = index k n) := by
      split_ifs with hc
      · rw [setPair, testbit_setbit, Bool.or_eq_true, decide_eq_true_iff, hc]
        tauto
      · simp [hc]
    rw [List.foldl_cons, testbit_foldl_setPair c n p l, hk, or_assoc]
    simp only [List.mem_cons, exists_eq_or_imp]

end Triangle
