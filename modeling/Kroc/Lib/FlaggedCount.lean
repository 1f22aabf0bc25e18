import Mathlib.Tactic

/-!
# Lib/FlaggedCount — a count under a flag bit

A word of `w` bits holds a count below `2 ^ k` and, in bit `k`, a flag.  Masking the flag away
leaves the count; the decrement that raises the flag when the count reaches zero leaves the mask of
the plain decrement.

Where several flags stand above the count (`High`), the word is `pack f c`: the flags are set,
cleared and tested without touching the count, and counting leaves the flags alone.
-/

namespace FlaggedCount

variable {w k n : ℕ}

/-- The word with nothing but the flag. -/
def flag (w k : ℕ) : BitVec w := BitVec.twoPow w k

/-- The word without its flag. -/
def masked (k : ℕ) (x : BitVec w) : BitVec w := x &&& ~~~flag w k

/-- `((x - 2) & flag) | (x - 1)`: one less, with the flag when nothing is left. -/
def dec (k : ℕ) (x : BitVec w) : BitVec w := ((x - 2#w) &&& flag w k) ||| (x - 1#w)

@[simp] theorem getElem_flag {i : ℕ} (h : i < w) : (flag w k)[i] = decide (i = k) := by
  simp [flag, BitVec.getElem_twoPow, eq_comm]

theorem getElem_masked {x : BitVec w} {i : ℕ} (h : i < w) :
    (masked k x)[i] = (x[i] && decide (i ≠ k)) := by
  simp [masked]

theorem getElem_ofNat_of_lt (hn : n < 2 ^ k) (h : k < w) : (BitVec.ofNat w n)[k] = false := by
  rw [← BitVec.getLsbD_eq_getElem, BitVec.getLsbD_ofNat, Nat.testBit_lt_two_pow hn, Bool.and_false]

theorem masked_ofNat (hn : n < 2 ^ k) : masked k (BitVec.ofNat w n) = BitVec.ofNat w n := by
  ext i hi
  rw [getElem_masked]
  by_cases hne : i = k
  · subst hne
    rw [getElem_ofNat_of_lt hn hi, Bool.false_and]
  · simp [hne]

/-- **Decrement and flag commute with the mask.** -/
theorem masked_dec (x : BitVec w) : masked k (dec k x) = masked k (x - 1#w) := by
  ext i hi
  by_cases hne : i = k <;> simp [getElem_masked, dec, hne]

theorem masked_masked (x : BitVec w) : masked k (masked k x) = masked k x := by
  ext i hi
  simp [getElem_masked]

/-- The bits of a word other than the flag are those of its count. -/
theorem getElem_of_masked {x : BitVec w} (h : masked k x = BitVec.ofNat w n) {i : ℕ} (hi : i < w)
    (hne : i ≠ k) : x[i] = (BitVec.ofNat w n)[i] := by
  have := congrArg (fun y : BitVec w => y[i]) h
  simpa [getElem_masked, hne] using this

/-- Flag and count share no bit, so that adding them is joining them. -/
theorem flag_add_ofNat (hn : n < 2 ^ k) :
    flag w k + BitVec.ofNat w n = flag w k ||| BitVec.ofNat w n := by
  refine BitVec.add_eq_or_of_and_eq_zero _ _ ?_
  ext i hi
  by_cases hne : i = k
  · subst hne
    rw [BitVec.getElem_and, getElem_ofNat_of_lt hn hi, Bool.and_false, BitVec.getElem_zero]
  · simp [hne]

theorem masked_flag_add (hn : n < 2 ^ k) :
    masked k (flag w k + BitVec.ofNat w n) = BitVec.ofNat w n := by
  rw [flag_add_ofNat hn, ← masked_ofNat hn]
  ext i hi
  by_cases hne : i = k <;> simp [getElem_masked, hne]

/-- **A word is its count, with or without the flag.** -/
theorem eq_or_eq_of_masked {x : BitVec w} (hn : n < 2 ^ k)
    (h : masked k x = BitVec.ofNat w n) :
    x = BitVec.ofNat w n ∨ x = flag w k + BitVec.ofNat w n := by
  by_cases hx : x.getLsbD k = true
  · right
    rw [flag_add_ofNat hn]
    ext i hi
    by_cases hne : i = k
    · subst hne
      rw [BitVec.getLsbD_eq_getElem hi] at hx
      simp [hx]
    · rw [getElem_of_masked h hi hne]
      simp [hne]
  · left
    ext i hi
    by_cases hne : i = k
    · subst hne
      rw [BitVec.getLsbD_eq_getElem hi] at hx
      rw [getElem_ofNat_of_lt hn hi]
      simpa using hx
    · exact getElem_of_masked h hi hne

/-- **Counting up** keeps the mask while the count stays below the flag. -/
theorem masked_add_one {x : BitVec w} (hn : n + 1 < 2 ^ k) (h : masked k x = BitVec.ofNat w n) :
    masked k (x + 1#w) = BitVec.ofNat w (n + 1) := by
  rcases eq_or_eq_of_masked (by omega) h with rfl | rfl
  · rw [← BitVec.ofNat_add, masked_ofNat hn]
  · rw [BitVec.add_assoc, ← BitVec.ofNat_add, masked_flag_add hn]

/-- **Counting down** keeps the mask while there is something to count. -/
theorem masked_sub_one {x : BitVec w} (hn : n + 1 < 2 ^ k)
    (h : masked k x = BitVec.ofNat w (n + 1)) : masked k (x - 1#w) = BitVec.ofNat w n := by
  have hn' : n < 2 ^ k := by omega
  rcases eq_or_eq_of_masked hn h with rfl | rfl
  · rw [BitVec.ofNat_add, BitVec.add_sub_cancel, masked_ofNat hn']
  · rw [BitVec.ofNat_add, ← BitVec.add_assoc, BitVec.add_sub_cancel, masked_flag_add hn']

/-! ## Several flags above the count -/

/-- No bit below `k` is set. -/
def High (k : ℕ) (f : BitVec w) : Prop := ∀ i (h : i < w), i < k → f[i] = false

/-- Flags `f` over a count `c`. -/
def pack (f : BitVec w) (c : ℕ) : BitVec w := f + BitVec.ofNat w c

theorem getElem_ofNat_of_ge {c i : ℕ} (hc : c < 2 ^ k) (hi : i < w) (hk : k ≤ i) :
    (BitVec.ofNat w c)[i] = false := by
  rw [← BitVec.getLsbD_eq_getElem, BitVec.getLsbD_ofNat,
    Nat.testBit_lt_two_pow (hc.trans_le (Nat.pow_le_pow_right (by omega) hk)), Bool.and_false]

theorem High.and {f : BitVec w} (hf : High k f) (g : BitVec w) : High k (f &&& g) := by
  intro i hi hik
  rw [BitVec.getElem_and, hf i hi hik, Bool.false_and]

theorem High.or {f g : BitVec w} (hf : High k f) (hg : High k g) : High k (f ||| g) := by
  intro i hi hik
  rw [BitVec.getElem_or, hf i hi hik, hg i hi hik, Bool.or_false]

theorem high_zero : High k (0#w) := fun _ _ _ => BitVec.getElem_zero _

theorem high_shiftLeft (x : BitVec w) {j : ℕ} (h : k ≤ j) : High k (x <<< j) := by
  intro i hi hik
  simp [show i < j by omega]

/-- Flags and count share no bit. -/
theorem pack_eq_or {f : BitVec w} {c : ℕ} (hf : High k f) (hc : c < 2 ^ k) :
    pack f c = f ||| BitVec.ofNat w c := by
  refine BitVec.add_eq_or_of_and_eq_zero _ _ ?_
  ext i hi
  rw [BitVec.getElem_and, BitVec.getElem_zero]
  rcases lt_or_ge i k with hik | hik
  · rw [hf i hi hik, Bool.false_and]
  · rw [getElem_ofNat_of_ge hc hi hik, Bool.and_false]

/-- **Clearing flags** keeps the count. -/
theorem pack_and_not {f g : BitVec w} {c : ℕ} (hf : High k f) (hg : High k g) (hc : c < 2 ^ k) :
    pack f c &&& ~~~g = pack (f &&& ~~~g) c := by
  rw [pack_eq_or hf hc, pack_eq_or (hf.and _) hc]
  ext i hi
  simp only [BitVec.getElem_and, BitVec.getElem_or, BitVec.getElem_not]
  rcases lt_or_ge i k with hik | hik
  · simp [hg i hi hik]
  · simp [getElem_ofNat_of_ge hc hi hik]

/-- **Setting flags** keeps the count. -/
theorem pack_or {f g : BitVec w} {c : ℕ} (hf : High k f) (hg : High k g) (hc : c < 2 ^ k) :
    pack f c ||| g = pack (f ||| g) c := by
  rw [pack_eq_or hf hc, pack_eq_or (hf.or hg) hc, BitVec.or_assoc, BitVec.or_assoc,
    BitVec.or_comm g]

/-- **Testing flags** does not see the count. -/
theorem pack_and {f g : BitVec w} {c : ℕ} (hf : High k f) (hg : High k g) (hc : c < 2 ^ k) :
    pack f c &&& g = f &&& g := by
  rw [pack_eq_or hf hc]
  ext i hi
  simp only [BitVec.getElem_and, BitVec.getElem_or]
  rcases lt_or_ge i k with hik | hik
  · simp [hg i hi hik]
  · simp [getElem_ofNat_of_ge hc hi hik]

theorem pack_add_one (f : BitVec w) (c : ℕ) : pack f c + 1#w = pack f (c + 1) := by
  rw [pack, pack, BitVec.ofNat_add, BitVec.add_assoc]

theorem pack_succ_sub_one (f : BitVec w) (c : ℕ) : pack f (c + 1) - 1#w = pack f c := by
  rw [← pack_add_one, BitVec.add_sub_cancel]

/-- **Flags and count are read off the word.** -/
theorem pack_inj {f g : BitVec w} {c d : ℕ} (hk : k ≤ w) (hf : High k f) (hg : High k g)
    (hc : c < 2 ^ k) (hd : d < 2 ^ k) : pack f c = pack g d ↔ f = g ∧ c = d := by
  refine ⟨fun h => ?_, fun ⟨hfg, hcd⟩ => hfg ▸ hcd ▸ rfl⟩
  rw [pack_eq_or hf hc, pack_eq_or hg hd] at h
  have hbit : ∀ i (hi : i < w), (f[i] || (BitVec.ofNat w c)[i]) = (g[i] || (BitVec.ofNat w d)[i]) :=
    fun i hi => by simpa using congrArg (fun x : BitVec w => x[i]) h
  constructor
  · ext i hi
    have := hbit i hi
    rcases lt_or_ge i k with hik | hik
    · rw [hf i hi hik, hg i hi hik]
    · rwa [getElem_ofNat_of_ge hc hi hik, getElem_ofNat_of_ge hd hi hik, Bool.or_false,
        Bool.or_false] at this
  · have hcount : BitVec.ofNat w c = BitVec.ofNat w d := by
      ext i hi
      have := hbit i hi
      rcases lt_or_ge i k with hik | hik
      · rwa [hf i hi hik, hg i hi hik, Bool.false_or, Bool.false_or] at this
      · rw [getElem_ofNat_of_ge hc hi hik, getElem_ofNat_of_ge hd hi hik]
    have hw : 2 ^ k ≤ 2 ^ w := Nat.pow_le_pow_right (by omega) hk
    have := congrArg BitVec.toNat hcount
    rwa [BitVec.toNat_ofNat, BitVec.toNat_ofNat, Nat.mod_eq_of_lt (hc.trans_le hw),
      Nat.mod_eq_of_lt (hd.trans_le hw)] at this

end FlaggedCount
