import Kroc.Etc.Readers
import Kroc.Slinker.Code

/-!
# Slinker/DecodeIns — slinker's prefixes, written and read back

`decode-ins` of `slinker/helpers.ss` on the whole code and from any position in it, against `prefix`
and `pad`.  The reader keeps the operand as a number without sign, which it masks; the writer takes
it with or without.
-/

open Prefix

namespace Kroc

namespace Slinker

/-- The loop of `decode-ins`; a reference beyond the code is an error. -/
def decodeFrom (ws : ℕ) (code : List ℕ) (op pos : ℕ) : Option (ℕ × ℕ × ℕ) :=
  if h : pos < code.length then
    let byte := code[pos]
    let fn := byte >>> 4
    let op := op ||| (byte &&& 15)
    if fn = pfix then decodeFrom ws code (Etc.shiftUp ws op 4) (pos + 1)
    else if fn = nfix then
      decodeFrom ws code (Etc.shiftUp ws (Etc.bitwiseMattnot ws op) 4) (pos + 1)
    else some (fn, op, pos + 1)
  else none
termination_by code.length - pos

/-- `decode-ins`: the function, the operand, where the instruction starts and where the next one
does. -/
def decodeIns (ws : ℕ) (code : List ℕ) (pos : ℕ) : Option (ℕ × ℕ × ℕ × ℕ) :=
  (decodeFrom ws code 0 pos).map fun (fn, op, next) => (fn, op, pos, next)

/-! ## Reading -/

variable {ws fn : ℕ} {opd n : ℤ}

/-- **A position is the bytes from it on.** -/
theorem decodeFrom_eq (ws : ℕ) (code : List ℕ) (op pos : ℕ) : decodeFrom ws code op pos =
    ((Etc.decodeIns ws).decode op (code.drop pos)).map fun i =>
      (i.1, i.2.1, code.length - i.2.2.length) := by
  induction op, pos using decodeFrom.induct ws code with
  | case1 op pos h byte fn op' hfn ih =>
    have hfn₂ : code[pos] >>> 4 = 2 := hfn
    rw [decodeFrom, dif_pos h, List.drop_eq_getElem_cons h, Reader.decode]
    dsimp only
    rw [if_pos hfn, if_pos hfn₂]
    exact ih
  | case2 op pos h byte fn op' hfn hfn' ih =>
    have hfn₂ : ¬ code[pos] >>> 4 = 2 := hfn
    have hfn₆ : code[pos] >>> 4 = 6 := hfn'
    rw [decodeFrom, dif_pos h, List.drop_eq_getElem_cons h, Reader.decode]
    dsimp only
    rw [if_neg hfn, if_pos hfn', if_neg hfn₂, if_pos hfn₆]
    exact ih
  | case3 op pos h byte fn hfn hfn' =>
    have hfn₂ : ¬ code[pos] >>> 4 = 2 := hfn
    have hfn₆ : ¬ code[pos] >>> 4 = 6 := hfn'
    rw [decodeFrom, dif_pos h, List.drop_eq_getElem_cons h, Reader.decode]
    dsimp only
    rw [if_neg hfn, if_neg hfn', if_neg hfn₂, if_neg hfn₆, Option.map_some, List.length_drop,
      Nat.sub_sub_self h]
    rfl
  | case4 op pos h =>
    rw [decodeFrom, dif_neg h, List.drop_of_length_le (not_lt.mp h)]
    rfl

/-- `decode-ins` reads what the integers say. -/
theorem decodeIns_eq (hws : 0 < ws) (pre bytes : List ℕ) :
    decodeIns ws (pre ++ bytes) pre.length = (decode 0 bytes).map fun i =>
      (i.1, Etc.unsigned ws i.2.1, pre.length, pre.length + bytes.length - i.2.2.length) := by
  have hread := (Etc.decodeIns_reads hws).decode 0 bytes
  have hzero : Etc.unsigned ws 0 = 0 := rfl
  rw [mul_zero, hzero] at hread
  rw [decodeIns, decodeFrom_eq, List.drop_left, hread, Option.map_map, Option.map_map,
    List.length_append]
  rfl

theorem unsigned_eq_iff {a b : ℤ} :
    Etc.unsigned ws a = Etc.unsigned ws b ↔ a ≡ b [ZMOD 2 ^ (8 * ws)] := by
  rw [← ofInt_eq_iff, ← BitVec.toNat_inj]
  rfl

/-- **A padded instruction is read back**, wherever it stands. -/
theorem decodeIns_prefixing (hws : 0 < ws) (hfn : fn ≠ 2 ∧ fn ≠ 6) (m : ℕ) (opd : ℤ)
    (pre post : List ℕ) :
    decodeIns ws (pre ++ (List.replicate m (pfix <<< 4) ++ prefixing ws fn opd) ++ post)
      pre.length = some (fn, Etc.unsigned ws opd, pre.length,
        pre.length + (List.replicate m (pfix <<< 4) ++ prefixing ws fn opd).length) := by
  obtain ⟨ps, d, hd, hbytes, hps, hval⟩ := prefixing_eq hws fn opd
  have hall : ∀ p ∈ List.replicate m (pfix <<< 4) ++ ps, IsPrefix p := by
    intro p hp
    rcases List.mem_append.mp hp with hp | hp
    · rw [List.eq_of_mem_replicate hp]
      decide
    · exact hps p hp
  have hread : decode 0 ((List.replicate m (pfix <<< 4) ++ prefixing ws fn opd) ++ post) =
      some (fn, ps.foldl shift 0 + d, post) := by
    rw [hbytes, ← List.append_assoc, List.append_assoc _ [_], decode_prefixes hall,
      List.foldl_append, foldl_shift_replicate, List.singleton_append, decode_last hfn hd]
  rw [List.append_assoc, decodeIns_eq hws, hread, Option.map_some, unsigned_eq_iff.mpr hval]
  congr 4
  rw [List.length_append, ← Nat.add_assoc, Nat.add_sub_cancel]

/-! ## Lengths -/

/-- An operand of a word, signed or not. -/
def IsOperand (ws : ℕ) (opd : ℤ) : Prop := -2 ^ (8 * ws - 1) ≤ opd ∧ opd < 2 ^ (8 * ws)

instance (ws : ℕ) (opd : ℤ) : Decidable (IsOperand ws opd) := inferInstanceAs (Decidable (_ ∧ _))

theorem two_pow_eq (hws : 0 < ws) : (2 : ℤ) ^ (8 * ws) = 2 * 2 ^ (8 * ws - 1) := by
  rw [← pow_succ', Nat.sub_add_cancel (by omega)]

/-- Both signs of an operand are one number of the word. -/
theorem abs_adjust_le (hws : 0 < ws) (h : IsOperand ws opd) :
    |adjust ws opd| ≤ 2 ^ (8 * ws - 1) := by
  obtain ⟨hlow, hhigh⟩ := h
  have hdouble := two_pow_eq hws
  rw [abs_le]
  unfold adjust
  split_ifs <;> omega

theorem adjust_adjust (hws : 0 < ws) (h : IsOperand ws opd) :
    adjust ws (adjust ws opd) = adjust ws opd :=
  if_neg ((abs_le.mp (abs_adjust_le hws h)).2.not_gt)

/-- The writer sees an operand adjusted. -/
theorem prefixing_adjust (hws : 0 < ws) (h : IsOperand ws opd) :
    prefixing ws fn (adjust ws opd) = prefixing ws fn opd := by
  rw [prefixing, adjust_adjust hws h]
  exact (prefixing.eq_def ws fn opd).symm

theorem length_prefixing_le_word (hws : 0 < ws) (h : IsOperand ws opd) :
    (prefixing ws fn opd).length ≤ 2 * ws := by
  have hword : (16 : ℤ) ^ (2 * ws - 2 + 2) = 2 * 2 ^ (8 * ws - 1) := by
    rw [← two_pow_eq hws, show (16 : ℤ) = 2 ^ 4 from rfl, ← pow_mul]
    congr 1
    omega
  have habs := abs_adjust_le hws h
  have hbounds := abs_le.mp habs
  have hpos : (0 : ℤ) < 2 ^ (8 * ws - 1) := by positivity
  have hlen : (prefixing ws fn (adjust ws opd)).length ≤ 2 * ws - 2 + 2 :=
    length_prefixing_le (by omega) (by omega) habs
  rw [prefixing_adjust hws h] at hlen
  omega

/-- What is read from a number of bytes is in the range of as many nibbles. -/
theorem bounds_of_decode {bytes : List ℕ} (h : decode 0 bytes = some (fn, n, [])) :
    -(16 : ℤ) ^ bytes.length ≤ n ∧ n < 16 ^ bytes.length ∧ (bytes.length = 1 → 0 ≤ n) := by
  obtain ⟨ps, d, hd, rfl, hps, rfl⟩ := eq_append_of_decode h
  obtain ⟨y, hy, hlow, hhigh⟩ := foldl_shift_bounds hps
  rw [hy, List.length_append, List.length_singleton, pow_succ]
  refine ⟨by omega, by omega, fun hone => ?_⟩
  obtain rfl : ps = [] := List.length_eq_zero_iff.mp (by omega)
  rw [List.foldl_nil] at hy
  omega

/-- **No shorter bytes have the operand.** -/
theorem length_prefixing_le_of_decode (hws : 0 < ws) (h : IsOperand ws opd) {bytes : List ℕ}
    (hread : decode 0 bytes = some (fn, n, [])) (hn : n ≡ opd [ZMOD 2 ^ (8 * ws)]) :
    (prefixing ws fn opd).length ≤ bytes.length := by
  obtain ⟨hlow, hhigh, hone⟩ := bounds_of_decode hread
  rcases Nat.lt_or_ge bytes.length (2 * ws) with hlen | hlen
  · have hmax : (16 : ℤ) ^ bytes.length ≤ 2 ^ (8 * ws - 1 - 1) := by
      rw [show (16 : ℤ) = 2 ^ 4 from rfl, ← pow_mul]
      exact pow_le_pow_right₀ (by decide) (by omega)
    have hhalf : (2 : ℤ) ^ (8 * ws - 1) = 2 * 2 ^ (8 * ws - 1 - 1) := by
      rw [← pow_succ', Nat.sub_add_cancel (by omega)]
    have hdouble := two_pow_eq hws
    have hpos : (0 : ℤ) < 2 ^ (8 * ws - 1 - 1) := by positivity
    have habs := abs_adjust_le hws h
    have hbounds := abs_le.mp habs
    obtain rfl : n = adjust ws opd := by
      have hmod := hn.trans (adjust_modEq ws opd).symm
      obtain ⟨q, hq⟩ := hmod.dvd
      rw [hdouble, hhalf] at hq
      have hqlow : -1 < q := by nlinarith
      have hqhigh : q < 1 := by nlinarith
      obtain rfl : q = 0 := by omega
      omega
    rw [← prefixing_adjust hws h]
    obtain ⟨k, hk⟩ : ∃ k, bytes.length = k + 1 := by
      cases bytes with
      | nil => cases hread
      | cons b bytes => exact ⟨_, List.length_cons⟩
    cases k with
    | zero =>
      rw [hk] at hhigh ⊢
      exact length_prefixing_of_nonneg (hone hk) hhigh hbounds.2
    | succ k =>
      rw [hk] at hlow hhigh ⊢
      exact length_prefixing_le hlow hhigh habs
  · exact (length_prefixing_le_word hws h).trans hlen

/-! ## The writer and the reader -/

/-- **`prefix` is inverted by `decode-ins`**: within two bytes for a byte of the word, alone or
padded, at any place in the code, and with no shorter bytes for the same instruction. -/
structure ReadsBack (ws fn : ℕ) (opd : ℤ) : Prop where
  bytes : ∀ b ∈ prefixing ws fn opd, b < 256
  length_le : (prefixing ws fn opd).length ≤ 2 * ws
  prefixed : ∀ pre post, decodeIns ws (pre ++ prefixing ws fn opd ++ post) pre.length =
    some (fn, Etc.unsigned ws opd, pre.length, pre.length + (prefixing ws fn opd).length)
  padded : ∀ padAmount, (prefixing ws fn opd).length ≤ padAmount →
    ∃ bytes, pad (prefixing ws fn opd) padAmount = some bytes ∧ bytes.length = padAmount ∧
      ∀ pre post, decodeIns ws (pre ++ bytes ++ post) pre.length =
        some (fn, Etc.unsigned ws opd, pre.length, pre.length + padAmount)
  shortest : ∀ bytes, decodeIns ws bytes 0 = some (fn, Etc.unsigned ws opd, 0, bytes.length) →
    (prefixing ws fn opd).length ≤ bytes.length

theorem lt_of_mem_prefixing (hws : 0 < ws) (hfn : fn < 16) {b : ℕ}
    (hb : b ∈ prefixing ws fn opd) : b < 256 := by
  obtain ⟨ps, d, hd, hbytes, hps, -⟩ := prefixing_eq hws fn opd
  rw [hbytes] at hb
  rcases List.mem_append.mp hb with hb | hb
  · rcases hps b hb with h | h <;> omega
  · have := List.mem_singleton.mp hb
    omega

/-- **For every word size** that slinker has. -/
theorem readsBack (hws : ws = 2 ∨ ws = 4) (hfn : fn < 16) (hpfix : fn ≠ pfix ∧ fn ≠ nfix)
    (hopd : IsOperand ws opd) : ReadsBack ws fn opd := by
  have hpos : 0 < ws := by rcases hws with rfl | rfl <;> decide
  refine ⟨fun b hb => lt_of_mem_prefixing hpos hfn hb, length_prefixing_le_word hpos hopd,
    fun pre post => ?_, fun padAmount hpad => ?_, fun bytes hread => ?_⟩
  · exact decodeIns_prefixing hpos hpfix 0 opd pre post
  · have hlen : (List.replicate (padAmount - (prefixing ws fn opd).length) (pfix <<< 4) ++
        prefixing ws fn opd).length = padAmount := by
      rw [List.length_append, List.length_replicate, Nat.sub_add_cancel hpad]
    refine ⟨_, if_pos hpad, hlen, fun pre post => ?_⟩
    rw [decodeIns_prefixing hpos hpfix, hlen]
  · have heq := decodeIns_eq hpos [] bytes
    rw [List.nil_append, List.length_nil, hread, Nat.zero_add] at heq
    obtain ⟨⟨fn', n, rest⟩, hdecode, hi⟩ := Option.map_eq_some_iff.mp heq.symm
    obtain ⟨rfl, hn, -, hrest⟩ : fn' = fn ∧ Etc.unsigned ws n = Etc.unsigned ws opd ∧ 0 = 0 ∧
        bytes.length - rest.length = bytes.length := by
      simpa only [Prod.mk.injEq] using hi
    have hlt := length_of_decode hdecode
    obtain rfl : rest = [] := List.length_eq_zero_iff.mp (by omega)
    exact length_prefixing_le_of_decode hpos hopd hdecode (unsigned_eq_iff.mp hn)

theorem readsBack_min : ReadsBack 4 ldc (-2 ^ 31) :=
  readsBack (.inr rfl) (by decide) (by decide) (by decide)

end Slinker

end Kroc
