import Mathlib

/-!
# Lib/Prefix — operands built nibble by nibble

An instruction is a byte: a function in its high nibble, a nibble of the operand in its low one.
Two functions are prefixes, which leave the operand shifted up, as it is or complemented, for the
next byte.  `decode` computes the operand as an integer, whatever its size; a `Reader` computes it
in its own words, and agrees with `decode` up to what its words represent.
-/

namespace Prefix

/-! ## Integers -/

/-- One instruction from the front of some bytes: its function, its operand, and what follows. -/
def decode : ℤ → List ℕ → Option (ℕ × ℤ × List ℕ)
  | _, [] => none
  | v, b :: bs =>
    if b / 16 = 2 then decode (16 * (v + (b % 16 : ℕ))) bs
    else if b / 16 = 6 then decode (16 * (-1 - (v + (b % 16 : ℕ)))) bs
    else some (b / 16, v + (b % 16 : ℕ), bs)

/-- A byte that is no instruction of its own. -/
def IsPrefix (b : ℕ) : Prop := b / 16 = 2 ∨ b / 16 = 6

instance (b : ℕ) : Decidable (IsPrefix b) := inferInstanceAs (Decidable (_ ∨ _))

/-- The operand after a prefix. -/
def shift (v : ℤ) (b : ℕ) : ℤ :=
  if b / 16 = 2 then 16 * (v + (b % 16 : ℕ)) else 16 * (-1 - (v + (b % 16 : ℕ)))

variable {fn b d : ℕ} {v n m : ℤ} {bs ps rest : List ℕ}

theorem decode_cons (hb : IsPrefix b) : decode v (b :: bs) = decode (shift v b) bs := by
  rw [decode, shift]
  rcases hb with hb | hb
  · rw [if_pos hb, if_pos hb]
  · rw [if_neg (by omega), if_pos hb, if_neg (by omega)]

/-- **Prefixes shift the operand and nothing else.** -/
theorem decode_prefixes (hp : ∀ p ∈ ps, IsPrefix p) :
    decode v (ps ++ bs) = decode (ps.foldl shift v) bs := by
  induction ps generalizing v with
  | nil => rfl
  | cons p ps ih =>
    rw [List.cons_append, decode_cons (hp p List.mem_cons_self), List.foldl_cons]
    exact ih fun q hq => hp q (List.mem_cons_of_mem _ hq)

theorem decode_last (hfn : fn ≠ 2 ∧ fn ≠ 6) (hd : d < 16) :
    decode v ((16 * fn + d) :: bs) = some (fn, v + d, bs) := by
  have hq : (16 * fn + d) / 16 = fn := by omega
  have hr : (16 * fn + d) % 16 = d := by omega
  rw [decode, hq, hr, if_neg hfn.1, if_neg hfn.2]

/-- **What is read is prefixes and one byte more.** -/
theorem eq_append_of_decode (h : decode v bs = some (fn, n, rest)) : ∃ ps d, d < 16 ∧
    bs = ps ++ (16 * fn + d) :: rest ∧ (∀ p ∈ ps, IsPrefix p) ∧ n = ps.foldl shift v + d := by
  induction bs generalizing v with
  | nil => cases h
  | cons b bs ih =>
    by_cases hb : IsPrefix b
    · rw [decode_cons hb] at h
      obtain ⟨ps, d, hd, rfl, hps, hn⟩ := ih h
      exact ⟨b :: ps, d, hd, rfl, List.forall_mem_cons.mpr ⟨hb, hps⟩, hn⟩
    · rw [decode, if_neg fun hq => hb (Or.inl hq), if_neg fun hq => hb (Or.inr hq)] at h
      cases h
      refine ⟨[], b % 16, Nat.mod_lt _ (by decide), ?_, by simp, rfl⟩
      rw [Nat.div_add_mod]
      rfl

/-- What is left of some bytes is a part of them. -/
theorem length_of_decode : ∀ {bs : List ℕ} {v : ℤ}, decode v bs = some (fn, n, rest) →
    rest.length < bs.length := by
  intro bs
  induction bs with
  | nil => exact fun h => by cases h
  | cons b bs ih =>
    intro v h
    rw [decode] at h
    split_ifs at h
    · exact (ih h).trans (Nat.lt_succ_self _)
    · exact (ih h).trans (Nat.lt_succ_self _)
    · cases h
      exact Nat.lt_succ_self _

theorem shift_eq (hb : IsPrefix b) (v : ℤ) : ∃ y, shift v b = 16 * y ∧
    (y = v + (b % 16 : ℕ) ∨ y = -1 - (v + (b % 16 : ℕ))) := by
  rw [shift]
  rcases hb with hb | hb
  · rw [if_pos hb]
    exact ⟨_, rfl, Or.inl rfl⟩
  · rw [if_neg (by omega)]
    exact ⟨_, rfl, Or.inr rfl⟩

/-- **What some prefixes can reach.** -/
theorem foldl_shift_bounds (hp : ∀ p ∈ ps, IsPrefix p) :
    ∃ y : ℤ, ps.foldl shift 0 = 16 * y ∧ -(16 : ℤ) ^ ps.length ≤ y ∧ y < 16 ^ ps.length := by
  induction ps using List.reverseRecOn with
  | nil => exact ⟨0, rfl, by norm_num, by norm_num⟩
  | append_singleton ps p ih =>
    obtain ⟨y, hy, hlow, hhigh⟩ := ih fun q hq => hp q (List.mem_append_left _ hq)
    obtain ⟨z, hz, hzy⟩ := shift_eq (hp p (List.mem_append_right _ List.mem_cons_self)) (16 * y)
    rw [List.foldl_append, hy, List.foldl_cons, List.foldl_nil, List.length_append,
      List.length_singleton, pow_succ]
    exact ⟨z, hz, by omega, by omega⟩

/-! ## The shortest prefixes -/

/-- The prefixes that leave `16 * m`. -/
def lead (m : ℤ) : List ℕ :=
  if m = 0 then []
  else if -16 ≤ m ∧ m < 0 then [96 + (-1 - m).toNat]
  else lead (m / 16) ++ [32 + (m % 16).toNat]
termination_by m.natAbs
decreasing_by omega

/-- An instruction as bytes. -/
def encode (fn : ℕ) (n : ℤ) : List ℕ := lead (n / 16) ++ [16 * fn + (n % 16).toNat]

theorem isPrefix_lead (m : ℤ) : ∀ p ∈ lead m, IsPrefix p := by
  induction m using lead.induct with
  | case1 =>
    intro p hp
    rw [lead, if_pos rfl] at hp
    cases hp
  | case2 m h₀ h =>
    intro p hp
    rw [lead, if_neg h₀, if_pos h] at hp
    obtain rfl := List.mem_singleton.mp hp
    right
    omega
  | case3 m h₀ h ih =>
    intro p hp
    rw [lead, if_neg h₀, if_neg h] at hp
    rcases List.mem_append.mp hp with hp | hp
    · exact ih p hp
    · obtain rfl := List.mem_singleton.mp hp
      left
      omega

/-- **The prefixes leave the operand's upper part.** -/
theorem foldl_lead (m : ℤ) : (lead m).foldl shift 0 = 16 * m := by
  induction m using lead.induct with
  | case1 =>
    rw [lead, if_pos rfl]
    rfl
  | case2 m h₀ h =>
    rw [lead, if_neg h₀, if_pos h, List.foldl_cons, List.foldl_nil, shift, if_neg (by omega)]
    omega
  | case3 m h₀ h ih =>
    rw [lead, if_neg h₀, if_neg h, List.foldl_append, ih, List.foldl_cons, List.foldl_nil, shift,
      if_pos (by omega)]
    omega

/-- **An encoded instruction is read back**, and exactly its bytes are. -/
theorem decode_encode (hfn : fn ≠ 2 ∧ fn ≠ 6) (n : ℤ) :
    decode 0 (encode fn n ++ rest) = some (fn, n, rest) := by
  rw [encode, List.append_assoc, decode_prefixes (isPrefix_lead _), foldl_lead,
    List.singleton_append, decode_last hfn (by omega)]
  congr 3
  omega

theorem encode_ne_nil (fn : ℕ) (n : ℤ) : encode fn n ≠ [] :=
  List.append_ne_nil_of_right_ne_nil _ (List.cons_ne_nil _ _)

theorem length_lead_le {k : ℕ} (hm : -(16 : ℤ) ^ (k + 1) ≤ m) (hm' : m < 16 ^ (k + 1)) :
    (lead m).length ≤ k + 1 := by
  induction k generalizing m with
  | zero =>
    rw [lead]
    split_ifs with h₀ h
    · exact Nat.zero_le _
    · exact le_rfl
    · rw [show m / 16 = 0 by omega, lead, if_pos rfl]
      exact le_rfl
  | succ k ih =>
    rw [lead]
    split_ifs with h₀ h
    · exact Nat.zero_le _
    · exact Nat.le_add_left _ _
    · rw [List.length_append, List.length_singleton]
      refine Nat.succ_le_succ (ih ?_ ?_)
      · rw [Int.le_ediv_iff_mul_le (by decide)]
        linarith [pow_succ (16 : ℤ) (k + 1)]
      · rw [Int.ediv_lt_iff_lt_mul (by decide)]
        linarith [pow_succ (16 : ℤ) (k + 1)]

/-- **A length for every operand of `k` nibbles.** -/
theorem length_encode_le {k : ℕ} (hn : -(16 : ℤ) ^ (k + 2) ≤ n) (hn' : n < 16 ^ (k + 2)) :
    (encode fn n).length ≤ k + 2 := by
  rw [encode, List.length_append, List.length_singleton]
  refine Nat.succ_le_succ (length_lead_le ?_ ?_)
  · rw [Int.le_ediv_iff_mul_le (by decide)]
    linarith [pow_succ (16 : ℤ) (k + 1)]
  · rw [Int.ediv_lt_iff_lt_mul (by decide)]
    linarith [pow_succ (16 : ℤ) (k + 1)]

/-! ## Readers -/

/-- How a program keeps the operand while it reads: what a nibble, a prefix and a negative prefix
do to it. -/
structure Reader (α : Type*) where
  nibble : α → ℕ → α
  pfix : α → α
  nfix : α → α

variable {α : Type*} {r : Reader α} {rep : ℤ → α}

namespace Reader

/-- One instruction, read by a program. -/
def decode (r : Reader α) : α → List ℕ → Option (ℕ × α × List ℕ)
  | _, [] => none
  | x, b :: bs =>
    let y := r.nibble x (b &&& 0xf)
    if b >>> 4 = 2 then r.decode (r.pfix y) bs
    else if b >>> 4 = 6 then r.decode (r.nfix y) bs
    else some (b >>> 4, y, bs)

/-- **What a reader needs** for `rep v` to stand for the operand `v`. -/
structure Reads (r : Reader α) (rep : ℤ → α) : Prop where
  nibble : ∀ v d, d < 16 → r.nibble (rep (16 * v)) d = rep (16 * v + d)
  pfix : ∀ v, r.pfix (rep v) = rep (16 * v)
  nfix : ∀ v, r.nfix (rep v) = rep (16 * (-1 - v))

/-- **A reader reads what the integers say.** -/
theorem Reads.decode (h : r.Reads rep) (v : ℤ) (bs : List ℕ) :
    r.decode (rep (16 * v)) bs =
      (Prefix.decode (16 * v) bs).map fun i => (i.1, rep i.2.1, i.2.2) := by
  induction bs generalizing v with
  | nil => rfl
  | cons b bs ih =>
    have hhigh : b >>> 4 = b / 16 := Nat.shiftRight_eq_div_pow b 4
    have hlow : b &&& 0xf = b % 16 := Nat.and_two_pow_sub_one_eq_mod b 4
    rw [Reader.decode, Prefix.decode, hhigh, hlow, h.nibble v _ (Nat.mod_lt _ (by decide))]
    split_ifs
    · rw [h.pfix, ih]
    · rw [h.nfix, ih]
    · rfl

/-- What a program does with a prefix. -/
def step (r : Reader α) (x : α) (b : ℕ) : α :=
  if b >>> 4 = 2 then r.pfix (r.nibble x (b &&& 0xf)) else r.nfix (r.nibble x (b &&& 0xf))

theorem Reads.step (h : r.Reads rep) (v : ℤ) (b : ℕ) :
    r.step (rep (16 * v)) b = rep (shift (16 * v) b) := by
  have hhigh : b >>> 4 = b / 16 := Nat.shiftRight_eq_div_pow b 4
  have hlow : b &&& 0xf = b % 16 := Nat.and_two_pow_sub_one_eq_mod b 4
  rw [Reader.step, shift, hhigh, hlow, h.nibble v _ (Nat.mod_lt _ (by decide))]
  split_ifs
  · rw [h.pfix]
  · rw [h.nfix]

/-- **Prefixes do in a program what they do to the integers.** -/
theorem Reads.foldl_step (h : r.Reads rep) (hp : ∀ p ∈ ps, IsPrefix p) (v : ℤ) :
    ps.foldl r.step (rep (16 * v)) = rep (ps.foldl shift (16 * v)) := by
  induction ps generalizing v with
  | nil => rfl
  | cons p ps ih =>
    obtain ⟨y, hy, -⟩ := shift_eq (hp p List.mem_cons_self) (16 * v)
    rw [List.foldl_cons, List.foldl_cons, h.step, hy]
    exact ih (fun q hq => hp q (List.mem_cons_of_mem _ hq)) y

/-- **An encoded instruction is read back by every reader.** -/
theorem Reads.decode_encode (h : r.Reads rep) (hfn : fn ≠ 2 ∧ fn ≠ 6) (n : ℤ) (rest : List ℕ) :
    r.decode (rep 0) (encode fn n ++ rest) = some (fn, rep n, rest) := by
  have := h.decode 0 (encode fn n ++ rest)
  rw [mul_zero, Prefix.decode_encode hfn n] at this
  exact this

/-- Machine words of `w` bits. -/
def word (w : ℕ) : Reader (BitVec w) where
  nibble x d := x ||| BitVec.ofNat w d
  pfix x := x <<< 4
  nfix x := (~~~x) <<< 4

theorem ofInt_shiftLeft (w : ℕ) (v : ℤ) : BitVec.ofInt w v <<< 4 = BitVec.ofInt w (16 * v) := by
  have hsixteen : BitVec.ofInt w 16 = BitVec.twoPow w 4 := by
    refine BitVec.eq_of_toNat_eq ?_
    rw [BitVec.toNat_twoPow, BitVec.toNat_ofInt]
    rfl
  rw [BitVec.shiftLeft_eq_mul_twoPow, BitVec.ofInt_mul, BitVec.mul_comm, hsixteen]

theorem ofInt_not (w : ℕ) (v : ℤ) : ~~~BitVec.ofInt w v = BitVec.ofInt w (-1 - v) := by
  rw [BitVec.not_eq_neg_add, ← BitVec.ofInt_neg, BitVec.sub_eq_add_neg,
    show -1 - v = -v + -1 by ring,
    BitVec.ofInt_add, BitVec.ofInt_neg (n := 1)]
  rfl

theorem word_reads (w : ℕ) : (word w).Reads (BitVec.ofInt w) := by
  refine ⟨fun v d hd => ?_, fun v => ofInt_shiftLeft w v, fun v => ?_⟩
  · have hdisjoint : BitVec.ofInt w (16 * v) &&& BitVec.ofNat w d = 0#w := by
      rw [← ofInt_shiftLeft]
      ext i hi
      by_cases h : i < 4
      · simp [h]
      · have : d.testBit i = false := Nat.testBit_lt_two_pow
          (hd.trans_le (Nat.pow_le_pow_right Nat.two_pos (by omega : 4 ≤ i)))
        simp [← BitVec.getLsbD_eq_getElem, BitVec.getLsbD_ofNat, this]
    change BitVec.ofInt w (16 * v) ||| BitVec.ofNat w d = _
    rw [← BitVec.add_eq_or_of_and_eq_zero _ _ hdisjoint, BitVec.ofInt_add, BitVec.ofInt_natCast]
  · have hnot := ofInt_not w v
    change (~~~BitVec.ofInt w v) <<< 4 = _
    rw [hnot, ofInt_shiftLeft]

end Reader

/-! ## Sequences -/

/-- Instructions to the end of the bytes. -/
def readAll {β : Type*} (one : List ℕ → Option (β × List ℕ)) : ℕ → List ℕ → Option (List β)
  | _, [] => some []
  | 0, _ :: _ => none
  | fuel + 1, b :: bs =>
    match one (b :: bs) with
    | none => none
    | some (i, rest) => (readAll one fuel rest).map (i :: ·)

/-- **What reads one reads them all.** -/
theorem readAll_flatMap {β γ : Type*} {one : List ℕ → Option (β × List ℕ)} {enc : γ → List ℕ}
    {f : γ → β} (is : List γ) (hone : ∀ i ∈ is, ∀ rest, one (enc i ++ rest) = some (f i, rest))
    (hne : ∀ i ∈ is, enc i ≠ []) {fuel : ℕ} (hfuel : (is.flatMap enc).length ≤ fuel) :
    readAll one fuel (is.flatMap enc) = some (is.map f) := by
  induction is generalizing fuel with
  | nil => cases fuel <;> rfl
  | cons i is ih =>
    obtain ⟨b, bs, hb⟩ := List.exists_cons_of_ne_nil (hne i List.mem_cons_self)
    have hread := hone i List.mem_cons_self (is.flatMap enc)
    rw [List.flatMap_cons, List.length_append, hb, List.length_cons] at hfuel
    rw [hb] at hread
    rw [List.flatMap_cons, hb, List.cons_append]
    obtain ⟨fuel, rfl⟩ : ∃ k, fuel = k + 1 := ⟨fuel - 1, by omega⟩
    rw [List.cons_append] at hread
    rw [readAll, hread]
    dsimp only
    rw [ih (fun j hj => hone j (List.mem_cons_of_mem _ hj))
      (fun j hj => hne j (List.mem_cons_of_mem _ hj)) (by omega)]
    rfl

end Prefix
