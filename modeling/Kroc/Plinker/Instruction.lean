import Kroc.Lib.Prefix

/-!
# Plinker/Instruction — one instruction of byte code

`tools/plinker/Linker.pm`, `count_nybbles` and `code_instruction`, against the decoding of
`runtime/libtvm/interpreter.c` and `ins_pri.c`.  An instruction is a function with an operand: the
operand's upper nybbles are put in front as prefixes, and a negative operand has one `NFIX`, always
right in front of the instruction itself.

**An instruction is read back** (`decodes_codeInstruction`), with padding or without, and without
it **nothing shorter is**.
-/

namespace Kroc.Plinker

/-! ## Perl's integers -/

/-- What the bit operators see of a value: an unsigned integer of 64 bits, the nearest one when the
value has outgrown Perl's integers. -/
def unsigned (value : ℤ) : ℕ :=
  if value < 0 then (max value (-2 ^ 63) + 2 ^ 64).toNat else (min value (2 ^ 64 - 1)).toNat

/-- `~$value` -/
def complement (value : ℤ) : ℤ := (2 ^ 64 - 1 - unsigned value : ℕ)

theorem unsigned_natCast {a : ℕ} (h : a < 2 ^ 64) : unsigned a = a := by
  rw [unsigned, if_neg (by omega), min_eq_left (by omega), Int.toNat_natCast]

theorem complement_of_neg {arg : ℤ} (h : arg < 0) (h' : -2 ^ 63 ≤ arg) :
    complement arg = (-1 - arg).toNat := by
  rw [complement, unsigned, if_pos h, max_eq_left h']
  omega

/-! ## Coding -/

/-- `$instructions->primary ('J')` -/
def J : ℕ := 0x00

/-- `$instructions->primary ('PFIX')` -/
def PFIX : ℕ := 0x20

/-- `$instructions->primary ('NFIX')` -/
def NFIX : ℕ := 0x60

/-- `$instructions->primary ('OPR')` -/
def OPR : ℕ := 0xF0

/-- `count_nybbles` -/
def countNybbles (value : ℕ) : ℕ :=
  if value >>> 4 = 0 then 1 else countNybbles (value >>> 4) + 1
termination_by value
decreasing_by
  rw [Nat.shiftRight_eq_div_pow] at *
  omega

/-- The loop of `code_instruction` from `$i` down: the bytes, and what becomes of `$arg`. -/
def codeNybbles (num : ℕ) (negate : Bool) : ℕ → ℤ → List ℕ × ℤ
  | 0, arg => ([], arg)
  | i + 1, arg =>
    let byte := unsigned arg >>> (i * 4) &&& 0xf
    let coded :=
      if i = 0 then (byte ||| num, arg)
      else if i = 1 && negate then (byte ||| NFIX, complement arg)
      else (byte ||| PFIX, arg)
    let rest := codeNybbles num negate i coded.2
    (coded.1 :: rest.1, rest.2)

/-- `code_instruction` without a length: the bytes, and `$arg` as it is then. -/
def codeUnpadded (num : ℕ) (arg : ℤ) : List ℕ × ℤ :=
  let negate := decide (arg < 0)
  let arg := if arg < 0 then complement arg else arg
  let nybbles := countNybbles (unsigned arg)
  codeNybbles num negate (if nybbles = 1 && negate then 2 else nybbles) arg

/-- `while (@bytes < $length)`: `add` puts a one-byte instruction before or behind. -/
def padTo (add : List ℕ → List ℕ) (length : ℕ) : ℕ → List ℕ → List ℕ
  | 0, bytes => bytes
  | fuel + 1, bytes => if bytes.length < length then padTo add length fuel (add bytes) else bytes

/-- `code_instruction` -/
def codeInstruction (num : ℕ) (arg : ℤ) (length : Option ℕ) : List ℕ :=
  let coded := codeUnpadded num arg
  match length with
  | none => coded.1
  | some length =>
    if coded.2 < 0 then padTo (fun bytes => bytes ++ (codeUnpadded J 0).1) length length coded.1
    else padTo (fun bytes => (codeUnpadded PFIX 0).1 ++ bytes) length length coded.1

/-! ## Decoding -/

/-- `decode_next`: what the operand register is after the fetch of a byte. -/
def decodeNext (oreg : BitVec 32) (instr : ℕ) : BitVec 32 :=
  oreg ||| BitVec.ofNat 32 (instr &&& 0x0f)

/-- `ins_pfix` -/
def insPfix (oreg : BitVec 32) : BitVec 32 := oreg <<< 4

/-- `ins_nfix` -/
def insNfix (oreg : BitVec 32) : BitVec 32 := (~~~oreg) <<< 4

/-- One byte of a prefix, fetched and executed. -/
def executePrefix (oreg : BitVec 32) (instr : ℕ) : BitVec 32 :=
  if instr >>> 4 = 2 then insPfix (decodeNext oreg instr) else insNfix (decodeNext oreg instr)

/-- **Some bytes are one instruction**: prefixes, then a byte that dispatches to `primaries[fn]`
with the operand `x` in the operand register, which was clear before. -/
def Decodes (fn : ℕ) (x : BitVec 32) (bytes : List ℕ) : Prop :=
  ∃ prefixes last, bytes = prefixes ++ [last] ∧
    (∀ p ∈ prefixes, p >>> 4 = 2 ∨ p >>> 4 = 6) ∧ last >>> 4 = fn ∧
    decodeNext (prefixes.foldl executePrefix 0) last = x

/-! ## The number of nybbles -/

variable {num fn i : ℕ} {arg : ℤ} {a : ℕ} {x : BitVec 32} {bytes : List ℕ}

theorem countNybbles_pos (value : ℕ) : 0 < countNybbles value := by
  rw [countNybbles]
  split_ifs <;> omega

/-- A value has no more nybbles than are counted. -/
theorem lt_countNybbles (value : ℕ) : value < 16 ^ countNybbles value := by
  induction value using countNybbles.induct with
  | case1 value h =>
    rw [Nat.shiftRight_eq_div_pow] at h
    rw [countNybbles, Nat.shiftRight_eq_div_pow, if_pos h]
    omega
  | case2 value h ih =>
    rw [countNybbles, if_neg h, pow_succ]
    rw [Nat.shiftRight_eq_div_pow] at ih ⊢
    omega

/-- **The count is the least that is enough.** -/
theorem countNybbles_le (hi : 0 < i) : countNybbles a ≤ i ↔ a < 16 ^ i := by
  refine ⟨fun h => (lt_countNybbles a).trans_le (Nat.pow_le_pow_right (by decide) h), ?_⟩
  induction a using countNybbles.induct generalizing i with
  | case1 value h =>
    intro _
    rw [countNybbles, if_pos h]
    exact hi
  | case2 value h ih =>
    intro ha
    rw [countNybbles, if_neg h]
    rw [Nat.shiftRight_eq_div_pow] at h ih ⊢
    obtain ⟨j, rfl⟩ : ∃ j, i = j + 1 := ⟨i - 1, by omega⟩
    rw [pow_succ] at ha
    refine Nat.succ_le_succ (ih ?_ (by omega))
    by_contra hj
    obtain rfl : j = 0 := by omega
    omega

/-! ## The bytes of an instruction -/

theorem nybble_lt (a k : ℕ) : a >>> k &&& 0xf < 16 :=
  Nat.lt_succ_of_le Nat.and_le_right

theorem nybble_eq (a i : ℕ) : a >>> (i * 4) &&& 0xf = a / 16 ^ i % 16 := by
  rw [Nat.and_two_pow_sub_one_eq_mod _ 4, Nat.shiftRight_eq_div_pow, mul_comm, pow_mul]
  rfl

theorem or_function {d : ℕ} (hd : d < 16) (fn : ℕ) : d ||| 16 * fn = 16 * fn + d := by
  rw [Nat.lor_comm]
  exact (Nat.two_pow_add_eq_or_of_lt (i := 4) hd fn).symm

theorem length_codeNybbles (num : ℕ) (negate : Bool) (n : ℕ) (arg : ℤ) :
    (codeNybbles num negate n arg).1.length = n := by
  induction n generalizing arg with
  | zero => rfl
  | succ n ih => rw [codeNybbles, List.length_cons, ih]

/-- What the bytes of an instruction are: prefixes that leave the operand's upper part, and the
instruction with the lowest nybble. -/
def Spells (fn : ℕ) (v n : ℤ) (bytes : List ℕ) : Prop :=
  ∃ ps, bytes = ps ++ [16 * fn + (n % 16).toNat] ∧ (∀ p ∈ ps, Prefix.IsPrefix p) ∧
    ps.foldl Prefix.shift v = 16 * (n / 16)

theorem Spells.cons {p : ℕ} {v n : ℤ} (hp : Prefix.IsPrefix p)
    (h : Spells fn (Prefix.shift v p) n bytes) : Spells fn v n (p :: bytes) := by
  obtain ⟨ps, rfl, hps, hv⟩ := h
  refine ⟨p :: ps, rfl, fun q hq => ?_, hv⟩
  rcases List.mem_cons.mp hq with rfl | hq
  · exact hp
  · exact hps q hq

/-- A nybble behind `PFIX`. -/
theorem pfix_nybble (i : ℕ) :
    Prefix.IsPrefix (a >>> (i * 4) &&& 0xf ||| PFIX) ∧
      Prefix.shift (16 * (a / 16 ^ (i + 1) : ℕ)) (a >>> (i * 4) &&& 0xf ||| PFIX) =
        16 * (a / 16 ^ i : ℕ) := by
  have hbyte : a >>> (i * 4) &&& 0xf ||| PFIX = 16 * 2 + a / 16 ^ i % 16 := by
    rw [show PFIX = 16 * 2 from rfl, or_function (nybble_lt a _), nybble_eq]
  have hdiv : a / 16 ^ (i + 1) = a / 16 ^ i / 16 := by
    rw [pow_succ, Nat.div_div_eq_div_mul]
  rw [hbyte, Prefix.shift, if_pos (by omega), hdiv]
  refine ⟨Or.inl (by omega), ?_⟩
  omega

/-- **A non-negative operand is spelled.** -/
theorem codeNybbles_spells (fn i : ℕ) (ha : a < 2 ^ 64) :
    Spells fn (16 * (a / 16 ^ (i + 1) : ℕ)) a (codeNybbles (16 * fn) false (i + 1) a).1 := by
  induction i with
  | zero =>
    refine ⟨[], ?_, fun p hp => absurd hp List.not_mem_nil, ?_⟩
    · rw [codeNybbles, if_pos rfl, unsigned_natCast ha, or_function (nybble_lt a _), nybble_eq]
      dsimp only [codeNybbles]
      rw [List.nil_append]
      congr 2
      omega
    · rw [List.foldl_nil, zero_add, pow_one]
      omega
  | succ i ih =>
    obtain ⟨hp, hv⟩ := pfix_nybble (a := a) (i + 1)
    rw [codeNybbles, if_neg (by omega), if_neg (by simp), unsigned_natCast ha]
    refine Spells.cons hp ?_
    rw [hv]
    exact ih

/-- **So is a negative one**, from its complement. -/
theorem codeNybbles_spells_neg (fn i : ℕ) (ha : a < 2 ^ 63) :
    Spells fn (16 * (a / 16 ^ (i + 2) : ℕ)) (-1 - a) (codeNybbles (16 * fn) true (i + 2) a).1 := by
  have ha' : a < 2 ^ 64 := by omega
  induction i with
  | zero =>
    have hbyte : a >>> (1 * 4) &&& 0xf ||| NFIX = 16 * 6 + a / 16 % 16 := by
      rw [show NFIX = 16 * 6 from rfl, or_function (nybble_lt a _), nybble_eq, pow_one]
    rw [codeNybbles, if_neg (by omega), if_pos (by simp), unsigned_natCast ha', hbyte]
    refine Spells.cons (Or.inr (by omega)) ⟨[], ?_, fun p hp => absurd hp List.not_mem_nil, ?_⟩
    · have hun : unsigned (complement a) = 2 ^ 64 - 1 - a := by
        rw [complement, unsigned_natCast ha', unsigned_natCast (by omega)]
      rw [codeNybbles, if_pos rfl, hun, or_function (nybble_lt _ _), nybble_eq]
      dsimp only [codeNybbles]
      rw [List.nil_append]
      congr 2
      omega
    · rw [List.foldl_nil, Prefix.shift, if_neg (by omega)]
      omega
  | succ i ih =>
    obtain ⟨hp, hv⟩ := pfix_nybble (a := a) (i + 2)
    rw [codeNybbles, if_neg (by omega), if_neg (by simp), unsigned_natCast ha']
    refine Spells.cons hp ?_
    rw [hv]
    exact ih

theorem codeUnpadded_of_nonneg (ha : a < 2 ^ 64) :
    codeUnpadded num a = codeNybbles num false (countNybbles a) a := by
  have hneg : ¬(a : ℤ) < 0 := by omega
  rw [codeUnpadded, decide_eq_false hneg, if_neg hneg, unsigned_natCast ha, if_neg (by simp)]

theorem codeUnpadded_of_neg (ha : a < 2 ^ 63) :
    codeUnpadded num (-1 - a) = codeNybbles num true (max 2 (countNybbles a)) a := by
  have hneg : -1 - (a : ℤ) < 0 := by omega
  have hcomp : complement (-1 - a) = a := by rw [complement_of_neg hneg (by omega)]; omega
  rw [codeUnpadded, decide_eq_true hneg, if_pos hneg, hcomp, unsigned_natCast (by omega)]
  have hpos := countNybbles_pos a
  by_cases hone : countNybbles a = 1
  · rw [if_pos (by simp [hone]), hone]
    rfl
  · rw [if_neg (by simp [hone]), max_eq_right (by omega)]

/-- An operand is an integer or the complement of one. -/
theorem nonneg_or_complement (h : -2 ^ 63 ≤ arg) (h' : arg < 2 ^ 63) :
    (∃ a : ℕ, a < 2 ^ 63 ∧ arg = a) ∨ ∃ a : ℕ, a < 2 ^ 63 ∧ arg = -1 - a := by
  rcases le_or_gt 0 arg with hsign | hsign
  · exact Or.inl ⟨arg.toNat, by omega, by omega⟩
  · exact Or.inr ⟨(-1 - arg).toNat, by omega, by omega⟩

/-- **Every operand is spelled.** -/
theorem codeUnpadded_spells (fn : ℕ) (h : -2 ^ 63 ≤ arg) (h' : arg < 2 ^ 63) :
    Spells fn 0 arg (codeUnpadded (16 * fn) arg).1 := by
  rcases nonneg_or_complement h h' with ⟨a, ha, rfl⟩ | ⟨a, ha, rfl⟩
  · obtain ⟨i, hi⟩ : ∃ i, countNybbles a = i + 1 :=
      ⟨countNybbles a - 1, by have := countNybbles_pos a; omega⟩
    have hlt := lt_countNybbles a
    rw [hi] at hlt
    rw [codeUnpadded_of_nonneg (by omega), hi]
    have := codeNybbles_spells fn i (show a < 2 ^ 64 by omega)
    rwa [Nat.div_eq_of_lt hlt, Nat.cast_zero, mul_zero] at this
  · obtain ⟨i, hi⟩ : ∃ i, max 2 (countNybbles a) = i + 2 :=
      ⟨max 2 (countNybbles a) - 2, by have := le_max_left 2 (countNybbles a); omega⟩
    have hlt : a < 16 ^ max 2 (countNybbles a) :=
      (lt_countNybbles a).trans_le (Nat.pow_le_pow_right (by decide) (le_max_right _ _))
    rw [hi] at hlt
    rw [codeUnpadded_of_neg ha, hi]
    have := codeNybbles_spells_neg fn i ha
    rwa [Nat.div_eq_of_lt hlt, Nat.cast_zero, mul_zero] at this

/-- The bytes that an operand takes. -/
def codedLength (arg : ℤ) : ℕ := (codeUnpadded 0 arg).1.length

theorem length_codeUnpadded (num : ℕ) (arg : ℤ) :
    (codeUnpadded num arg).1.length = codedLength arg := by
  rw [codedLength, codeUnpadded, codeUnpadded, length_codeNybbles, length_codeNybbles]

/-- **When some bytes are enough for an operand.** -/
theorem codedLength_le (hi : 0 < i) (h : -2 ^ 63 ≤ arg) (h' : arg < 2 ^ 63) :
    codedLength arg ≤ i ↔ arg < 16 ^ i ∧ (arg < 0 → 2 ≤ i ∧ -(16 : ℤ) ^ i ≤ arg) := by
  rcases nonneg_or_complement h h' with ⟨a, ha, rfl⟩ | ⟨a, ha, rfl⟩
  · rw [codedLength, codeUnpadded_of_nonneg (by omega), length_codeNybbles, countNybbles_le hi]
    constructor
    · exact fun hlt => ⟨by exact_mod_cast hlt, fun hneg => by omega⟩
    · exact fun hlt => by exact_mod_cast hlt.1
  · rw [codedLength, codeUnpadded_of_neg ha, length_codeNybbles, max_le_iff, countNybbles_le hi]
    have hpow : (0 : ℤ) < 16 ^ i := by positivity
    have hcast : a < 16 ^ i ↔ (a : ℤ) < 16 ^ i := by exact_mod_cast Iff.rfl
    rw [hcast]
    constructor
    · exact fun hlt => ⟨by omega, fun _ => ⟨hlt.1, by omega⟩⟩
    · intro hlt
      have hneg := hlt.2 (by omega)
      exact ⟨hneg.1, by omega⟩

theorem codedLength_pos (arg : ℤ) : 0 < codedLength arg := by
  have hpos := countNybbles_pos (unsigned (if arg < 0 then complement arg else arg))
  rw [codedLength, codeUnpadded, length_codeNybbles]
  by_cases h : (countNybbles (unsigned (if arg < 0 then complement arg else arg)) = 1 &&
      decide (arg < 0)) = true
  · rw [if_pos h]
    exact Nat.two_pos
  · rw [if_neg h]
    exact hpos

/-! ## Padding -/

theorem codeNybbles_snd_nonneg (num : ℕ) (negate : Bool) (n : ℕ) (harg : 0 ≤ arg) :
    0 ≤ (codeNybbles num negate n arg).2 := by
  induction n generalizing arg with
  | zero => exact harg
  | succ n ih =>
    rw [codeNybbles]
    refine ih ?_
    split_ifs
    · exact harg
    · exact Int.natCast_nonneg _
    · exact harg

/-- **The operand is never negative when it comes to padding**: `~` gives an unsigned integer. -/
theorem codeUnpadded_snd_nonneg (num : ℕ) (arg : ℤ) : ¬(codeUnpadded num arg).2 < 0 := by
  refine not_lt.mpr (codeNybbles_snd_nonneg _ _ _ ?_)
  split_ifs with h
  · exact Int.natCast_nonneg _
  · exact not_lt.mp h

theorem codeUnpadded_pfix : codeUnpadded PFIX 0 = ([32], 0) := by
  have hcount : countNybbles 0 = 1 := by
    rw [countNybbles]
    exact if_pos rfl
  rw [show (0 : ℤ) = (0 : ℕ) from rfl, codeUnpadded_of_nonneg (by decide), hcount]
  rfl

theorem padTo_front (length fuel : ℕ) (hfuel : length ≤ fuel + bytes.length) :
    padTo (fun bytes => (codeUnpadded PFIX 0).1 ++ bytes) length fuel bytes =
      List.replicate (length - bytes.length) 32 ++ bytes := by
  induction fuel generalizing bytes with
  | zero =>
    rw [show length - bytes.length = 0 by omega]
    rfl
  | succ fuel ih =>
    rw [padTo, codeUnpadded_pfix]
    rw [codeUnpadded_pfix] at ih
    by_cases h : bytes.length < length
    · rw [if_pos h, List.singleton_append, ih (by rw [List.length_cons]; omega), List.length_cons,
        show length - bytes.length = length - (bytes.length + 1) + 1 by omega,
        List.replicate_succ', List.append_assoc]
      rfl
    · rw [if_neg h, show length - bytes.length = 0 by omega]
      rfl

/-- **Padding is always in front.** -/
theorem codeInstruction_eq (num : ℕ) (arg : ℤ) (length : Option ℕ) :
    codeInstruction num arg length =
      List.replicate (length.getD 0 - codedLength arg) 32 ++ (codeUnpadded num arg).1 := by
  cases length with
  | none => rw [Option.getD_none, Nat.zero_sub]; rfl
  | some length =>
    rw [codeInstruction, if_neg (codeUnpadded_snd_nonneg num arg),
      padTo_front _ _ (Nat.le_add_right _ _),
      length_codeUnpadded, Option.getD_some]

theorem length_codeInstruction (num : ℕ) (arg : ℤ) (length : Option ℕ) :
    (codeInstruction num arg length).length = max (length.getD 0) (codedLength arg) := by
  rw [codeInstruction_eq, List.length_append, List.length_replicate, length_codeUnpadded]
  omega

/-- **An instruction is spelled, padded or not.** -/
theorem codeInstruction_spells (fn : ℕ) (length : Option ℕ) (h : -2 ^ 63 ≤ arg)
    (h' : arg < 2 ^ 63) : Spells fn 0 arg (codeInstruction (16 * fn) arg length) := by
  rw [codeInstruction_eq]
  generalize length.getD 0 - codedLength arg = pads
  induction pads with
  | zero => exact codeUnpadded_spells fn h h'
  | succ pads ih =>
    rw [List.replicate_succ, List.cons_append]
    exact Spells.cons (Or.inl rfl) ih

/-! ## Reading back -/

theorem isPrefix_iff (p : ℕ) : p >>> 4 = 2 ∨ p >>> 4 = 6 ↔ Prefix.IsPrefix p := by
  rw [Nat.shiftRight_eq_div_pow]
  exact Iff.rfl

/-- **What the prefixes and the last byte decode to.** -/
theorem decodeNext_foldl {ps : List ℕ} (hp : ∀ p ∈ ps, Prefix.IsPrefix p) (last : ℕ) :
    ∃ y : ℤ, ps.foldl Prefix.shift 0 = 16 * y ∧ -(16 : ℤ) ^ ps.length ≤ y ∧ y < 16 ^ ps.length ∧
      decodeNext (ps.foldl executePrefix 0) last = BitVec.ofInt 32 (16 * y + (last % 16 : ℕ)) := by
  obtain ⟨y, hy, hlow, hhigh⟩ := Prefix.foldl_shift_bounds hp
  have hstep := (Prefix.Reader.word_reads 32).foldl_step hp 0
  rw [mul_zero, hy] at hstep
  refine ⟨y, hy, hlow, hhigh, ?_⟩
  rw [← (Prefix.Reader.word_reads 32).nibble y (last % 16) (Nat.mod_lt _ (by decide)), ← hstep,
    ← Nat.and_two_pow_sub_one_eq_mod last 4]
  rfl

/-- **What is spelled is decoded.** -/
theorem Spells.decodes {n : ℤ} (h : Spells fn 0 n bytes) :
    Decodes fn (BitVec.ofInt 32 n) bytes := by
  obtain ⟨ps, rfl, hps, hv⟩ := h
  obtain ⟨y, hy, -, -, hdecode⟩ := decodeNext_foldl hps (16 * fn + (n % 16).toNat)
  refine ⟨ps, _, rfl, fun p hp => (isPrefix_iff p).mpr (hps p hp), ?_, ?_⟩
  · rw [Nat.shiftRight_eq_div_pow]
    omega
  · rw [hdecode]
    congr 1
    omega

/-- Two operands that the operand register does not tell apart. -/
theorem dvd_of_ofInt_eq {m n : ℤ} (h : BitVec.ofInt 32 m = BitVec.ofInt 32 n) :
    (2 ^ 32 : ℤ) ∣ m - n := by
  have := congrArg BitVec.toInt h
  rw [BitVec.toInt_ofInt, BitVec.toInt_ofInt] at this
  have hm : (2 ^ 32 : ℤ) ∣ m.bmod (2 ^ 32) - m := Int.dvd_bmod_sub_self
  have hn : (2 ^ 32 : ℤ) ∣ n.bmod (2 ^ 32) - n := Int.dvd_bmod_sub_self
  have := dvd_sub hn (this ▸ hm)
  rwa [sub_sub_sub_cancel_left] at this

/-- **No shorter prefixes give the operand.** -/
theorem codedLength_le_of_decodes (h : -2 ^ 31 ≤ arg) (h' : arg < 2 ^ 31)
    (hdecodes : Decodes fn (BitVec.ofInt 32 arg) bytes) : codedLength arg ≤ bytes.length := by
  obtain ⟨ps, last, rfl, hps, -, hx⟩ := hdecodes
  obtain ⟨y, hy, hlow, hhigh, hdecode⟩ :=
    decodeNext_foldl (fun p hp => (isPrefix_iff p).mp (hps p hp)) last
  rw [hdecode] at hx
  have hdvd := dvd_of_ofInt_eq hx
  rw [List.length_append, List.length_singleton]
  by_contra hlong
  have height : codedLength arg ≤ 8 :=
    (codedLength_le (by decide) (by omega) (by omega)).mpr
      ⟨by omega, fun _ => ⟨by decide, by omega⟩⟩
  have hshort : (16 : ℤ) ^ ps.length ≤ 16 ^ 6 := pow_le_pow_right₀ (by decide) (by omega)
  have hexact := mt (codedLength_le (Nat.succ_pos ps.length) (by omega) (by omega)).mpr hlong
  have hnil : ps.length = 0 → y = 0 := by
    intro hlen
    rw [List.length_eq_zero_iff.mp hlen, List.foldl_nil] at hy
    omega
  rw [pow_succ] at hexact
  by_cases hhuge : arg < 16 ^ ps.length * 16
  · have : arg < 0 ∧ (ps.length = 0 ∨ arg < -(16 ^ ps.length * 16)) := by
      refine ⟨?_, ?_⟩
      · by_contra hneg
        exact hexact ⟨hhuge, fun h => absurd h hneg⟩
      · by_contra hneg
        exact hexact ⟨hhuge, fun _ => ⟨by omega, by omega⟩⟩
    omega
  · omega

/-! ## The instruction and its bytes -/

/-- **An instruction is read back**: prefixes, then the opcode with the operand modulo `2 ^ 32`,
and without a length no other prefixes that do this are shorter. -/
theorem decodes_codeInstruction (opcode : Fin 16) (arg : ℤ) (length : Option ℕ) (h : -2 ^ 31 ≤ arg)
    (h' : arg < 2 ^ 31) :
    Decodes opcode (BitVec.ofInt 32 arg) (codeInstruction (16 * opcode) arg length) ∧
      ∀ bytes, Decodes opcode (BitVec.ofInt 32 arg) bytes →
        (codeInstruction (16 * opcode) arg none).length ≤ bytes.length := by
  refine ⟨(codeInstruction_spells opcode length (by omega) (by omega)).decodes, fun bytes hb => ?_⟩
  rw [length_codeInstruction, Option.getD_none, Nat.zero_max]
  exact codedLength_le_of_decodes h h' hb

/-- The least operand, for `OPR`. -/
theorem decodes_codeInstruction_least :
    Decodes (15 : Fin 16) (BitVec.ofInt 32 (-2 ^ 31))
        (codeInstruction (16 * (15 : Fin 16)) (-2 ^ 31) (some 10)) ∧
      ∀ bytes, Decodes (15 : Fin 16) (BitVec.ofInt 32 (-2 ^ 31)) bytes →
        (codeInstruction (16 * (15 : Fin 16)) (-2 ^ 31) none).length ≤ bytes.length :=
  decodes_codeInstruction 15 (-2 ^ 31) (some 10) (by decide) (by decide)

end Kroc.Plinker
