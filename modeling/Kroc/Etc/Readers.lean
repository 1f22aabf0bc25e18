import Kroc.Lib.Prefix

/-!
# Etc/Readers — one writer and three readers of prefixed instructions

`assemble_instruction` of `occ21/be/code1k.c`, and the readers of its output: the text loop of
`tceread_nextblocks` in `tranx86/tceread.c`, `decode_fn_opd` and `fix_sign` of `plinker/ETC.pm`, and
`decode-ins` of `slinker/helpers.ss`.  Bytes are numbers.  A C `int` that is shifted is a word of 32
bits, a Perl integer that is complemented one of `w` bits, as many as the Perl has.

The writer's bytes are those of `Prefix.encode`, and each reader is a `Prefix.Reader`; what differs
is how the readers make a signed number of the word they end up with.
-/

open Prefix

namespace Kroc

namespace Etc

/-- A primary function code and its operand. -/
structure Instruction where
  fn : ℕ
  opd : ℤ
  deriving DecidableEq

/-! ## The compiler -/

/-- `I_PFIX` and `I_NFIX` of `instruct.h`, in place in the byte. -/
def iPfix : ℕ := 0x20

def iNfix : ℕ := 0x60

/-- `while (operand > 0)`: `& 0xf` is `% 16` and `>>= 4` is `/ 16`, towards minus infinity. -/
def posLoop (operand : ℤ) : List ℕ :=
  if 0 < operand then (iPfix ||| (operand % 16).toNat) :: posLoop (operand / 16) else []
termination_by operand.toNat
decreasing_by omega

/-- `while (operand > 15)` on the complement, and the `I_NFIX` after it. -/
def negLoop (operand : ℤ) : List ℕ :=
  if 15 < operand then (iPfix ||| ((-1 - operand) % 16).toNat) :: negLoop (operand / 16)
  else [iNfix ||| operand.toNat]
termination_by operand.toNat
decreasing_by omega

/-- `buf` of `assemble_instruction`, lowest nibble first. -/
def assembleBuf (operand : ℤ) : List ℕ :=
  if operand > 0 then posLoop operand
  else if operand = 0 then [0]
  else if operand ≥ -16 then [(operand % 16).toNat, iNfix ||| 0]
  else negLoop (-1 - operand)

/-- `assemble_instruction` -/
def assembleInstruction (instruction : ℕ) (operand : ℤ) : List ℕ :=
  match assembleBuf operand with
  | [] => []
  | b :: bs => ((instruction ||| (b &&& 0xf)) :: bs).reverse

/-- The bytes of an instruction; the compiler's codes have the function in place in the byte. -/
def Instruction.bytes (i : Instruction) : List ℕ := assembleInstruction (16 * i.fn) i.opd

/-! ## tranx86 -/

def iOpr : ℕ := 0xf

def iLdc : ℕ := 0x4

def etc0 : BitVec 32 := 0xffffff00

/-- `FINISH_OP` -/
def finishOp : BitVec 32 := -1

/-- `ETCS1` to `ETCS12`: bytes follow the operation. -/
def isEtcs (opd : BitVec 32) : Bool := 0xffffff11 ≤ opd && opd ≤ 0xffffff1c

/-- `etc_chain` -/
structure EtcChain where
  fn : ℕ
  opd : BitVec 32
  oBytes : List ℕ
  deriving DecidableEq

/-- `while (building)`: the length of the bytes, a constant without negative prefixes. -/
def readLength : BitVec 32 → List ℕ → Option (BitVec 32 × List ℕ)
  | _, [] => none
  | nlen, lch :: code =>
    let lfn := (lch >>> 4) &&& 0x0f
    let nlen := nlen ||| BitVec.ofNat 32 (lch &&& 0x0f)
    if lfn = 2 then readLength (nlen <<< 4) code
    else if lfn = iLdc then some (nlen, code)
    else none

/-- The instruction that is complete, and the bytes that belong to it. -/
def special (fn : ℕ) (opd : BitVec 32) (code : List ℕ) : Option (EtcChain × List ℕ) :=
  if fn = iOpr ∧ isEtcs opd = true then
    (readLength 0 code).bind fun (nlen, code) =>
      if nlen.toNat ≤ code.length then
        some (⟨fn, opd, code.take nlen.toNat⟩, code.drop nlen.toNat)
      else none
  else some (⟨fn, opd, []⟩, code)

/-- `while (i < textlen)`; a text that ends in prefixes ends there. -/
def textLoop : ℕ → List ℕ → Option (List EtcChain)
  | 0, _ => some []
  | fuel + 1, code =>
    match (Reader.word 32).decode 0 code with
    | none => some []
    | some (fn, opd, code) =>
      match special fn opd code with
      | none => none
      | some (tmp, code) => (textLoop fuel code).map (tmp :: ·)

/-- `tceread_nextblocks` on a `LOAD_TEXT` record; `none` where it stops with an error. -/
def nextBlocks (code : List ℕ) : Option (List EtcChain) :=
  (textLoop code.length code).map (· ++ [⟨iOpr, etc0, []⟩, ⟨iLdc, finishOp, []⟩])

/-- What tranx86 has for an instruction: the operand is a C `int`. -/
def Instruction.chain (i : Instruction) : EtcChain := ⟨i.fn, BitVec.ofInt 32 i.opd, []⟩

/-! ## plinker -/

/-- `decode_fn_opd`: the function is left in place in the byte. -/
def decodeFnOpd (w : ℕ) (data : List ℕ) : Option (ℕ × ℕ × List ℕ) :=
  ((Reader.word w).decode 0 data).map fun (fn, opd, data) => (16 * fn, opd.toNat, data)

/-- `fix_sign` -/
def fixSign (val : ℕ) : ℤ := if val ≥ 2 ^ 31 then (val : ℤ) - 2 ^ 32 else val

/-- An instruction as `decode` reads it. -/
def plinkerRead (w : ℕ) (data : List ℕ) : Option (Instruction × List ℕ) :=
  (decodeFnOpd w data).map fun (fn, opd, data) => (⟨fn / 16, fixSign opd⟩, data)

/-! ## slinker -/

/-- `*MAXWORD*`, for a word of `ws` bytes. -/
def maxWord (ws : ℕ) : ℕ := 2 ^ (8 * ws) - 1

/-- `bitwise-mattnot` -/
def bitwiseMattnot (ws x : ℕ) : ℕ := maxWord ws - x

/-- `<<` -/
def shiftUp (ws n m : ℕ) : ℕ := (n <<< m) &&& maxWord ws

/-- `decode-ins`, which keeps the operand as a number without sign. -/
def decodeIns (ws : ℕ) : Reader ℕ where
  nibble op d := op ||| d
  pfix op := shiftUp ws op 4
  nfix op := shiftUp ws (bitwiseMattnot ws op) 4

/-- `->signed` -/
def toSigned (n : ℕ) : ℤ := if n &&& 0x80000000 > 0 then (n : ℤ) - 4294967296 else n

/-- An instruction as slinker reads it, its operand taken as a signed number. -/
def slinkerRead (ws : ℕ) (code : List ℕ) : Option (Instruction × List ℕ) :=
  ((decodeIns ws).decode 0 code).map fun (fn, op, code) => (⟨fn, toSigned op⟩, code)

/-! ## The bytes written -/

theorem or_nibble {d : ℕ} (a : ℕ) (hd : d < 16) : 16 * a ||| d = 16 * a + d :=
  (Nat.two_pow_add_eq_or_of_lt (i := 4) hd a).symm

theorem iPfix_or {d : ℕ} (hd : d < 16) : iPfix ||| d = 32 + d := or_nibble 2 hd

theorem iNfix_or {d : ℕ} (hd : d < 16) : iNfix ||| d = 96 + d := or_nibble 6 hd

theorem reverse_posLoop {m : ℤ} (hm : 0 ≤ m) : (posLoop m).reverse = lead m := by
  induction m using posLoop.induct with
  | case1 m hpos ih =>
    rw [posLoop, if_pos hpos, lead, if_neg (by omega), if_neg (by omega), List.reverse_cons,
      ih (by omega), iPfix_or (by omega)]
  | case2 m hpos =>
    obtain rfl : m = 0 := by omega
    rw [posLoop, if_neg hpos, lead, if_pos rfl, List.reverse_nil]

theorem reverse_negLoop {k : ℤ} (hk : 0 ≤ k) : (negLoop k).reverse = lead (-1 - k) := by
  induction k using negLoop.induct with
  | case1 k hpos ih =>
    have hdiv : (-1 - k) / 16 = -1 - k / 16 := by omega
    rw [negLoop, if_pos hpos, lead, if_neg (by omega), if_neg (by omega), List.reverse_cons,
      ih (by omega), iPfix_or (by omega), hdiv]
  | case2 k hpos =>
    rw [negLoop, if_neg hpos, lead, if_neg (by omega), if_pos (by omega), iNfix_or (by omega),
      List.reverse_singleton, show -1 - (-1 - k) = k by ring]

theorem and_nibble (b : ℕ) : b &&& 0xf = b % 16 := Nat.and_two_pow_sub_one_eq_mod b 4

/-- **The compiler writes the shortest prefixes.** -/
theorem bytes_eq_encode (i : Instruction) : i.bytes = encode i.fn i.opd := by
  obtain ⟨fn, n⟩ := i
  have hfirst : ∃ bs, assembleBuf n = bs ∧ bs.reverse.dropLast = lead (n / 16) ∧
      ∃ b bs', bs = b :: bs' ∧ b &&& 0xf = (n % 16).toNat := by
    refine ⟨_, rfl, ?_⟩
    unfold assembleBuf
    split_ifs with hpos hzero hsmall
    · rw [posLoop, if_pos hpos]
      refine ⟨?_, _, _, rfl, ?_⟩
      · rw [List.reverse_cons, List.dropLast_concat, reverse_posLoop (by omega)]
      · rw [iPfix_or (by omega), and_nibble]
        omega
    · subst hzero
      refine ⟨?_, _, _, rfl, rfl⟩
      rw [lead, if_pos (by rfl)]
      rfl
    · refine ⟨?_, _, _, rfl, ?_⟩
      · rw [show n / 16 = -1 by omega, lead, if_neg (by omega), if_pos (by omega)]
        rfl
      · rw [and_nibble]
        omega
    · rw [negLoop, if_pos (by omega)]
      refine ⟨?_, _, _, rfl, ?_⟩
      · rw [List.reverse_cons, List.dropLast_concat, reverse_negLoop (by omega)]
        congr 1
        omega
      · rw [iPfix_or (by omega), and_nibble, show -1 - (-1 - n) = n by ring]
        omega
  obtain ⟨_, hbuf, hlead, b, bs, rfl, hb⟩ := hfirst
  rw [List.reverse_cons, List.dropLast_concat] at hlead
  unfold Instruction.bytes assembleInstruction
  dsimp only
  rw [hbuf]
  dsimp only
  rw [List.reverse_cons, hlead, hb, or_nibble fn (by omega), encode]

/-! ## The operands read -/

/-- The number without sign that `ws` bytes have for an integer. -/
def unsigned (ws : ℕ) (n : ℤ) : ℕ := (BitVec.ofInt (8 * ws) n).toNat

/-- **slinker's numbers are the words**, shifted and complemented by masking. -/
theorem decodeIns_reads {ws : ℕ} (hws : 0 < ws) : (decodeIns ws).Reads (unsigned ws) := by
  have hword := Reader.word_reads (8 * ws)
  have hmask : ∀ x, x &&& maxWord ws = x % 2 ^ (8 * ws) := fun x =>
    Nat.and_two_pow_sub_one_eq_mod x _
  refine ⟨fun v d hd => ?_, fun v => ?_, fun v => ?_⟩
  · have hlt : d < 2 ^ (8 * ws) :=
      hd.trans_le (Nat.pow_le_pow_right Nat.two_pos (by omega : 4 ≤ 8 * ws))
    unfold unsigned
    rw [← hword.nibble v d hd]
    change _ ||| d = (_ ||| BitVec.ofNat _ d).toNat
    rw [BitVec.toNat_or, BitVec.toNat_ofNat, Nat.mod_eq_of_lt hlt]
  · unfold unsigned
    rw [← hword.pfix v]
    change shiftUp ws _ 4 = (BitVec.ofInt (8 * ws) v <<< 4).toNat
    rw [shiftUp, hmask, BitVec.toNat_shiftLeft]
  · unfold unsigned
    rw [← hword.nfix v]
    change shiftUp ws (bitwiseMattnot ws _) 4 = ((~~~BitVec.ofInt (8 * ws) v) <<< 4).toNat
    rw [shiftUp, hmask, BitVec.toNat_shiftLeft, BitVec.toNat_not]
    rfl

theorem toNat_ofInt_of_nonneg {w : ℕ} {n : ℤ} (hn : 0 ≤ n) (hlt : n < 2 ^ w) :
    ((BitVec.ofInt w n).toNat : ℤ) = n := by
  rw [BitVec.toNat_ofInt, Int.toNat_of_nonneg (Int.emod_nonneg _ (by positivity))]
  push_cast
  exact Int.emod_eq_of_lt hn hlt

theorem toNat_ofInt_of_neg {w : ℕ} {n : ℤ} (hn : n < 0) (hlt : -2 ^ w ≤ n) :
    ((BitVec.ofInt w n).toNat : ℤ) = n + 2 ^ w := by
  rw [BitVec.toNat_ofInt, Int.toNat_of_nonneg (Int.emod_nonneg _ (by positivity))]
  push_cast
  rw [← Int.add_emod_right, Int.emod_eq_of_lt (by omega) (by omega)]

/-- A signed 32-bit number. -/
def Signed32 (n : ℤ) : Prop := -2 ^ 31 ≤ n ∧ n < 2 ^ 31

/-- **`fix_sign` on a Perl of `w` bits** recovers the operand exactly when its words have 32 bits or
the operand is not negative. -/
theorem fixSign_iff {w : ℕ} {n : ℤ} (hw : w = 32 ∨ w = 64) (hn : Signed32 n) :
    fixSign (BitVec.ofInt w n).toNat = n ↔ w = 32 ∨ 0 ≤ n := by
  obtain ⟨hlo, hhi⟩ := hn
  unfold fixSign
  by_cases hneg : 0 ≤ n
  · have := toNat_ofInt_of_nonneg (w := w) hneg (by rcases hw with rfl | rfl <;> omega)
    rw [if_neg (by omega), this]
    simp [hneg]
  · have := toNat_ofInt_of_neg (w := w) (not_le.mp hneg) (by rcases hw with rfl | rfl <;> omega)
    rcases hw with rfl | rfl
    · have hge : (BitVec.ofInt 32 n).toNat ≥ 2 ^ 31 := by omega
      rw [if_pos hge, this]
      simp
    · have hge : (BitVec.ofInt 64 n).toNat ≥ 2 ^ 31 := by omega
      rw [if_pos hge, this]
      omega

/-- The test of `->signed` is on the sign of a word of 32 bits. -/
theorem and_sign_pos {x : ℕ} (hx : x < 2 ^ 32) : x &&& 0x80000000 > 0 ↔ 2 ^ 31 ≤ x := by
  have hand : x &&& 0x80000000 = (x.testBit 31).toNat * 2 ^ 31 := Nat.and_two_pow x 31
  rw [hand, Nat.testBit_eq_decide_div_mod_eq]
  by_cases h : 2 ^ 31 ≤ x
  · have : x / 2 ^ 31 % 2 = 1 := by omega
    rw [this]
    exact iff_of_true (by decide) h
  · have : x / 2 ^ 31 % 2 = 0 := by omega
    rw [this]
    exact iff_of_false (by decide) h

theorem toSigned_unsigned {n : ℤ} (hn : Signed32 n) : toSigned (unsigned 4 n) = n := by
  obtain ⟨hlo, hhi⟩ := hn
  have hsign := and_sign_pos (x := unsigned 4 n) (BitVec.ofInt (8 * 4) n).isLt
  unfold toSigned
  by_cases hneg : 0 ≤ n
  · have : (unsigned 4 n : ℤ) = n := toNat_ofInt_of_nonneg hneg (by omega)
    rw [if_neg (fun h => by have := hsign.mp h; omega), this]
  · have : (unsigned 4 n : ℤ) = n + 2 ^ (8 * 4) := toNat_ofInt_of_neg (not_le.mp hneg) (by omega)
    rw [if_pos (hsign.mpr (by omega)), this]
    omega

/-! ## Agreement -/

/-- **What a reader can be asked to read**: a function other than a prefix, an operand of 32 bits,
and no operation that has bytes after it. -/
structure Instruction.Plain (i : Instruction) : Prop where
  fn : i.fn < 16
  noPrefix : i.fn ≠ 2 ∧ i.fn ≠ 6
  opd : Signed32 i.opd
  noString : i.fn = iOpr → isEtcs (BitVec.ofInt 32 i.opd) = false

variable {i : Instruction} {rest : List ℕ} {w : ℕ}

theorem length_bytes_le (hi : i.Plain) : i.bytes.length ≤ 8 := by
  obtain ⟨hlo, hhi⟩ := hi.opd
  rw [bytes_eq_encode]
  exact length_encode_le (k := 6) (by omega) (by omega)

theorem bytes_ne_nil (i : Instruction) : i.bytes ≠ [] := by
  rw [bytes_eq_encode]
  exact encode_ne_nil _ _

/-- tranx86 reads one instruction. -/
theorem word_decode_bytes (hi : i.Plain) (w : ℕ) : (Reader.word w).decode 0 (i.bytes ++ rest) =
    some (i.fn, BitVec.ofInt w i.opd, rest) := by
  rw [bytes_eq_encode]
  exact (Reader.word_reads w).decode_encode hi.noPrefix i.opd rest

theorem special_plain (hi : i.Plain) : special i.fn (BitVec.ofInt 32 i.opd) rest =
    some (i.chain, rest) := by
  unfold special
  rw [if_neg]
  · rfl
  · rintro ⟨hfn, hetcs⟩
    rw [hi.noString hfn] at hetcs
    cases hetcs

theorem plinkerRead_bytes (hi : i.Plain) : plinkerRead w (i.bytes ++ rest) =
    some (⟨i.fn, fixSign (BitVec.ofInt w i.opd).toNat⟩, rest) := by
  unfold plinkerRead decodeFnOpd
  rw [word_decode_bytes hi]
  simp

theorem slinkerRead_bytes (hi : i.Plain) : slinkerRead 4 (i.bytes ++ rest) = some (i, rest) := by
  have := (decodeIns_reads (Nat.succ_pos 3)).decode_encode hi.noPrefix i.opd rest
  have hzero : unsigned 4 0 = 0 := rfl
  rw [hzero] at this
  unfold slinkerRead
  rw [bytes_eq_encode, this]
  change some (Instruction.mk i.fn (toSigned (unsigned 4 i.opd)), rest) = _
  rw [toSigned_unsigned hi.opd]

/-- The whole text, instruction by instruction. -/
theorem textLoop_bytes (is : List Instruction) (his : ∀ i ∈ is, i.Plain) {fuel : ℕ}
    (hfuel : (is.flatMap Instruction.bytes).length ≤ fuel) :
    textLoop fuel (is.flatMap Instruction.bytes) = some (is.map Instruction.chain) := by
  induction is generalizing fuel with
  | nil => cases fuel <;> rfl
  | cons i is ih =>
    have hi := his i List.mem_cons_self
    have hlen := List.length_pos_iff.mpr (bytes_ne_nil i)
    rw [List.flatMap_cons, List.length_append] at hfuel
    obtain ⟨fuel, rfl⟩ : ∃ k, fuel = k + 1 := ⟨fuel - 1, by omega⟩
    rw [List.flatMap_cons, textLoop, word_decode_bytes hi]
    dsimp only
    rw [special_plain hi]
    dsimp only
    rw [ih (fun j hj => his j (List.mem_cons_of_mem _ hj)) (by omega)]
    rfl

/-- **All three readers have what the compiler wrote**: an instruction at a time, whatever follows
it, and in a sequence. -/
structure ReadBack (w : ℕ) (is : List Instruction) : Prop where
  length : ∀ i ∈ is, i.bytes.length ≤ 8
  tranx86 : ∀ i ∈ is, ∀ rest, ((Reader.word 32).decode 0 (i.bytes ++ rest)).map
    (fun r => (r.1, r.2.1.toInt, r.2.2)) = some (i.fn, i.opd, rest)
  plinker : ∀ i ∈ is, ∀ rest, plinkerRead w (i.bytes ++ rest) = some (i, rest)
  slinker : ∀ i ∈ is, ∀ rest, slinkerRead 4 (i.bytes ++ rest) = some (i, rest)
  tranx86All : nextBlocks (is.flatMap Instruction.bytes) =
    some (is.map Instruction.chain ++ [⟨iOpr, etc0, []⟩, ⟨iLdc, finishOp, []⟩])
  plinkerAll : readAll (plinkerRead w) (is.flatMap Instruction.bytes).length
    (is.flatMap Instruction.bytes) = some is
  slinkerAll : readAll (slinkerRead 4) (is.flatMap Instruction.bytes).length
    (is.flatMap Instruction.bytes) = some is

theorem toInt_ofInt_signed {n : ℤ} (hn : Signed32 n) : (BitVec.ofInt 32 n).toInt = n :=
  BitVec.toInt_ofInt_eq_self (by decide) hn.1 hn.2

/-- **The readers agree with the compiler** exactly where plinker's Perl has 32-bit integers or no
operand is negative. -/
theorem readBack_iff {is : List Instruction} (hw : w = 32 ∨ w = 64) (his : ∀ i ∈ is, i.Plain) :
    ReadBack w is ↔ w = 32 ∨ ∀ i ∈ is, 0 ≤ i.opd := by
  constructor
  · intro h
    refine or_iff_not_imp_left.mpr fun hw' i hi => ?_
    have hread := h.plinker i hi []
    rw [plinkerRead_bytes (his i hi)] at hread
    have hopd : fixSign (BitVec.ofInt w i.opd).toNat = i.opd :=
      congrArg Instruction.opd (Prod.mk.inj (Option.some.inj hread)).1
    exact ((fixSign_iff hw (his i hi).opd).mp hopd).resolve_left hw'
  · intro h
    have hplinker : ∀ i ∈ is, ∀ rest, plinkerRead w (i.bytes ++ rest) = some (i, rest) := by
      intro i hi rest
      have hfix := (fixSign_iff hw (his i hi).opd).mpr (h.imp_right fun h => h i hi)
      rw [plinkerRead_bytes (his i hi), hfix]
    have hslinker : ∀ i ∈ is, ∀ rest, slinkerRead 4 (i.bytes ++ rest) = some (i, rest) :=
      fun i hi rest => slinkerRead_bytes (his i hi)
    have hne : ∀ i ∈ is, i.bytes ≠ [] := fun i _ => bytes_ne_nil i
    refine ⟨fun i hi => length_bytes_le (his i hi), fun i hi rest => ?_, hplinker, hslinker, ?_,
      ?_, ?_⟩
    · rw [word_decode_bytes (his i hi)]
      change some (i.fn, (BitVec.ofInt 32 i.opd).toInt, rest) = _
      rw [toInt_ofInt_signed (his i hi).opd]
    · unfold nextBlocks
      rw [textLoop_bytes is his le_rfl]
      rfl
    · rw [readAll_flatMap (f := id) is hplinker hne le_rfl, List.map_id]
    · rw [readAll_flatMap (f := id) is hslinker hne le_rfl, List.map_id]

theorem readBack_adc_ldc : ReadBack 64 [⟨8, 300⟩, ⟨4, 0⟩] :=
  (readBack_iff (.inr rfl) (by
    intro i hi
    simp only [List.mem_cons, List.not_mem_nil, or_false] at hi
    rcases hi with rfl | rfl
    · exact ⟨by decide, by decide, ⟨by decide, by decide⟩, fun h => by cases h⟩
    · exact ⟨by decide, by decide, ⟨by decide, by decide⟩, fun h => by cases h⟩)).mpr
    (.inr (by decide))

/-- `ldc -1`, read by plinker on a Perl with 64-bit integers. -/
theorem not_readBack_ldc_minus_one : ¬ ReadBack 64 [⟨4, -1⟩] := by
  intro h
  have hbytes : Instruction.bytes ⟨4, -1⟩ = [0x60, 0x4f] := by
    simp [Instruction.bytes, assembleInstruction, assembleBuf, iNfix]
  have hread := h.plinker ⟨4, -1⟩ List.mem_cons_self []
  rw [hbytes] at hread
  have : plinkerRead 64 ([0x60, 0x4f] ++ []) = some (⟨4, 2 ^ 64 - 2 ^ 32 - 1⟩, []) := by decide
  rw [this] at hread
  simp at hread

end Etc

end Kroc
