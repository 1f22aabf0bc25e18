import Mathlib.Tactic

/-!
# Tcoff/Numbers — one writer and four readers of TCOFF numbers

`tcoff_putl`, `tcoff_sizel` and `tcoff_getl_test` of `ilibr/tcofflib/tcoff_io.c`, `tceread_number`
of `tranx86/tceread.c`, and `read_int` and `decode_int` of `plinker/TCOFF.pm`.  Bytes are numbers; a
reader gives the number and the bytes after it, or `none` where it stops with an error, has not
enough bytes, or the C is undefined.

A number up to 250 is one byte.  Otherwise a tag says how many bytes follow, a power of two; the
complement of a negative number comes after the byte 255.
-/

namespace Kroc

namespace Tcoff

/-! ## The writer -/

/-- `bytes_to_tag` -/
def bytesToTag : ℕ → ℕ
  | 0 => 0
  | 1 => 251
  | 2 => 252
  | 3 => 253
  | 4 => 253
  | _ => 254

/-- The loop that counts the bytes of a number: `n = l >> 8; while (n != 0L)`. -/
def countBytes (l : ℕ) : ℕ := if l >>> 8 = 0 then 1 else countBytes (l >>> 8) + 1
termination_by l
decreasing_by omega

/-- The loop that writes `bytes` bytes, the lowest first. -/
def putBytes : ℕ → ℕ → List ℕ
  | 0, _ => []
  | bytes + 1, l => (l &&& 0xff) :: putBytes bytes (l >>> 8)

/-- `tcoff_putl` of a number that is not negative. -/
def putNat (l : ℕ) : List ℕ :=
  if l ≤ 250 then [l]
  else bytesToTag (countBytes l) :: putBytes (1 <<< (bytesToTag (countBytes l) - 251)) l

/-- `~l` -/
def complement (l : ℤ) : ℤ := -1 - l

/-- `tcoff_putl` -/
def putl (l : ℤ) : List ℕ :=
  if l < 0 then 255 :: putNat (complement l).toNat else putNat l.toNat

/-- `tcoff_sizel` -/
def sizel (l : ℤ) : ℕ :=
  let size := if l < 0 then 1 else 0
  let l := if l < 0 then (complement l).toNat else l.toNat
  if l ≤ 250 then size + 1 else size + 1 + 1 <<< (bytesToTag (countBytes l) - 251)

/-! ## tcofflib -/

/-- The loop of `tcoff_getl_test`; a `long int` has `w` bits. -/
def getBytes (w : ℕ) : ℕ → ℕ → BitVec w → List ℕ → Option (BitVec w × List ℕ)
  | 0, _, res, fs => some (res, fs)
  | _ + 1, _, _, [] => none
  | size + 1, i, res, c :: fs => getBytes w size (i + 1) (res ||| BitVec.ofNat w c <<< (8 * i)) fs

/-- `tcoff_getl_test` after the sign. -/
def getNat (w : ℕ) (c : ℕ) (fs : List ℕ) : Option (BitVec w × List ℕ) :=
  if c ≤ 250 then some (BitVec.ofNat w c, fs) else getBytes w (1 <<< (c - 251)) 0 0 fs

/-- `tcoff_getl_test` -/
def getlTest (w : ℕ) : List ℕ → Option (ℤ × List ℕ)
  | [] => none
  | c :: fs =>
    if c = 255 then
      match fs with
      | [] => none
      | c :: fs => (getNat w c fs).map fun (res, fs) => ((~~~res).toInt, fs)
    else if c = 254 then none
    else (getNat w c fs).map fun (res, fs) => (res.toInt, fs)

/-! ## tranx86 -/

/-- A `char`, which has a sign, as an `unsigned int`. -/
def signedChar (c : ℕ) : BitVec 32 := (BitVec.ofNat 8 c).signExtend 32

/-- `tceread_number` after the sign; a shift by 32 or more is undefined. -/
def tcereadNat (n : BitVec 32) (file : List ℕ) : Option (BitVec 32 × List ℕ) :=
  if n.toNat ≤ 250 then some (n, file)
  else if n = 255 then none
  else if 32 ≤ n.toNat - 251 then none
  else
    let len := 1 <<< (n.toNat - 251)
    if len > 4 ∨ file.length < len then none
    else
      let arry := file.take len
      let byte := fun i => BitVec.ofNat 32 (arry.getD i 0)
      let n : BitVec 32 :=
        match len with
        | 1 => byte 0
        | 2 => byte 1 <<< 8 ||| byte 0
        | 4 => byte 3 <<< 24 ||| byte 2 <<< 16 ||| byte 1 <<< 8 ||| byte 0
        | _ => 0
      some (n, file.drop len)

/-- `tceread_number`; the sign is put back with `n ^= n`. -/
def tcereadNumber : List ℕ → Option (ℤ × List ℕ)
  | [] => none
  | ch :: file =>
    if ch = 255 then
      match file with
      | [] => none
      | ch :: file => (tcereadNat (signedChar ch) file).map fun (n, file) => ((n ^^^ n).toInt, file)
    else (tcereadNat (BitVec.ofNat 32 ch) file).map fun (n, file) => (n.toInt, file)

/-! ## plinker -/

/-- `unpack` with `C`, `v` or `V`, by the length. -/
def unpack : List ℕ → ℕ
  | [] => 0
  | b :: n => b + 256 * unpack n

/-- `read_int`, and `decode_int` on a string: what 255 starts is taken to have four bytes. -/
def readInt : List ℕ → Option (ℤ × List ℕ)
  | [] => none
  | b :: data =>
    if b > 250 ∧ b ≤ 255 then
      let len := if b = 255 then 4 else 1 <<< (b - 251)
      if len > 4 ∨ data.length < len then none
      else
        let n := unpack (data.take len)
        some ((if b = 255 then n ^^^ n else n : ℕ), data.drop len)
    else some (b, data)

/-- `decode_int` -/
def decodeInt (data : List ℕ) : Option (ℤ × List ℕ) := readInt data

/-! ## The bytes written -/

theorem and_byte (l : ℕ) : l &&& 0xff = l % 256 := Nat.and_two_pow_sub_one_eq_mod l 8

theorem shift_byte (l : ℕ) : l >>> 8 = l / 256 := Nat.shiftRight_eq_div_pow l 8

@[simp] theorem length_putBytes (bytes l : ℕ) : (putBytes bytes l).length = bytes := by
  induction bytes generalizing l with
  | zero => rfl
  | succ bytes ih => rw [putBytes, List.length_cons, ih]

/-- The bytes of a number are as many as its length says. -/
theorem length_putl (l : ℤ) : (putl l).length = sizel l := by
  have hnat : ∀ n, (putNat n).length =
      if n ≤ 250 then 1 else 1 + 1 <<< (bytesToTag (countBytes n) - 251) := by
    intro n
    unfold putNat
    split_ifs
    · rfl
    · rw [List.length_cons, length_putBytes, add_comm]
  unfold putl sizel
  dsimp only
  split_ifs with hneg hsmall hsmall
  · rw [List.length_cons, hnat, if_pos hsmall]
  · rw [List.length_cons, hnat, if_neg hsmall]
    omega
  · rw [hnat, if_pos hsmall]
  · rw [hnat, if_neg hsmall, zero_add]

theorem countBytes_eq (l : ℕ) : countBytes l = if l < 256 then 1 else countBytes (l / 256) + 1 := by
  rw [countBytes, shift_byte]
  exact if_congr (by omega) rfl rfl

/-- The tag of a number of 32 bits: one, two or four bytes, which hold it. -/
theorem tag_cases {n : ℕ} (hn : n < 2 ^ 32) :
    ∃ e, e ≤ 2 ∧ bytesToTag (countBytes n) = 251 + e ∧ n < 256 ^ 2 ^ e := by
  rw [countBytes_eq]
  split_ifs with h₁
  · exact ⟨0, by decide, rfl, h₁⟩
  rw [countBytes_eq]
  split_ifs with h₂
  · exact ⟨1, by decide, rfl, by omega⟩
  rw [countBytes_eq]
  split_ifs with h₃
  · exact ⟨2, by decide, rfl, by omega⟩
  rw [countBytes_eq, if_pos (by omega)]
  exact ⟨2, by decide, rfl, by omega⟩

/-- **A number of 32 bits as bytes**: itself, or a tag and its bytes. -/
theorem putNat_cases {n : ℕ} (hn : n < 2 ^ 32) : (n ≤ 250 ∧ putNat n = [n]) ∨
    ∃ e, e ≤ 2 ∧ n < 256 ^ 2 ^ e ∧ putNat n = (251 + e) :: putBytes (1 <<< e) n := by
  unfold putNat
  split_ifs with h
  · exact .inl ⟨h, rfl⟩
  · obtain ⟨e, he, htag, hlt⟩ := tag_cases hn
    rw [htag, Nat.add_sub_cancel_left]
    exact .inr ⟨e, he, hlt, rfl⟩

/-! ## The bytes read -/

variable {w : ℕ} {rest : List ℕ} {l : ℤ} {n : ℕ}

/-- A byte above the others. -/
theorem or_byte {r : ℕ} (w i c : ℕ) (hr : r < 256 ^ i) :
    BitVec.ofNat w r ||| BitVec.ofNat w c <<< (8 * i) = BitVec.ofNat w (r + 256 ^ i * c) := by
  have hpow : 256 ^ i = 2 ^ (8 * i) := by rw [pow_mul]; rfl
  have hor : r + 256 ^ i * c = r ||| c <<< (8 * i) := by
    rw [Nat.or_comm, Nat.shiftLeft_eq, mul_comm c, ← Nat.two_pow_add_eq_or_of_lt (hpow ▸ hr), hpow,
      add_comm]
  refine BitVec.eq_of_toNat_eq ?_
  rw [BitVec.toNat_or, BitVec.toNat_shiftLeft, BitVec.toNat_ofNat, BitVec.toNat_ofNat,
    BitVec.toNat_ofNat, hor, Nat.or_mod_two_pow, Nat.shiftLeft_eq, Nat.shiftLeft_eq,
    Nat.mod_mul_mod]

/-- The loop of `tcoff_getl_test` puts the bytes together. -/
theorem getBytes_putBytes (rest : List ℕ) (size : ℕ) : ∀ {i r n : ℕ}, r < 256 ^ i →
    getBytes w size i (BitVec.ofNat w r) (putBytes size n ++ rest) =
      some (BitVec.ofNat w (r + 256 ^ i * (n % 256 ^ size)), rest) := by
  induction size with
  | zero =>
    intro i r n _
    rw [pow_zero, Nat.mod_one, mul_zero, add_zero]
    rfl
  | succ size ih =>
    intro i r n hr
    have hlt : r + 256 ^ i * (n % 256) < 256 ^ (i + 1) := by
      have : n % 256 < 256 := Nat.mod_lt _ (by decide)
      rw [pow_succ]
      nlinarith
    rw [putBytes, List.cons_append, getBytes, and_byte, shift_byte, or_byte w i _ hr, ih hlt]
    congr 3
    rw [pow_succ' 256 size, Nat.mod_mul, pow_succ]
    ring

theorem getNat_putNat (rest : List ℕ) (hn : n < 2 ^ 32) {c : ℕ} {bs : List ℕ}
    (hput : putNat n = c :: bs) :
    c ≤ 253 ∧ getNat w c (bs ++ rest) = some (BitVec.ofNat w n, rest) := by
  rcases putNat_cases hn with ⟨hle, hcase⟩ | ⟨e, he, hlt, hcase⟩ <;> rw [hcase] at hput <;>
    obtain ⟨rfl, rfl⟩ := List.cons.inj hput
  · refine ⟨by omega, ?_⟩
    rw [getNat, if_pos hle]
    rfl
  · refine ⟨by omega, ?_⟩
    have hread := getBytes_putBytes (w := w) rest (1 <<< e) (i := 0) (r := 0) (n := n)
      (by decide)
    rw [getNat, if_neg (by omega), Nat.add_sub_cancel_left]
    refine hread.trans ?_
    rw [Nat.one_shiftLeft, Nat.mod_eq_of_lt hlt, pow_zero, one_mul, zero_add]

/-- A signed 32-bit number. -/
def Signed32 (l : ℤ) : Prop := -2 ^ 31 ≤ l ∧ l < 2 ^ 31

theorem toInt_ofNat_of_lt (hw : 32 ≤ w) (hn : n < 2 ^ 31) : (BitVec.ofNat w n).toInt = n := by
  have hlt : 2 ^ 32 ≤ 2 ^ w := Nat.pow_le_pow_right Nat.two_pos hw
  rw [BitVec.toInt_eq_toNat_of_lt, BitVec.toNat_ofNat, Nat.mod_eq_of_lt (by omega)]
  rw [BitVec.toNat_ofNat, Nat.mod_eq_of_lt (by omega)]
  omega

theorem toInt_not_ofNat_of_lt (hw : 32 ≤ w) (hn : n < 2 ^ 31) :
    (~~~BitVec.ofNat w n).toInt = -1 - n := by
  have hlt : 2 ^ 32 ≤ 2 ^ w := Nat.pow_le_pow_right Nat.two_pos hw
  have hnat : (~~~BitVec.ofNat w n).toNat = 2 ^ w - 1 - n := by
    rw [BitVec.toNat_not, BitVec.toNat_ofNat, Nat.mod_eq_of_lt (by omega)]
  rw [BitVec.toInt_eq_toNat_cond, hnat, if_neg (by omega)]
  omega

/-- **tcofflib reads every number it writes.** -/
theorem getlTest_putl (hw : 32 ≤ w) (hl : Signed32 l) :
    getlTest w (putl l ++ rest) = some (l, rest) := by
  obtain ⟨hlo, hhi⟩ := hl
  unfold putl complement
  split_ifs with hneg
  · have hn : (-1 - l).toNat < 2 ^ 31 := by omega
    obtain ⟨c, bs, hput⟩ : ∃ c bs, putNat (-1 - l).toNat = c :: bs := by
      rcases putNat_cases (n := (-1 - l).toNat) (by omega) with ⟨-, h⟩ | ⟨e, -, -, h⟩ <;>
        exact ⟨_, _, h⟩
    obtain ⟨-, hread⟩ := getNat_putNat (w := w) rest (by omega) hput
    rw [hput, List.cons_append, List.cons_append, getlTest, if_pos rfl]
    dsimp only
    rw [hread, Option.map_some]
    dsimp only
    rw [toInt_not_ofNat_of_lt hw hn, Int.toNat_of_nonneg (by omega)]
    congr 2
    ring
  · have hn : l.toNat < 2 ^ 31 := by omega
    obtain ⟨c, bs, hput⟩ : ∃ c bs, putNat l.toNat = c :: bs := by
      rcases putNat_cases (n := l.toNat) (by omega) with ⟨-, h⟩ | ⟨e, -, -, h⟩ <;>
        exact ⟨_, _, h⟩
    obtain ⟨hc, hread⟩ := getNat_putNat (w := w) rest (by omega) hput
    rw [hput, List.cons_append]
    unfold getlTest
    dsimp only
    rw [if_neg (by omega), if_neg (by omega), hread, Option.map_some]
    dsimp only
    rw [toInt_ofNat_of_lt hw hn, Int.toNat_of_nonneg (by omega)]

/-- The bytes that `tceread_number` puts together, by how many they are. -/
theorem bytes_eq {e : ℕ} (he : e ≤ 2) :
    (match 1 <<< e with
      | 1 => BitVec.ofNat 32 ((putBytes (1 <<< e) n).getD 0 0)
      | 2 => BitVec.ofNat 32 ((putBytes (1 <<< e) n).getD 1 0) <<< 8 |||
          BitVec.ofNat 32 ((putBytes (1 <<< e) n).getD 0 0)
      | 4 => BitVec.ofNat 32 ((putBytes (1 <<< e) n).getD 3 0) <<< 24 |||
          BitVec.ofNat 32 ((putBytes (1 <<< e) n).getD 2 0) <<< 16 |||
          BitVec.ofNat 32 ((putBytes (1 <<< e) n).getD 1 0) <<< 8 |||
          BitVec.ofNat 32 ((putBytes (1 <<< e) n).getD 0 0)
      | _ => 0) = BitVec.ofNat 32 (n % 256 ^ 2 ^ e) := by
  have hlt : ∀ m, m % 256 < 256 := fun m => Nat.mod_lt m (by decide)
  interval_cases e
  · change BitVec.ofNat 32 (n &&& 0xff) = _
    rw [and_byte]
    rfl
  · change BitVec.ofNat 32 (n >>> 8 &&& 0xff) <<< (8 * 1) ||| BitVec.ofNat 32 (n &&& 0xff) = _
    rw [and_byte, and_byte, shift_byte, BitVec.or_comm, or_byte 32 1 _ (hlt n)]
    congr 1
    omega
  · change BitVec.ofNat 32 (n >>> 8 >>> 8 >>> 8 &&& 0xff) <<< (8 * 3) |||
      BitVec.ofNat 32 (n >>> 8 >>> 8 &&& 0xff) <<< (8 * 2) |||
      BitVec.ofNat 32 (n >>> 8 &&& 0xff) <<< (8 * 1) ||| BitVec.ofNat 32 (n &&& 0xff) = _
    rw [BitVec.or_comm, BitVec.or_comm (_ ||| _), BitVec.or_comm (BitVec.ofNat 32 _ <<< (8 * 3)),
      ← BitVec.or_assoc, ← BitVec.or_assoc]
    simp only [and_byte, shift_byte]
    rw [or_byte 32 1 _ (hlt n), or_byte 32 2 _ (by have := hlt n; have := hlt (n / 256); omega),
      or_byte 32 3 _ (by have := hlt n; have := hlt (n / 256); have := hlt (n / 256 / 256); omega)]
    congr 1
    omega

/-- tranx86 reads the numbers that are not negative. -/
theorem tcereadNat_putNat (hn : n < 2 ^ 31) {c : ℕ} {bs : List ℕ} (hput : putNat n = c :: bs) :
    tcereadNat (BitVec.ofNat 32 c) (bs ++ rest) = some (BitVec.ofNat 32 n, rest) := by
  rcases putNat_cases (n := n) (by omega) with ⟨hle, hcase⟩ | ⟨e, he, hlt, hcase⟩ <;>
    rw [hcase] at hput <;> obtain ⟨rfl, rfl⟩ := List.cons.inj hput
  · have hnat : (BitVec.ofNat 32 n).toNat = n := by
      rw [BitVec.toNat_ofNat, Nat.mod_eq_of_lt (by omega)]
    rw [tcereadNat, if_pos (by omega)]
    rfl
  · have hnat : (BitVec.ofNat 32 (251 + e)).toNat = 251 + e := by
      rw [BitVec.toNat_ofNat, Nat.mod_eq_of_lt (by omega)]
    have hne : BitVec.ofNat 32 (251 + e) ≠ 255 := by
      intro h
      have := congrArg BitVec.toNat h
      rw [hnat] at this
      change 251 + e = 255 at this
      omega
    have hlen : 1 <<< e ≤ 4 := by interval_cases e <;> decide
    have hl : (putBytes (1 <<< e) n).length = 1 <<< e := length_putBytes _ _
    unfold tcereadNat
    dsimp only
    rw [hnat, if_neg (by omega), if_neg hne, if_neg (by omega), Nat.add_sub_cancel_left,
      if_neg (by rw [List.length_append, hl]; omega), List.take_left' hl, List.drop_left' hl,
      bytes_eq he]
    have hmod : n % 256 ^ 2 ^ e = n := Nat.mod_eq_of_lt hlt
    rw [hmod]

/-- plinker reads the numbers that are not negative. -/
theorem unpack_putBytes (k n : ℕ) : unpack (putBytes k n) = n % 256 ^ k := by
  induction k generalizing n with
  | zero => rw [pow_zero, Nat.mod_one]; rfl
  | succ k ih =>
    rw [putBytes, unpack, and_byte, shift_byte, ih, pow_succ' 256 k, Nat.mod_mul]

theorem readInt_putNat (hn : n < 2 ^ 31) : readInt (putNat n ++ rest) = some ((n : ℤ), rest) := by
  rcases putNat_cases (n := n) (by omega) with ⟨hle, hcase⟩ | ⟨e, he, hlt, hcase⟩ <;> rw [hcase]
  · rw [List.singleton_append, readInt, if_neg (by omega)]
  · rw [List.cons_append, readInt, if_pos (by omega)]
    have hne : ¬ 251 + e = 255 := by omega
    have hlen : 1 <<< e ≤ 4 := by interval_cases e <;> decide
    have hl : (putBytes (1 <<< e) n).length = 1 <<< e := length_putBytes _ _
    simp only [if_neg hne, Nat.add_sub_cancel_left]
    rw [if_neg (by rw [List.length_append, hl]; omega), List.take_left' hl, List.drop_left' hl,
      unpack_putBytes, Nat.one_shiftLeft, Nat.mod_eq_of_lt hlt]

/-! ## Agreement -/

/-- **The length of a number is as promised, and every reader has the number back**, with exactly
its bytes gone. -/
structure Agree (w : ℕ) (l : ℤ) : Prop where
  size : (putl l).length = sizel l
  tcofflib : ∀ rest, getlTest w (putl l ++ rest) = some (l, rest)
  tranx86 : ∀ rest, tcereadNumber (putl l ++ rest) = some (l, rest)
  plinker : ∀ rest, readInt (putl l ++ rest) = some (l, rest)
  plinkerString : ∀ rest, decodeInt (putl l ++ rest) = some (l, rest)

/-- tranx86 never reads a negative number after the byte 255. -/
theorem tcereadNumber_complement {file : List ℕ} {v : ℤ}
    (h : tcereadNumber (255 :: file) = some (v, rest)) : v = 0 := by
  unfold tcereadNumber at h
  dsimp only at h
  rw [if_pos rfl] at h
  cases file with
  | nil => cases h
  | cons ch file =>
    obtain ⟨⟨n, file'⟩, -, h⟩ := Option.map_eq_some_iff.mp h
    cases h
    rw [BitVec.xor_self]
    rfl

/-- **The readers agree with the writer** exactly on the numbers that are not negative. -/
theorem agree_iff (hw : 32 ≤ w) (hl : Signed32 l) : Agree w l ↔ 0 ≤ l := by
  constructor
  · intro h
    by_contra hneg
    have hread := h.tranx86 []
    rw [putl, if_pos (not_le.mp hneg)] at hread
    have := tcereadNumber_complement hread
    omega
  · intro hpos
    have hput : putl l = putNat l.toNat := if_neg (not_lt.mpr hpos)
    have hn : l.toNat < 2 ^ 31 := by
      obtain ⟨-, hhi⟩ := hl
      omega
    have hcast : (l.toNat : ℤ) = l := Int.toNat_of_nonneg hpos
    have hplinker : ∀ rest, readInt (putl l ++ rest) = some (l, rest) := by
      intro rest
      rw [hput, readInt_putNat hn, hcast]
    refine ⟨length_putl l, fun rest => getlTest_putl hw hl, fun rest => ?_, hplinker, hplinker⟩
    obtain ⟨c, bs, hcons⟩ : ∃ c bs, putNat l.toNat = c :: bs := by
      rcases putNat_cases (n := l.toNat) (by omega) with ⟨-, h⟩ | ⟨e, -, -, h⟩ <;> exact ⟨_, _, h⟩
    have hc := (getNat_putNat (w := w) rest (by omega) hcons).1
    rw [hput, hcons, List.cons_append]
    unfold tcereadNumber
    dsimp only
    rw [if_neg (by omega), tcereadNat_putNat hn hcons, Option.map_some]
    dsimp only
    rw [toInt_ofNat_of_lt le_rfl hn, hcast]

theorem agree_maxInt : Agree 64 (2 ^ 31 - 1) :=
  (agree_iff (by decide) ⟨by decide, by decide⟩).mpr (by decide)

/-- The bytes of -1 are 255 and 0; tranx86 reads 0. -/
theorem not_agree_minus_one : ¬ Agree 64 (-1) := by
  intro h
  have hput : putl (-1) = [255, 0] := by
    rw [putl, if_pos (by decide)]
    rfl
  have hread := h.tranx86 []
  rw [hput] at hread
  exact absurd hread (by decide)

end Tcoff

end Kroc
