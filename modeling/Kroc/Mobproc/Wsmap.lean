import Mathlib.Tactic

/-!
# Mobproc/Wsmap — workspace maps, written by the compiler and walked by the run-time

`wsmap_bytecode` and `bytesof_wsallocmap` of `occ21/be/bind3.c` write a map; `decode_entry` of
`ccsp/common/mobproc.c` reads a number of it, and the loops of that file walk it entry by entry.
They read alike and differ in what they do with an entry, so there is one `walk`, with the body of
the loop as a parameter.

Masks and shifts of a two's complement number are remainders and quotients towards minus infinity.
-/

namespace Kroc

namespace Mobproc

/-! ## Numbers -/

/-- `wsmap_bytecode`; `none` is its internal error. -/
def wsmapBytecode (val : ℤ) : Option (List ℕ) :=
  if val < 2 ^ 6 ∧ val ≥ -2 ^ 6 then some [(val % 128).toNat]
  else if val < 2 ^ 13 ∧ val ≥ -2 ^ 13 then
    some [0x80 ||| (val / 256 % 64).toNat, (val % 256).toNat]
  else if val < 2 ^ 21 ∧ val ≥ -2 ^ 21 then
    some [0xc0 ||| (val / 65536 % 64).toNat, (val / 256 % 256).toNat, (val % 256).toNat]
  else none

/-- A number with its sign bit, extended by `high`. -/
def extend (high : BitVec 32) (sign : Prop) [Decidable sign] (x : ℕ) : ℤ :=
  if sign then (high ||| BitVec.ofNat 32 x).toInt else (BitVec.ofNat 32 x).toInt

/-- `decode_entry`: the number at `ptr`, and the pointer after it. -/
def decodeEntry (map : List ℕ) (ptr : ℕ) : Option (ℤ × ℕ) :=
  match map.drop ptr with
  | [] => none
  | b :: bs =>
    if b &&& 0x80 = 0 then some (extend 0xffffff80 (b &&& 0x40 ≠ 0) (b &&& 0x7f), ptr + 1)
    else if b &&& 0xc0 = 0x80 then
      match bs with
      | [] => none
      | b₁ :: _ =>
        some (extend 0xffffc000 (b &&& 0x20 ≠ 0) ((b &&& 0x3f) <<< 8 ||| b₁), ptr + 2)
    else
      match bs with
      | b₁ :: b₂ :: _ =>
        some (extend 0xffc00000 (b &&& 0x20 ≠ 0) ((b &&& 0x3f) <<< 16 ||| b₁ <<< 8 ||| b₂), ptr + 3)
      | _ => none

/-! ## Maps -/

/-- `WSMAP_INVALID` to `WSMAP_CODEPTR` -/
inductive Wsmap
  | invalid
  | chanword
  | chanptr
  | firstparam
  | chanarray
  | genptr
  | mobDa
  | mobCt
  | mobPt
  | vsptr
  | fb
  | msptr
  | mpp
  | mobShadow
  | staticlink
  | codeptr
  deriving DecidableEq

namespace Wsmap

/-- The number of a type. -/
def code : Wsmap → ℤ
  | invalid => 0x00
  | chanword => 0x01
  | chanptr => 0x02
  | firstparam => 0x03
  | chanarray => 0x04
  | genptr => 0x05
  | mobDa => 0x06
  | mobCt => 0x07
  | mobPt => 0x08
  | vsptr => 0x09
  | fb => 0x0a
  | msptr => 0x0b
  | mpp => 0x0c
  | mobShadow => 0x0d
  | staticlink => 0x0e
  | codeptr => 0x0f

/-- `type & WSMAP_TYPEMASK` -/
def ofType (type : ℤ) : Wsmap :=
  match (type % 16).toNat with
  | 0x01 => chanword
  | 0x02 => chanptr
  | 0x03 => firstparam
  | 0x04 => chanarray
  | 0x05 => genptr
  | 0x06 => mobDa
  | 0x07 => mobCt
  | 0x08 => mobPt
  | 0x09 => vsptr
  | 0x0a => fb
  | 0x0b => msptr
  | 0x0c => mpp
  | 0x0d => mobShadow
  | 0x0e => staticlink
  | 0x0f => codeptr
  | _ => invalid

@[simp] theorem ofType_code (k : Wsmap) : ofType k.code = k := by cases k <;> rfl

end Wsmap

/-- `NO_SLOT`, the offset after the last entry. -/
def noSlot : ℤ := -2 ^ 31

/-- `wsmap_entry_t`, with what the writer asks of the types of the variable: the bytes of an element
of a dynamic mobile array, and the words and attributes of a channel type; a `mobCt` without
attributes is a variable of another kind.  The type is any number: a `WSMAP` in an `ASM` block gives
its own. -/
structure WsmapEntry where
  wsoffset : ℤ
  vtype : ℤ
  vsize : ℤ
  bytesin : ℤ
  chan : Option (ℤ × Bool × Bool)
  deriving DecidableEq

/-- The parameters of an entry; the writer switches on the type as it is. -/
def WsmapEntry.params (e : WsmapEntry) : List ℤ :=
  if e.vtype = Wsmap.mobDa.code then [e.vsize, e.bytesin]
  else if e.vtype = Wsmap.mobCt.code then
    match e.chan with
    | some (nchans, isServer, isShared) => [nchans, isServer.toNat, isShared.toNat]
    | none => [0, 0, 0]
  else []

/-- The type under the mask, as the loops take it. -/
def WsmapEntry.type (e : WsmapEntry) : Wsmap := Wsmap.ofType e.vtype

@[simp] theorem ofType_vtype (e : WsmapEntry) : Wsmap.ofType e.vtype = e.type := rfl

/-- **A type read as one with parameters is that type**, not another with its low four bits. -/
def WsmapEntry.Masked (e : WsmapEntry) : Prop :=
  (e.type = .mobDa → e.vtype = Wsmap.mobDa.code) ∧ (e.type = .mobCt → e.vtype = Wsmap.mobCt.code)

instance (e : WsmapEntry) : Decidable e.Masked := inferInstanceAs (Decidable (_ ∧ _))

/-- Numbers one after another. -/
def bytecodes : List ℤ → Option (List ℕ)
  | [] => some []
  | v :: vs => (wsmapBytecode v).bind fun b => (bytecodes vs).map (b ++ ·)

def WsmapEntry.bytes (e : WsmapEntry) : Option (List ℕ) :=
  bytecodes (e.wsoffset :: e.vtype :: e.params)

def entriesBytes : List WsmapEntry → Option (List ℕ)
  | [] => some []
  | e :: es => e.bytes.bind fun b => (entriesBytes es).map (b ++ ·)

/-- `size_wsallocmap` counts the entries up to the one at `NO_SLOT`. -/
def sizeWsallocmap (lmap : List WsmapEntry) : ℕ :=
  (lmap.takeWhile fun e => e.wsoffset ≠ noSlot).length

/-- `bytesof_wsallocmap`: the counts of entries and bytes, 16 bits each, and the entries. -/
def bytesofWsallocmap (lmap : List WsmapEntry) : Option (List ℕ) :=
  let maplen := sizeWsallocmap lmap
  if maplen = 0 then some []
  else
    (entriesBytes (lmap.take maplen)).map fun bytes =>
      [(maplen >>> 8) &&& 0xff, maplen &&& 0xff, (bytes.length >>> 8) &&& 0xff,
        bytes.length &&& 0xff] ++ bytes

/-! ## Walks -/

/-- How the body of a loop ends: on to the next entry, or out of the function. -/
inductive Outcome (σ : Type*)
  | next (s : σ)
  | fail (s : σ)
  deriving DecidableEq

variable {σ : Type*}

/-- The state after a walk, the pointer into the map, and whether the function has failed. -/
structure Walked (σ : Type*) where
  state : σ
  mapptr : ℕ
  failed : Bool
  deriving DecidableEq

/-- **The loops over a map**: the offset, the type and the parameters of the type are decoded, and
the body is run; `WSMAP_FIRSTPARAM` ends the walk if parameters are not to be done.  The fuel is for
the entries there may be. -/
def walk (body : ℤ → Wsmap → List ℤ → σ → Outcome σ) (doparams : Bool) (map : List ℕ) (mapmax : ℕ) :
    ℕ → σ → ℕ → Option (Walked σ)
  | 0, s, mapptr => if mapptr < mapmax then none else some ⟨s, mapptr, false⟩
  | fuel + 1, s, mapptr =>
    if mapptr < mapmax then
      (decodeEntry map mapptr).bind fun (offset, mapptr) =>
      (decodeEntry map mapptr).bind fun (type, mapptr) =>
      let run := fun params mapptr =>
        match body offset (Wsmap.ofType type) params s with
        | .fail s => some ⟨s, mapptr, true⟩
        | .next s => walk body doparams map mapmax fuel s mapptr
      match Wsmap.ofType type with
      | .mobDa =>
        (decodeEntry map mapptr).bind fun (nslots, mapptr) =>
        (decodeEntry map mapptr).bind fun (basebytes, mapptr) => run [nslots, basebytes] mapptr
      | .mobCt =>
        (decodeEntry map mapptr).bind fun (nchans, mapptr) =>
        (decodeEntry map mapptr).bind fun (isServer, mapptr) =>
        (decodeEntry map mapptr).bind fun (isShared, mapptr) =>
        run [nchans, isServer, isShared] mapptr
      | .firstparam => run [] (if doparams then mapptr else mapmax)
      | _ => run [] mapptr
    else some ⟨s, mapptr, false⟩

/-- The walk over a map in memory: its length is in its header. -/
def walkMap (body : ℤ → Wsmap → List ℤ → σ → Outcome σ) (doparams : Bool) (map : List ℕ) (s : σ) :
    Option (Walked σ) :=
  let maplen := map.getD 2 0 <<< 8 ||| map.getD 3 0
  walk body doparams map (maplen + 4) maplen s 4

/-! ## Numbers are read back -/

theorem or_byte {x : ℕ} (k y : ℕ) (hx : x < 2 ^ k) : y <<< k ||| x = y * 2 ^ k + x := by
  rw [Nat.shiftLeft_eq, mul_comm, Nat.two_pow_add_eq_or_of_lt hx]

/-- A sign extension: what the high bits add to a number of `k` bits. -/
theorem extend_eq (x k : ℕ) (sign : Prop) [Decidable sign] (hk : k < 32) (hx : x < 2 ^ k) :
    extend (BitVec.ofNat 32 (2 ^ 32 - 2 ^ k)) sign x = if sign then (x : ℤ) - 2 ^ k else x := by
  have hpow : 2 ^ k ≤ 2 ^ 31 := Nat.pow_le_pow_right Nat.two_pos (by omega)
  have hpos : 0 < 2 ^ k := Nat.two_pow_pos k
  unfold extend
  split_ifs
  · have hhigh : 2 ^ 32 - 2 ^ k = (2 ^ (32 - k) - 1) <<< k := by
      rw [Nat.shiftLeft_eq, Nat.sub_mul, ← pow_add, one_mul, Nat.sub_add_cancel hk.le]
    have hnat : (BitVec.ofNat 32 (2 ^ 32 - 2 ^ k) ||| BitVec.ofNat 32 x).toNat =
        2 ^ 32 - 2 ^ k + x := by
      rw [BitVec.toNat_or, BitVec.toNat_ofNat, BitVec.toNat_ofNat, Nat.mod_eq_of_lt (by omega),
        Nat.mod_eq_of_lt (by omega), hhigh, or_byte k _ hx, ← Nat.shiftLeft_eq]
    rw [BitVec.toInt_eq_toNat_cond, hnat, if_neg (by omega)]
    have hcast : ((2 ^ k : ℕ) : ℤ) = 2 ^ k := by push_cast; rfl
    rw [← hcast]
    omega
  · rw [BitVec.toInt_eq_toNat_of_lt, BitVec.toNat_ofNat, Nat.mod_eq_of_lt (by omega)]
    rw [BitVec.toNat_ofNat, Nat.mod_eq_of_lt (by omega)]
    omega

/-- The tests `decode_entry` makes of a byte. -/
theorem byte_tests : ∀ b < 256, (b &&& 0x80 = 0 ↔ b < 128) ∧ (b &&& 0xc0 = 0x80 ↔ b / 64 = 2) ∧
    (b &&& 0x40 ≠ 0 ↔ b / 64 % 2 = 1) ∧ (b &&& 0x20 ≠ 0 ↔ b / 32 % 2 = 1) ∧ b &&& 0x7f = b % 128 ∧
    b &&& 0x3f = b % 64 := by
  decide +kernel

theorem or_high {x : ℕ} (k : ℕ) (hx : x < 64) : 64 * k ||| x = 64 * k + x :=
  (Nat.two_pow_add_eq_or_of_lt (i := 6) hx k).symm

/-- The sign of a number is that of its first six bits. -/
theorem sign_test {x k r : ℕ} (hr : r < 2 ^ k) :
    x / 32 % 2 = 1 ↔ (x % 64 * 2 ^ k + r) / 2 ^ (k + 5) % 2 = 1 := by
  rw [pow_add, ← Nat.div_div_eq_div_mul, mul_comm, Nat.mul_add_div (Nat.two_pow_pos k),
    Nat.div_eq_of_lt hr]
  omega

/-- **The remainder of a number, with its sign extended, is the number**. -/
theorem extend_remainder {val : ℤ} {k : ℕ} (hk : k + 1 < 32) (hlo : -2 ^ k ≤ val)
    (hhi : val < 2 ^ k) {x : ℕ} (hx : (x : ℤ) = val % 2 ^ (k + 1)) {sign : Prop} [Decidable sign]
    (hsign : sign ↔ x / 2 ^ k % 2 = 1) :
    extend (BitVec.ofNat 32 (2 ^ 32 - 2 ^ (k + 1))) sign x = val := by
  have hdouble : (2 : ℤ) ^ (k + 1) = 2 * 2 ^ k := pow_succ' 2 k
  have hpos : (0 : ℤ) < 2 ^ k := pow_pos (by decide) k
  have hcast : ((2 ^ k : ℕ) : ℤ) = 2 ^ k := Nat.cast_pow 2 k
  have hlt : x < 2 ^ (k + 1) := by
    have := Int.emod_lt_of_pos val (show (0 : ℤ) < 2 ^ (k + 1) by omega)
    exact_mod_cast hx.trans_lt this
  rw [extend_eq x (k + 1) sign hk hlt]
  by_cases hneg : val < 0
  · -- the remainder is above the sign bit
    have hx' : (x : ℤ) = val + 2 * 2 ^ k := by
      rw [hx, hdouble, ← Int.add_emod_right, Int.emod_eq_of_lt (by omega) (by omega)]
    have hquot : x / 2 ^ k = 1 := Nat.div_eq_of_lt_le (by omega) (by omega)
    rw [if_pos (hsign.mpr (by rw [hquot])), hx', hdouble]
    omega
  · have hx' : (x : ℤ) = val := hx.trans (Int.emod_eq_of_lt (by omega) (by omega))
    have hquot : x / 2 ^ k = 0 := Nat.div_eq_of_lt (by omega)
    rw [if_neg (hsign.not.mpr (by rw [hquot]; decide)), hx']

/-- A number of six bits in the first byte, and `k` behind them. -/
theorem extend_digits {val : ℤ} {k : ℕ} (hk : k + 6 < 32) (hlo : -2 ^ (k + 5) ≤ val)
    (hhi : val < 2 ^ (k + 5)) {x r : ℕ} (hx : ((x % 64 : ℕ) : ℤ) = val / 2 ^ k % 64)
    (hr : (r : ℤ) = val % 2 ^ k) {sign : Prop} [Decidable sign] (hsign : sign ↔ x / 32 % 2 = 1) :
    extend (BitVec.ofNat 32 (2 ^ 32 - 2 ^ (k + 6))) sign (x % 64 * 2 ^ k + r) = val := by
  have hpos : (0 : ℤ) < 2 ^ k := pow_pos (by decide) k
  have hlt : r < 2 ^ k := by
    have := hr.trans_lt (Int.emod_lt_of_pos val hpos)
    exact_mod_cast this
  have hvalue : ((x % 64 * 2 ^ k + r : ℕ) : ℤ) = val % 2 ^ (k + 6) := by
    have hpow : (2 : ℤ) ^ (k + 6) = 64 * 2 ^ k := (pow_add 2 k 6).trans (mul_comm _ _)
    have hval : ((x % 64 * 2 ^ k + r : ℕ) : ℤ) + 2 ^ (k + 6) * (val / 2 ^ k / 64) = val := by
      rw [Nat.cast_add, Nat.cast_mul, Nat.cast_pow, hx, hr, hpow]
      linear_combination Int.mul_ediv_add_emod val (2 ^ k) +
        2 ^ k * Int.mul_ediv_add_emod (val / 2 ^ k) 64
    have hless : x % 64 * 2 ^ k + r < 2 ^ (k + 6) := by
      have hsix := Nat.mul_le_mul_right (2 ^ k) (show x % 64 + 1 ≤ 64 by omega)
      rw [Nat.add_mul, one_mul] at hsix
      rw [pow_add, mul_comm (2 ^ k)]
      exact (Nat.add_lt_add_left hlt _).trans_le hsix
    have hless' : ((x % 64 * 2 ^ k + r : ℕ) : ℤ) < 2 ^ (k + 6) := by exact_mod_cast hless
    have hmod := Int.emod_eq_of_lt (Int.natCast_nonneg _) hless'
    rw [← hmod, ← Int.add_mul_emod_self_left, hval]
  exact extend_remainder hk hlo hhi hvalue (hsign.trans (sign_test hlt))

/-- **A number is read back**, and exactly its bytes are. -/
theorem decodeEntry_bytecode {val : ℤ} {b : List ℕ} (h : wsmapBytecode val = some b)
    (pre post : List ℕ) :
    decodeEntry (pre ++ b ++ post) pre.length = some (val, pre.length + b.length) := by
  unfold decodeEntry
  rw [List.append_assoc, List.drop_left]
  unfold wsmapBytecode at h
  split_ifs at h with h₇ h₁₄ h₂₂ <;> cases h
  · obtain ⟨hhi, hlo⟩ := h₇
    obtain ⟨x, hx⟩ : ∃ x, x = (val % 128).toNat := ⟨_, rfl⟩
    obtain ⟨htag, -, hsign, -, hmask, -⟩ := byte_tests x (by omega)
    have hsign' : x &&& 0x40 ≠ 0 ↔ x / 2 ^ 6 % 2 = 1 := hsign
    have hvalue : (x : ℤ) = val % 2 ^ (6 + 1) := by omega
    have hext := extend_remainder (by decide) hlo hhi hvalue hsign'
    rw [← hx, List.singleton_append]
    dsimp only
    rw [if_pos (htag.mpr (by omega)), hmask, Nat.mod_eq_of_lt (by omega)]
    exact congrArg some (Prod.ext hext rfl)
  · clear h₇
    obtain ⟨hhi, hlo⟩ := h₁₄
    obtain ⟨x, hx⟩ : ∃ x, x = 0x80 ||| (val / 256 % 64).toNat := ⟨_, rfl⟩
    have hadd := hx.trans (or_high 2 (by omega))
    obtain ⟨htag, htag', -, hsign, -, hmask⟩ := byte_tests x (by omega)
    rw [← hx, List.cons_append]
    dsimp only
    rw [if_neg (fun h => by have := htag.mp h; omega), if_pos (htag'.mpr (by omega)), hmask,
      List.singleton_append]
    dsimp only
    rw [or_byte 8 _ (by omega)]
    have hx' : ((x % 64 : ℕ) : ℤ) = val / 2 ^ 8 % 64 := by omega
    have hr : ((val % 256).toNat : ℤ) = val % 2 ^ 8 := by omega
    exact congrArg some (Prod.ext (extend_digits (by decide) hlo hhi hx' hr hsign) rfl)
  · clear h₇ h₁₄
    obtain ⟨hhi, hlo⟩ := h₂₂
    obtain ⟨x, hx⟩ : ∃ x, x = 0xc0 ||| (val / 65536 % 64).toNat := ⟨_, rfl⟩
    have hadd := hx.trans (or_high 3 (by omega))
    obtain ⟨htag, htag', -, hsign, -, hmask⟩ := byte_tests x (by omega)
    rw [← hx, List.cons_append]
    dsimp only
    rw [if_neg (fun h => by have := htag.mp h; omega),
      if_neg (fun h => by have := htag'.mp h; omega), hmask, List.cons_append,
      List.singleton_append]
    dsimp only
    rw [Nat.or_assoc, or_byte 8 _ (by omega), or_byte 16 _ (by omega)]
    have hx' : ((x % 64 : ℕ) : ℤ) = val / 2 ^ 16 % 64 := by omega
    have hr : (((val / 256 % 256).toNat * 2 ^ 8 + (val % 256).toNat : ℕ) : ℤ) = val % 2 ^ 16 := by
      omega
    exact congrArg some (Prod.ext (extend_digits (by decide) hlo hhi hx' hr hsign) rfl)

/-! ## Maps are walked as written -/

/-- The entries a walk comes to: all, or those up to the first parameter. -/
def visible (doparams : Bool) : List WsmapEntry → List WsmapEntry
  | [] => []
  | e :: es => if e.type = .firstparam ∧ doparams = false then [e] else e :: visible doparams es

/-- The body of a loop for one entry after another, each with its own parameters. -/
def runEntries (body : ℤ → Wsmap → List ℤ → σ → Outcome σ) : List WsmapEntry → σ → Outcome σ
  | [], s => .next s
  | e :: es, s =>
    match body e.wsoffset e.type e.params s with
    | .fail s => .fail s
    | .next s => runEntries body es s

def Walked.outcome (r : Walked σ) : Outcome σ := if r.failed then .fail r.state else .next r.state

variable {body : ℤ → Wsmap → List ℤ → σ → Outcome σ} {doparams : Bool} {map b pre post : List ℕ}
  {mapmax fuel ptr : ℕ} {s : σ} {e : WsmapEntry} {es : List WsmapEntry} {v : ℤ} {vs : List ℤ}

theorem bytecodes_cons (h : bytecodes (v :: vs) = some b) :
    ∃ b₁ b₂, wsmapBytecode v = some b₁ ∧ bytecodes vs = some b₂ ∧ b = b₁ ++ b₂ := by
  obtain ⟨b₁, h₁, h⟩ := Option.bind_eq_some_iff.mp h
  obtain ⟨b₂, h₂, rfl⟩ := Option.map_eq_some_iff.mp h
  exact ⟨b₁, b₂, h₁, h₂, rfl⟩

/-- The number at the front of those written from a pointer on, and where the others are. -/
theorem decodeEntry_cons (h : bytecodes (v :: vs) = some b) (hmap : map = pre ++ b ++ post)
    (hptr : ptr = pre.length) : ∃ b₁ b₂, decodeEntry map ptr = some (v, (pre ++ b₁).length) ∧
      bytecodes vs = some b₂ ∧ b = b₁ ++ b₂ ∧ map = (pre ++ b₁) ++ b₂ ++ post := by
  obtain ⟨b₁, b₂, h₁, h₂, rfl⟩ := bytecodes_cons h
  have hmap' : map = (pre ++ b₁) ++ b₂ ++ post := by rw [hmap, ← List.append_assoc]
  refine ⟨b₁, b₂, ?_, h₂, rfl, hmap'⟩
  rw [hmap', List.append_assoc, hptr, decodeEntry_bytecode h₁, List.length_append]

/-- Where a walk goes on after an entry. -/
def nextPtr (doparams : Bool) (e : WsmapEntry) (mapmax ptr : ℕ) : ℕ :=
  if e.type = .firstparam ∧ doparams = false then mapmax else ptr

theorem WsmapEntry.Masked.params_mobDa (hm : e.Masked) (htype : e.type = .mobDa) :
    e.params = [e.vsize, e.bytesin] := if_pos (hm.1 htype)

theorem WsmapEntry.Masked.params_mobCt (hm : e.Masked) (htype : e.type = .mobCt) :
    ∃ nchans isServer isShared, e.params = [nchans, isServer, isShared] := by
  have hct := hm.2 htype
  unfold WsmapEntry.params
  rw [if_neg (by rw [hct]; decide), if_pos hct]
  rcases e.chan with _ | ⟨n, v, r⟩ <;> exact ⟨_, _, _, rfl⟩

/-- A type that is not read as one with parameters is written with none. -/
theorem params_eq_nil (hda : e.type ≠ .mobDa) (hct : e.type ≠ .mobCt) : e.params = [] := by
  have hne : ∀ k, e.type ≠ k → e.vtype ≠ k.code := fun k h heq =>
    h ((congrArg Wsmap.ofType heq).trans (Wsmap.ofType_code k))
  unfold WsmapEntry.params
  rw [if_neg (hne _ hda), if_neg (hne _ hct)]

/-- **One turn of the loop** reads one entry with its parameters. -/
theorem walk_entry (hm : e.Masked) (he : e.bytes = some b) (hmap : map = pre ++ b ++ post)
    (hlt : pre.length < mapmax) :
    walk body doparams map mapmax (fuel + 1) s pre.length =
      match body e.wsoffset e.type e.params s with
      | .fail t => some ⟨t, nextPtr doparams e mapmax (pre ++ b).length, true⟩
      | .next t => walk body doparams map mapmax fuel t
          (nextPtr doparams e mapmax (pre ++ b).length) := by
  obtain ⟨b₁, c₁, hd₁, he₁, rfl, hmap₁⟩ := decodeEntry_cons he hmap rfl
  obtain ⟨b₂, c₂, hd₂, he₂, rfl, hmap₂⟩ := decodeEntry_cons he₁ hmap₁ rfl
  rw [walk, if_pos hlt, hd₁, Option.bind_some]
  dsimp only
  rw [hd₂, Option.bind_some]
  dsimp only
  rw [ofType_vtype]
  unfold nextPtr
  cases htype : e.type
  case mobDa =>
    rw [hm.params_mobDa htype] at he₂ ⊢
    obtain ⟨b₃, c₃, hd₃, he₃, rfl, hmap₃⟩ := decodeEntry_cons he₂ hmap₂ rfl
    obtain ⟨b₄, c₄, hd₄, he₄, rfl, hmap₄⟩ := decodeEntry_cons he₃ hmap₃ rfl
    cases he₄
    dsimp only
    rw [hd₃, Option.bind_some]
    dsimp only
    rw [hd₄, Option.bind_some]
    simp [List.append_assoc]
  case mobCt =>
    obtain ⟨n, v, r, hparams⟩ := hm.params_mobCt htype
    rw [hparams] at he₂ ⊢
    obtain ⟨b₃, c₃, hd₃, he₃, rfl, hmap₃⟩ := decodeEntry_cons he₂ hmap₂ rfl
    obtain ⟨b₄, c₄, hd₄, he₄, rfl, hmap₄⟩ := decodeEntry_cons he₃ hmap₃ rfl
    obtain ⟨b₅, c₅, hd₅, he₅, rfl, hmap₅⟩ := decodeEntry_cons he₄ hmap₄ rfl
    cases he₅
    dsimp only
    rw [hd₃, Option.bind_some]
    dsimp only
    rw [hd₄, Option.bind_some]
    dsimp only
    rw [hd₅, Option.bind_some]
    simp [List.append_assoc]
  case firstparam =>
    rw [params_eq_nil (by rw [htype]; decide) (by rw [htype]; decide)] at he₂ ⊢
    cases he₂
    cases doparams <;> simp [List.append_assoc]
  all_goals
    rw [params_eq_nil (by rw [htype]; decide) (by rw [htype]; decide)] at he₂ ⊢
    cases he₂
    simp [List.append_assoc]

theorem bytes_ne_nil (he : e.bytes = some b) : b ≠ [] := by
  obtain ⟨b₁, b₂, h₁, -, rfl⟩ := bytecodes_cons he
  unfold wsmapBytecode at h₁
  split_ifs at h₁ <;> cases h₁ <;> simp

/-- **The loop over the bytes of some entries** runs its body for the entries it comes to, each with
its own parameters, and ends where the bytes end unless the body fails. -/
theorem walk_entries (es : List WsmapEntry) : ∀ {b pre : List ℕ} {fuel : ℕ} {s : σ},
    (∀ e ∈ visible doparams es, e.Masked) → entriesBytes es = some b → map = pre ++ b ++ post →
    mapmax = (pre ++ b).length → es.length ≤ fuel →
      ∃ r, walk body doparams map mapmax fuel s pre.length = some r ∧
      r.outcome = runEntries body (visible doparams es) s ∧
      (r.failed = false → r.mapptr = mapmax) := by
  induction es with
  | nil =>
    intro b pre fuel s _ hb hmap hmax _
    cases hb
    rw [List.append_nil] at hmax
    refine ⟨⟨s, pre.length, false⟩, ?_, rfl, fun _ => hmax.symm⟩
    cases fuel <;> rw [walk, if_neg (by omega)]
  | cons e es ih =>
    intro b pre fuel s hmasked hb hmap hmax hfuel
    obtain ⟨b₁, he, hb⟩ := Option.bind_eq_some_iff.mp hb
    obtain ⟨b₂, hes, rfl⟩ := Option.map_eq_some_iff.mp hb
    obtain ⟨fuel, rfl⟩ : ∃ k, fuel = k + 1 := ⟨fuel - 1, by simp at hfuel; omega⟩
    have hpos := List.length_pos_iff.mpr (bytes_ne_nil he)
    have hlt : pre.length < mapmax := by
      rw [hmax, List.length_append, List.length_append]
      omega
    have hmap' : map = pre ++ b₁ ++ (b₂ ++ post) := by
      rw [hmap]
      simp only [List.append_assoc]
    have hm : e.Masked := hmasked e (by rw [visible]; split_ifs <;> exact List.mem_cons_self)
    rw [walk_entry hm he hmap' hlt]
    by_cases hstop : e.type = .firstparam ∧ doparams = false
    · have hvis : visible doparams (e :: es) = [e] := if_pos hstop
      have hnext : ∀ q, nextPtr doparams e mapmax q = mapmax := fun q => if_pos hstop
      rw [hvis, runEntries]
      cases body e.wsoffset e.type e.params s with
      | fail t => exact ⟨_, rfl, rfl, fun h => by cases h⟩
      | next t =>
        dsimp only
        rw [hnext]
        refine ⟨⟨t, mapmax, false⟩, ?_, rfl, fun _ => rfl⟩
        cases fuel <;> rw [walk, if_neg (lt_irrefl _)]
    · have hvis : visible doparams (e :: es) = e :: visible doparams es := if_neg hstop
      have hnext : ∀ q, nextPtr doparams e mapmax q = q := fun q => if_neg hstop
      rw [hvis, runEntries]
      cases body e.wsoffset e.type e.params s with
      | fail t => exact ⟨_, rfl, rfl, fun h => by cases h⟩
      | next t =>
        dsimp only
        rw [hnext]
        rw [hvis] at hmasked
        refine ih (fun e he => hmasked e (List.mem_cons_of_mem _ he)) hes ?_ ?_
          (by simpa using hfuel)
        · rw [hmap]
          simp only [List.append_assoc]
        · rw [hmax]
          simp only [List.append_assoc]

theorem length_le_bytes : ∀ {es : List WsmapEntry} {b : List ℕ}, entriesBytes es = some b →
    es.length ≤ b.length := by
  intro es
  induction es with
  | nil => exact fun _ => Nat.zero_le _
  | cons e es ih =>
    intro b hb
    obtain ⟨b₁, he, hb⟩ := Option.bind_eq_some_iff.mp hb
    obtain ⟨b₂, hes, rfl⟩ := Option.map_eq_some_iff.mp hb
    have hpos := List.length_pos_iff.mpr (bytes_ne_nil he)
    have hle := ih hes
    rw [List.length_cons, List.length_append]
    omega

/-- The entries written, up to the one at `NO_SLOT`. -/
def written (lmap : List WsmapEntry) : List WsmapEntry := lmap.take (sizeWsallocmap lmap)

/-- **A map whose counts fit its header** is walked as written, whatever follows it in memory. -/
theorem walkMap_bytesof {lmap : List WsmapEntry} {data : List ℕ}
    (h : bytesofWsallocmap lmap = some data) (hne : data ≠ []) (hfits : data.length - 4 < 2 ^ 16)
    (hmasked : ∀ e ∈ visible doparams (written lmap), e.Masked) (post : List ℕ) (s : σ) :
    ∃ r, walkMap body doparams (data ++ post) s = some r ∧
      r.outcome = runEntries body (visible doparams (written lmap)) s ∧
      (r.failed = false → r.mapptr = data.length) := by
  unfold bytesofWsallocmap at h
  dsimp only at h
  split_ifs at h with hzero
  · exact (hne (Option.some.inj h).symm).elim
  obtain ⟨bytes, hbytes, rfl⟩ := Option.map_eq_some_iff.mp h
  rw [List.length_append, List.length_cons, List.length_cons, List.length_cons, List.length_cons,
    List.length_nil] at hfits
  have hmask : ∀ x, x &&& 0xff = x % 256 := fun x => Nat.and_two_pow_sub_one_eq_mod x 8
  have hlen : ((bytes.length >>> 8) &&& 0xff) <<< 8 ||| bytes.length &&& 0xff = bytes.length := by
    rw [hmask, hmask, Nat.shiftRight_eq_div_pow, or_byte 8 _ (by omega)]
    omega
  let header := [(sizeWsallocmap lmap >>> 8) &&& 0xff, sizeWsallocmap lmap &&& 0xff,
    (bytes.length >>> 8) &&& 0xff, bytes.length &&& 0xff]
  have hmaplen : (header ++ bytes ++ post).getD 2 0 <<< 8 ||| (header ++ bytes ++ post).getD 3 0 =
      bytes.length := hlen
  unfold walkMap
  change ∃ r, walk body doparams (header ++ bytes ++ post) (_ + 4) _ s 4 = some r ∧ _
  rw [hmaplen]
  exact walk_entries (written lmap) hmasked hbytes rfl rfl (length_le_bytes hbytes)

end Mobproc

end Kroc
