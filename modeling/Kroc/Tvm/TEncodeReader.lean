import Kroc.Lib.Logged
import Kroc.Tvm.TEncode

/-!
# Tvm/TEncodeReader — reading byte code files

`runtime/libtvm/tencode.c`: `tenc_walk_to_element` and what is built of it, up to `tbc_decode`, as
logged computations over the memory.  An event is a call of `tenc_decode_element`, or a word that
`decode_debug` swaps.

Decoding in place writes over what was read.  What an assignment to a field of such a structure does
to the memory is a parameter of which nothing is assumed.

`tenc_decode_element` compares the data's own length with what is left and then skips the padding
too.  **It stays inside exactly when the padding is there** (`inside_iff_fits`), and then so does
every loop (`readers_inside_iff`).
-/

namespace Kroc

namespace Tencode

open TEncode (ascii letter)

/-- The memory of a program. -/
abbrev Memory := ℤ → UInt8

/-- What is read. -/
inductive Event
  | element (mem : Memory) (src : ℤ) (length : ℕ)
  | word (src : ℤ)

/-- A reader of the memory. -/
abbrev Reader := Logged Memory Event

/-- The fields of the structures that are decoded, an entry of `map` with its index. -/
inductive Field
  | next | str | fmt | symbol | libraries | symbols | map | nSymbols | files | lnd | nLnd
  | offset | name | ws | vs | definition | endian | bytecodeLen | bytecode | tlp | ffi | debug
  | mapSymbol (i : ℕ)
  | mapLibrary (i : ℕ)
  | lndWord

/-- An identifier of the source. -/
def ident (s : String) : List UInt8 := s.toList.map ascii

/-- `element.data.u_int` -/
def Element.uInt (element : Element) : ℕ :=
  match element.data with
  | .uInt v => v
  | .bytes p => toUnsigned p

/-- `element.data.bytes` and `element.data.str` -/
def Element.bytes (element : Element) : ℤ :=
  match element.data with
  | .uInt v => v
  | .bytes p => p

/-! ## Walking -/

section Readers

variable (w : ℕ) (store : Field → ℤ → ℤ → Memory → Memory) (fuel : ℕ)

/-- A call of `tenc_decode_element`. -/
def decodeElement (src : ℤ) (length : ℕ) : Reader (Option (Element × ℕ)) :=
  Logged.ask (fun mem => .element mem src length) fun mem => tencDecodeElement w mem src length

/-- `base->field = value` -/
def assign (field : Field) (base value : ℤ) : Reader Unit := Logged.change (store field base value)

/-- `tenc_walk_to_element`: the element and the length left, `none` for the result `-1`. -/
def tencWalkToElement (id : List UInt8) : ℕ → ℤ → ℕ → Reader (Option (Element × ℕ))
  | _, _, 0 => pure none
  | 0, _, _ + 1 => Logged.diverge
  | fuel + 1, data, length + 1 => do
    match ← decodeElement w data (length + 1) with
    | none => pure none
    | some (element, left) =>
      if element.id = id then pure (some (element, left))
      else tencWalkToElement id fuel element.next left

/-- `load_uint` and `load_int`: the number, `*data` and `*length`. -/
def loadUint (id : List UInt8) (data : ℤ) (length : ℕ) : Reader (Option (ℕ × ℤ × ℕ)) := do
  match ← tencWalkToElement w id fuel data length with
  | none => pure none
  | some (element, left) => pure (some (element.uInt, element.next, left))

/-- `load_str` -/
def loadStr (id : List UInt8) (data : ℤ) (length : ℕ) : Reader (Option (ℤ × ℤ × ℕ)) := do
  match ← tencWalkToElement w id fuel data length with
  | none => pure none
  | some (element, left) =>
    if element.length < 1 then pure none else pure (some (element.bytes, element.next, left))

/-! ## The structures -/

/-- `decode_strs`: the nodes of the list, each with its string.  A node lies where the walk to its
string began. -/
def decodeStrs (id : List UInt8) : ℕ → List (ℤ × ℤ) → ℤ → ℕ → Reader (List (ℤ × ℤ))
  | _, nodes, _, 0 => pure nodes
  | 0, _, _, _ + 1 => Logged.diverge
  | steps + 1, nodes, data, length + 1 => do
    match ← loadStr w fuel id data (length + 1) with
    | none => pure nodes
    | some (str, next, left) =>
      assign store .next data 0
      assign store .str data str
      match nodes.getLast? with
      | none => pure ()
      | some tail => assign store .next tail.1 data
      decodeStrs id steps (nodes ++ [(data, str)]) next left

/-- The pointer to a list, `NULL` for an empty one. -/
def headOf (nodes : List (ℤ × ℤ)) : ℤ := (nodes.head?.map Prod.fst).getD 0

/-- `decode_tlp` -/
def decodeTlp (head : ℤ) (tlp : Option ℤ) (element : Element) : Reader (Option ℤ) := do
  let tlp := tlp.getD head
  match ← loadStr w fuel (ident "fmtS") element.bytes element.length with
  | none => pure none
  | some (fmt, data, length) =>
    assign store .fmt tlp fmt
    match ← loadStr w fuel (ident "symS") data length with
    | none => pure none
    | some (symbol, _, _) =>
      assign store .symbol tlp symbol
      pure (some tlp)

/-- The loop of `decode_ffi` over `mapL`; `none` for the result `NULL`. -/
def decodeMap (ffi map : ℤ) : List (ℤ × ℤ) → ℕ → ℤ → ℕ → Reader (Option ℤ)
  | [], _, _, _ => pure (some ffi)
  | _ :: _, _, _, 0 => pure none
  | sym :: syms, n, data, length + 1 => do
    match ← loadUint w fuel (ident "idxI") data (length + 1) with
    | none => pure none
    | some (libIdx, next, left) =>
      assign store (.mapSymbol n) map sym.2
      assign store (.mapLibrary n) map libIdx
      assign store .nSymbols ffi (n + 1 : ℕ)
      decodeMap ffi map syms (n + 1) next left

/-- `decode_ffi` -/
def decodeFfi (head : ℤ) (ffiElement : Element) : Reader (Option ℤ) := do
  match ← tencWalkToElement w (ident "libL") fuel ffiElement.bytes ffiElement.length with
  | none => pure none
  | some (element, length) =>
    let libraries ← decodeStrs w store fuel (ident "libS") fuel [] element.bytes element.length
    assign store .libraries head (headOf libraries)
    match ← tencWalkToElement w (ident "symL") fuel element.next length with
    | none => pure none
    | some (element, length) =>
      let symbols ← decodeStrs w store fuel (ident "symS") fuel [] element.bytes element.length
      assign store .symbols head (headOf symbols)
      match ← tencWalkToElement w (ident "mapL") fuel element.next length with
      | none => pure none
      | some (element, _) =>
        assign store .nSymbols head 0
        assign store .map head (element.bytes - (4 + w))
        decodeMap w store fuel head (element.bytes - (4 + w)) symbols 0 element.bytes element.length

/-- The loop of `decode_debug`: words swapped where they are. -/
def swapWords : ℕ → ℤ → Reader Unit
  | 0, _ => pure ()
  | length + 1, data => do
    let value ← Logged.ask (fun _ => .word data) fun mem => tencDecodeInt w mem data
    assign store .lndWord data value
    swapWords length (data + 4)

/-- `decode_debug` -/
def decodeDebug (head : ℤ) (dbgElement : Element) : Reader (Option ℤ) := do
  match ← tencWalkToElement w (ident "fn L") fuel dbgElement.bytes dbgElement.length with
  | none => pure none
  | some (element, length) =>
    let files ← decodeStrs w store fuel (ident "fn S") fuel [] element.bytes element.length
    assign store .files head (headOf files)
    match ← tencWalkToElement w (ident "lndB") fuel element.next length with
    | none => pure none
    | some (element, _) =>
      assign store .lnd head element.bytes
      assign store .nLnd head (element.length / (4 * 3) : ℕ)
      swapWords w store (element.length / 4) element.bytes
      pure (some head)

/-- The optional part of a symbol; each `continue` ends it. -/
def decodeDefinition (sym data : ℤ) (length : ℕ) : Reader Unit := do
  if 0 < length then
    match ← loadStr w fuel (ident "defS") data length with
    | none => pure ()
    | some (definition, data, length) =>
      assign store .definition sym definition
      match ← loadUint w fuel (ident "ws U") data length with
      | none => pure ()
      | some (ws, data, length) =>
        assign store .ws sym ws
        match ← loadUint w fuel (ident "vs U") data length with
        | none => pure ()
        | some (vs, _, _) => assign store .vs sym vs
  else pure ()

/-- `decode_symbols`: the loop, `sym` the symbol before. -/
def decodeSymbols : ℕ → Option ℤ → ℤ → ℤ → ℕ → Reader (Option ℤ)
  | _, _, head, _, 0 => pure (some head)
  | 0, _, _, _, _ + 1 => Logged.diverge
  | steps + 1, sym, head, data, length + 1 => do
    match ← tencWalkToElement w (ident "symL") fuel data (length + 1) with
    | none => pure none
    | some (element, left) =>
      match sym with
      | none => pure ()
      | some sym => assign store .next sym data
      match ← loadUint w fuel (ident "offU") element.bytes element.length with
      | none => pure none
      | some (offset, sData, sLength) =>
        assign store .offset data offset
        match ← loadStr w fuel (ident "symS") sData sLength with
        | none => pure none
        | some (name, sData, sLength) =>
          assign store .name data name
          assign store .ws data 0
          assign store .vs data 0
          assign store .definition data 0
          assign store .next data 0
          decodeDefinition w store fuel data sData sLength
          decodeSymbols steps (some data) (if sym = none then data else head) element.next left

/-! ## A byte code file -/

/-- The element loop of `tbc_decode`. -/
def decodeElements (inPlace : Bool) (tbc : ℤ) : ℕ → Option ℤ → ℤ → ℕ → Reader ℤ
  | _, _, _, 0 => pure 0
  | 0, _, _, _ + 1 => Logged.diverge
  | steps + 1, tlp, data, length + 1 => do
    match ← decodeElement w data (length + 1) with
    | none => pure 0
    | some (element, left) =>
      if element.id = ident "tlpL" then do
        let tlp ← decodeTlp w store fuel data tlp element
        assign store .tlp tbc (tlp.getD 0)
        decodeElements inPlace tbc steps tlp element.next left
      else if inPlace ∧ element.id = ident "ffiL" then do
        let ffi ← decodeFfi w store fuel data element
        assign store .ffi tbc (ffi.getD 0)
        decodeElements inPlace tbc steps tlp element.next left
      else if inPlace ∧ element.id = ident "stbL" then do
        let symbols ← decodeSymbols w store fuel fuel none 0 element.bytes element.length
        assign store .symbols tbc (symbols.getD 0)
        decodeElements inPlace tbc steps tlp element.next left
      else if inPlace ∧ element.id = ident "dbgL" then do
        let debug ← decodeDebug w store fuel data element
        assign store .debug tbc (debug.getD 0)
        decodeElements inPlace tbc steps tlp element.next left
      else decodeElements inPlace tbc steps tlp element.next left

/-- `tbc_decode`; `ptr` is `NULL` to decode in place, or a structure and its `tlp`. -/
def tbcDecode (ptr : Option (ℤ × Option ℤ)) (data : ℤ) (length : ℕ) : Reader ℤ := do
  let tbc := (ptr.map Prod.fst).getD data
  match ← loadUint w fuel (ident "endU") data length with
  | none => pure (-1)
  | some (endian, data, length) =>
    assign store .endian tbc endian
    match ← loadUint w fuel (ident "ws U") data length with
    | none => pure (-1)
    | some (ws, data, length) =>
      assign store .ws tbc ws
      match ← loadUint w fuel (ident "vs U") data length with
      | none => pure (-1)
      | some (vs, data, length) =>
        assign store .vs tbc vs
        match ← tencWalkToElement w (ident "bc B") fuel data length with
        | none => pure (-1)
        | some (element, length) =>
          assign store .bytecodeLen tbc element.length
          assign store .bytecode tbc element.bytes
          match ptr with
          | none =>
            assign store .tlp tbc 0
            assign store .symbols tbc 0
            assign store .ffi tbc 0
            assign store .debug tbc 0
          | some (_, none) => pure ()
          | some (_, some tlp) =>
            assign store .fmt tlp 0
            assign store .symbol tlp 0
          decodeElements w store fuel ptr.isNone tbc fuel (ptr.bind Prod.snd) element.next length

end Readers

/-! ## One element -/

section Element

variable {w n left : ℕ} {mem : Memory} {src : ℤ} {e : Element}

/-- **What is claimed of one element**: the cursor moves on, no further than the length goes, and
the length goes down by as much. -/
def Inside (w : ℕ) (mem : Memory) (src : ℤ) (n : ℕ) : Prop :=
  ∀ e left, tencDecodeElement w mem src n = some (e, left) →
    src < e.next ∧ e.next ≤ src + n ∧ (left : ℤ) = n - (e.next - src)

/-- **The padding is there**: an element that is no number and whose data are there has room for
their padding, and data and padding together are a size that an `int` can be. -/
def ElementFits (w : ℕ) (mem : Memory) (src : ℤ) (n : ℕ) : Prop :=
  let len := tencDecodeInt w mem (src + 4)
  w + 4 + len ≤ n → letter (Window.read mem src 4) ≠ ascii 'I' →
    letter (Window.read mem src 4) ≠ ascii 'U' →
    w + 4 + (len + TEncode.pad w len) ≤ n ∧ len + TEncode.pad w len < 2 ^ 31

/-- What an element is when it is decoded. -/
theorem tencDecodeElement_cases (h : tencDecodeElement w mem src n = some (e, left)) :
    w + 4 ≤ n ∧ e.id = Window.read mem src 4 ∧
      (((letter e.id = ascii 'I' ∨ letter e.id = ascii 'U') ∧ e.length = 0 ∧
          e.next = src + (w + 4 : ℕ) ∧ left = n - (w + 4)) ∨
        (letter e.id ≠ ascii 'I' ∧ letter e.id ≠ ascii 'U' ∧ w + 4 + e.length ≤ n ∧
          e.length = tencDecodeInt w mem (src + 4) ∧ e.data = .bytes (src + (w + 4 : ℕ)) ∧
          e.next = src + (w + 4 : ℕ) + alignUp w (toInt e.length) ∧
          left = toUnsigned ((n - (w + 4) : ℕ) - alignUp w (toInt e.length)))) := by
  unfold tencDecodeElement at h
  by_cases hshort : n < w + 4
  · rw [if_pos hshort] at h
    cases h
  rw [if_neg hshort] at h
  dsimp only at h
  by_cases hnum : letter (Window.read mem src 4) = ascii 'I' ∨
      letter (Window.read mem src 4) = ascii 'U'
  · rw [if_pos hnum] at h
    cases h
    exact ⟨not_lt.mp hshort, rfl, Or.inl ⟨hnum, rfl, rfl, rfl⟩⟩
  · rw [if_neg hnum] at h
    by_cases hlen : n - (w + 4) < tencDecodeInt w mem (src + 4)
    · rw [if_pos hlen] at h
      cases h
    · rw [if_neg hlen] at h
      cases h
      obtain ⟨hI, hU⟩ := not_or.mp hnum
      exact ⟨not_lt.mp hshort, rfl, Or.inr ⟨hI, hU, by dsimp only; omega, rfl, rfl, rfl, rfl⟩⟩

/-- An element with data is decoded when the data are there. -/
theorem tencDecodeElement_of_le (hlen : w + 4 + tencDecodeInt w mem (src + 4) ≤ n)
    (hI : letter (Window.read mem src 4) ≠ ascii 'I')
    (hU : letter (Window.read mem src 4) ≠ ascii 'U') :
    ∃ e left, tencDecodeElement w mem src n = some (e, left) ∧
      e.id = Window.read mem src 4 ∧ e.length = tencDecodeInt w mem (src + 4) := by
  unfold tencDecodeElement
  rw [if_neg (by omega)]
  dsimp only
  rw [if_neg (not_or.mpr ⟨hI, hU⟩), if_neg (by omega)]
  exact ⟨_, _, rfl, rfl, rfl⟩

theorem tencDecodeInt_lt (hw : w = 2 ∨ w = 4) (mem : Memory) (src : ℤ) :
    tencDecodeInt w mem src < 2 ^ 32 := by
  have hbound : tencDecodeInt w mem src < 256 ^ w := by
    have := BigEndian.decode_lt (Window.read mem src w)
    rwa [Window.length_read] at this
  rcases hw with rfl | rfl <;> omega

theorem pad_lt (hw : 0 < w) (len : ℕ) : TEncode.pad w len < w := by
  have := Nat.mod_lt len hw
  unfold TEncode.pad
  split_ifs <;> omega

/-- Data and padding that no `int` can be are skipped backwards, or not at all. -/
theorem alignUp_of_le (hw : w = 2 ∨ w = 4) {len : ℕ} (hlt : len < 2 ^ 32)
    (h : 2 ^ 31 ≤ len + TEncode.pad w len) :
    alignUp w (toInt len) = (len + TEncode.pad w len : ℕ) - 2 ^ 32 := by
  have hlow : (len : ℤ) % w = (len % w : ℕ) := by push_cast; rfl
  have hint : (len : ℤ).bmod (2 ^ 32) = if len < 2 ^ 31 then (len : ℤ) else len - 2 ^ 32 := by
    rw [Int.bmod_def]
    split_ifs <;> omega
  have hmod : ((len : ℤ).bmod (2 ^ 32)) % w = (len % w : ℕ) := by
    rw [hint]
    rcases hw with rfl | rfl <;> split_ifs <;> omega
  unfold alignUp toInt
  rw [hmod]
  unfold TEncode.pad at h ⊢
  by_cases hz : len % w = 0
  · rw [if_neg (by simp [hz]), hint]
    rw [if_neg (not_not.mpr hz)] at h ⊢
    rw [if_neg (by omega)]
    push_cast
    ring
  · have hlt' : len % w < w := Nat.mod_lt len (by omega)
    rw [if_pos (by exact_mod_cast hz), hint]
    rw [if_pos hz] at h ⊢
    rw [Int.bmod_def]
    rcases hw with rfl | rfl <;> split_ifs <;> omega

/-- **An element stays inside exactly when its padding is there.** -/
theorem inside_iff_fits (hw : w = 2 ∨ w = 4) (hn : n < 2 ^ 32) :
    Inside w mem src n ↔ ElementFits w mem src n := by
  have hlt := tencDecodeInt_lt hw mem (src + 4)
  have hpad := pad_lt (show 0 < w by omega) (tencDecodeInt w mem (src + 4))
  have hmod := add_pad_mod hw (tencDecodeInt w mem (src + 4))
  constructor
  · intro h hlen hI hU
    obtain ⟨e, left, hdec, hid, hlength⟩ := tencDecodeElement_of_le hlen hI hU
    obtain ⟨hgt, hle, hleft⟩ := h e left hdec
    obtain ⟨-, -, ⟨hnum, -⟩ | ⟨-, -, -, -, -, hnext, -⟩⟩ := tencDecodeElement_cases hdec
    · rw [hid] at hnum
      exact absurd hnum (not_or.mpr ⟨hI, hU⟩)
    · rw [hlength] at hnext
      by_cases hsmall : tencDecodeInt w mem (src + 4) +
          TEncode.pad w (tencDecodeInt w mem (src + 4)) < 2 ^ 31
      · rw [alignUp_toInt (by omega) hsmall] at hnext
        exact ⟨by omega, hsmall⟩
      · rw [alignUp_of_le hw hlt (by omega)] at hnext
        rcases hw with rfl | rfl <;> omega
  · intro h e left hdec
    obtain ⟨hn', hid, ⟨hnum, hlength, hnext, hleft⟩ |
      ⟨hI, hU, hle, hlength, hdata, hnext, hleft⟩⟩ := tencDecodeElement_cases hdec
    · omega
    · rw [hid] at hI hU
      obtain ⟨hfit, hsmall⟩ := h (by omega) hI hU
      rw [hlength, alignUp_toInt (by omega) hsmall] at hnext hleft
      unfold toUnsigned at hleft
      omega

end Element

/-! ## Every loop -/

/-- The bytes that are read. -/
def Event.Reads (w : ℕ) : Event → ℤ → Prop
  | .element _ src n, a => w + 4 ≤ n ∧ src ≤ a ∧ a < src + (w + 4 : ℕ)
  | .word src, a => src ≤ a ∧ a < src + w

/-- The condition: the padding of an element is there when it is read. -/
def Event.Fits (w : ℕ) : Event → Prop
  | .element mem src n => ElementFits w mem src n
  | .word _ => True

/-- What is claimed: the bytes read are of the buffer, and an element stays inside its length. -/
def Event.Sound (w : ℕ) (lo hi : ℤ) (e : Event) : Prop :=
  (∀ a, e.Reads w a → lo ≤ a ∧ a < hi) ∧
    match e with
    | .element mem src n => src + n ≤ hi ∧ lo ≤ src ∧ Inside w mem src n
    | .word _ => True

/-- **A run is sound**: it ends, and everything it reads is. -/
def SoundRun (w : ℕ) (src : ℤ) (n : ℕ) {α : Type} (m : Reader α) (mem : Memory) : Prop :=
  (∀ e ∈ m.events mem, e.Sound w src (src + n)) ∧ ∃ a, m.result mem = some a

section Loops

variable {w n length fuel : ℕ} {lo hi data : ℤ} {id : List UInt8}

/-- A pointer and a length stay in the buffer; without a length nothing is read. -/
def Room (lo hi data : ℤ) (length : ℕ) : Prop := 0 < length → lo ≤ data ∧ data + length ≤ hi

/-- An element that was read from `n` bytes of the buffer. -/
def Located (w : ℕ) (lo hi : ℤ) (n : ℕ) (r : Option (Element × ℕ)) : Prop :=
  ∀ e left, r = some (e, left) → left + (w + 4) ≤ n ∧ e.length ≤ n ∧ Room lo hi e.next left ∧
    Room lo hi e.bytes e.length

/-- The buffer and the words of the program. -/
structure Buffer (w : ℕ) (lo hi : ℤ) : Prop where
  word : w = 2 ∨ w = 4
  size : hi - lo < 2 ^ 32

variable (hb : Buffer w lo hi)
include hb

/-- **One element**: where the padding is there, what is read stays in the buffer. -/
theorem decodeElement_stays (hroom : Room lo hi data (length + 1)) :
    Logged.Stays (Event.Fits w) (Event.Sound w lo hi) (decodeElement w data (length + 1))
      (Located w lo hi (length + 1)) := by
  obtain ⟨hlo, hhi⟩ := hroom (Nat.succ_pos length)
  refine Logged.Stays.ask fun mem hfit => ?_
  have hsize := hb.size
  have hinside := (inside_iff_fits hb.word (show length + 1 < 2 ^ 32 by omega)).mpr hfit
  refine ⟨⟨fun a ha => ?_, hhi, hlo, hinside⟩, fun e left h => ?_⟩
  · obtain ⟨hn, hfrom, hto⟩ := ha
    push_cast at hto
    omega
  · obtain ⟨hgt, hle, hleft⟩ := hinside e left h
    obtain ⟨hn, hid, ⟨-, hzero, hnext, -⟩ | ⟨hI, hU, hlen, hlength, hdata, hnext, -⟩⟩ :=
      tencDecodeElement_cases h
    · rw [hzero]
      exact ⟨by omega, by omega, fun _ => by omega, fun h => absurd h (lt_irrefl 0)⟩
    · rw [hid] at hI hU
      obtain ⟨-, hsmall⟩ := hfit (by omega) hI hU
      rw [hlength, alignUp_toInt (by have := hb.word; omega) hsmall] at hnext
      have hbytes : e.bytes = data + (w + 4 : ℕ) := by rw [Element.bytes, hdata]
      exact ⟨by omega, by omega, fun _ => by omega, fun _ => by rw [hbytes]; omega⟩

/-- **The walk.** -/
theorem tencWalkToElement_stays (id : List UInt8) (hfuel : length ≤ fuel)
    (hroom : Room lo hi data length) :
    Logged.Stays (Event.Fits w) (Event.Sound w lo hi) (tencWalkToElement w id fuel data length)
      (Located w lo hi length) := by
  induction fuel generalizing data length with
  | zero =>
    obtain rfl := Nat.le_zero.mp hfuel
    exact Logged.Stays.pure fun _ _ h => by cases h
  | succ fuel ih =>
    cases length with
    | zero => exact Logged.Stays.pure fun _ _ h => by cases h
    | succ length =>
      refine (decodeElement_stays hb hroom).bind fun r hr => ?_
      rcases r with _ | ⟨e, left⟩
      · exact Logged.Stays.pure fun _ _ h => by cases h
      · obtain ⟨hleft, -, hnext, -⟩ := hr e left rfl
        change Logged.Stays _ _ (if e.id = id then pure (some (e, left))
          else tencWalkToElement w id fuel e.next left) _
        split_ifs
        · exact Logged.Stays.pure hr
        · refine (ih (by omega) hnext).imp fun r' hr' e' left' h => ?_
          obtain ⟨hleft', hlen', hrooms⟩ := hr' e' left' h
          exact ⟨by omega, by omega, hrooms⟩

/-- What `load_uint` and `load_str` leave. -/
def Loaded (w : ℕ) (lo hi : ℤ) (n : ℕ) {β : Type} (r : Option (β × ℤ × ℕ)) : Prop :=
  ∀ v next left, r = some (v, next, left) → left + (w + 4) ≤ n ∧ Room lo hi next left

theorem loadUint_stays (id : List UInt8) (hfuel : length ≤ fuel) (hroom : Room lo hi data length) :
    Logged.Stays (Event.Fits w) (Event.Sound w lo hi) (loadUint w fuel id data length)
      (Loaded w lo hi length) := by
  refine (tencWalkToElement_stays hb id hfuel hroom).bind fun r hr => ?_
  rcases r with _ | ⟨e, left⟩
  · exact Logged.Stays.pure fun _ _ _ h => by cases h
  · obtain ⟨hleft, -, hnext, -⟩ := hr e left rfl
    refine Logged.Stays.pure fun v next left' h => ?_
    cases h
    exact ⟨hleft, hnext⟩

theorem loadStr_stays (id : List UInt8) (hfuel : length ≤ fuel) (hroom : Room lo hi data length) :
    Logged.Stays (Event.Fits w) (Event.Sound w lo hi) (loadStr w fuel id data length)
      (Loaded w lo hi length) := by
  refine (tencWalkToElement_stays hb id hfuel hroom).bind fun r hr => ?_
  rcases r with _ | ⟨e, left⟩
  · exact Logged.Stays.pure fun _ _ _ h => by cases h
  · obtain ⟨hleft, -, hnext, -⟩ := hr e left rfl
    change Logged.Stays _ _ (if e.length < 1 then pure none
      else pure (some (e.bytes, e.next, left))) _
    split_ifs
    · exact Logged.Stays.pure fun _ _ _ h => by cases h
    · refine Logged.Stays.pure fun v next left' h => ?_
      cases h
      exact ⟨hleft, hnext⟩

variable (store : Field → ℤ → ℤ → Memory → Memory)

/-- **The list of strings.** -/
theorem decodeStrs_stays (id : List UInt8) {steps : ℕ} (nodes : List (ℤ × ℤ))
    (hfuel : length ≤ fuel)
    (hsteps : length ≤ steps) (hroom : Room lo hi data length) :
    Logged.Stays (Event.Fits w) (Event.Sound w lo hi)
      (decodeStrs w store fuel id steps nodes data length) fun _ => True := by
  induction steps generalizing nodes data length with
  | zero =>
    obtain rfl := Nat.le_zero.mp hsteps
    exact Logged.Stays.pure trivial
  | succ steps ih =>
    cases length with
    | zero => exact Logged.Stays.pure trivial
    | succ length =>
      refine (loadStr_stays hb id hfuel hroom).bind fun r hr => ?_
      rcases r with _ | ⟨str, next, left⟩
      · exact Logged.Stays.pure trivial
      · obtain ⟨hleft, hnext⟩ := hr str next left rfl
        refine Logged.Stays.change_bind _ (Logged.Stays.change_bind _ ?_)
        have hrest := ih (nodes ++ [(data, str)]) (show left ≤ fuel by omega) (by omega) hnext
        dsimp only
        split
        · exact hrest
        · exact Logged.Stays.change_bind _ hrest

theorem decodeTlp_stays (head : ℤ) (tlp : Option ℤ) {e : Element} (hfuel : e.length ≤ fuel)
    (hroom : Room lo hi e.bytes e.length) :
    Logged.Stays (Event.Fits w) (Event.Sound w lo hi) (decodeTlp w store fuel head tlp e)
      fun _ => True := by
  refine (loadStr_stays hb (ident "fmtS") hfuel hroom).bind fun r hr => ?_
  rcases r with _ | ⟨str, next, left⟩
  · exact Logged.Stays.pure trivial
  · obtain ⟨hleft, hnext⟩ := hr str next left rfl
    refine Logged.Stays.change_bind _ ?_
    refine (loadStr_stays hb (ident "symS") (by omega) hnext).bind fun r _ => ?_
    rcases r with _ | ⟨symbol, next', left'⟩
    · exact Logged.Stays.pure trivial
    · exact Logged.Stays.change_bind _ (Logged.Stays.pure trivial)

theorem decodeMap_stays (ffi map : ℤ) (syms : List (ℤ × ℤ)) (k : ℕ) (hfuel : length ≤ fuel)
    (hroom : Room lo hi data length) :
    Logged.Stays (Event.Fits w) (Event.Sound w lo hi)
      (decodeMap w store fuel ffi map syms k data length) fun _ => True := by
  induction syms generalizing k data length with
  | nil => exact Logged.Stays.pure trivial
  | cons sym syms ih =>
    cases length with
    | zero => exact Logged.Stays.pure trivial
    | succ length =>
      refine (loadUint_stays hb (ident "idxI") hfuel hroom).bind fun r hr => ?_
      rcases r with _ | ⟨libIdx, next, left⟩
      · exact Logged.Stays.pure trivial
      · obtain ⟨hleft, hnext⟩ := hr libIdx next left rfl
        exact Logged.Stays.change_bind _ (Logged.Stays.change_bind _ (Logged.Stays.change_bind _
          (ih (k + 1) (by omega) hnext)))

theorem decodeFfi_stays (head : ℤ) {e : Element} (hfuel : e.length ≤ fuel)
    (hroom : Room lo hi e.bytes e.length) :
    Logged.Stays (Event.Fits w) (Event.Sound w lo hi) (decodeFfi w store fuel head e)
      fun _ => True := by
  refine (tencWalkToElement_stays hb (ident "libL") hfuel hroom).bind fun r hr => ?_
  rcases r with _ | ⟨lib, left⟩
  · exact Logged.Stays.pure trivial
  · obtain ⟨hleft, hlen, hnext, hbytes⟩ := hr lib left rfl
    refine (decodeStrs_stays hb store (ident "libS") [] (by omega) (by omega) hbytes).bind
      fun libraries _ => Logged.Stays.change_bind _ ?_
    refine (tencWalkToElement_stays hb (ident "symL") (by omega) hnext).bind fun r hr => ?_
    rcases r with _ | ⟨sym, left'⟩
    · exact Logged.Stays.pure trivial
    · obtain ⟨hleft', hlen', hnext', hbytes'⟩ := hr sym left' rfl
      refine (decodeStrs_stays hb store (ident "symS") [] (by omega) (by omega) hbytes').bind
        fun symbols _ => Logged.Stays.change_bind _ ?_
      refine (tencWalkToElement_stays hb (ident "mapL") (by omega) hnext').bind fun r hr => ?_
      rcases r with _ | ⟨map, left''⟩
      · exact Logged.Stays.pure trivial
      · obtain ⟨hleft'', hlen'', -, hbytes''⟩ := hr map left'' rfl
        exact Logged.Stays.change_bind _ (Logged.Stays.change_bind _
          (decodeMap_stays hb store _ _ symbols 0 (by omega) hbytes''))

theorem swapWords_stays {words : ℕ} (hroom : Room lo hi data (4 * words)) :
    Logged.Stays (Event.Fits w) (Event.Sound w lo hi) (swapWords w store words data)
      fun _ => True := by
  induction words generalizing data with
  | zero => exact Logged.Stays.pure trivial
  | succ words ih =>
    obtain ⟨hlo, hhi⟩ := hroom (by omega)
    have hw := hb.word
    have hword : Logged.Stays (Event.Fits w) (Event.Sound w lo hi)
        (Logged.ask (fun _ : Memory => Event.word data) fun mem => tencDecodeInt w mem data)
        fun _ => True := by
      refine Logged.Stays.ask fun mem _ => ⟨⟨fun a ha => ?_, trivial⟩, trivial⟩
      obtain ⟨hfrom, hto⟩ := ha
      omega
    exact hword.bind fun value _ => Logged.Stays.change_bind _ (ih fun _ => by omega)

theorem decodeDebug_stays (head : ℤ) {e : Element} (hfuel : e.length ≤ fuel)
    (hroom : Room lo hi e.bytes e.length) :
    Logged.Stays (Event.Fits w) (Event.Sound w lo hi) (decodeDebug w store fuel head e)
      fun _ => True := by
  refine (tencWalkToElement_stays hb (ident "fn L") hfuel hroom).bind fun r hr => ?_
  rcases r with _ | ⟨files, left⟩
  · exact Logged.Stays.pure trivial
  · obtain ⟨hleft, hlen, hnext, hbytes⟩ := hr files left rfl
    refine (decodeStrs_stays hb store (ident "fn S") [] (by omega) (by omega) hbytes).bind
      fun nodes _ => Logged.Stays.change_bind _ ?_
    refine (tencWalkToElement_stays hb (ident "lndB") (by omega) hnext).bind fun r hr => ?_
    rcases r with _ | ⟨lnd, left'⟩
    · exact Logged.Stays.pure trivial
    · obtain ⟨-, -, -, hbytes'⟩ := hr lnd left' rfl
      have hwords : Room lo hi lnd.bytes (4 * (lnd.length / 4)) := by
        intro hpos
        obtain ⟨hlo, hhi⟩ := hbytes' (by omega)
        omega
      exact Logged.Stays.change_bind _ (Logged.Stays.change_bind _
        ((swapWords_stays hb store hwords).bind fun _ _ => Logged.Stays.pure trivial))

theorem decodeDefinition_stays (sym : ℤ) (hfuel : length ≤ fuel) (hroom : Room lo hi data length) :
    Logged.Stays (Event.Fits w) (Event.Sound w lo hi)
      (decodeDefinition w store fuel sym data length) fun _ => True := by
  unfold decodeDefinition
  split_ifs
  · refine (loadStr_stays hb (ident "defS") hfuel hroom).bind fun r hr => ?_
    rcases r with _ | ⟨definition, next, left⟩
    · exact Logged.Stays.pure trivial
    · obtain ⟨hleft, hnext⟩ := hr definition next left rfl
      refine Logged.Stays.change_bind _ ?_
      refine (loadUint_stays hb (ident "ws U") (by omega) hnext).bind fun r hr => ?_
      rcases r with _ | ⟨ws, next', left'⟩
      · exact Logged.Stays.pure trivial
      · obtain ⟨hleft', hnext'⟩ := hr ws next' left' rfl
        refine Logged.Stays.change_bind _ ?_
        refine (loadUint_stays hb (ident "vs U") (by omega) hnext').bind fun r _ => ?_
        rcases r with _ | ⟨vs, next'', left''⟩
        · exact Logged.Stays.pure trivial
        · exact Logged.Stays.change _
  · exact Logged.Stays.pure trivial

theorem decodeSymbols_stays {steps : ℕ} (sym : Option ℤ) (head : ℤ) (hfuel : length ≤ fuel)
    (hsteps : length ≤ steps) (hroom : Room lo hi data length) :
    Logged.Stays (Event.Fits w) (Event.Sound w lo hi)
      (decodeSymbols w store fuel steps sym head data length) fun _ => True := by
  induction steps generalizing sym head data length with
  | zero =>
    obtain rfl := Nat.le_zero.mp hsteps
    exact Logged.Stays.pure trivial
  | succ steps ih =>
    cases length with
    | zero => exact Logged.Stays.pure trivial
    | succ length =>
      refine (tencWalkToElement_stays hb (ident "symL") hfuel hroom).bind fun r hr => ?_
      rcases r with _ | ⟨e, left⟩
      · exact Logged.Stays.pure trivial
      · obtain ⟨hleft, hlen, hnext, hbytes⟩ := hr e left rfl
        have hrest : Logged.Stays (Event.Fits w) (Event.Sound w lo hi) (do
            match ← loadUint w fuel (ident "offU") e.bytes e.length with
            | none => pure none
            | some (offset, sData, sLength) =>
              assign store .offset data offset
              match ← loadStr w fuel (ident "symS") sData sLength with
              | none => pure none
              | some (name, sData, sLength) =>
                assign store .name data name
                assign store .ws data 0
                assign store .vs data 0
                assign store .definition data 0
                assign store .next data 0
                decodeDefinition w store fuel data sData sLength
                decodeSymbols w store fuel steps (some data) (if sym = none then data else head)
                  e.next left) fun _ => True := by
          refine (loadUint_stays hb (ident "offU") (by omega) hbytes).bind fun r hr => ?_
          rcases r with _ | ⟨offset, sData, sLength⟩
          · exact Logged.Stays.pure trivial
          · obtain ⟨hsLength, hsData⟩ := hr offset sData sLength rfl
            refine Logged.Stays.change_bind _ ?_
            refine (loadStr_stays hb (ident "symS") (by omega) hsData).bind fun r hr => ?_
            rcases r with _ | ⟨name, sData', sLength'⟩
            · exact Logged.Stays.pure trivial
            · obtain ⟨hsLength', hsData'⟩ := hr name sData' sLength' rfl
              refine Logged.Stays.change_bind _ (Logged.Stays.change_bind _
                (Logged.Stays.change_bind _ (Logged.Stays.change_bind _
                  (Logged.Stays.change_bind _ ?_))))
              exact (decodeDefinition_stays hb store data (by omega) hsData').bind fun _ _ =>
                ih _ _ (by omega) (by omega) hnext
        dsimp only
        split
        · exact hrest
        · exact Logged.Stays.change_bind _ hrest

/-- **The element loop.** -/
theorem decodeElements_stays (inPlace : Bool) (tbc : ℤ) {steps : ℕ} (tlp : Option ℤ)
    (hfuel : length ≤ fuel) (hsteps : length ≤ steps) (hroom : Room lo hi data length) :
    Logged.Stays (Event.Fits w) (Event.Sound w lo hi)
      (decodeElements w store fuel inPlace tbc steps tlp data length) fun _ => True := by
  induction steps generalizing tlp data length with
  | zero =>
    obtain rfl := Nat.le_zero.mp hsteps
    exact Logged.Stays.pure trivial
  | succ steps ih =>
    cases length with
    | zero => exact Logged.Stays.pure trivial
    | succ length =>
      refine (decodeElement_stays hb hroom).bind fun r hr => ?_
      rcases r with _ | ⟨e, left⟩
      · exact Logged.Stays.pure trivial
      · obtain ⟨hleft, hlen, hnext, hbytes⟩ := hr e left rfl
        have hrest : ∀ tlp, Logged.Stays (Event.Fits w) (Event.Sound w lo hi)
            (decodeElements w store fuel inPlace tbc steps tlp e.next left) fun _ => True :=
          fun tlp => ih tlp (by omega) (by omega) hnext
        dsimp only
        split_ifs
        · exact (decodeTlp_stays hb store data tlp (by omega) hbytes).bind fun _ _ =>
            Logged.Stays.change_bind _ (hrest _)
        · exact (decodeFfi_stays hb store data (by omega) hbytes).bind fun _ _ =>
            Logged.Stays.change_bind _ (hrest _)
        · exact (decodeSymbols_stays hb store none 0 (by omega) (by omega) hbytes).bind fun _ _ =>
            Logged.Stays.change_bind _ (hrest _)
        · exact (decodeDebug_stays hb store data (by omega) hbytes).bind fun _ _ =>
            Logged.Stays.change_bind _ (hrest _)
        · exact hrest _

/-- **A whole file.** -/
theorem tbcDecode_stays (ptr : Option (ℤ × Option ℤ)) (hfuel : length ≤ fuel)
    (hroom : Room lo hi data length) :
    Logged.Stays (Event.Fits w) (Event.Sound w lo hi) (tbcDecode w store fuel ptr data length)
      fun _ => True := by
  refine (loadUint_stays hb (ident "endU") hfuel hroom).bind fun r hr => ?_
  rcases r with _ | ⟨endian, next, left⟩
  · exact Logged.Stays.pure trivial
  obtain ⟨hleft, hnext⟩ := hr endian next left rfl
  refine Logged.Stays.change_bind _ ?_
  refine (loadUint_stays hb (ident "ws U") (by omega) hnext).bind fun r hr => ?_
  rcases r with _ | ⟨ws, next', left'⟩
  · exact Logged.Stays.pure trivial
  obtain ⟨hleft', hnext'⟩ := hr ws next' left' rfl
  refine Logged.Stays.change_bind _ ?_
  refine (loadUint_stays hb (ident "vs U") (by omega) hnext').bind fun r hr => ?_
  rcases r with _ | ⟨vs, next'', left''⟩
  · exact Logged.Stays.pure trivial
  obtain ⟨hleft'', hnext''⟩ := hr vs next'' left'' rfl
  refine Logged.Stays.change_bind _ ?_
  refine (tencWalkToElement_stays hb (ident "bc B") (by omega) hnext'').bind fun r hr => ?_
  rcases r with _ | ⟨e, left⟩
  · exact Logged.Stays.pure trivial
  obtain ⟨hleft, -, hnext, -⟩ := hr e left rfl
  refine Logged.Stays.change_bind _ (Logged.Stays.change_bind _ ?_)
  have hrest : ∀ inPlace tbc tlp, Logged.Stays (Event.Fits w) (Event.Sound w lo hi)
      (decodeElements w store fuel inPlace tbc fuel tlp e.next left) fun _ => True :=
    fun inPlace tbc tlp =>
      decodeElements_stays hb store inPlace tbc tlp (by omega) (by omega) hnext
  rcases ptr with _ | ⟨tbc, _ | tlp⟩
  · exact Logged.Stays.change_bind _ (Logged.Stays.change_bind _ (Logged.Stays.change_bind _
      (Logged.Stays.change_bind _ (hrest _ _ _))))
  · exact hrest _ _ _
  · exact Logged.Stays.change_bind _ (Logged.Stays.change_bind _ (hrest _ _ _))

end Loops

/-- **A run is sound exactly when the padding is there** at every element it reads. -/
theorem soundRun_iff {w n : ℕ} {src : ℤ} {mem : Memory} {α : Type} {m : Reader α} {Q : α → Prop}
    (hw : w = 2 ∨ w = 4) (hn : n < 2 ^ 32)
    (hm : Logged.Stays (Event.Fits w) (Event.Sound w src (src + n)) m Q) :
    SoundRun w src n m mem ↔ ∀ e ∈ m.events mem, e.Fits w := by
  constructor
  · rintro ⟨hsound, -⟩ (⟨mem', src', n'⟩ | src') he
    · obtain ⟨-, hhi, hlo, hinside⟩ := hsound _ he
      exact (inside_iff_fits hw (by omega)).mp hinside
    · exact trivial
  · intro hfits
    obtain ⟨hsound, a, ha, -⟩ := hm mem hfits
    exact ⟨hsound, a, ha⟩

/-- **The reader stays inside its buffer exactly when the padding is there**: one element, the walk,
the list of strings and the whole file, whatever decoding in place does to the memory. -/
theorem readers_inside_iff (w n : ℕ) (hw : w = 2 ∨ w = 4) (hn : n < 2 ^ 32) (mem : Memory)
    (src : ℤ) :
    (Inside w mem src n ↔ ElementFits w mem src n) ∧
      ∀ (store : Field → ℤ → ℤ → Memory → Memory) (fuel : ℕ), n ≤ fuel →
        (∀ id, SoundRun w src n (tencWalkToElement w id fuel src n) mem ↔
          ∀ e ∈ (tencWalkToElement w id fuel src n).events mem, e.Fits w) ∧
        (∀ id, SoundRun w src n (decodeStrs w store fuel id fuel [] src n) mem ↔
          ∀ e ∈ (decodeStrs w store fuel id fuel [] src n).events mem, e.Fits w) ∧
        ∀ ptr, SoundRun w src n (tbcDecode w store fuel ptr src n) mem ↔
          ∀ e ∈ (tbcDecode w store fuel ptr src n).events mem, e.Fits w := by
  have hb : Buffer w src (src + n) := ⟨hw, by omega⟩
  have hroom : Room src (src + n) src n := fun _ => ⟨le_rfl, le_rfl⟩
  refine ⟨inside_iff_fits hw hn,
    fun store fuel hfuel => ⟨fun id => ?_, fun id => ?_, fun ptr => ?_⟩⟩
  · exact soundRun_iff hw hn (tencWalkToElement_stays hb id hfuel hroom)
  · exact soundRun_iff hw hn (decodeStrs_stays hb store id [] hfuel hfuel hroom)
  · exact soundRun_iff hw hn (tbcDecode_stays hb store ptr hfuel hroom)

/-- Nine bytes, a string of one byte without its padding. -/
def unpadded : Memory := Window.ofList 0 (ident "symS" ++ [0, 0, 0, 1, 0])

/-- The string is decoded, three bytes more than there are are skipped and the length
wraps around. -/
theorem not_soundRun_unpadded :
    tencDecodeElement 4 unpadded 0 9 =
        some ({ id := ident "symS", length := 1, data := .bytes 8, next := 12 }, 2 ^ 32 - 3) ∧
      ¬ Inside 4 unpadded 0 9 ∧
      ¬ SoundRun 4 0 9 (tencWalkToElement 4 (ident "bc B") 9 0 9) unpadded := by
  have hdec : tencDecodeElement 4 unpadded 0 9 =
      some ({ id := ident "symS", length := 1, data := .bytes 8, next := 12 }, 2 ^ 32 - 3) := by
    decide +kernel
  have hout : ¬ Inside 4 unpadded 0 9 := fun h => by
    obtain ⟨-, hle, -⟩ := h _ _ hdec
    exact absurd hle (by decide)
  refine ⟨hdec, hout, fun h => ?_⟩
  have hfirst : Event.element unpadded 0 9 ∈
      (tencWalkToElement 4 (ident "bc B") 9 0 9).events unpadded :=
    Logged.events_bind_subset (decodeElement 4 0 9) _ unpadded List.mem_cons_self
  exact hout (h.1 _ hfirst).2.2.2

/-- The nine bytes. -/
theorem readers_inside_iff_unpadded :
    (Inside 4 unpadded 0 9 ↔ ElementFits 4 unpadded 0 9) ∧
      ∀ (store : Field → ℤ → ℤ → Memory → Memory) (fuel : ℕ), 9 ≤ fuel →
        (∀ id, SoundRun 4 0 9 (tencWalkToElement 4 id fuel 0 9) unpadded ↔
          ∀ e ∈ (tencWalkToElement 4 id fuel 0 9).events unpadded, e.Fits 4) ∧
        (∀ id, SoundRun 4 0 9 (decodeStrs 4 store fuel id fuel [] 0 9) unpadded ↔
          ∀ e ∈ (decodeStrs 4 store fuel id fuel [] 0 9).events unpadded, e.Fits 4) ∧
        ∀ ptr, SoundRun 4 0 9 (tbcDecode 4 store fuel ptr 0 9) unpadded ↔
          ∀ e ∈ (tbcDecode 4 store fuel ptr 0 9).events unpadded, e.Fits 4 :=
  readers_inside_iff 4 9 (Or.inr rfl) (by decide) unpadded 0

end Tencode

end Kroc
