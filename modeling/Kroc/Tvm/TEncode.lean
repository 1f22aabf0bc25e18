import Kroc.Plinker.TEncode

/-!
# Tvm/TEncode — the decoder of Transterpreter Encoding

`runtime/libtvm/tencode.c`: `tenc_decode_element` reads one element from a pointer and a remaining
length.  Memory is a function from addresses, pointers are integers, so that the pointer arithmetic
of the source (a C `int` added to a pointer, an unsigned length counted down) is kept as it is.
`w` is `sizeof (WORD)`, an `int` has 32 bits.
-/

namespace Kroc

namespace Tencode

open TEncode (ascii letter)

/-! ## One element -/

/-- The two readings of `tenc_element_t.data` in use: a number or a pointer. -/
inductive ElementData
  | uInt (value : ℕ)
  | bytes (ptr : ℤ)
  deriving DecidableEq

/-- `tenc_element_t` -/
structure Element where
  id : List UInt8
  length : ℕ
  data : ElementData
  next : ℤ
  deriving DecidableEq

/-- `tenc_decode_int`, read as a `UWORD`. -/
def tencDecodeInt (w : ℕ) (mem : ℤ → UInt8) (src : ℤ) : ℕ :=
  BigEndian.decode (Window.read mem src w)

/-- An unsigned value stored in an `int`. -/
def toInt (v : ℕ) : ℤ := (v : ℤ).bmod (2 ^ 32)

/-- An integer stored in an `unsigned int`. -/
def toUnsigned (v : ℤ) : ℕ := (v % 2 ^ 32).toNat

/-- `bytes += (sizeof (WORD)) - (bytes & align_mask)` where the mask leaves anything; the sum is
stored in an `int`. -/
def alignUp (w : ℕ) (bytes : ℤ) : ℤ :=
  if bytes % w ≠ 0 then (bytes + (w - bytes % w)).bmod (2 ^ 32) else bytes

/-- `tenc_decode_element`: the element and the updated length; `none` for the result `-1`. -/
def tencDecodeElement (w : ℕ) (mem : ℤ → UInt8) (src : ℤ) (length : ℕ) : Option (Element × ℕ) :=
  if length < w + 4 then none
  else
    let id := Window.read mem src 4
    let len := tencDecodeInt w mem (src + 4)
    let next := src + (w + 4 : ℕ)
    let length := length - (w + 4)
    if letter id = ascii 'I' ∨ letter id = ascii 'U' then
      some ({ id := id, length := 0, data := .uInt len, next := next }, length)
    else if length < len then none
    else
      let bytes := alignUp w (toInt len)
      some ({ id := id, length := len, data := .bytes next, next := next + bytes },
        toUnsigned (length - bytes))

/-! ## A whole stream -/

/-- `data.s_int`: the number as a signed `WORD`. -/
def sInt (w v : ℕ) : ℤ := (v : ℤ).bmod (2 ^ (8 * w))

/-- Elements decoded one after the other until no length is left, `L` elements decoded in turn over
their own data.  The result lists what was decoded, with where the reading stopped; an `L` element
whose elements do not end where its data does is refused.  `fuel` bounds the number of elements. -/
def decodeStream (w : ℕ) (mem : ℤ → UInt8) : ℕ → ℤ → ℕ → Option (TEncode × ℤ)
  | _, src, 0 => some (.empty, src)
  | 0, _, _ + 1 => none
  | fuel + 1, src, length + 1 => do
    let (element, left) ← tencDecodeElement w mem src (length + 1)
    let (rest, stop) ← decodeStream w mem fuel element.next left
    match element.data with
    | .uInt v =>
      let value := if letter element.id = ascii 'I' then sInt w v else v
      some (.num element.id value rest, stop)
    | .bytes ptr =>
      if letter element.id = ascii 'L' then do
        let (sub, subStop) ← decodeStream w mem fuel ptr element.length
        if subStop = ptr + element.length then some (.obj element.id sub rest, stop) else none
      else some (.str element.id (Window.read mem ptr element.length) rest, stop)

/-! ## Decoding a laid-out element -/

section Laid

variable {w : ℕ} {mem : ℤ → UInt8} {src : ℤ} {id field : List UInt8}

theorem read_id (hid : id.length = 4) (h : Window.Holds mem src id) :
    Window.read mem src 4 = id := hid ▸ h

theorem tencDecodeInt_field {n : ℕ} (hn : n < 256 ^ w)
    (h : Window.Holds mem src (BigEndian.encode w n)) : tencDecodeInt w mem src = n := by
  have hread : Window.read mem src w = BigEndian.encode w n := by
    have := h
    rwa [Window.Holds, BigEndian.length_encode] at this
  rw [tencDecodeInt, hread, BigEndian.decode_encode_of_lt hn]

/-- **A number element is decoded to its field**, eight or six bytes further on. -/
theorem tencDecodeElement_num {n left : ℕ} (hid : id.length = 4) (hn : n < 256 ^ w)
    (hl : letter id = ascii 'I' ∨ letter id = ascii 'U')
    (h : Window.Holds mem src (id ++ BigEndian.encode w n)) :
    tencDecodeElement w mem src (w + 4 + left) =
      some ({ id := id, length := 0, data := .uInt n, next := src + (w + 4 : ℕ) }, left) := by
  have hint : tencDecodeInt w mem (src + 4) = n := by
    have := h.right
    rw [hid] at this
    exact tencDecodeInt_field hn this
  unfold tencDecodeElement
  simp only [read_id hid h.left, hint, if_pos hl, Nat.add_sub_cancel_left]
  rw [if_neg (by omega)]

/-- Data and their padding are a whole number of words. -/
theorem add_pad_mod {ib : ℕ} (hib : ib = 2 ∨ ib = 4) (n : ℕ) : (n + TEncode.pad ib n) % ib = 0 := by
  unfold TEncode.pad
  rcases hib with rfl | rfl <;> split_ifs <;> omega

/-- The length a data element occupies: its data and their padding. -/
theorem alignUp_toInt (hw : 0 < w) {n : ℕ} (hn : n + TEncode.pad w n < 2 ^ 31) :
    alignUp w (toInt n) = (n + TEncode.pad w n : ℕ) := by
  have hbmod : ∀ {v : ℕ}, v < 2 ^ 31 → (v : ℤ).bmod (2 ^ 32) = v := by
    intro v hv
    exact Int.bmod_eq_of_le (by omega) (by omega)
  have hmod : (n : ℤ) % w = (n % w : ℕ) := by push_cast; rfl
  have hlt := Nat.mod_lt n hw
  unfold alignUp toInt
  rw [hbmod (by omega), hmod]
  by_cases hz : n % w = 0
  · simp [hz, TEncode.pad]
  · have hsum : (n : ℤ) + (w - (n % w : ℕ)) = (n + TEncode.pad w n : ℕ) := by
      rw [TEncode.pad, if_pos hz]
      push_cast [hlt.le]
      ring
    rw [if_pos (by exact_mod_cast hz), hsum, hbmod hn]

/-- **A data element is decoded to a pointer to its data**, and its end is the next element. -/
theorem tencDecodeElement_data {n left : ℕ} (hw : 0 < w) (hid : id.length = 4)
    (hn : n < 256 ^ w) (hsmall : w + 4 + (n + TEncode.pad w n + left) < 2 ^ 31)
    (hl : ¬ (letter id = ascii 'I' ∨ letter id = ascii 'U'))
    (h : Window.Holds mem src (id ++ BigEndian.encode w n)) :
    tencDecodeElement w mem src (w + 4 + (n + TEncode.pad w n + left)) =
      some ({ id := id, length := n, data := .bytes (src + (w + 4 : ℕ)),
              next := src + (w + 4 : ℕ) + (n + TEncode.pad w n : ℕ) }, left) := by
  have hint : tencDecodeInt w mem (src + 4) = n := by
    have := h.right
    rw [hid] at this
    exact tencDecodeInt_field hn this
  have hleft : toUnsigned (((n + TEncode.pad w n + left : ℕ) : ℤ) - (n + TEncode.pad w n : ℕ))
      = left := by
    unfold toUnsigned
    omega
  unfold tencDecodeElement
  simp only [read_id hid h.left, hint, if_neg hl, Nat.add_sub_cancel_left]
  rw [if_neg (by omega), if_neg (by omega), alignUp_toInt hw (by omega), hleft]

end Laid

end Tencode

end Kroc
