import Kroc.Tvm.TEncode

/-!
# Tvm/TEncodeRoundTrip — what the decoder reads of what the encoder writes

`received` is what the decoder delivers for an encoded object, `delivered` what it ought to
deliver.  They differ in the signed elements only: the encoder adds half the range of the field to
a negative number, where the decoder reads two's complement.
-/

namespace Kroc

namespace TEncode

open Tencode

/-! ## What is delivered and what is received -/

/-- The object as its reader should see it: every string with its NUL. -/
def delivered : TEncode → TEncode
  | .empty => .empty
  | .str id data rest => .str id (strField id data) rest.delivered
  | .num id data rest => .num id data rest.delivered
  | .obj id data rest => .obj id data.delivered rest.delivered

/-- The object as the decoder reads it: every number as its field. -/
def received (ib : ℕ) : TEncode → TEncode
  | .empty => .empty
  | .str id data rest => .str id (strField id data) (rest.received ib)
  | .num id data rest => .num id (intField ib id data) (rest.received ib)
  | .obj id data rest => .obj id (data.received ib) (rest.received ib)

/-- No signed element, at any depth, is negative. -/
def NonNegative : TEncode → Prop
  | .empty => True
  | .str _ _ rest => rest.NonNegative
  | .num id data rest => (letter id = ascii 'I' → 0 ≤ data) ∧ rest.NonNegative
  | .obj _ data rest => data.NonNegative ∧ rest.NonNegative

theorem intField_eq_self_iff (ib : ℕ) (id : List UInt8) (data : ℤ) :
    intField ib id data = data ↔ (letter id = ascii 'I' → 0 ≤ data) := by
  have hpos : (0 : ℤ) < 2 ^ (8 * ib - 1) := by positivity
  unfold intField
  split_ifs with h
  · exact ⟨fun heq => absurd heq (by omega), fun hle => absurd (hle h.1) (by omega)⟩
  · exact ⟨fun _ hl => not_lt.mp fun hlt => h ⟨hl, hlt⟩, fun _ => rfl⟩

/-- **The decoder reads what was meant exactly when no signed element is negative.** -/
theorem received_eq_delivered_iff (ib : ℕ) :
    ∀ t : TEncode, t.received ib = t.delivered ↔ t.NonNegative
  | .empty => iff_of_true rfl trivial
  | .str _ _ rest => by
      simp only [received, delivered, NonNegative, TEncode.str.injEq, true_and,
        received_eq_delivered_iff ib rest]
  | .num id data rest => by
      simp only [received, delivered, NonNegative, TEncode.num.injEq, true_and,
        intField_eq_self_iff, received_eq_delivered_iff ib rest]
  | .obj _ data rest => by
      simp only [received, delivered, NonNegative, TEncode.obj.injEq, true_and,
        received_eq_delivered_iff ib data, received_eq_delivered_iff ib rest]

end TEncode

namespace Tencode

open TEncode

/-! ## One element of a stream -/

section Cons

variable {w fuel length left : ℕ} {mem : ℤ → UInt8} {src stop : ℤ} {e : Element} {rest : TEncode}

theorem decodeStream_succ (hpos : 0 < length)
    (he : tencDecodeElement w mem src length = some (e, left))
    (hrest : decodeStream w mem fuel e.next left = some (rest, stop)) :
    decodeStream w mem (fuel + 1) src length = match e.data with
      | .uInt v => some (.num e.id (if letter e.id = ascii 'I' then sInt w v else v) rest, stop)
      | .bytes ptr =>
        if letter e.id = ascii 'L' then
          (decodeStream w mem fuel ptr e.length).bind fun r =>
            if r.2 = ptr + e.length then some (.obj e.id r.1 rest, stop) else none
        else some (.str e.id (Window.read mem ptr e.length) rest, stop) := by
  obtain ⟨length, rfl⟩ := Nat.exists_eq_add_of_le' hpos
  rw [decodeStream, he, Option.bind_eq_bind, Option.bind_some]
  simp only [hrest]
  rfl

end Cons

/-- The number a field holds, read as a signed word, when the encoder wrote a signed element. -/
theorem sInt_of_lt {w n : ℕ} (hw : 0 < w) (h : n < 2 ^ (8 * w - 1)) : sInt w n = n := by
  have hpow : 2 ^ (8 * w) = 2 * 2 ^ (8 * w - 1) := by
    rw [← pow_succ']
    congr 1
    omega
  unfold sInt
  rw [Int.bmod_eq_of_le] <;> rw [hpow] <;> omega

theorem intField_signed {ib : ℕ} {id : List UInt8} {v : ℤ}
    (h : Fits ib id (.num v)) (hl : letter id = ascii 'I') :
    intField ib id v < 2 ^ (8 * ib - 1) := by
  have hne : ascii 'U' ≠ ascii 'I' := by decide
  rcases h with ⟨hu, -, -⟩ | ⟨-, h₀, h₁⟩
  · exact absurd (hu.symm.trans hl) hne
  · unfold intField
    split_ifs
    · omega
    · exact h₁

/-! ## A whole object -/

/-- The lengths of the encoding fit the length field and the `int` of the decoder. -/
def Representable (ib length : ℕ) : Prop := length < 2 ^ (8 * ib) ∧ length < 2 ^ 31

theorem Representable.mono {ib m n : ℕ} (h : Representable ib n) (hle : m ≤ n) :
    Representable ib m := ⟨hle.trans_lt h.1, hle.trans_lt h.2⟩

theorem pow_256 (ib : ℕ) : 256 ^ ib = 2 ^ (8 * ib) := by
  rw [show (256 : ℕ) = 2 ^ 8 from rfl, ← pow_mul]

theorem length_pack {ib : ℕ} (hib : ib = 2 ∨ ib = 4) (v : ℤ) : (pack ib v).length = ib := by
  rcases hib with rfl | rfl <;> exact BigEndian.length_encode _ _

section Element

variable {ib fuel : ℕ} {mem : ℤ → UInt8} {src stop : ℤ} {id : List UInt8} {rest : TEncode}

/-- **A number element in front of a decoded stream** is read as its field. -/
theorem decodeStream_num (hib : ib = 2 ∨ ib = 4) {v : ℤ} {tail : List UInt8} (hid : ProperId id)
    (hfit : Fits ib id (.num v))
    (hold : Window.Holds mem src (id ++ pack ib (intField ib id v) ++ tail))
    (hrest : decodeStream ib mem fuel (src + (ib + 4 : ℕ)) tail.length = some (rest, stop)) :
    decodeStream ib mem (fuel + 1) src (ib + 4 + tail.length) =
      some (.num id (intField ib id v) rest, stop) := by
  have hl : letter id = ascii 'I' ∨ letter id = ascii 'U' :=
    (Or.imp And.left And.left hfit : letter id = ascii 'U' ∨ letter id = ascii 'I').symm
  obtain ⟨h₀, h₁⟩ := intField_range hib hfit
  obtain ⟨n, hn⟩ := Int.eq_ofNat_of_zero_le h₀
  have hlt : n < 2 ^ (8 * ib) := by
    rw [hn] at h₁
    exact_mod_cast h₁
  rw [hn, pack_of_lt hib hlt] at hold
  rw [decodeStream_succ (by omega)
    (tencDecodeElement_num hid.1 (by rwa [pow_256]) hl hold.left) hrest, hn]
  simp only
  split_ifs with hi
  · have hs : n < 2 ^ (8 * ib - 1) := by
      have := intField_signed hfit hi
      rw [hn] at this
      exact_mod_cast this
    rw [sInt_of_lt (by omega) hs]
  · rfl

variable {data tail : List UInt8}

/-- The bytes of a data element before a decoded stream, seen from the decoder. -/
theorem tencDecodeElement_laid (hib : ib = 2 ∨ ib = 4) {n : ℕ} (hid : ProperId id)
    (hl : ¬ (letter id = ascii 'I' ∨ letter id = ascii 'U'))
    (hrep : Representable ib (ib + 4 + (n + pad ib n + tail.length)))
    (hold : Window.Holds mem src (id ++ pack ib n)) :
    tencDecodeElement ib mem src (ib + 4 + (n + pad ib n + tail.length)) =
      some ({ id := id, length := n, data := .bytes (src + (ib + 4 : ℕ)),
              next := src + (ib + 4 : ℕ) + (n + pad ib n : ℕ) }, tail.length) := by
  have hlt : n < 2 ^ (8 * ib) := (hrep.mono (by omega)).1
  rw [pack_of_lt hib hlt] at hold
  exact tencDecodeElement_data (by omega) hid.1 (by rwa [pow_256]) hrep.2 hl hold

/-- **A string element in front of a decoded stream** is read as its bytes. -/
theorem decodeStream_str (hib : ib = 2 ∨ ib = 4) (hid : ProperId id)
    (hl : letter id = ascii 'B' ∨ letter id = ascii 'S')
    (hrep : Representable ib (ib + 4 + (data.length + pad ib data.length + tail.length)))
    (hold : Window.Holds mem src (id ++ pack ib data.length ++ data))
    (hrest : decodeStream ib mem fuel
      (src + (ib + 4 : ℕ) + (data.length + pad ib data.length : ℕ)) tail.length =
        some (rest, stop)) :
    decodeStream ib mem (fuel + 1) src
        (ib + 4 + (data.length + pad ib data.length + tail.length)) =
      some (.str id data rest, stop) := by
  have hnum : ¬ (letter id = ascii 'I' ∨ letter id = ascii 'U') := by
    rcases hl with hl | hl <;> rw [hl] <;> decide
  have hobj : letter id ≠ ascii 'L' := by
    rcases hl with hl | hl <;> rw [hl] <;> decide
  have hdata : Window.read mem (src + (ib + 4 : ℕ)) data.length = data := by
    have hright := hold.right
    rwa [List.length_append, hid.1, length_pack hib, Nat.add_comm 4 ib] at hright
  rw [decodeStream_succ (by omega) (tencDecodeElement_laid hib hid hnum hrep hold.left) hrest]
  simp only [if_neg hobj, hdata]

/-- **A nested object in front of a decoded stream** is decoded in its turn. -/
theorem decodeStream_obj (hib : ib = 2 ∨ ib = 4) {sub : TEncode} (hid : ProperId id)
    (hl : letter id = ascii 'L')
    (hpad : pad ib data.length = 0)
    (hrep : Representable ib (ib + 4 + (data.length + tail.length)))
    (hold : Window.Holds mem src (id ++ pack ib data.length))
    (hsub : decodeStream ib mem fuel (src + (ib + 4 : ℕ)) data.length =
      some (sub, src + (ib + 4 : ℕ) + data.length))
    (hrest : decodeStream ib mem fuel (src + (ib + 4 : ℕ) + data.length) tail.length =
        some (rest, stop)) :
    decodeStream ib mem (fuel + 1) src (ib + 4 + (data.length + tail.length)) =
      some (.obj id sub rest, stop) := by
  have hnum : ¬ (letter id = ascii 'I' ∨ letter id = ascii 'U') := by rw [hl]; decide
  have helem := tencDecodeElement_laid hib hid hnum
    (show Representable ib (ib + 4 + (data.length + pad ib data.length + tail.length)) by
      rwa [hpad, Nat.add_zero]) hold
  simp only [hpad, Nat.add_zero] at helem
  rw [decodeStream_succ (by omega) helem hrest]
  simp only [if_pos hl, hsub, Option.bind_some, if_true]

end Element

/-- An encoding is a whole number of words. -/
theorem length_encode_mod {ib : ℕ} (hib : ib = 2 ∨ ib = 4) :
    ∀ {t : TEncode} {bytes : List UInt8}, t.Proper ib → t.encode ib = some bytes →
      bytes.length % ib = 0
  | .empty, bytes, _, henc => by
      obtain rfl : [] = bytes := Option.some.inj henc
      exact Nat.zero_mod ib
  | .str id data rest, bytes, ⟨hid, hfit, hrest⟩, henc => by
      rw [encode_str hfit] at henc
      obtain ⟨tail, htail, rfl⟩ := Option.map_eq_some_iff.mp henc
      have := length_encode_mod hib hrest htail
      have := add_pad_mod hib (strField id data).length
      simp only [List.length_append, hid.1, length_pack hib, List.length_replicate]
      rcases hib with rfl | rfl <;> omega
  | .num id data rest, bytes, ⟨hid, hfit, hrest⟩, henc => by
      rw [encode_num hib hfit] at henc
      obtain ⟨tail, htail, rfl⟩ := Option.map_eq_some_iff.mp henc
      have := length_encode_mod hib hrest htail
      simp only [List.length_append, hid.1, length_pack hib]
      rcases hib with rfl | rfl <;> omega
  | .obj id data rest, bytes, ⟨hid, hfit, hdata, hrest⟩, henc => by
      rw [encode_obj hfit] at henc
      obtain ⟨sub, hsub, henc⟩ := Option.bind_eq_some_iff.mp henc
      obtain ⟨tail, htail, rfl⟩ := Option.map_eq_some_iff.mp henc
      have := length_encode_mod hib hrest htail
      have := length_encode_mod hib hdata hsub
      simp only [List.length_append, hid.1, length_pack hib]
      rcases hib with rfl | rfl <;> omega

/-- **The decoder undoes the encoder**, up to the fields of negative numbers: on the encoding of a
proper object it delivers `received` and stops where the encoding does. -/
theorem decodeStream_encode {ib : ℕ} (hib : ib = 2 ∨ ib = 4) {mem : ℤ → UInt8} :
    ∀ {t : TEncode} {bytes : List UInt8} (src : ℤ) (fuel : ℕ), t.Proper ib →
      t.encode ib = some bytes → Representable ib bytes.length → Window.Holds mem src bytes →
      bytes.length ≤ fuel →
      decodeStream ib mem fuel src bytes.length = some (t.received ib, src + bytes.length)
  | .empty, bytes, _, fuel, _, henc, _, _, _ => by
      obtain rfl : [] = bytes := Option.some.inj henc
      cases fuel <;> simp [decodeStream, received]
  | .str id data rest, bytes, src, fuel, ⟨hid, hfit, hrest⟩, henc, hrep, hold, hfuel => by
      rw [encode_str hfit] at henc
      obtain ⟨tail, htail, rfl⟩ := Option.map_eq_some_iff.mp henc
      have hl : letter id = ascii 'B' ∨ letter id = ascii 'S' := Or.imp (fun h => h) And.left hfit
      generalize hd : strField id data = d at *
      have hlen : (id ++ pack ib d.length ++ d ++ List.replicate (pad ib d.length) 0
          ++ tail).length = ib + 4 + (d.length + pad ib d.length + tail.length) := by
        simp only [List.length_append, hid.1, length_pack hib, List.length_replicate]
        omega
      have htailAt := hold.right
      simp only [List.length_append, hid.1, length_pack hib, List.length_replicate] at htailAt
      rw [hlen] at hrep hfuel ⊢
      obtain ⟨fuel, rfl⟩ : ∃ f, fuel = f + 1 := ⟨fuel - 1, by omega⟩
      have ih := decodeStream_encode hib (src + (ib + 4 : ℕ) + (d.length + pad ib d.length : ℕ))
        fuel hrest htail (hrep.mono (by omega))
        (by convert htailAt using 1; push_cast; ring) (by omega)
      rw [decodeStream_str hib hid hl hrep hold.left.left ih, received, hd]
      congr 2
      push_cast
      ring
  | .num id data rest, bytes, src, fuel, ⟨hid, hfit, hrest⟩, henc, hrep, hold, hfuel => by
      rw [encode_num hib hfit] at henc
      obtain ⟨tail, htail, rfl⟩ := Option.map_eq_some_iff.mp henc
      have hlen : (id ++ pack ib (intField ib id data) ++ tail).length =
          ib + 4 + tail.length := by
        simp only [List.length_append, hid.1, length_pack hib]
        omega
      have htailAt := hold.right
      simp only [List.length_append, hid.1, length_pack hib] at htailAt
      rw [hlen] at hrep hfuel ⊢
      obtain ⟨fuel, rfl⟩ : ∃ f, fuel = f + 1 := ⟨fuel - 1, by omega⟩
      have ih := decodeStream_encode hib (src + (ib + 4 : ℕ)) fuel hrest htail
        (hrep.mono (by omega)) (by rwa [Nat.add_comm ib 4]) (by omega)
      rw [decodeStream_num hib hid hfit hold ih, received]
      congr 2
      push_cast
      ring
  | .obj id data rest, bytes, src, fuel, ⟨hid, hfit, hdata, hrest⟩, henc, hrep, hold, hfuel => by
      rw [encode_obj hfit] at henc
      obtain ⟨sub, hsub, henc⟩ := Option.bind_eq_some_iff.mp henc
      obtain ⟨tail, htail, rfl⟩ := Option.map_eq_some_iff.mp henc
      have hlen : (id ++ pack ib sub.length ++ sub ++ tail).length =
          ib + 4 + (sub.length + tail.length) := by
        simp only [List.length_append, hid.1, length_pack hib]
        omega
      have hsubAt := hold.left.right
      have htailAt := hold.right
      simp only [List.length_append, hid.1, length_pack hib] at hsubAt htailAt
      rw [hlen] at hrep hfuel ⊢
      obtain ⟨fuel, rfl⟩ : ∃ f, fuel = f + 1 := ⟨fuel - 1, by omega⟩
      have hpad : pad ib sub.length = 0 := if_neg fun h => h (length_encode_mod hib hdata hsub)
      have ihsub := decodeStream_encode hib (src + (ib + 4 : ℕ)) fuel hdata hsub
        (hrep.mono (by omega)) (by rwa [Nat.add_comm ib 4]) (by omega)
      have ih := decodeStream_encode hib (src + (ib + 4 : ℕ) + sub.length) fuel hrest htail
        (hrep.mono (by omega))
        (by convert htailAt using 1; push_cast; ring) (by omega)
      rw [decodeStream_obj hib hid hfit hpad hrep hold.left.left ihsub ih, received]
      congr 2
      push_cast
      ring

/-! ## Agreement of the two programs -/

/-- **Encoder and decoder agree exactly on the objects without negative numbers.**  Every object
that `add` builds is encoded, and where its size is representable the decoder delivers the object
and consumes the encoding if and only if no signed element, at any depth, is negative. -/
theorem decodeStream_encode_eq_delivered_iff {ib : ℕ} (hib : ib = 2 ∨ ib = 4) {t : TEncode}
    (ht : Built ib t) :
    ∃ bytes, t.encode ib = some bytes ∧
      (Representable ib bytes.length → ∀ (mem : ℤ → UInt8) (base : ℤ),
        Window.Holds mem base bytes →
          (decodeStream ib mem bytes.length base bytes.length =
            some (t.delivered, base + bytes.length) ↔ t.NonNegative)) := by
  obtain ⟨bytes, henc⟩ := exists_encode hib ht.proper
  refine ⟨bytes, henc, fun hrep mem base hold => ?_⟩
  rw [decodeStream_encode hib base _ ht.proper henc hrep hold le_rfl,
    ← received_eq_delivered_iff ib,
    Option.some.injEq, Prod.mk.injEq, and_iff_left rfl]

/-- The identifier `idxI` of an entry of the foreign function map. -/
def idxI : List UInt8 := "idxI".toList.map ascii

theorem built_idxI_neg_one : Built 4 (.num idxI (-1) .empty) :=
  have hfit : Fits 4 idxI (.num (-1)) := .inr ⟨by decide, by norm_num, by norm_num⟩
  .add .new (by unfold ProperId; decide) hfit (by simp) rfl

/-- The theorem at the object of one element `idxI` with the value `-1`. -/
theorem decodeStream_encode_idxI_neg_one :
    ∃ bytes, (TEncode.num idxI (-1) .empty).encode 4 = some bytes ∧
      (Representable 4 bytes.length → ∀ (mem : ℤ → UInt8) (base : ℤ),
        Window.Holds mem base bytes →
          (decodeStream 4 mem bytes.length base bytes.length =
            some ((TEncode.num idxI (-1) .empty).delivered, base + bytes.length) ↔
              (TEncode.num idxI (-1) .empty).NonNegative)) :=
  decodeStream_encode_eq_delivered_iff (.inr rfl) built_idxI_neg_one

/-- **A negative number is not delivered**: `idxI` with `-1`, as the linker writes it for a foreign
function of no library, is encoded as `7fffffff` and decoded as `2147483647`. -/
theorem idxI_neg_one_not_delivered :
    Built 4 (.num idxI (-1) .empty) ∧
      (TEncode.num idxI (-1) .empty).encode 4 = some (idxI ++ [0x7f, 0xff, 0xff, 0xff]) ∧
      Representable 4 8 ∧
      decodeStream 4 (Window.ofList 0 (idxI ++ [0x7f, 0xff, 0xff, 0xff])) 8 0 8 =
        some (.num idxI 2147483647 .empty, 8) ∧
      (TEncode.num idxI 2147483647 .empty) ≠ (TEncode.num idxI (-1) .empty).delivered :=
  ⟨built_idxI_neg_one, by decide +kernel, by unfold Representable; decide, by decide +kernel,
    by decide⟩

end Tencode

end Kroc
