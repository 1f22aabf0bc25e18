import Kroc.Lib.Bytes

/-!
# Plinker/TEncode — the encoder of Transterpreter Encoding

`tools/plinker/TEncode.pm`: an object is a sequence of elements, each a four-character identifier
whose last letter gives the type (`B` bytes, `S` string, `I` signed, `U` unsigned, `L` nested
object).  `_encode` writes every element as identifier, big-endian length or value, data, padding.
-/

namespace Kroc

/-- A TEncode object: its elements in order, each with the identifier and the data it was added
with. -/
inductive TEncode
  | empty
  | str (id data : List UInt8) (rest : TEncode)
  | num (id : List UInt8) (data : ℤ) (rest : TEncode)
  | obj (id : List UInt8) (data rest : TEncode)
  deriving DecidableEq, Repr

namespace TEncode

/-! ## Building an object -/

/-- The byte of an ASCII character. -/
def ascii (c : Char) : UInt8 := UInt8.ofNat c.toNat

/-- The type letter of an identifier. -/
def letter (id : List UInt8) : UInt8 := id.getD 3 0

/-- `.` of a regular expression: any character but a newline. -/
def isDot (c : UInt8) : Bool := c != ascii '\n'

/-- `/^.{3}[BILSU]$/`; `$` also matches before a trailing newline. -/
def validId (id : List UInt8) : Bool :=
  (id.length == 4 || (id.length == 5 && id.getD 4 0 == ascii '\n')) && (id.take 3).all isDot &&
    [ascii 'B', ascii 'I', ascii 'L', ascii 'S', ascii 'U'].contains (letter id)

/-- What `add` is handed as an element's data. -/
inductive Data
  | str (data : List UInt8)
  | num (data : ℤ)
  | obj (data : TEncode)

/-- `ref ($data)` -/
def Data.isRef : Data → Bool
  | .obj _ => true
  | _ => false

/-- `push (@{$self->{'elements'}}, …)` -/
def push (id : List UInt8) (data : Data) : TEncode → TEncode
  | .empty => match data with
    | .str d => .str id d .empty
    | .num d => .num id d .empty
    | .obj d => .obj id d .empty
  | .str i d rest => .str i d (push id data rest)
  | .num i d rest => .num i d (push id data rest)
  | .obj i d rest => .obj i d (push id data rest)

/-- `add`: `none` where the source dies. -/
def add (self : TEncode) (id : List UInt8) (data : Data) : Option TEncode :=
  if !validId id then none
  else if letter id == ascii 'L' && !data.isRef then none
  else some (push id data self)

/-! ## Encoding -/

/-- The width of the format letter `$ifmt`: `n` or `N`. -/
def fieldWidth (ib : ℕ) : ℕ := if ib = 2 then 2 else 4

/-- `pack ($ifmt, $value)` -/
def pack (ib : ℕ) (value : ℤ) : List UInt8 :=
  BigEndian.encode (fieldWidth ib) (value % 256 ^ fieldWidth ib).toNat

/-- `unpack ($ifmt, $coded)` -/
def unpack (coded : List UInt8) : ℤ := BigEndian.decode coded

/-- `$element->{'pad'}`: the zero bytes that align the next element. -/
def pad (ib length : ℕ) : ℕ := if length % ib ≠ 0 then ib - length % ib else 0

/-- The integer field of an `I` or `U` element. -/
def intField (ib : ℕ) (id : List UInt8) (data : ℤ) : ℤ :=
  if letter id = ascii 'I' ∧ data < 0 then data + 2 ^ (8 * ib - 1) else data

/-- The data bytes of a `B` or `S` element. -/
def strField (id data : List UInt8) : List UInt8 :=
  if letter id = ascii 'S' then data ++ [0] else data

/-- `_encode`: `none` where the source dies.  Data of a Perl type other than its letter's (which
Perl would coerce) is rejected as well. -/
def encode (ib : ℕ) : TEncode → Option (List UInt8)
  | .empty => some []
  | .str id data rest =>
    if letter id = ascii 'B' ∨ letter id = ascii 'S' then do
      let bytes := strField id data
      let tail ← encode ib rest
      some (id ++ pack ib bytes.length ++ bytes ++ List.replicate (pad ib bytes.length) 0 ++ tail)
    else none
  | .num id data rest =>
    if letter id = ascii 'I' ∨ letter id = ascii 'U' then do
      let data := intField ib id data
      let coded := pack ib data
      if unpack coded ≠ data then none
      else do
        let tail ← encode ib rest
        some (id ++ pack ib data ++ tail)
    else none
  | .obj id data rest =>
    if letter id = ascii 'L' then do
      let bytes ← encode ib data
      let tail ← encode ib rest
      some (id ++ pack ib bytes.length ++ bytes ++ tail)
    else none

/-! ## The objects a program builds -/

/-- An identifier of three characters and a type letter. -/
def ProperId (id : List UInt8) : Prop := id.length = 4 ∧ validId id

/-- Data of the type its identifier announces, in the range of the integer field. -/
def Fits (ib : ℕ) (id : List UInt8) : Data → Prop
  | .str d => letter id = ascii 'B' ∨ (letter id = ascii 'S' ∧ 0 ∉ d)
  | .num v => (letter id = ascii 'U' ∧ 0 ≤ v ∧ v < 2 ^ (8 * ib)) ∨
      (letter id = ascii 'I' ∧ -2 ^ (8 * ib - 1) ≤ v ∧ v < 2 ^ (8 * ib - 1))
  | .obj _ => letter id = ascii 'L'

/-- **The objects built by `add`** from the empty one, nested objects being built the same way. -/
inductive Built (ib : ℕ) : TEncode → Prop
  | new : Built ib .empty
  | add {t t' : TEncode} {id : List UInt8} {data : Data} : Built ib t → ProperId id →
      Fits ib id data → (∀ sub, data = .obj sub → Built ib sub) → t.add id data = some t' →
      Built ib t'

/-- Every element, at any depth, has a proper identifier and fitting data. -/
def Proper (ib : ℕ) : TEncode → Prop
  | .empty => True
  | .str id data rest => ProperId id ∧ Fits ib id (.str data) ∧ rest.Proper ib
  | .num id data rest => ProperId id ∧ Fits ib id (.num data) ∧ rest.Proper ib
  | .obj id data rest => ProperId id ∧ Fits ib id (.obj data) ∧ data.Proper ib ∧ rest.Proper ib

theorem Proper.push {ib : ℕ} {id : List UInt8} {data : Data} (hid : ProperId id)
    (hfit : Fits ib id data) (hsub : ∀ sub, data = .obj sub → sub.Proper ib) :
    ∀ {t : TEncode}, t.Proper ib → (t.push id data).Proper ib
  | .empty, _ => by
      cases data with
      | str d => exact ⟨hid, hfit, trivial⟩
      | num d => exact ⟨hid, hfit, trivial⟩
      | obj d => exact ⟨hid, hfit, hsub d rfl, trivial⟩
  | .str _ _ _, ⟨h₁, h₂, h⟩ => ⟨h₁, h₂, h.push hid hfit hsub⟩
  | .num _ _ _, ⟨h₁, h₂, h⟩ => ⟨h₁, h₂, h.push hid hfit hsub⟩
  | .obj _ _ _, ⟨h₁, h₂, h₃, h⟩ => ⟨h₁, h₂, h₃, h.push hid hfit hsub⟩

theorem push_of_add {t t' : TEncode} {id : List UInt8} {data : Data}
    (h : t.add id data = some t') : t' = t.push id data := by
  unfold add at h
  split_ifs at h
  exact (Option.some.inj h).symm

/-- **What `add` builds is proper.** -/
theorem Built.proper {ib : ℕ} {t : TEncode} (h : Built ib t) : t.Proper ib := by
  induction h with
  | new => trivial
  | add _ hid hfit _ hadd ih ihsub =>
    rw [push_of_add hadd]
    exact ih.push hid hfit ihsub

/-! ## Reading the fields back -/

theorem pack_of_lt {ib : ℕ} (hib : ib = 2 ∨ ib = 4) {n : ℕ} (h : n < 2 ^ (8 * ib)) :
    pack ib n = BigEndian.encode ib n := by
  rcases hib with rfl | rfl
  all_goals
    simp only [pack, fieldWidth]
    norm_num at h ⊢
    congr 1
    omega

/-- What `_encode` writes for a number of its range fits the unsigned field, a negative one by the
half range added to it. -/
theorem intField_range {ib : ℕ} (hib : ib = 2 ∨ ib = 4) {id : List UInt8} {v : ℤ}
    (h : Fits ib id (.num v)) : 0 ≤ intField ib id v ∧ intField ib id v < 2 ^ (8 * ib) := by
  have hne : ascii 'U' ≠ ascii 'I' := by decide
  unfold intField
  rcases h with ⟨hl, h₀, h₁⟩ | ⟨hl, h₀, h₁⟩
  · rw [if_neg (by rw [hl]; exact fun hc => hne hc.1)]
    exact ⟨h₀, h₁⟩
  · by_cases hv : v < 0
    · rw [if_pos ⟨hl, hv⟩]
      rcases hib with rfl | rfl <;> norm_num at h₀ h₁ ⊢ <;> omega
    · rw [if_neg fun hc => hv hc.2]
      rcases hib with rfl | rfl <;> norm_num at h₀ h₁ ⊢ <;> omega

/-- The consistency check of `_encode` passes on every number of the range. -/
theorem unpack_pack_intField {ib : ℕ} (hib : ib = 2 ∨ ib = 4) {id : List UInt8} {v : ℤ}
    (h : Fits ib id (.num v)) : unpack (pack ib (intField ib id v)) = intField ib id v := by
  obtain ⟨h₀, h₁⟩ := intField_range hib h
  obtain ⟨n, hn⟩ := Int.eq_ofNat_of_zero_le h₀
  have hlt : n < 2 ^ (8 * ib) := by
    rw [hn] at h₁
    exact_mod_cast h₁
  rw [hn, pack_of_lt hib hlt, unpack, BigEndian.decode_encode_of_lt]
  rwa [show (256 : ℕ) = 2 ^ 8 from rfl, ← pow_mul]

/-! ## The bytes of one element -/

theorem encode_str {ib : ℕ} {id data : List UInt8} (h : Fits ib id (.str data)) (rest : TEncode) :
    encode ib (.str id data rest) = (encode ib rest).map fun tail =>
      id ++ pack ib (strField id data).length ++ strField id data ++
        List.replicate (pad ib (strField id data).length) 0 ++ tail := by
  have hl : letter id = ascii 'B' ∨ letter id = ascii 'S' := Or.imp (fun h => h) And.left h
  rw [encode, if_pos hl, Option.map_eq_bind]
  rfl

theorem encode_num {ib : ℕ} (hib : ib = 2 ∨ ib = 4) {id : List UInt8} {data : ℤ}
    (h : Fits ib id (.num data)) (rest : TEncode) :
    encode ib (.num id data rest) = (encode ib rest).map fun tail =>
      id ++ pack ib (intField ib id data) ++ tail := by
  have hl : letter id = ascii 'I' ∨ letter id = ascii 'U' :=
    (Or.imp And.left And.left h : letter id = ascii 'U' ∨ letter id = ascii 'I').symm
  rw [encode, if_pos hl]
  simp only [unpack_pack_intField hib h, ne_eq, not_true_eq_false, if_false, Option.map_eq_bind]
  rfl

theorem encode_obj {ib : ℕ} {id : List UInt8} {data : TEncode} (h : Fits ib id (.obj data))
    (rest : TEncode) :
    encode ib (.obj id data rest) = (encode ib data).bind fun bytes => (encode ib rest).map
      fun tail => id ++ pack ib bytes.length ++ bytes ++ tail := by
  have hl : letter id = ascii 'L' := h
  rw [encode, if_pos hl]
  simp only [Option.map_eq_bind]
  rfl

/-- **`_encode` succeeds on a proper object.** -/
theorem exists_encode {ib : ℕ} (hib : ib = 2 ∨ ib = 4) :
    ∀ {t : TEncode}, t.Proper ib → ∃ bytes, t.encode ib = some bytes
  | .empty, _ => ⟨[], rfl⟩
  | .str _ _ rest, ⟨_, hfit, hrest⟩ => by
      obtain ⟨tail, htail⟩ := exists_encode hib hrest
      exact ⟨_, by rw [encode_str hfit, htail]; rfl⟩
  | .num _ _ rest, ⟨_, hfit, hrest⟩ => by
      obtain ⟨tail, htail⟩ := exists_encode hib hrest
      exact ⟨_, by rw [encode_num hib hfit, htail]; rfl⟩
  | .obj _ _ rest, ⟨_, hfit, hdata, hrest⟩ => by
      obtain ⟨bytes, hbytes⟩ := exists_encode hib hdata
      obtain ⟨tail, htail⟩ := exists_encode hib hrest
      exact ⟨_, by rw [encode_obj hfit, hbytes, htail]; rfl⟩

end TEncode

end Kroc
