import Mathlib.Data.List.Basic
import Mathlib.Data.Nat.ModEq
import Mathlib.Tactic

/-!
# Lib/Bytes — big-endian integers and byte windows of a memory

Two general facts every binary format rests on: a number written most significant byte first is
read back modulo the field's range, and a list of bytes laid out from an address is the
concatenation of the windows of its parts.
-/

/-! ## Big-endian integers -/

namespace BigEndian

/-- The `k` bytes of `v`, most significant first; what does not fit is dropped. -/
def encode : ℕ → ℕ → List UInt8
  | 0, _ => []
  | k + 1, v => encode k (v / 256) ++ [UInt8.ofNat (v % 256)]

/-- The number a list of bytes spells, most significant first. -/
def decode (bs : List UInt8) : ℕ := bs.foldl (fun acc b => 256 * acc + b.toNat) 0

@[simp] theorem length_encode : ∀ k v : ℕ, (encode k v).length = k
  | 0, _ => rfl
  | k + 1, v => by simp [encode, length_encode k]

theorem decode_concat (bs : List UInt8) (b : UInt8) :
    decode (bs ++ [b]) = 256 * decode bs + b.toNat := by
  simp [decode, List.foldl_append]

/-- **A big-endian field is read back modulo its range.** -/
theorem decode_encode : ∀ k v : ℕ, decode (encode k v) = v % 256 ^ k
  | 0, v => by simp [encode, decode, Nat.mod_one]
  | k + 1, v => by
      rw [encode, decode_concat, decode_encode k, UInt8.toNat_ofNat_of_lt' (by
        show v % 256 < 2 ^ 8
        omega), pow_succ', Nat.mod_mul]
      omega

theorem decode_encode_of_lt {k v : ℕ} (h : v < 256 ^ k) : decode (encode k v) = v := by
  rw [decode_encode, Nat.mod_eq_of_lt h]

theorem decode_lt (bs : List UInt8) : decode bs < 256 ^ bs.length := by
  induction bs using List.reverseRecOn with
  | nil => exact Nat.one_pos
  | append_singleton bs b ih =>
    have hb := b.toNat_lt
    rw [decode_concat, List.length_append, List.length_singleton, pow_succ]
    omega

end BigEndian

/-! ## Windows of a memory -/

namespace Window

variable {α : Type*}

/-- `n` consecutive cells of `mem` from address `p`. -/
def read (mem : ℤ → α) (p : ℤ) (n : ℕ) : List α := (List.range n).map fun i : ℕ => mem (p + i)

@[simp] theorem length_read (mem : ℤ → α) (p : ℤ) (n : ℕ) : (read mem p n).length = n := by
  simp [read]

/-- The cells of `mem` from `p` hold the list `bs`. -/
def Holds (mem : ℤ → α) (p : ℤ) (bs : List α) : Prop := read mem p bs.length = bs

theorem read_add (mem : ℤ → α) (p : ℤ) (m n : ℕ) :
    read mem p (m + n) = read mem p m ++ read mem (p + m) n := by
  simp [read, List.range_add, add_assoc]

/-- **A concatenation is held exactly when its two parts are, one after the other.** -/
theorem holds_append {mem : ℤ → α} {p : ℤ} {as bs : List α} :
    Holds mem p (as ++ bs) ↔ Holds mem p as ∧ Holds mem (p + as.length) bs := by
  unfold Holds
  rw [List.length_append, read_add]
  constructor
  · intro h
    exact List.append_inj h (by simp)
  · rintro ⟨ha, hb⟩
    rw [ha, hb]

theorem Holds.left {mem : ℤ → α} {p : ℤ} {as bs : List α} (h : Holds mem p (as ++ bs)) :
    Holds mem p as := (holds_append.mp h).1

theorem Holds.right {mem : ℤ → α} {p : ℤ} {as bs : List α} (h : Holds mem p (as ++ bs)) :
    Holds mem (p + as.length) bs := (holds_append.mp h).2

/-- A memory that holds a given list from a given address. -/
def ofList [Inhabited α] (p : ℤ) (bs : List α) : ℤ → α := fun a => bs.getD (a - p).toNat default

end Window
