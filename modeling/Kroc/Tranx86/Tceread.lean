import Mathlib

/-!
# Tranx86/Tceread — the reader of ETC files

`tceread.c` has the whole file in memory.  A file is records, each with a tag and a length; the text
of a `LOAD_TEXT` record is a stretch of the file that has a length of its own, and an operation in
it can be followed by a string.  What is followed here is where the bytes are that are read.
-/

namespace Kroc

namespace Tranx86

/-! ## Outcomes -/

/-- What a call comes to: an error stops the program, a byte is read where there is none to be read,
or something is returned. -/
inductive Outcome (α : Type)
  | stop
  | wild
  | ok (a : α)
  deriving DecidableEq

namespace Outcome

variable {α β : Type}

instance : Monad Outcome where
  pure := ok
  bind x f := match x with
    | stop => stop
    | wild => wild
    | ok a => f a

@[simp] theorem stop_bind (f : α → Outcome β) : (stop >>= f) = stop := rfl

@[simp] theorem wild_bind (f : α → Outcome β) : (wild >>= f) = wild := rfl

@[simp] theorem ok_bind (a : α) (f : α → Outcome β) : (ok a >>= f) = f a := rfl

/-- Nothing has been read that is not there. -/
def Tame (x : Outcome α) : Prop := x ≠ wild

instance (x : Outcome α) : Decidable x.Tame :=
  match x with
  | stop => isTrue nofun
  | wild => isFalse fun h => h rfl
  | ok _ => isTrue nofun

@[simp] theorem tame_stop : (stop : Outcome α).Tame := nofun

@[simp] theorem not_tame_wild : ¬ (wild : Outcome α).Tame := fun h => h rfl

@[simp] theorem tame_ok (a : α) : (ok a).Tame := nofun

/-- **One call after another.** -/
theorem tame_bind {x : Outcome α} {f : α → Outcome β} :
    (x >>= f).Tame ↔ x.Tame ∧ ∀ a, x = ok a → (f a).Tame := by
  cases x with
  | stop => exact iff_of_true tame_stop ⟨tame_stop, nofun⟩
  | wild => exact iff_of_false not_tame_wild fun h => not_tame_wild h.1
  | ok a =>
    rw [ok_bind, and_iff_right (tame_ok a)]
    exact ⟨fun h b hb => ok.inj hb ▸ h, fun h => h a rfl⟩

/-- A call whose outcome is only put together with something. -/
theorem tame_bind_ok (x : Outcome α) (f : α → β) : (x >>= fun a => ok (f a)).Tame ↔ x.Tame :=
  tame_bind.trans (and_iff_left fun a _ => tame_ok (f a))

theorem bind_eq_ok {x : Outcome α} {f : α → Outcome β} {b : β} :
    (x >>= f) = ok b ↔ ∃ a, x = ok a ∧ f a = ok b := by
  cases x with
  | stop => exact iff_of_false nofun nofun
  | wild => exact iff_of_false nofun nofun
  | ok a => exact ⟨fun h => ⟨a, rfl, h⟩, fun ⟨c, hc, h⟩ => ok.inj hc ▸ h⟩

theorem forall_eq_ok {a : α} {P : α → Prop} : (∀ b, ok a = ok b → P b) ↔ P a :=
  ⟨fun h => h a rfl, fun h _ hb => ok.inj hb ▸ h⟩

end Outcome

/-! ## The file -/

/-- A byte of a file. -/
abbrev Octet := BitVec 8

/-- `tcefile_bytes`; what is in memory is not longer than a pointer can say. -/
structure TceFile where
  bytes : List Octet
  length_lt : bytes.length < 2 ^ 63

namespace TceFile

variable (overshift : BitVec 32 → BitVec 32) (file : TceFile)

/-- The byte at a place of the file. -/
def byteAt (i : ℕ) : Outcome Octet :=
  match file.bytes[i]? with
  | some b => .ok b
  | none => .wild

/-- The bytes from a place of the file on. -/
def bytesAt (ptr n : ℕ) : Outcome (List Octet) :=
  if n = 0 ∨ ptr + n ≤ file.bytes.length then .ok ((file.bytes.drop ptr).take n) else .wild

/-- `tceread_barray`: the place after the bytes. -/
def tcereadBarray (ptr : ℕ) (amount : BitVec 32) : Outcome ℕ :=
  let end' := (BitVec.ofNat 64 ptr + amount.signExtend 64).toNat
  if end' > file.bytes.length then .stop else .ok end'

/-- The bytes of a number put together. -/
def littleEndian : List Octet → BitVec 32
  | [x] => x.setWidth 32
  | [x, y] => y.setWidth 32 <<< 8 ||| x.setWidth 32
  | [x, y, z, w] =>
    w.setWidth 32 <<< 24 ||| z.setWidth 32 <<< 16 ||| y.setWidth 32 <<< 8 ||| x.setWidth 32
  | _ => 0

/-- `tceread_number`, once the length of the number has been read. -/
def numberOf (len : BitVec 32) (ptr : ℕ) : Outcome (BitVec 32 × ℕ) :=
  if len.toInt < 0 ∨ len.toInt > 4 then .stop
  else do
    let next ← file.tcereadBarray ptr len
    let xarry ← file.bytesAt ptr len.toNat
    .ok (littleEndian xarry, next)

/-- `tceread_number`, once the sign has been read.  `overshift` is what a shift by 32 or
more gives. -/
def numberFrom (n : BitVec 32) (ptr : ℕ) : Outcome (BitVec 32 × ℕ) :=
  if n.toNat ≤ 250 then .ok (n, ptr)
  else if n = 255 then .stop
  else
    file.numberOf
      (if (n - 251).toNat < 32 then 1 <<< (n - 251).toNat else overshift (n - 251)) ptr

/-- `tceread_number`: the number and the place after it. -/
def tcereadNumber (ptr : ℕ) : Outcome (BitVec 32 × ℕ) :=
  if ptr = file.bytes.length then .stop
  else do
    let ch ← file.byteAt ptr
    if ch = 255 then do
      -- a `char` has a sign here
      let ch ← file.byteAt (ptr + 1)
      let (n, next) ← file.numberFrom overshift (ch.signExtend 32) (ptr + 2)
      .ok (n ^^^ n, next)
    else file.numberFrom overshift (ch.setWidth 32) (ptr + 1)

/-! ## Numbers -/

variable {overshift file} {ptr next : ℕ} {n : BitVec 32}

theorem byteAt_eq (h : ptr < file.bytes.length) : file.byteAt ptr = .ok file.bytes[ptr] := by
  rw [byteAt, List.getElem?_eq_getElem h]

theorem byteAt_eq_wild (h : file.bytes.length ≤ ptr) : file.byteAt ptr = .wild := by
  rw [byteAt, List.getElem?_eq_none h]

theorem bytesAt_eq_ok {k : ℕ} (h : ptr + k ≤ file.bytes.length) :
    file.bytesAt ptr k = .ok ((file.bytes.drop ptr).take k) := if_pos (.inr h)

/-- **`tceread_barray`** goes on, forwards or back, within the file. -/
theorem tcereadBarray_eq (hptr : ptr ≤ file.bytes.length) (amount : BitVec 32) :
    file.tcereadBarray ptr amount =
      if 0 ≤ ptr + amount.toInt ∧ ptr + amount.toInt ≤ file.bytes.length then
        .ok (ptr + amount.toInt).toNat else .stop := by
  have hlen := file.length_lt
  have hlo := amount.le_toInt
  have hhi := amount.toInt_lt
  have hext : (amount.signExtend 64).toInt = amount.toInt :=
    BitVec.toInt_signExtend_of_le (by decide)
  have hnat := BitVec.toInt_eq_toNat_cond (amount.signExtend 64)
  have hsum : (BitVec.ofNat 64 ptr + amount.signExtend 64).toNat =
      (ptr + (amount.signExtend 64).toNat) % 2 ^ 64 := by
    rw [BitVec.toNat_add, BitVec.toNat_ofNat, Nat.mod_add_mod]
  have hlt := (amount.signExtend 64).isLt
  rw [hext] at hnat
  simp only [tcereadBarray, hsum]
  generalize (amount.signExtend 64).toNat = y at *
  generalize amount.toInt = a at *
  by_cases hin : 0 ≤ ptr + a ∧ ptr + a ≤ file.bytes.length
  · rw [if_pos hin]
    have hplace : (ptr + y) % 2 ^ 64 = (ptr + a).toNat := by omega
    rw [hplace, if_neg (by omega)]
  · rw [if_neg hin, if_pos (by omega)]

theorem tcereadBarray_tame (ptr : ℕ) (amount : BitVec 32) :
    (file.tcereadBarray ptr amount).Tame := by
  simp only [tcereadBarray]
  split_ifs
  · exact Outcome.tame_stop
  · exact Outcome.tame_ok _

/-- Where `tceread_barray` has gone. -/
theorem tcereadBarray_eq_ok {amount : BitVec 32} (hptr : ptr ≤ file.bytes.length)
    (h : file.tcereadBarray ptr amount = .ok next) :
    (next : ℤ) = ptr + amount.toInt ∧ next ≤ file.bytes.length := by
  rw [tcereadBarray_eq hptr, ite_eq_iff, or_iff_left nofun] at h
  obtain ⟨hin, h⟩ := h
  have := Outcome.ok.inj h
  omega

/-- What reads a number stays within the file. -/
def Stays (file : TceFile) (ptr : ℕ) (x : Outcome (BitVec 32 × ℕ)) : Prop :=
  x.Tame ∧ ∀ n next, x = .ok (n, next) → ptr ≤ next ∧ next ≤ file.bytes.length

theorem numberOf_stays (hptr : ptr ≤ file.bytes.length) (len : BitVec 32) :
    file.Stays ptr (file.numberOf len ptr) := by
  rw [numberOf]
  by_cases hlen : len.toInt < 0 ∨ len.toInt > 4
  · rw [if_pos hlen]
    exact ⟨Outcome.tame_stop, nofun⟩
  rw [if_neg hlen]
  have hnat : (len.toNat : ℤ) = len.toInt := by
    have := BitVec.toInt_eq_toNat_cond len
    have := len.isLt
    omega
  refine ⟨Outcome.tame_bind.mpr ⟨tcereadBarray_tame ptr len, fun q hq => ?_⟩, fun n next h => ?_⟩
  · obtain ⟨hplace, hle⟩ := tcereadBarray_eq_ok hptr hq
    rw [bytesAt_eq_ok (by omega), Outcome.ok_bind]
    exact Outcome.tame_ok _
  · obtain ⟨q, hq, h⟩ := Outcome.bind_eq_ok.mp h
    obtain ⟨hplace, hle⟩ := tcereadBarray_eq_ok hptr hq
    obtain ⟨xarry, -, h⟩ := Outcome.bind_eq_ok.mp h
    obtain ⟨-, rfl⟩ := Prod.mk.inj (Outcome.ok.inj h)
    omega

theorem numberFrom_stays (hptr : ptr ≤ file.bytes.length) (m : BitVec 32) :
    file.Stays ptr (file.numberFrom overshift m ptr) := by
  rw [numberFrom]
  by_cases hsmall : m.toNat ≤ 250
  · rw [if_pos hsmall]
    refine ⟨Outcome.tame_ok _, fun n next h => ?_⟩
    obtain ⟨-, rfl⟩ := Prod.mk.inj (Outcome.ok.inj h)
    exact ⟨le_rfl, hptr⟩
  rw [if_neg hsmall]
  by_cases hsign : m = 255
  · rw [if_pos hsign]
    exact ⟨Outcome.tame_stop, nofun⟩
  rw [if_neg hsign]
  exact numberOf_stays hptr _

/-- The file ends between the sign of a number and the number. -/
def CutAt (file : TceFile) (ptr : ℕ) : Prop :=
  file.bytes[ptr]? = some 255 ∧ ptr + 1 = file.bytes.length

instance (file : TceFile) (ptr : ℕ) : Decidable (file.CutAt ptr) :=
  inferInstanceAs (Decidable (_ ∧ _))

/-- **A number** is read within the file exactly where the file goes on after its sign. -/
theorem tcereadNumber_tame_iff (hptr : ptr ≤ file.bytes.length) :
    (file.tcereadNumber overshift ptr).Tame ↔ ¬ file.CutAt ptr := by
  rw [tcereadNumber]
  by_cases hend : ptr = file.bytes.length
  · rw [if_pos hend]
    exact iff_of_true Outcome.tame_stop fun h => by have := h.2; omega
  rw [if_neg hend]
  have hlt : ptr < file.bytes.length := lt_of_le_of_ne hptr hend
  rw [byteAt_eq hlt, Outcome.ok_bind]
  by_cases hsign : file.bytes[ptr] = 255
  · rw [if_pos hsign]
    by_cases hcut : ptr + 1 = file.bytes.length
    · rw [byteAt_eq_wild hcut.ge]
      exact iff_of_false Outcome.not_tame_wild
        (not_not.mpr ⟨by rw [List.getElem?_eq_getElem hlt, hsign], hcut⟩)
    · rw [byteAt_eq (lt_of_le_of_ne hlt hcut), Outcome.ok_bind]
      refine iff_of_true (Outcome.tame_bind.mpr ⟨?_, fun a _ => Outcome.tame_ok _⟩) fun h =>
        hcut h.2
      exact (numberFrom_stays (by omega) _).1
  · rw [if_neg hsign]
    refine iff_of_true (numberFrom_stays hlt _).1 fun h => hsign ?_
    rw [CutAt, List.getElem?_eq_getElem hlt] at h
    exact Option.some.inj h.1

/-- A number is read forwards. -/
theorem tcereadNumber_bounds (hptr : ptr ≤ file.bytes.length)
    (h : file.tcereadNumber overshift ptr = .ok (n, next)) :
    ptr < next ∧ next ≤ file.bytes.length := by
  rw [tcereadNumber, ite_eq_iff, or_iff_right nofun] at h
  obtain ⟨hend, h⟩ := h
  have hlt : ptr < file.bytes.length := lt_of_le_of_ne hptr hend
  rw [byteAt_eq hlt, Outcome.ok_bind, ite_eq_iff] at h
  obtain ⟨-, h⟩ | ⟨-, h⟩ := h
  · obtain ⟨c, hc, h⟩ := Outcome.bind_eq_ok.mp h
    have hcut : ptr + 1 < file.bytes.length := by
      by_contra hge
      rw [byteAt_eq_wild (not_lt.mp hge)] at hc
      exact absurd hc nofun
    obtain ⟨⟨m, q⟩, hm, h⟩ := Outcome.bind_eq_ok.mp h
    obtain ⟨-, rfl⟩ := Prod.mk.inj (Outcome.ok.inj h)
    have := (numberFrom_stays hcut _).2 _ _ hm
    omega
  · have := (numberFrom_stays hlt _).2 _ _ h
    omega

end TceFile

end Tranx86

end Kroc
