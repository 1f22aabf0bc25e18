import Kroc.Slinker.DecodeIns
import Kroc.Slinker.Table

/-!
# Slinker/PrefixPatching — padding that is jumped over

`prefix-patching` of `slinker/code-output.ss`, which overwrites the first byte of a padded entry
with a `j` behind the padding.  How much padding there is, it counts in bytes that are a zero
prefix, and an operand has such bytes too.
-/

open Prefix

namespace Kroc

namespace Slinker

/-! ## The pass -/

/-- An `'abbreviation` of an `Instruction-meta`; `other` is any but the `things`. -/
inductive Abbreviation
  | j
  | cj
  | call
  | stubname
  | loadLabel
  | loadLabelDifference
  | other
  deriving DecidableEq

/-- `things` -/
def things : List Abbreviation := [.j, .cj, .call, .stubname, .loadLabel, .loadLabelDifference]

/-- An entry with what the pass reads of its `Instruction-meta`. -/
structure Abbreviated where
  abbreviation : Abbreviation
  entry : Entry
  deriving DecidableEq

/-- `unadjusted-offset` -/
def unadjustedOffset (value : List ℕ) : ℕ :=
  value.foldl (fun count x => if 0x20 = x then count + 1 else count) 0

/-- The bytes that `set-binary-value!` is given, if it is. -/
def patchedValue (ws : ℕ) (value : List ℕ) : List ℕ :=
  if unadjustedOffset value > 2 then
    prefixing ws j ((unadjustedOffset value : ℤ) - 2) ++ value.tail
  else value

/-- What `prefix-patching` does at a key. -/
def prefixPatch (ws : ℕ) (v : Abbreviated) : Abbreviated :=
  match v.entry with
  | .binary value =>
    if value.length ≥ 8 ∧ v.abbreviation ∈ things then
      { v with entry := .binary (patchedValue ws value) }
    else v
  | _ => v

/-- `prefix-patching`, which changes an entry by what that entry is. -/
def prefixPatching (ws : ℕ) (h : List Abbreviated) : List Abbreviated := h.map (prefixPatch ws)

/-! ## What is padded -/

/-- The entries that the passes before this one pad: `jumps2binary`, for jumps and for stubs that
have become jumps, `expand-ffi-stubnames` and `load-labels2binary`. -/
inductive Thing
  | jump (fn : JumpFn)
  | ffiStubname
  | loadLabel
  | loadLabelDifference
  deriving DecidableEq

namespace Thing

def abbreviation : Thing → Abbreviation
  | jump .j => .j
  | jump .cj => .cj
  | jump .call => .call
  | ffiStubname => .stubname
  | loadLabel => .loadLabel
  | loadLabelDifference => .loadLabelDifference

/-- The function that is padded. -/
def fn : Thing → ℕ
  | jump fn => fn.code
  | ffiStubname | loadLabel | loadLabelDifference => ldc

/-- The instruction behind it. -/
def rest (ws : ℕ) : Thing → List ℕ
  | jump _ | loadLabelDifference => []
  | ffiStubname => prefixing ws op fficall
  | loadLabel => prefixing ws op ldpi

/-- The bytes of an entry. -/
def value (ws : ℕ) (t : Thing) (opd : ℤ) (padAmount : ℕ) : Option (List ℕ) :=
  (pad (prefixing ws t.fn opd) padAmount).map (· ++ t.rest ws)

theorem abbreviation_mem (t : Thing) : t.abbreviation ∈ things := by
  cases t with
  | jump fn => cases fn <;> decide
  | ffiStubname | loadLabel | loadLabelDifference => decide

theorem fn_ne (t : Thing) : t.fn ≠ 2 ∧ t.fn ≠ 6 := by
  cases t with
  | jump fn => exact fn.code_ne
  | ffiStubname | loadLabel | loadLabelDifference => decide

end Thing

/-! ## What the machine performs -/

/-- The instruction at a position of some bytes: its function, its operand, and where the next one
is. -/
def fetch (ws : ℕ) (bytes : List ℕ) (pos : ℕ) : Option (ℕ × BitVec (8 * ws) × ℕ) :=
  ((Reader.word (8 * ws)).decode 0 (bytes.drop pos)).map fun (fn, oreg, rest) =>
    (fn, oreg, bytes.length - rest.length)

/-- One instruction of a program that is at `base`. -/
def stepAt {ws : ℕ} (bytes : List ℕ) (base : BitVec (8 * ws)) (r : Regs (8 * ws)) :
    Option (Regs (8 * ws)) :=
  match fetch ws bytes (r.iptr - base).toNat with
  | none => none
  | some (fn, oreg, next) => effect fn oreg { r with iptr := base + BitVec.ofNat _ next }

/-- An instruction is performed from the first byte, at once or behind a `j`. -/
def Performs (ws : ℕ) (bytes : List ℕ) (i : ℕ × BitVec (8 * ws) × ℕ) : Prop :=
  fetch ws bytes 0 = some i ∨ ∃ oreg next, fetch ws bytes 0 = some (j, oreg, next) ∧
    fetch ws bytes (BitVec.ofNat _ next + oreg).toNat = some i

variable {ws fn p n : ℕ} {opd : ℤ} {bytes suffix value : List ℕ}

/-- **A `j` leaves everything but `iptr`**, so that what is performed has its whole effect. -/
theorem stepAt_of_performs {old : List ℕ} {i : ℕ × BitVec (8 * ws) × ℕ}
    (hold : fetch ws old 0 = some i) (h : Performs ws bytes i) (base : BitVec (8 * ws))
    {r : Regs (8 * ws)} (hr : r.iptr = base) : stepAt bytes base r = stepAt old base r ∨
      ∃ iptr, stepAt bytes base r = some { r with iptr := iptr } ∧
        stepAt bytes base { r with iptr := iptr } = stepAt old base r := by
  have hzero : (r.iptr - base).toNat = 0 := by rw [hr, BitVec.sub_self]; rfl
  rcases h with h | ⟨oreg, next, hj, h⟩
  · left
    rw [stepAt, stepAt, hzero, h, hold]
  · right
    refine ⟨base + BitVec.ofNat _ next + oreg, ?_, ?_⟩
    · rw [stepAt, hzero, hj]
      rfl
    · have hpos : base + BitVec.ofNat _ next + oreg - base = BitVec.ofNat _ next + oreg := by
        rw [BitVec.add_assoc, BitVec.add_comm, BitVec.add_sub_cancel]
      rw [stepAt, stepAt, hzero, hold]
      dsimp only
      rw [hpos, h]

/-! ## Counting -/

theorem unadjustedOffset_eq (value : List ℕ) : unadjustedOffset value = value.count 0x20 := by
  have hfold : ∀ m, value.foldl (fun count x => if 0x20 = x then count + 1 else count) m =
      m + value.count 0x20 := by
    induction value with
    | nil => exact fun m => rfl
    | cons x xs ih =>
      intro m
      rw [List.foldl_cons, ih, List.count_cons]
      split_ifs with h h' h'
      · omega
      · exact absurd (beq_iff_eq.mpr h.symm) h'
      · exact absurd (beq_iff_eq.mp h').symm h
      · omega
  rw [unadjustedOffset, hfold, Nat.zero_add]

/-- No instruction behind the padded one has a zero prefix. -/
theorem Thing.count_rest (hws : 0 < ws) (t : Thing) : (t.rest ws).count 0x20 = 0 := by
  have hmax : (0x25 : ℤ) ≤ 2 ^ (8 * ws - 1) := by
    calc (0x25 : ℤ) ≤ 2 ^ 7 := by decide
      _ ≤ 2 ^ (8 * ws - 1) := pow_le_pow_right₀ (by decide) (by omega)
  have htwo : ∀ d : ℤ, 16 ≤ d → d ≤ 0x25 → prefixing ws op d =
      [pfix <<< 4 ||| (d / 16).toNat, op <<< 4 ||| (d % 16).toNat] := by
    intro d hlow hhigh
    have hadjust : ∀ n : ℤ, n ≤ 0x25 → adjust ws n = n := fun n hn => if_neg (by omega)
    rw [prefixing, hadjust d hhigh]
    dsimp only
    rw [if_neg (by omega), if_neg (by omega), prefixing, hadjust _ (by omega)]
    dsimp only
    rw [if_pos (by omega)]
    rfl
  cases t with
  | jump fn | loadLabelDifference => rfl
  | ffiStubname =>
    rw [Thing.rest, htwo fficall (by decide) (by decide)]
    decide
  | loadLabel =>
    rw [Thing.rest, htwo ldpi (by decide) (by decide)]
    decide

/-- The last byte of an instruction is no zero prefix, so there is a byte for each and one more. -/
theorem count_prefixing_lt (hws : 0 < ws) (hfn : fn ≠ 2 ∧ fn ≠ 6) (opd : ℤ) :
    (prefixing ws fn opd).count 0x20 < (prefixing ws fn opd).length := by
  obtain ⟨ps, d, hd, hbytes, -, -⟩ := prefixing_eq hws fn opd
  have hlast : ([16 * fn + d] : List ℕ).count 0x20 = 0 := by
    rw [List.count_eq_zero, List.mem_singleton]
    omega
  have hle := List.count_le_length (a := 0x20) (l := ps)
  rw [hbytes, List.count_append, hlast, List.length_append, List.length_singleton]
  omega

/-! ## Fetching -/

theorem fetch_append (pre bytes : List ℕ) : fetch ws (pre ++ bytes) pre.length =
    ((Reader.word (8 * ws)).decode 0 bytes).map fun (fn, oreg, rest) =>
      (fn, oreg, pre.length + bytes.length - rest.length) := by
  rw [fetch, List.drop_left, List.length_append]

/-- **A padded instruction is fetched** from any of its padding. -/
theorem fetch_padded (hws : 0 < ws) (hfn : fn ≠ 2 ∧ fn ≠ 6) (m : ℕ) (opd : ℤ)
    (pre suffix : List ℕ) :
    fetch ws (pre ++ (List.replicate m (pfix <<< 4) ++ prefixing ws fn opd ++ suffix)) pre.length =
      some (fn, BitVec.ofInt _ opd, pre.length + (m + (prefixing ws fn opd).length)) := by
  rw [fetch_append, decode_prefixing hws hfn, Option.map_some]
  dsimp only
  rw [List.length_append, ← Nat.add_assoc, Nat.add_sub_cancel, List.length_append,
    List.length_replicate]

/-- **From inside its operand another instruction is fetched.** -/
theorem le_of_fetch_drop (hws : 0 < ws) (hfn : fn ≠ 2 ∧ fn ≠ 6) (hopd : IsOperand ws opd) {m : ℕ}
    (hm : m < (prefixing ws fn opd).length) {pre : List ℕ} {next : ℕ}
    (h : fetch ws (pre ++ ((prefixing ws fn opd).drop m ++ suffix)) pre.length =
      some (fn, BitVec.ofInt _ opd, next)) : m = 0 := by
  obtain ⟨ps, d, hd, hbytes, hps, -⟩ := prefixing_eq hws fn opd
  have hlen : (prefixing ws fn opd).length = ps.length + 1 := by
    rw [hbytes, List.length_append, List.length_singleton]
  have hdrop : (prefixing ws fn opd).drop m = ps.drop m ++ [16 * fn + d] := by
    rw [hbytes, List.drop_append_of_le_length (by omega)]
  have hprefix : ∀ p ∈ ps.drop m, IsPrefix p := fun p hp => hps p (List.mem_of_mem_drop hp)
  have hdecode : ∀ rest, decode 0 ((prefixing ws fn opd).drop m ++ rest) =
      some (fn, (ps.drop m).foldl shift 0 + d, rest) := fun rest => by
    rw [hdrop, List.append_assoc, decode_prefixes hprefix, List.singleton_append,
      decode_last hfn hd]
  have hread := (Reader.word_reads (8 * ws)).decode 0 ((prefixing ws fn opd).drop m ++ suffix)
  have hzero : BitVec.ofInt (8 * ws) 0 = 0 := rfl
  rw [mul_zero, hzero, hdecode, Option.map_some] at hread
  rw [fetch_append, hread, Option.map_some] at h
  have hval : BitVec.ofInt (8 * ws) ((ps.drop m).foldl shift 0 + d) = BitVec.ofInt _ opd :=
    (Prod.mk.inj (Prod.mk.inj (Option.some.inj h)).2).1
  have hall := hdecode []
  rw [List.append_nil] at hall
  have hshort := length_prefixing_le_of_decode hws hopd hall (ofInt_eq_iff.mp hval)
  rw [List.length_drop] at hshort
  omega

/-! ## Patching -/

/-- **What patching should keep.** -/
structure Preserved (ws : ℕ) (old new : List ℕ) : Prop where
  length_eq : new.length = old.length
  performs : ∀ i, fetch ws old 0 = some i → Performs ws new i

theorem preserved_refl (ws : ℕ) (old : List ℕ) : Preserved ws old old := ⟨rfl, fun _ h => Or.inl h⟩

/-- A `j` of one byte. -/
theorem prefixing_j {n : ℤ} (h : 0 ≤ n) (h' : n < 16) (hws : 0 < ws) :
    prefixing ws j n = [n.toNat] := by
  have hmax : (16 : ℤ) ≤ 2 ^ (8 * ws - 1) := by
    calc (16 : ℤ) ≤ 2 ^ 7 := by decide
      _ ≤ 2 ^ (8 * ws - 1) := pow_le_pow_right₀ (by decide) (by omega)
  have hadjust : adjust ws n = n := if_neg (by omega)
  rw [prefixing, hadjust]
  dsimp only
  rw [if_pos ⟨h, h'⟩, shiftLeft_or j (by omega), j, mul_zero, Nat.zero_add]

/-- Only the offsets of a nibble have a `j` of one byte. -/
theorem lt_of_length_prefixing_j {n : ℤ} (h : 0 ≤ n) (hmax : n < 2 ^ (8 * ws))
    (hlen : (prefixing ws j n).length = 1) : n < 16 := by
  rw [prefixing] at hlen
  dsimp only at hlen
  split_ifs at hlen with hsmall hneg
  · unfold adjust at hsmall
    split_ifs at hsmall <;> omega
  · rw [List.length_append, List.length_singleton] at hlen
    exact absurd (List.length_eq_zero_iff.mp (Nat.add_eq_right.mp hlen)) (prefixing_ne_nil _ _ _)
  · rw [List.length_append, List.length_singleton] at hlen
    exact absurd (List.length_eq_zero_iff.mp (Nat.add_eq_right.mp hlen)) (prefixing_ne_nil _ _ _)

/-- **Patching keeps the meaning** exactly where the entry has no more than two zero prefixes, or no
more than seventeen and all but one of them are padding. -/
theorem preserved_patchedValue_iff (hws : 0 < ws) (hfn : fn ≠ 2 ∧ fn ≠ 6)
    (hopd : IsOperand ws opd) (p : ℕ) (hsuffix : suffix.count 0x20 = 0)
    (hvalue : List.replicate p (pfix <<< 4) ++ prefixing ws fn opd ++ suffix = value)
    (hfits : value.length < 2 ^ (8 * ws)) : Preserved ws value (patchedValue ws value) ↔
      value.count 0x20 ≤ 2 ∨ (value.count 0x20 ≤ 17 ∧ (prefixing ws fn opd).count 0x20 ≤ 1) := by
  have hcount : value.count 0x20 = p + (prefixing ws fn opd).count 0x20 := by
    rw [← hvalue, List.count_append, List.count_append, hsuffix, Nat.add_zero]
    exact congrArg (· + _) List.count_replicate_self
  have hlength : value.length = p + (prefixing ws fn opd).length + suffix.length := by
    rw [← hvalue, List.length_append, List.length_append, List.length_replicate]
  have hold : fetch ws value 0 =
      some (fn, BitVec.ofInt _ opd, p + (prefixing ws fn opd).length) := by
    have := fetch_padded hws hfn p opd [] suffix
    rwa [hvalue, List.nil_append, List.length_nil, Nat.zero_add] at this
  have hz := count_prefixing_lt hws hfn opd
  by_cases hfew : value.count 0x20 ≤ 2
  · have hsame : patchedValue ws value = value := if_neg (by rw [unadjustedOffset_eq]; omega)
    rw [hsame]
    exact iff_of_true (preserved_refl ws value) (Or.inl hfew)
  obtain ⟨c, hc⟩ : ∃ c, value.count 0x20 = c + 2 := ⟨_, (Nat.sub_add_cancel (by omega)).symm⟩
  have hpatched : patchedValue ws value = prefixing ws j c ++ value.tail := by
    rw [patchedValue, unadjustedOffset_eq, if_pos (by omega), hc]
    congr 2
    push_cast
    ring
  have hne : value ≠ [] := fun h => by rw [h] at hfew; exact hfew (Nat.zero_le _)
  have hlen : (patchedValue ws value).length + 1 = (prefixing ws j c).length + value.length := by
    have := List.length_pos_iff.mpr hne
    rw [hpatched, List.length_append, List.length_tail]
    omega
  have hcsmall : ((c : ℕ) : ℤ) < 2 ^ (8 * ws) := by
    have : c < 2 ^ (8 * ws) := by omega
    exact_mod_cast this
  by_cases hnibble : c < 16
  swap
  · refine iff_of_false (fun h => ?_) (by omega)
    have hone : (prefixing ws j c).length = 1 := by
      have := h.length_eq
      omega
    have := lt_of_length_prefixing_j (Int.natCast_nonneg c) hcsmall hone
    omega
  have hj : prefixing ws j c = [c] := prefixing_j (Int.natCast_nonneg c) (by omega) hws
  have hfirst : fetch ws (patchedValue ws value) 0 = some (j, BitVec.ofInt _ c, 1) := by
    have := fetch_padded hws (by decide : j ≠ 2 ∧ j ≠ 6) 0 c [] value.tail
    rwa [List.replicate_zero, List.nil_append, List.nil_append, ← hpatched, List.length_nil,
      hj] at this
  have hland : (BitVec.ofNat (8 * ws) 1 + BitVec.ofInt _ (c : ℤ)).toNat = c + 1 := by
    rw [BitVec.ofInt_natCast, ← BitVec.ofNat_add, BitVec.toNat_ofNat, Nat.add_comm]
    exact Nat.mod_eq_of_lt (by omega)
  have hlater : ∀ pre post, value = pre ++ post → pre.length = c + 1 →
      fetch ws (patchedValue ws value) (c + 1) = fetch ws (pre ++ post) pre.length := by
    intro pre post hsplit hpre
    obtain ⟨b, pre, rfl⟩ := List.exists_cons_of_length_eq_add_one hpre
    rw [hpatched, hj, hsplit, ← hpre]
    exact (fetch_append (c :: pre) post).trans (fetch_append (b :: pre) post).symm
  constructor
  · intro h
    refine Or.inr ⟨by omega, ?_⟩
    by_contra hmany
    obtain hp | ⟨oreg, next, hp, hq⟩ := h.performs _ hold
    · rw [hfirst] at hp
      have hnext : 1 = p + (prefixing ws fn opd).length :=
        (Prod.mk.inj (Prod.mk.inj (Option.some.inj hp)).2).2
      omega
    · rw [hfirst] at hp
      cases hp
      rw [hland, hlater (List.replicate p (pfix <<< 4) ++
        (prefixing ws fn opd).take ((prefixing ws fn opd).count 0x20 - 1))
        ((prefixing ws fn opd).drop ((prefixing ws fn opd).count 0x20 - 1) ++ suffix) ?_ ?_] at hq
      · have := le_of_fetch_drop hws hfn hopd (by omega) hq
        omega
      · rw [← hvalue, List.append_assoc, List.append_assoc, ← List.append_assoc (List.take _ _),
          List.take_append_drop]
      · rw [List.length_append, List.length_replicate, List.length_take]
        omega
  · rintro (h | ⟨-, hfew'⟩)
    · exact absurd h hfew
    · refine ⟨by rw [hj, List.length_singleton] at hlen; omega, fun i hi => ?_⟩
      rw [hold] at hi
      cases hi
      refine Or.inr ⟨_, _, hfirst, ?_⟩
      have hsplit : List.replicate p (pfix <<< 4) =
          List.replicate (c + 1) (pfix <<< 4) ++ List.replicate (p - (c + 1)) (pfix <<< 4) := by
        rw [List.replicate_append_replicate]
        congr 1
        omega
      rw [hland, hlater (List.replicate (c + 1) (pfix <<< 4))
        (List.replicate (p - (c + 1)) (pfix <<< 4) ++ prefixing ws fn opd ++ suffix)
        (by rw [← hvalue, hsplit, List.append_assoc, List.append_assoc, List.append_assoc])
        List.length_replicate, fetch_padded hws hfn, List.length_replicate]
      congr 3
      omega

theorem prefixPatching_getElem? {h : List Abbreviated} {k : ℕ} {t : Thing}
    (hk : h[k]? = some ⟨t.abbreviation, .binary value⟩) (height : 8 ≤ value.length) :
    (prefixPatching ws h)[k]? = some ⟨t.abbreviation, .binary (patchedValue ws value)⟩ := by
  rw [prefixPatching, List.getElem?_map, hk, Option.map_some, prefixPatch]
  dsimp only
  rw [if_pos ⟨height, t.abbreviation_mem⟩]

/-- **In any table**, at any entry that the linker has padded. -/
theorem prefixPatching_iff (hws : 0 < ws) (t : Thing) (hopd : IsOperand ws opd) {padAmount : ℕ}
    (hvalue : t.value ws opd padAmount = some value) (height : 8 ≤ value.length)
    (hfits : value.length < 2 ^ (8 * ws)) {h : List Abbreviated} {k : ℕ}
    (hk : h[k]? = some ⟨t.abbreviation, .binary value⟩) :
    (∃ new, (prefixPatching ws h)[k]? = some ⟨t.abbreviation, .binary new⟩ ∧
      Preserved ws value new) ↔
      value.count 0x20 ≤ 2 ∨
        (value.count 0x20 ≤ 17 ∧ (prefixing ws t.fn opd).count 0x20 ≤ 1) := by
  have hget : (prefixPatching ws h)[k]? = _ := prefixPatching_getElem? hk height
  have hshape : List.replicate (padAmount - (prefixing ws t.fn opd).length) (pfix <<< 4) ++
      prefixing ws t.fn opd ++ t.rest ws = value := by
    unfold Thing.value pad at hvalue
    split_ifs at hvalue
    · exact Option.some.inj hvalue
    · cases hvalue
  rw [← preserved_patchedValue_iff hws t.fn_ne hopd _ (t.count_rest hws) hshape hfits]
  constructor
  · rintro ⟨new, hnew, hpreserved⟩
    rw [hget] at hnew
    cases hnew
    exact hpreserved
  · exact fun h => ⟨_, hget, h⟩

theorem prefixing_4096 : prefixing 4 j 0x1000 = [0x21, 0x20, 0x20, 0x00] := by
  simp [prefixing, adjust, pfix, j]

/-- A padded `j` without a zero nibble: the patched entry is performed as the entry was. -/
theorem prefixPatching_jump : ∃ new, (prefixPatching 4
    [⟨.j, .binary [0x20, 0x20, 0x20, 0x20, 0x21, 0x23, 0x24, 0x05]⟩])[0]? =
      some ⟨.j, .binary new⟩ ∧
    Preserved 4 [0x20, 0x20, 0x20, 0x20, 0x21, 0x23, 0x24, 0x05] new := by
  have hbytes : prefixing 4 j 0x1345 = [0x21, 0x23, 0x24, 0x05] := by
    simp [prefixing, adjust, pfix, j]
  have hvalue : (Thing.jump .j).value 4 0x1345 8 =
      some [0x20, 0x20, 0x20, 0x20, 0x21, 0x23, 0x24, 0x05] := by
    change (pad (prefixing 4 j 0x1345) 8).map (· ++ []) = _
    rw [hbytes]
    rfl
  refine (prefixPatching_iff (by decide) (.jump .j) (by decide) hvalue (by decide) (by decide)
    rfl).mpr (.inr ⟨by decide, ?_⟩)
  · change (prefixing 4 j 0x1345).count 0x20 ≤ 1
    rw [hbytes]
    decide

/-- A `j` over 4096 bytes: its two zero nibbles are taken for padding, and the patch jumps to the
second of them. -/
theorem not_preserved_jump : ∃ value new, (Thing.jump .j).value 4 0x1000 8 = some value ∧
    8 ≤ value.length ∧ prefixPatching 4 [⟨.j, .binary value⟩] = [⟨.j, .binary new⟩] ∧
      ¬ Preserved 4 value new := by
  refine ⟨[0x20, 0x20, 0x20, 0x20, 0x21, 0x20, 0x20, 0x00],
    [0x04, 0x20, 0x20, 0x20, 0x21, 0x20, 0x20, 0x00], ?_, by decide, ?_, fun h => ?_⟩
  · change (pad (prefixing 4 j 0x1000) 8).map (· ++ []) = _
    rw [prefixing_4096]
    rfl
  · have hfour : prefixing 4 j 4 = [0x04] := by simp [prefixing, adjust, j]
    change [Abbreviated.mk .j (.binary (prefixing 4 j 4 ++ _))] = _
    rw [hfour]
    rfl
  · obtain hp | ⟨oreg, next, hp, hq⟩ := h.performs (0, 0x1000, 8) (by decide)
    · exact absurd hp (by decide)
    · have hj : fetch 4 [0x04, 0x20, 0x20, 0x20, 0x21, 0x20, 0x20, 0x00] 0 = some (0, 4, 1) := by
        decide
      rw [hj] at hp
      cases hp
      exact absurd hq (by decide)

end Slinker

end Kroc
