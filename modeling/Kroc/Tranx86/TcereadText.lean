import Kroc.Tranx86.Tceread

/-!
# Tranx86/TcereadText — the texts of ETC files

The loops of `tceread_nextblocks` over a text, and over the length of a string in it, which is built
without a look at how long the text is.
-/

namespace Kroc

namespace Tranx86

/-! ## The loops -/

/-- `I_PFIX` -/
def iPfix : ℕ := 0x02

/-- `I_LDC` -/
def iLdc : ℕ := 0x04

/-- `I_NFIX` -/
def iNfix : ℕ := 0x06

/-- `I_OPR` -/
def iOpr : ℕ := 0x0f

/-- The function of a byte of code. -/
def Octet.fn (ch : Octet) : ℕ := (ch >>> 4).toNat

/-- The operand of a byte of code. -/
def Octet.low (ch : Octet) : BitVec 32 := (ch &&& 0x0f).setWidth 32

/-- `ETCS1` to `ETCS12`: a string follows. -/
def IsSpecial (opd : BitVec 32) : Prop := 0xffffff11 ≤ opd.toNat ∧ opd.toNat ≤ 0xffffff1c

instance (opd : BitVec 32) : Decidable (IsSpecial opd) := inferInstanceAs (Decidable (_ ∧ _))

/-- `etc_chain`, without the link. -/
structure EtcChain where
  fn : ℕ
  opd : BitVec 32
  oBytes : List Octet
  oLen : BitVec 32
  deriving DecidableEq

namespace TceFile

variable (file : TceFile)

/-- The loop of `tceread_nextblocks` that builds the length of a string, where the text has
`textlen` bytes from `code` on. -/
def buildLength (code textlen i : ℕ) (nlen : BitVec 32) : Outcome (BitVec 32 × ℕ) :=
  if i < textlen then do
    let lch ← file.byteAt (code + i)
    let nlen := nlen ||| lch.low
    if lch.fn = iPfix then buildLength code textlen (i + 1) (nlen <<< 4)
    else if lch.fn = iLdc then .ok (nlen, i + 1)
    else .stop
  -- the code reads on without a look at `textlen`
  else .wild
termination_by textlen - i

/-- The string of a special operation: its length, its bytes and the place after it. -/
def embedded (code textlen i : ℕ) : Outcome (BitVec 32 × List Octet × ℕ) := do
  let (nlen, i) ← file.buildLength code textlen i 0
  -- `smalloc` has no memory of a negative size
  if (nlen + 4).toInt < 0 then .stop
  -- `memcpy`
  else if nlen.toInt < 0 ∨ textlen < i + nlen.toNat then .wild
  else do
    let oBytes ← file.bytesAt (code + i) nlen.toNat
    .ok (nlen, oBytes, i + nlen.toNat)

/-- The loop of `tceread_nextblocks` over a text. -/
def textLoop (code textlen : ℕ) : ℕ → ℕ → BitVec 32 → Outcome (List EtcChain)
  | 0, _, _ => .ok []
  | fuel + 1, i, opd =>
    if i < textlen then do
      let ch ← file.byteAt (code + i)
      let opd := opd ||| ch.low
      if ch.fn = iPfix then textLoop code textlen fuel (i + 1) (opd <<< 4)
      else if ch.fn = iNfix then textLoop code textlen fuel (i + 1) (~~~opd <<< 4)
      else if ch.fn = iOpr ∧ IsSpecial opd then do
        let (nlen, oBytes, i) ← file.embedded code textlen (i + 1)
        let rest ← textLoop code textlen fuel i 0
        .ok (⟨ch.fn, opd, oBytes, nlen⟩ :: rest)
      else do
        let rest ← textLoop code textlen fuel (i + 1) 0
        .ok (⟨ch.fn, opd, [], 0⟩ :: rest)
    else .ok []

end TceFile

/-! ## Texts that stay within themselves -/

/-- What a text has for the length of a string. -/
inductive LengthCode
  | cut
  | bad
  | coded (nlen : BitVec 32) (rest : List Octet)

/-- The length of a string: prefixes, and a constant that is loaded. -/
def lengthCode (nlen : BitVec 32) : List Octet → LengthCode
  | [] => .cut
  | lch :: rest =>
    if lch.fn = iPfix then lengthCode ((nlen ||| lch.low) <<< 4) rest
    else if lch.fn = iLdc then .coded (nlen ||| lch.low) rest
    else .bad

/-- The next byte is that of a special operation. -/
def Special (opd : BitVec 32) (ch : Octet) : Prop := ch.fn = iOpr ∧ IsSpecial (opd ||| ch.low)

instance (opd : BitVec 32) (ch : Octet) : Decidable (Special opd ch) :=
  inferInstanceAs (Decidable (_ ∧ _))

/-- **A text stays within itself**: the length of the string of every special operation is there,
and the string too, up to a length that stops the program. -/
inductive Enclosed : BitVec 32 → List Octet → Prop
  | nil (opd : BitVec 32) : Enclosed opd []
  | pfix {opd : BitVec 32} {ch : Octet} {rest : List Octet} (hfn : ch.fn = iPfix)
      (h : Enclosed ((opd ||| ch.low) <<< 4) rest) : Enclosed opd (ch :: rest)
  | nfix {opd : BitVec 32} {ch : Octet} {rest : List Octet} (hfn : ch.fn = iNfix)
      (h : Enclosed (~~~(opd ||| ch.low) <<< 4) rest) : Enclosed opd (ch :: rest)
  | plain {opd : BitVec 32} {ch : Octet} {rest : List Octet} (hpfix : ch.fn ≠ iPfix)
      (hnfix : ch.fn ≠ iNfix) (hspecial : ¬ Special opd ch) (h : Enclosed 0 rest) :
      Enclosed opd (ch :: rest)
  | bad {opd : BitVec 32} {ch : Octet} {rest : List Octet} (hspecial : Special opd ch)
      (hcode : lengthCode 0 rest = .bad) : Enclosed opd (ch :: rest)
  | huge {opd nlen : BitVec 32} {ch : Octet} {rest tail : List Octet} (hspecial : Special opd ch)
      (hcode : lengthCode 0 rest = .coded nlen tail) (hhuge : (nlen + 4).toInt < 0) :
      Enclosed opd (ch :: rest)
  | string {opd nlen : BitVec 32} {ch : Octet} {rest tail : List Octet} (hspecial : Special opd ch)
      (hcode : lengthCode 0 rest = .coded nlen tail) (hpos : 0 ≤ nlen.toInt)
      (hlen : nlen.toNat ≤ tail.length) (h : Enclosed 0 (tail.drop nlen.toNat)) :
      Enclosed opd (ch :: rest)

section

variable {opd : BitVec 32} {ch : Octet} {rest : List Octet}

theorem Special.fn_ne (h : Special opd ch) : ch.fn ≠ iPfix ∧ ch.fn ≠ iNfix := by
  rw [h.1]
  decide

theorem enclosed_pfix_iff (hfn : ch.fn = iPfix) :
    Enclosed opd (ch :: rest) ↔ Enclosed ((opd ||| ch.low) <<< 4) rest := by
  refine ⟨fun h => ?_, .pfix hfn⟩
  cases h with
  | pfix _ h => exact h
  | nfix hnfix _ => exact absurd (hfn.symm.trans hnfix) (by decide)
  | plain hpfix _ _ _ => exact absurd hfn hpfix
  | bad hspecial _ => exact absurd hfn hspecial.fn_ne.1
  | huge hspecial _ _ => exact absurd hfn hspecial.fn_ne.1
  | string hspecial _ _ _ _ => exact absurd hfn hspecial.fn_ne.1

theorem enclosed_nfix_iff (hfn : ch.fn = iNfix) :
    Enclosed opd (ch :: rest) ↔ Enclosed (~~~(opd ||| ch.low) <<< 4) rest := by
  refine ⟨fun h => ?_, .nfix hfn⟩
  cases h with
  | pfix hpfix _ => exact absurd (hfn.symm.trans hpfix) (by decide)
  | nfix _ h => exact h
  | plain _ hnfix _ _ => exact absurd hfn hnfix
  | bad hspecial _ => exact absurd hfn hspecial.fn_ne.2
  | huge hspecial _ _ => exact absurd hfn hspecial.fn_ne.2
  | string hspecial _ _ _ _ => exact absurd hfn hspecial.fn_ne.2

theorem enclosed_plain_iff (hpfix : ch.fn ≠ iPfix) (hnfix : ch.fn ≠ iNfix)
    (hplain : ¬ Special opd ch) : Enclosed opd (ch :: rest) ↔ Enclosed 0 rest := by
  refine ⟨fun h => ?_, .plain hpfix hnfix hplain⟩
  cases h with
  | pfix hfn _ => exact absurd hfn hpfix
  | nfix hfn _ => exact absurd hfn hnfix
  | plain _ _ _ h => exact h
  | bad hspecial _ => exact absurd hspecial hplain
  | huge hspecial _ _ => exact absurd hspecial hplain
  | string hspecial _ _ _ _ => exact absurd hspecial hplain

/-- **A special operation** in a text that stays within itself. -/
theorem enclosed_special_iff (hspecial : Special opd ch) : Enclosed opd (ch :: rest) ↔
    match lengthCode 0 rest with
    | .cut => False
    | .bad => True
    | .coded n tail => (n + 4).toInt < 0 ∨
      (0 ≤ n.toInt ∧ n.toNat ≤ tail.length) ∧ Enclosed 0 (tail.drop n.toNat) := by
  constructor
  · intro h
    cases h with
    | pfix hfn _ => exact absurd hfn hspecial.fn_ne.1
    | nfix hfn _ => exact absurd hfn hspecial.fn_ne.2
    | plain _ _ hplain _ => exact absurd hspecial hplain
    | bad _ hcode =>
      rw [hcode]
      trivial
    | huge _ hcode hhuge =>
      rw [hcode]
      exact .inl hhuge
    | string _ hcode hpos hlen h =>
      rw [hcode]
      exact .inr ⟨⟨hpos, hlen⟩, h⟩
  · cases hcode : lengthCode 0 rest with
    | cut => exact False.elim
    | bad => exact fun _ => .bad hspecial hcode
    | coded n tail =>
      rintro (hhuge | ⟨⟨hpos, hlen⟩, h⟩)
      · exact .huge hspecial hcode hhuge
      · exact .string hspecial hcode hpos hlen h

end

namespace TceFile

variable {file : TceFile} {code i : ℕ} {text : List Octet}

/-- A text of a file. -/
structure IsText (file : TceFile) (code : ℕ) (text : List Octet) : Prop where
  eq : (file.bytes.drop code).take text.length = text
  le : code + text.length ≤ file.bytes.length

/-- The next byte of a text. -/
theorem IsText.byteAt (h : file.IsText code text) {ch : Octet} {rest : List Octet}
    (hdrop : text.drop i = ch :: rest) :
    i < text.length ∧ file.byteAt (code + i) = .ok ch ∧ text.drop (i + 1) = rest := by
  have hlt : i < text.length := by
    by_contra hge
    rw [List.drop_eq_nil_of_le (not_lt.mp hge)] at hdrop
    exact absurd hdrop nofun
  rw [List.drop_eq_getElem_cons hlt] at hdrop
  obtain ⟨rfl, rfl⟩ := List.cons.inj hdrop
  have hget : file.bytes[code + i]? = text[i]? := by
    conv_rhs => rw [← h.eq]
    rw [List.getElem?_take_of_lt hlt, List.getElem?_drop]
  refine ⟨hlt, ?_, rfl⟩
  rw [TceFile.byteAt, hget, List.getElem?_eq_getElem hlt]

/-- **The length of a string** is read as the text has it. -/
theorem buildLength_spec (h : file.IsText code text) {rest : List Octet}
    (hrest : text.drop i = rest) (nlen : BitVec 32) :
    match lengthCode nlen rest with
    | .cut => file.buildLength code text.length i nlen = .wild
    | .bad => file.buildLength code text.length i nlen = .stop
    | .coded n tail => ∃ j, i < j ∧ j ≤ text.length ∧ text.drop j = tail ∧
      file.buildLength code text.length i nlen = .ok (n, j) := by
  induction rest generalizing i nlen with
  | nil =>
    rw [lengthCode, buildLength, if_neg (not_lt.mpr (List.drop_eq_nil_iff.mp hrest))]
  | cons lch rest ih =>
    obtain ⟨hlt, hbyte, hdrop⟩ := h.byteAt hrest
    rw [lengthCode, buildLength, if_pos hlt, hbyte, Outcome.ok_bind]
    by_cases hpfix : lch.fn = iPfix
    · simp only [if_pos hpfix]
      have hnext := ih hdrop ((nlen ||| lch.low) <<< 4)
      cases hcode : lengthCode ((nlen ||| lch.low) <<< 4) rest with
      | cut =>
        rw [hcode] at hnext
        exact hnext
      | bad =>
        rw [hcode] at hnext
        exact hnext
      | coded n tail =>
        rw [hcode] at hnext
        obtain ⟨j, hj, hnext⟩ := hnext
        exact ⟨j, Nat.lt_of_succ_lt hj, hnext⟩
    · simp only [if_neg hpfix]
      by_cases hldc : lch.fn = iLdc
      · simp only [if_pos hldc]
        exact ⟨i + 1, Nat.lt_succ_self i, hlt, hdrop, rfl⟩
      · simp only [if_neg hldc]

/-- **The string of a special operation** is read within the text exactly where it is there. -/
theorem embedded_spec (h : file.IsText code text) {rest : List Octet} (hrest : text.drop i = rest) :
    match lengthCode 0 rest with
    | .cut => file.embedded code text.length i = .wild
    | .bad => file.embedded code text.length i = .stop
    | .coded n tail =>
      if (n + 4).toInt < 0 then file.embedded code text.length i = .stop
      else if 0 ≤ n.toInt ∧ n.toNat ≤ tail.length then
        ∃ oBytes j, i < j ∧ text.drop j = tail.drop n.toNat ∧
          file.embedded code text.length i = .ok (n, oBytes, j)
      else file.embedded code text.length i = .wild := by
  have hbuild := buildLength_spec h hrest 0
  cases hcode : lengthCode 0 rest with
  | cut =>
    rw [hcode] at hbuild
    simp only [embedded, hbuild, Outcome.wild_bind]
  | bad =>
    rw [hcode] at hbuild
    simp only [embedded, hbuild, Outcome.stop_bind]
  | coded n tail =>
    rw [hcode] at hbuild
    obtain ⟨j, hj, hle, rfl, hbuild⟩ := hbuild
    simp only [embedded, hbuild, Outcome.ok_bind]
    by_cases hhuge : (n + 4).toInt < 0
    · simp only [if_pos hhuge]
    · simp only [if_neg hhuge, List.length_drop]
      by_cases hfits : 0 ≤ n.toInt ∧ n.toNat ≤ text.length - j
      · have htext := h.le
        rw [if_pos hfits, if_neg (by omega), bytesAt_eq_ok (by omega), Outcome.ok_bind]
        exact ⟨_, j + n.toNat, by omega, List.drop_drop.symm, rfl⟩
      · rw [if_neg hfits, if_pos (by omega)]

/-- **The loop over a text** stays within it exactly where the text stays within itself. -/
theorem textLoop_tame_iff (h : file.IsText code text) {fuel : ℕ} {rest : List Octet}
    (hrest : text.drop i = rest) (hfuel : rest.length ≤ fuel) (opd : BitVec 32) :
    (file.textLoop code text.length fuel i opd).Tame ↔ Enclosed opd rest := by
  induction fuel generalizing i rest opd with
  | zero =>
    obtain rfl := List.eq_nil_of_length_eq_zero (Nat.le_zero.mp hfuel)
    exact iff_of_true (Outcome.tame_ok _) (.nil opd)
  | succ fuel ih =>
    cases rest with
    | nil =>
      rw [textLoop, if_neg (not_lt.mpr (List.drop_eq_nil_iff.mp hrest))]
      exact iff_of_true (Outcome.tame_ok _) (.nil opd)
    | cons ch rest =>
      obtain ⟨hlt, hbyte, hdrop⟩ := h.byteAt hrest
      have hle : rest.length ≤ fuel := Nat.le_of_succ_le_succ hfuel
      rw [textLoop, if_pos hlt, hbyte, Outcome.ok_bind]
      by_cases hpfix : ch.fn = iPfix
      · simp only [if_pos hpfix]
        rw [ih hdrop hle, enclosed_pfix_iff hpfix]
      by_cases hnfix : ch.fn = iNfix
      · simp only [if_neg hpfix, if_pos hnfix]
        rw [ih hdrop hle, enclosed_nfix_iff hnfix]
      simp only [if_neg hpfix, if_neg hnfix]
      by_cases hspecial : ch.fn = iOpr ∧ IsSpecial (opd ||| ch.low)
      · rw [if_pos hspecial, enclosed_special_iff hspecial]
        have hstring := embedded_spec h hdrop
        cases hcode : lengthCode 0 rest with
        | cut =>
          rw [hcode] at hstring
          rw [hstring, Outcome.wild_bind]
          exact iff_of_false Outcome.not_tame_wild id
        | bad =>
          rw [hcode] at hstring
          rw [hstring, Outcome.stop_bind]
          exact iff_of_true Outcome.tame_stop trivial
        | coded n tail =>
          rw [hcode] at hstring
          dsimp only at hstring ⊢
          by_cases hhuge : (n + 4).toInt < 0
          · rw [if_pos hhuge] at hstring
            rw [hstring, Outcome.stop_bind]
            exact iff_of_true Outcome.tame_stop (.inl hhuge)
          rw [if_neg hhuge] at hstring
          rw [or_iff_right hhuge]
          by_cases hfits : 0 ≤ n.toInt ∧ n.toNat ≤ tail.length
          · rw [if_pos hfits] at hstring
            obtain ⟨oBytes, j, hj, htail, hstring⟩ := hstring
            have hshort : (tail.drop n.toNat).length ≤ fuel := by
              rw [← htail, List.length_drop]
              rw [← hdrop, List.length_drop] at hle
              omega
            rw [hstring, Outcome.ok_bind, and_iff_right hfits, ← ih htail hshort]
            exact Outcome.tame_bind_ok _ _
          · rw [if_neg hfits] at hstring
            rw [hstring, Outcome.wild_bind]
            exact iff_of_false Outcome.not_tame_wild fun h => hfits h.1
      · rw [if_neg hspecial, enclosed_plain_iff hpfix hnfix hspecial, ← ih hdrop hle]
        exact Outcome.tame_bind_ok _ _

end TceFile

end Tranx86

end Kroc
