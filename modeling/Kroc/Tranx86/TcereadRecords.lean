import Kroc.Lib.Orbit
import Kroc.Tranx86.TcereadText

/-!
# Tranx86/TcereadRecords — the records of ETC files

`tceread_nextblocks` and `read_etc_chain`.  A length that is negative leads back into the file, and
nothing stops the reader from coming back to a record that it has read.
-/

namespace Kroc

namespace Tranx86

namespace TceFile

variable (diagnostics : Bool) (overshift : BitVec 32 → BitVec 32) (file : TceFile)

/-- `LOAD_TEXT_TAG` -/
def loadTextTag : BitVec 32 := 6

/-- `END_MODULE_TAG` -/
def endModuleTag : BitVec 32 := 3

/-- `ETC0` -/
def etc0 : BitVec 32 := 0xffffff00

/-- `FINISH_OP` -/
def finishOp : BitVec 32 := -1

/-- `ETCL6` -/
def etcl6 : BitVec 32 := 0xffffff26

/-- The bytes of an `int`. -/
def intBytes (n : BitVec 32) : List Octet :=
  [n.extractLsb' 0 8, n.extractLsb' 8 8, n.extractLsb' 16 8, n.extractLsb' 24 8]

/-- `tceread_nextblocks` for a text that comes next. -/
def loadText (ptr : ℕ) : Outcome (Option (List EtcChain) × ℕ) := do
  let (textlen, code) ← file.tcereadNumber overshift ptr
  let next ← file.tcereadBarray code textlen
  let blocks ← file.textLoop code textlen.toInt.toNat textlen.toInt.toNat 0 0
  .ok (some (blocks ++ [⟨iOpr, etc0, [], 0⟩, ⟨iLdc, finishOp, [], 0⟩]), next)

/-- `tcoff_tag_names` -/
def tcoffTagNames : List String :=
  ["IGNORE", "LINKABLE", "START.MODULE", "END.MODULE", "SET.LOAD.POINT",
    "ADJUST.POINT", "LOAD.TEXT", "LOAD.PREFIX", "LOAD.EXPR", "LOAD.ZEROS",
    "ALIGN", "SELECTION", "DEFINE.MAIN", "LOCAL.SYMBOLS", "DEFINE.LABEL",
    "DEFINE.SYMBOL", "KILL.ID", "BYTE.PATCH", "REP.START", "REP.END",
    "COMMENT", "MESSAGE", "LIB.INDEX.START", "LIB.INDEX.END", "INDEX.ENTRY",
    "WORD.PATCH", "DESCRIPTOR", "VERSION", "LINKED.UNIT", "SPECIFY.ORIGIN",
    "SYMBOL", "SPECIFIC.SYMBOL", "<invalid>"]

/-- `TCOFF_MAX_TAG` -/
def tcoffMaxTag : ℤ := 31

/-- `TCOFF_INVALID_TAG` -/
def tcoffInvalidTag : ℤ := 32

/-- The name of a tag, from the table of names. -/
def tcoffTagName (tag : BitVec 32) : Outcome String :=
  let index := if tag.toInt ≤ tcoffMaxTag then tag.toInt else tcoffInvalidTag
  if index < 0 then .wild
  else match tcoffTagNames[index.toNat]? with
    | some name => .ok name
    | none => .wild

/-- What `tceread_nextblocks` writes of a record that it keeps, with diagnostics on. -/
def dumpRecord (tag rlen : BitVec 32) : Outcome Unit :=
  if diagnostics then do
    let _ ← tcoffTagName tag
    -- `dump_human_data` counts down to zero
    if rlen.toInt < 0 then .wild else .ok ()
  else .ok ()

/-- `tceread_nextblocks` for a record that it keeps as it is. -/
def keepRecord (tag rlen : BitVec 32) (ptr : ℕ) : Outcome (Option (List EtcChain) × ℕ) := do
  let next ← file.tcereadBarray ptr rlen
  dumpRecord diagnostics tag rlen
  -- `smalloc` has no memory of a negative size
  if (rlen + 4).toInt < 0 then .stop
  -- `memcpy`
  else if rlen.toInt < 0 then .wild
  else do
    let tcoff ← file.bytesAt ptr rlen.toNat
    .ok (some [⟨iOpr, etcl6, intBytes tag ++ tcoff, rlen + 4⟩], next)

/-- `tceread_nextblocks`: the blocks, unless the module has ended, and the place after them. -/
def tcereadNextblocks (ptr : ℕ) : Outcome (Option (List EtcChain) × ℕ) := do
  let (tag, ptr) ← file.tcereadNumber overshift ptr
  let (rlen, ptr) ← file.tcereadNumber overshift ptr
  if tag = loadTextTag then file.loadText overshift ptr
  else if tag = endModuleTag then do
    let next ← file.tcereadBarray ptr rlen
    .ok (none, next)
  else file.keepRecord diagnostics tag rlen ptr

/-- `read_etc_chain`, as long as `fuel` lasts. -/
def readEtcChain : ℕ → ℕ → Option (Outcome (List EtcChain))
  | 0, _ => none
  | fuel + 1, ptr =>
    match file.tcereadNextblocks diagnostics overshift ptr with
    | .stop => some .stop
    | .wild => some .wild
    | .ok (none, _) => some (.ok [])
    | .ok (some blocks, ptr) => (readEtcChain fuel ptr).map fun x => x >>= fun rest =>
      .ok (blocks ++ rest)

/-- **What is asked of the reader**: the chain is read, or an error stops the program, and nothing
has been read but bytes of the file and, in a text, of the text. -/
def ReadsInside : Prop :=
  ∃ fuel x, file.readEtcChain diagnostics overshift fuel 0 = some x ∧ x.Tame

/-! ## Records -/

/-- A record with bytes in the file can be kept: its length is not from -4 to -1, and neither its
length nor its tag is negative where it is dumped. -/
def Keepable (tag rlen : BitVec 32) : Prop :=
  (rlen.toInt < 0 → rlen.toInt < -4) ∧ (diagnostics → 0 ≤ tag.toInt ∧ 0 ≤ rlen.toInt)

/-- **The condition on a record**: the file goes on after the sign of a number in its header; a text
stays within itself; and what is kept as it is can be kept, if its length leads to a place of the
file. -/
def Sound (ptr : ℕ) : Prop :=
  ¬ file.CutAt ptr ∧ ∀ tag q, file.tcereadNumber overshift ptr = .ok (tag, q) →
    ¬ file.CutAt q ∧ ∀ rlen r, file.tcereadNumber overshift q = .ok (rlen, r) →
      if tag = loadTextTag then
        ¬ file.CutAt r ∧ ∀ textlen code, file.tcereadNumber overshift r = .ok (textlen, code) →
          code + textlen.toInt ≤ file.bytes.length →
          Enclosed 0 ((file.bytes.drop code).take textlen.toInt.toNat)
      else tag = endModuleTag ∨ (0 ≤ r + rlen.toInt → r + rlen.toInt ≤ file.bytes.length →
        Keepable diagnostics tag rlen)

variable {diagnostics overshift file} {ptr next : ℕ}

/-- The text at a place of the file. -/
theorem isText_take {code : ℕ} (hcode : code ≤ file.bytes.length) {textlen : ℤ}
    (hle : code + textlen ≤ file.bytes.length) :
    file.IsText code ((file.bytes.drop code).take textlen.toNat) ∧
      ((file.bytes.drop code).take textlen.toNat).length = textlen.toNat := by
  have hlen : ((file.bytes.drop code).take textlen.toNat).length = textlen.toNat := by
    rw [List.length_take, List.length_drop]
    omega
  exact ⟨⟨by rw [hlen], by rw [hlen]; omega⟩, hlen⟩

theorem toInt_add_four {n : BitVec 32} (hneg : n.toInt < 0) :
    (n + 4).toInt < 0 ↔ ¬ -4 ≤ n.toInt := by
  have hsum : (n + 4).toNat = (n.toNat + 4) % 2 ^ 32 := BitVec.toNat_add n 4
  have hn := BitVec.toInt_eq_toNat_cond n
  have hn4 := BitVec.toInt_eq_toNat_cond (n + 4)
  have hlt := n.isLt
  omega

theorem loadText_tame_iff (hptr : ptr ≤ file.bytes.length) :
    (file.loadText overshift ptr).Tame ↔ ¬ file.CutAt ptr ∧
      ∀ textlen code, file.tcereadNumber overshift ptr = .ok (textlen, code) →
        code + textlen.toInt ≤ file.bytes.length →
        Enclosed 0 ((file.bytes.drop code).take textlen.toInt.toNat) := by
  rw [loadText, Outcome.tame_bind, tcereadNumber_tame_iff hptr, Prod.forall]
  refine and_congr_right fun _ => forall_congr' fun textlen => forall_congr' fun code =>
    forall_congr' fun hnumber => ?_
  have hcode := (tcereadNumber_bounds hptr hnumber).2
  dsimp only
  rw [Outcome.tame_bind, and_iff_right (tcereadBarray_tame _ _), tcereadBarray_eq hcode]
  by_cases hin : 0 ≤ code + textlen.toInt ∧ code + textlen.toInt ≤ file.bytes.length
  · obtain ⟨htext, hlen⟩ := isText_take hcode hin.2
    have hloop := textLoop_tame_iff htext (i := 0) List.drop_zero hlen.le 0
    rw [hlen] at hloop
    rw [if_pos hin, Outcome.forall_eq_ok, Outcome.tame_bind_ok, hloop]
    exact ⟨fun h _ => h, fun h => h hin.2⟩
  · rw [if_neg hin]
    refine iff_of_true nofun fun hle => ?_
    have hneg : textlen.toInt.toNat = 0 := by omega
    rw [hneg, List.take_zero]
    exact .nil 0

theorem tcoffTagName_eq_wild {tag : BitVec 32} (h : tag.toInt < 0) : tcoffTagName tag = .wild := by
  have hmax : tag.toInt ≤ tcoffMaxTag := h.le.trans (by decide)
  rw [tcoffTagName, if_pos hmax, if_pos h]

/-- A tag that is not negative has a name. -/
theorem tcoffTagName_eq_ok {tag : BitVec 32} (h : 0 ≤ tag.toInt) :
    ∃ name, tcoffTagName tag = .ok name := by
  rw [tcoffTagName]
  have hindex : ∀ i : ℤ, 0 ≤ i → i ≤ 32 → ∃ name, (if i < 0 then .wild
      else match tcoffTagNames[i.toNat]? with
        | some name => .ok name
        | none => .wild) = Outcome.ok name := fun i hi hle => by
    have hlt : i.toNat < tcoffTagNames.length := by
      rw [show tcoffTagNames.length = 33 from rfl]
      omega
    rw [if_neg (not_lt.mpr hi), List.getElem?_eq_getElem hlt]
    exact ⟨_, rfl⟩
  refine hindex _ ?_ ?_ <;> rw [tcoffMaxTag, tcoffInvalidTag] <;> split_ifs <;> omega

theorem dumpRecord_eq (tag rlen : BitVec 32) : dumpRecord diagnostics tag rlen =
    if diagnostics → 0 ≤ tag.toInt ∧ 0 ≤ rlen.toInt then .ok () else .wild := by
  cases diagnostics with
  | false => rw [if_pos nofun, dumpRecord, if_neg nofun]
  | true =>
    rw [dumpRecord, if_pos rfl]
    by_cases htag : tag.toInt < 0
    · rw [tcoffTagName_eq_wild htag, Outcome.wild_bind,
        if_neg fun h => absurd (h rfl).1 (not_le.mpr htag)]
    · obtain ⟨name, hname⟩ := tcoffTagName_eq_ok (not_lt.mp htag)
      rw [hname, Outcome.ok_bind]
      by_cases hneg : rlen.toInt < 0
      · rw [if_pos hneg, if_neg fun h => absurd (h rfl).2 (not_le.mpr hneg)]
      · rw [if_neg hneg, if_pos fun _ => ⟨not_lt.mp htag, not_lt.mp hneg⟩]

theorem keepRecord_tame_iff (hptr : ptr ≤ file.bytes.length) (tag rlen : BitVec 32) :
    (file.keepRecord diagnostics tag rlen ptr).Tame ↔ (0 ≤ ptr + rlen.toInt →
      ptr + rlen.toInt ≤ file.bytes.length → Keepable diagnostics tag rlen) := by
  rw [keepRecord, Outcome.tame_bind, and_iff_right (tcereadBarray_tame _ _), tcereadBarray_eq hptr]
  by_cases hin : 0 ≤ ptr + rlen.toInt ∧ ptr + rlen.toInt ≤ file.bytes.length
  · rw [if_pos hin, Outcome.forall_eq_ok, forall_prop_of_true hin.1, forall_prop_of_true hin.2,
      Keepable, dumpRecord_eq]
    by_cases hdump : diagnostics → 0 ≤ tag.toInt ∧ 0 ≤ rlen.toInt
    · rw [if_pos hdump, Outcome.ok_bind, and_iff_left hdump]
      by_cases hneg : rlen.toInt < 0
      · rw [forall_prop_of_true hneg, if_pos hneg]
        by_cases hhuge : (rlen + 4).toInt < 0
        · rw [if_pos hhuge]
          exact iff_of_true Outcome.tame_stop (not_le.mp ((toInt_add_four hneg).mp hhuge))
        · rw [if_neg hhuge]
          exact iff_of_false Outcome.not_tame_wild fun h =>
            hhuge ((toInt_add_four hneg).mpr (not_le.mpr h))
      · refine iff_of_true ?_ fun h => absurd h hneg
        rw [if_neg hneg]
        by_cases hhuge : (rlen + 4).toInt < 0
        · rw [if_pos hhuge]
          exact Outcome.tame_stop
        · have hnat := BitVec.toInt_eq_toNat_cond rlen
          have hlt := rlen.isLt
          rw [if_neg hhuge, bytesAt_eq_ok (by omega), Outcome.ok_bind]
          exact Outcome.tame_ok _
    · rw [if_neg hdump, Outcome.wild_bind]
      exact iff_of_false Outcome.not_tame_wild fun h => hdump h.2
  · rw [if_neg hin]
    exact iff_of_true nofun fun h h' => absurd ⟨h, h'⟩ hin

/-- **A record** is read inside exactly where it meets the condition. -/
theorem tcereadNextblocks_tame_iff (hptr : ptr ≤ file.bytes.length) :
    (file.tcereadNextblocks diagnostics overshift ptr).Tame ↔
      file.Sound diagnostics overshift ptr := by
  rw [tcereadNextblocks, Sound, Outcome.tame_bind, tcereadNumber_tame_iff hptr, Prod.forall]
  refine and_congr_right fun _ => forall_congr' fun tag => forall_congr' fun q =>
    forall_congr' fun htag => ?_
  have hq := (tcereadNumber_bounds hptr htag).2
  dsimp only
  rw [Outcome.tame_bind, tcereadNumber_tame_iff hq, Prod.forall]
  refine and_congr_right fun _ => forall_congr' fun rlen => forall_congr' fun r =>
    forall_congr' fun hrlen => ?_
  have hr := (tcereadNumber_bounds hq hrlen).2
  dsimp only
  by_cases htext : tag = loadTextTag
  · rw [if_pos htext, if_pos htext, loadText_tame_iff hr]
  rw [if_neg htext, if_neg htext]
  by_cases hend : tag = endModuleTag
  · rw [if_pos hend]
    exact iff_of_true ((Outcome.tame_bind_ok _ _).mpr (tcereadBarray_tame r rlen)) (.inl hend)
  · rw [if_neg hend, or_iff_right hend, keepRecord_tame_iff hr]

/-! ## The chain -/

/-- Where the next record is. -/
def nextRecord (diagnostics : Bool) (overshift : BitVec 32 → BitVec 32) (file : TceFile) (ptr : ℕ) :
    Option ℕ :=
  match file.tcereadNextblocks diagnostics overshift ptr with
  | .ok (some _, next) => some next
  | _ => none

/-- A record ends within the file. -/
theorem tcereadNextblocks_bounds (hptr : ptr ≤ file.bytes.length) {blocks : Option (List EtcChain)}
    (h : file.tcereadNextblocks diagnostics overshift ptr = .ok (blocks, next)) :
    next ≤ file.bytes.length := by
  obtain ⟨⟨tag, q⟩, htag, h⟩ := Outcome.bind_eq_ok.mp h
  obtain ⟨⟨rlen, r⟩, hrlen, h⟩ := Outcome.bind_eq_ok.mp h
  have hq := (tcereadNumber_bounds hptr htag).2
  have hr := (tcereadNumber_bounds hq hrlen).2
  dsimp only at h
  rw [ite_eq_iff] at h
  obtain ⟨-, h⟩ | ⟨-, h⟩ := h
  · obtain ⟨⟨textlen, code⟩, hnumber, h⟩ := Outcome.bind_eq_ok.mp h
    obtain ⟨next', hbarray, h⟩ := Outcome.bind_eq_ok.mp h
    obtain ⟨blocks', -, h⟩ := Outcome.bind_eq_ok.mp h
    obtain ⟨-, rfl⟩ := Prod.mk.inj (Outcome.ok.inj h)
    exact (tcereadBarray_eq_ok (tcereadNumber_bounds hr hnumber).2 hbarray).2
  rw [ite_eq_iff] at h
  obtain ⟨-, h⟩ | ⟨-, h⟩ := h
  · obtain ⟨next', hbarray, h⟩ := Outcome.bind_eq_ok.mp h
    obtain ⟨-, rfl⟩ := Prod.mk.inj (Outcome.ok.inj h)
    exact (tcereadBarray_eq_ok hr hbarray).2
  · obtain ⟨next', hbarray, h⟩ := Outcome.bind_eq_ok.mp h
    obtain ⟨-, -, h⟩ := Outcome.bind_eq_ok.mp h
    rw [ite_eq_iff, or_iff_right nofun, ite_eq_iff, or_iff_right nofun] at h
    obtain ⟨-, -, h⟩ := h
    obtain ⟨tcoff, -, h⟩ := Outcome.bind_eq_ok.mp h
    obtain ⟨-, rfl⟩ := Prod.mk.inj (Outcome.ok.inj h)
    exact (tcereadBarray_eq_ok hr hbarray).2

theorem nextRecord_eq_some : file.nextRecord diagnostics overshift ptr = some next ↔
    ∃ blocks, file.tcereadNextblocks diagnostics overshift ptr = .ok (some blocks, next) := by
  rw [nextRecord]
  cases file.tcereadNextblocks diagnostics overshift ptr with
  | stop => exact iff_of_false nofun nofun
  | wild => exact iff_of_false nofun nofun
  | ok a =>
    obtain ⟨blocks, p⟩ := a
    cases blocks with
    | none => exact iff_of_false nofun nofun
    | some blocks =>
      refine ⟨fun h => ⟨blocks, Option.some.inj h ▸ rfl⟩, fun ⟨blocks', h⟩ => ?_⟩
      rw [(Prod.mk.inj (Outcome.ok.inj h)).2]

/-- The records are within the file. -/
theorem after_le {n : ℕ} (hptr : ptr ≤ file.bytes.length)
    (h : Orbit.after (file.nextRecord diagnostics overshift) n ptr = some next) :
    next ≤ file.bytes.length := by
  induction n generalizing ptr with
  | zero => exact Option.some.inj h ▸ hptr
  | succ n ih =>
    obtain ⟨p, hp, h⟩ := Option.bind_eq_some_iff.mp h
    obtain ⟨blocks, hblocks⟩ := nextRecord_eq_some.mp hp
    exact ih (tcereadNextblocks_bounds hptr hblocks) h

/-- What comes after a record. -/
theorem readEtcChain_succ (fuel : ℕ) (h : file.nextRecord diagnostics overshift ptr = some next) :
    ∃ blocks, file.readEtcChain diagnostics overshift (fuel + 1) ptr =
      (file.readEtcChain diagnostics overshift fuel next).map
        fun x => x >>= fun rest => .ok (blocks ++ rest) := by
  obtain ⟨blocks, hblocks⟩ := nextRecord_eq_some.mp h
  exact ⟨blocks, by rw [readEtcChain, hblocks]⟩

/-- What comes after the last record. -/
theorem readEtcChain_last (fuel : ℕ) (h : file.nextRecord diagnostics overshift ptr = none) :
    ∃ x, file.readEtcChain diagnostics overshift (fuel + 1) ptr = some x ∧
      (x.Tame ↔ (file.tcereadNextblocks diagnostics overshift ptr).Tame) := by
  rw [nextRecord] at h
  rw [readEtcChain]
  cases hblocks : file.tcereadNextblocks diagnostics overshift ptr with
  | stop => exact ⟨_, rfl, iff_of_true Outcome.tame_stop Outcome.tame_stop⟩
  | wild => exact ⟨_, rfl, iff_of_false Outcome.not_tame_wild Outcome.not_tame_wild⟩
  | ok a =>
    obtain ⟨blocks, p⟩ := a
    cases blocks with
    | none => exact ⟨_, rfl, iff_of_true (Outcome.tame_ok _) (Outcome.tame_ok _)⟩
    | some blocks =>
      rw [hblocks] at h
      exact absurd h nofun

/-- **The chain** is read if the records have an end. -/
theorem readEtcChain_isSome_iff (fuel ptr : ℕ) :
    (file.readEtcChain diagnostics overshift fuel ptr).isSome ↔
      Orbit.after (file.nextRecord diagnostics overshift) fuel ptr = none := by
  induction fuel generalizing ptr with
  | zero => exact iff_of_false nofun nofun
  | succ fuel ih =>
    rw [Orbit.after]
    cases hnext : file.nextRecord diagnostics overshift ptr with
    | none =>
      obtain ⟨x, hx, -⟩ := readEtcChain_last fuel hnext
      rw [hx]
      exact iff_of_true rfl rfl
    | some next =>
      obtain ⟨blocks, hchain⟩ := readEtcChain_succ fuel hnext
      rw [hchain, Option.isSome_map, ih, Option.bind_some]

/-- **The chain** is read inside if the records are. -/
theorem readEtcChain_tame_iff {fuel : ℕ} {x : Outcome (List EtcChain)}
    (h : file.readEtcChain diagnostics overshift fuel ptr = some x) :
    x.Tame ↔ ∀ n next, Orbit.after (file.nextRecord diagnostics overshift) n ptr = some next →
      (file.tcereadNextblocks diagnostics overshift next).Tame := by
  induction fuel generalizing ptr x with
  | zero => cases h
  | succ fuel ih =>
    cases hnext : file.nextRecord diagnostics overshift ptr with
    | none =>
      obtain ⟨y, hy, htame⟩ := readEtcChain_last fuel hnext
      obtain rfl := Option.some.inj (h.symm.trans hy)
      refine htame.trans ⟨fun hptr n next hn => ?_, fun hall => hall 0 ptr rfl⟩
      cases n with
      | zero => exact Option.some.inj hn ▸ hptr
      | succ n =>
        rw [Orbit.after, hnext] at hn
        cases hn
    | some next =>
      obtain ⟨blocks, hchain⟩ := readEtcChain_succ fuel hnext
      rw [hchain] at h
      obtain ⟨y, hy, rfl⟩ := Option.map_eq_some_iff.mp h
      rw [Outcome.tame_bind_ok, ih hy]
      refine ⟨fun hall n p hn => ?_, fun hall n p hn => hall (n + 1) p ?_⟩
      · cases n with
        | zero =>
          obtain rfl := Option.some.inj hn
          obtain ⟨blocks', hblocks⟩ := nextRecord_eq_some.mp hnext
          rw [hblocks]
          exact Outcome.tame_ok _
        | succ n =>
          rw [Orbit.after, hnext, Option.bind_some] at hn
          exact hall n p hn
      · rw [Orbit.after, hnext, Option.bind_some, hn]

/-- A place that the reader comes to. -/
def Reached (diagnostics : Bool) (overshift : BitVec 32 → BitVec 32) (file : TceFile) (ptr : ℕ) :
    Prop :=
  ∃ n, Orbit.after (file.nextRecord diagnostics overshift) n 0 = some ptr

/-- The records that are reached have an end exactly where the reader does not come back. -/
theorem ends_iff : (∃ n, Orbit.after (file.nextRecord diagnostics overshift) n 0 = none) ↔
    Orbit.NoReturn (file.nextRecord diagnostics overshift) 0 :=
  Orbit.ends_iff (Set.finite_Iic file.bytes.length) fun _ _ h => after_le (Nat.zero_le _) h

/-- **The reader stays inside** exactly where every record that it comes to meets the condition and
it does not come back to any. -/
theorem readsInside_iff (diagnostics : Bool) (overshift : BitVec 32 → BitVec 32) (file : TceFile) :
    file.ReadsInside diagnostics overshift ↔
      (∀ ptr, file.Reached diagnostics overshift ptr → file.Sound diagnostics overshift ptr) ∧
        Orbit.NoReturn (file.nextRecord diagnostics overshift) 0 := by
  have hsound : (∀ n next, Orbit.after (file.nextRecord diagnostics overshift) n 0 = some next →
      (file.tcereadNextblocks diagnostics overshift next).Tame) ↔
      ∀ ptr, file.Reached diagnostics overshift ptr → file.Sound diagnostics overshift ptr := by
    refine ⟨fun h ptr ⟨n, hn⟩ => ?_, fun h n next hn => ?_⟩
    · exact (tcereadNextblocks_tame_iff (after_le (Nat.zero_le _) hn)).mp (h n ptr hn)
    · exact (tcereadNextblocks_tame_iff (after_le (Nat.zero_le _) hn)).mpr (h next ⟨n, hn⟩)
  rw [← hsound, ← ends_iff]
  constructor
  · rintro ⟨fuel, x, hx, htame⟩
    refine ⟨(readEtcChain_tame_iff hx).mp htame, fuel, (readEtcChain_isSome_iff fuel 0).mp ?_⟩
    rw [hx]
    rfl
  · rintro ⟨hall, fuel, hend⟩
    obtain ⟨x, hx⟩ := Option.isSome_iff_exists.mp ((readEtcChain_isSome_iff fuel 0).mpr hend)
    exact ⟨fuel, x, hx, (readEtcChain_tame_iff hx).mpr hall⟩

/-- The text that comes at a place of the file, if one does, has no negative length. -/
def Forward (overshift : BitVec 32 → BitVec 32) (file : TceFile) (ptr : ℕ) : Prop :=
  ∀ q rlen r textlen code, file.tcereadNumber overshift ptr = .ok (loadTextTag, q) →
    file.tcereadNumber overshift q = .ok (rlen, r) →
    file.tcereadNumber overshift r = .ok (textlen, code) → 0 ≤ textlen.toInt

theorem lt_of_forward (hptr : ptr ≤ file.bytes.length) (hforward : file.Forward overshift ptr)
    (h : file.nextRecord diagnostics overshift ptr = some next) : ptr < next := by
  obtain ⟨blocks, h⟩ := nextRecord_eq_some.mp h
  obtain ⟨⟨tag, q⟩, htag, h⟩ := Outcome.bind_eq_ok.mp h
  obtain ⟨⟨rlen, r⟩, hrlen, h⟩ := Outcome.bind_eq_ok.mp h
  obtain ⟨hlt, hq⟩ := tcereadNumber_bounds hptr htag
  obtain ⟨hlt', hr⟩ := tcereadNumber_bounds hq hrlen
  dsimp only at h
  rw [ite_eq_iff] at h
  obtain ⟨htext, h⟩ | ⟨-, h⟩ := h
  · obtain ⟨⟨textlen, code⟩, hnumber, h⟩ := Outcome.bind_eq_ok.mp h
    obtain ⟨next', hbarray, h⟩ := Outcome.bind_eq_ok.mp h
    obtain ⟨blocks', -, h⟩ := Outcome.bind_eq_ok.mp h
    obtain ⟨-, rfl⟩ := Prod.mk.inj (Outcome.ok.inj h)
    rw [htext] at htag
    have hpos := hforward q rlen r textlen code htag hrlen hnumber
    obtain ⟨hcode, hle⟩ := tcereadNumber_bounds hr hnumber
    have := (tcereadBarray_eq_ok hle hbarray).1
    omega
  rw [ite_eq_iff] at h
  obtain ⟨-, h⟩ | ⟨-, h⟩ := h
  · obtain ⟨next', -, h⟩ := Outcome.bind_eq_ok.mp h
    exact absurd (Prod.mk.inj (Outcome.ok.inj h)).1 nofun
  · obtain ⟨next', hbarray, h⟩ := Outcome.bind_eq_ok.mp h
    obtain ⟨-, -, h⟩ := Outcome.bind_eq_ok.mp h
    rw [ite_eq_iff, or_iff_right nofun, ite_eq_iff, or_iff_right nofun] at h
    obtain ⟨-, hpos, h⟩ := h
    obtain ⟨tcoff, -, h⟩ := Outcome.bind_eq_ok.mp h
    obtain ⟨-, rfl⟩ := Prod.mk.inj (Outcome.ok.inj h)
    have := (tcereadBarray_eq_ok hr hbarray).1
    omega

/-- Where no text has a negative length, the reader does not come back. -/
theorem noReturn_of_forward
    (h : ∀ ptr, file.Reached diagnostics overshift ptr → file.Forward overshift ptr) :
    Orbit.NoReturn (file.nextRecord diagnostics overshift) 0 :=
  Orbit.noReturn_of_lt fun n b _ hb hc =>
    lt_of_forward (after_le (Nat.zero_le _) hb) (h b ⟨n, hb⟩) hc

/-- `ETCS1` at the end of a text. -/
theorem not_enclosed_etcs1 : ¬ Enclosed 0 [0x6e, 0xf1] := by
  rw [enclosed_nfix_iff (by decide), enclosed_special_iff (by decide)]
  exact id

/-- Four files: one that ends after the sign of a number, one with an `ETCS1` that the text ends
after, one with a text that leads back to its own record, and one with a negative tag, which has no
name. -/
theorem not_readsInside :
    ¬ (TceFile.mk [255] (by decide)).ReadsInside false (fun _ => 0) ∧
    ¬ (TceFile.mk [6, 3, 2, 0x6e, 0xf1] (by decide)).ReadsInside false (fun _ => 0) ∧
    ¬ (TceFile.mk [6, 0, 253, 0xf9, 0xff, 0xff, 0xff] (by decide)).ReadsInside false (fun _ => 0) ∧
    ¬ (TceFile.mk [253, 0, 0, 0, 0x80, 0, 3, 0] (by decide)).ReadsInside true (fun _ => 0) := by
  refine ⟨?_, ?_, ?_, ?_⟩
  · rintro ⟨fuel, x, hx, htame⟩
    exact (readEtcChain_tame_iff hx).mp htame 0 0 rfl rfl
  · rintro ⟨fuel, x, hx, htame⟩
    have hfirst := (readEtcChain_tame_iff hx).mp htame 0 0 rfl
    obtain ⟨-, hsound⟩ := (tcereadNextblocks_tame_iff (Nat.zero_le _)).mp hfirst
    obtain ⟨-, hsound⟩ := (hsound 6 1 rfl).2 3 2 rfl
    have htext := hsound 2 3 rfl (by decide)
    exact not_enclosed_etcs1 htext
  · rintro ⟨fuel, x, hx, -⟩
    have hback : Orbit.after (nextRecord false (fun _ => 0)
        (TceFile.mk [6, 0, 253, 0xf9, 0xff, 0xff, 0xff] (by decide))) 1 0 = some 0 := by decide
    have hend := (readEtcChain_isSome_iff fuel 0).mp (by rw [hx]; rfl)
    have hagain := Orbit.after_mul hback fuel
    rw [Nat.one_mul, hend] at hagain
    exact absurd hagain nofun
  · rintro ⟨fuel, x, hx, htame⟩
    exact (readEtcChain_tame_iff hx).mp htame 0 0 rfl rfl

end TceFile

end Tranx86

end Kroc
