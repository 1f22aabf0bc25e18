import Kroc.Tvm.TEncodeReader
import Kroc.Tvm.TEncodeRoundTrip

/-!
# Tvm/TEncodeDebug — the source position of a byte code offset

`runtime/libtvm/tencode.c`: `tbc_debug_file_and_line` looks an offset up in the `lndB` table of a
`dbgL` element and then counts down through the file names of its `fn L` list.  The counter is
unsigned and the loop goes on while it is not negative, so that only the end of the list ends it:
**the function never returns `0`** (`tbcDebugFileAndLine_fails`).
-/

namespace Kroc

namespace Tencode

open TEncode (ascii letter)

/-! ## The function -/

section Debug

variable (w fuel : ℕ)

/-- `(unsigned int) tenc_decode_int (data)` -/
def decodeUnsigned (data : ℤ) : Reader ℕ :=
  Logged.ask (fun _ => .word data) fun mem => toUnsigned (sInt w (tencDecodeInt w mem data))

/-- The loop over the table: `file_off` and `line_off`, which start with what the stack holds. -/
def scanTable (offset : ℕ) : ℕ → ℤ → ℕ → ℕ × ℕ → Reader (ℕ × ℕ)
  | 0, _, _, _ => Logged.diverge
  | steps + 1, data, length, found =>
    if 4 * 3 ≤ length then do
      let bcOff ← decodeUnsigned w data
      if bcOff > offset then pure found
      else do
        let fileOff ← decodeUnsigned w (data + 4)
        let lineOff ← decodeUnsigned w (data + 4 + 4)
        scanTable offset steps (data + 4 + 4 + 4) (length - 4 * 3) (fileOff, lineOff)
    else pure found

/-- `while (file_off >= 0)`: the result and `str`; `file_off` is an `unsigned int`. -/
def nameAt : ℕ → ℕ → Option ℤ → ℤ → ℕ → Reader (ℤ × Option ℤ)
  | 0, _, _, _, _ => Logged.diverge
  | steps + 1, fileOff, str, data, length =>
    if 0 ≤ fileOff then do
      match ← loadStr w fuel (ident "fn S") data length with
      | none => pure (-1, none)
      | some (str, next, left) => nameAt steps (toUnsigned (fileOff - 1)) (some str) next left
    else pure (0, str)

/-- `tbc_debug_file_and_line`: the result, `*file` and `*line`. -/
def tbcDebugFileAndLine (stack : ℕ × ℕ) (data : ℤ) (length offset : ℕ) :
    Reader (ℤ × Option ℤ × ℕ) := do
  match ← tencWalkToElement w (ident "dbgL") fuel data length with
  | none => pure (-1, none, 0)
  | some (element, length) =>
    match ← tencWalkToElement w (ident "fn L") fuel element.bytes length with
    | none => pure (-1, none, 0)
    | some (files, length) =>
      match ← tencWalkToElement w (ident "lndB") fuel files.next length with
      | none => pure (-1, none, 0)
      | some (element, _) =>
        let (fileOff, lineOff) ← scanTable w offset fuel element.bytes element.length stack
        let (ret, str) ← nameAt w fuel fuel fileOff none files.bytes files.length
        if ret < 0 then pure (ret, none, 0) else pure (0, str, lineOff)

end Debug

/-! ## Debugging information -/

/-- An element with data, laid out with its padding. -/
def elementBytes (w : ℕ) (id data : List UInt8) : List UInt8 :=
  id ++ BigEndian.encode w data.length ++ data ++ List.replicate (TEncode.pad w data.length) 0

/-- **Well-formed debugging information**: file names and a table of offset, file and line. -/
structure DebugInfo where
  names : List (List UInt8)
  table : List (ℕ × ℕ × ℕ)
  word : ∀ t ∈ table, t.1 < 2 ^ 32 ∧ t.2.1 < 2 ^ 32 ∧ t.2.2 < 2 ^ 32
  increasing : table.Pairwise fun s t => s.1 < t.1
  file : ∀ t ∈ table, t.2.1 < names.length

/-- The data of the `fn L` element; a name has its NUL. -/
def DebugInfo.nameBytes (info : DebugInfo) (w : ℕ) : List UInt8 :=
  info.names.flatMap fun name => elementBytes w (ident "fn S") (name ++ [0])

/-- The data of the `lndB` element. -/
def DebugInfo.tableBytes (info : DebugInfo) : List UInt8 :=
  info.table.flatMap fun t =>
    BigEndian.encode 4 t.1 ++ BigEndian.encode 4 t.2.1 ++ BigEndian.encode 4 t.2.2

/-- The data of the `dbgL` element. -/
def DebugInfo.bytes (info : DebugInfo) (w : ℕ) : List UInt8 :=
  elementBytes w (ident "fn L") (info.nameBytes w) ++
    elementBytes w (ident "lndB") info.tableBytes

/-- The last entry of the table that is not behind an offset. -/
def DebugInfo.entry (info : DebugInfo) (offset : ℕ) : Option (ℕ × ℕ × ℕ) :=
  (info.table.filter fun t => t.1 ≤ offset).getLast?

/-- **What is claimed**: the run ends with `0`, the name of the entry's file and its line. -/
def Finds (info : DebugInfo) (offset : ℕ) (mem : Memory) (m : Reader (ℤ × Option ℤ × ℕ)) : Prop :=
  ∃ t name ptr, info.entry offset = some t ∧ info.names[t.2.1]? = some name ∧
    m.result mem = some (0, some ptr, t.2.2) ∧ Window.Holds mem ptr (name ++ [0])

/-! ## The function does not return `0` -/

section Never

variable {w fuel steps length offset fileOff : ℕ} {mem : Memory} {data : ℤ} {stack : ℕ × ℕ}

/-- **The loop over the names ends with `-1` or not at all.** -/
theorem nameAt_result {str : Option ℤ} {r : ℤ × Option ℤ}
    (h : (nameAt w fuel steps fileOff str data length).result mem = some r) : r = (-1, none) := by
  induction steps generalizing fileOff str data length mem with
  | zero => cases h
  | succ steps ih =>
    rw [nameAt, if_pos (Nat.zero_le fileOff)] at h
    obtain ⟨loaded, -, h⟩ := Logged.exists_of_result_bind h
    rcases loaded with _ | ⟨str', next, left⟩
    · cases h
      rfl
    · exact ih h

/-- **Whatever it is given, the function fails if it ends.** -/
theorem tbcDebugFileAndLine_result {r : ℤ × Option ℤ × ℕ}
    (h : (tbcDebugFileAndLine w fuel stack data length offset).result mem = some r) :
    r = (-1, none, 0) := by
  obtain ⟨dbg, -, h⟩ := Logged.exists_of_result_bind h
  rcases dbg with _ | ⟨element, left⟩
  · cases h
    rfl
  obtain ⟨files, -, h⟩ := Logged.exists_of_result_bind h
  rcases files with _ | ⟨files, left'⟩
  · cases h
    rfl
  obtain ⟨lnd, -, h⟩ := Logged.exists_of_result_bind h
  rcases lnd with _ | ⟨lnd, left''⟩
  · cases h
    rfl
  obtain ⟨⟨fileOff, lineOff⟩, -, h⟩ := Logged.exists_of_result_bind h
  obtain ⟨name, hname, h⟩ := Logged.exists_of_result_bind h
  rw [nameAt_result hname] at h
  cases h
  rfl

theorem not_finds (info : DebugInfo) :
    ¬ Finds info offset mem (tbcDebugFileAndLine w fuel stack data length offset) := by
  rintro ⟨t, name, ptr, -, -, hresult, -⟩
  have := congrArg Prod.fst (tbcDebugFileAndLine_result hresult)
  exact absurd this (show (0 : ℤ) ≠ -1 by decide)

end Never

/-! ## The function ends -/

section Ends

variable {w fuel steps length : ℕ} {mem : Memory} {data : ℤ} {id : List UInt8}

theorem decodeElement_keeps (src : ℤ) (n : ℕ) : Logged.Keeps (decodeElement w src n) :=
  Logged.Keeps.ask _ _

theorem tencWalkToElement_keeps (id : List UInt8) (fuel : ℕ) (data : ℤ) (length : ℕ) :
    Logged.Keeps (tencWalkToElement w id fuel data length) := by
  induction fuel generalizing data length with
  | zero => cases length <;> exact fun _ => rfl
  | succ fuel ih =>
    cases length with
    | zero => exact fun _ => rfl
    | succ length =>
      refine (decodeElement_keeps _ _).bind fun r => ?_
      rcases r with _ | ⟨e, left⟩
      · exact Logged.Keeps.pure _
      · dsimp only
        split_ifs
        · exact Logged.Keeps.pure _
        · exact ih _ _

/-- **A walk that begins at its element**. -/
theorem tencWalkToElement_here (hid : Window.read mem data 4 = id) (hfuel : length ≤ fuel) :
    (tencWalkToElement w id fuel data length).result mem =
      some (tencDecodeElement w mem data length) := by
  cases length with
  | zero =>
    have hnone : tencDecodeElement w mem data 0 = none := by
      unfold tencDecodeElement
      exact if_pos (by omega)
    rw [hnone]
    cases fuel <;> rfl
  | succ length =>
    obtain ⟨fuel, rfl⟩ : ∃ k, fuel = k + 1 := ⟨fuel - 1, by omega⟩
    have hdec : (decodeElement w data (length + 1)).result mem =
        some (tencDecodeElement w mem data (length + 1)) := rfl
    rw [tencWalkToElement, (decodeElement_keeps data (length + 1)).result_bind hdec]
    rcases h : tencDecodeElement w mem data (length + 1) with _ | ⟨e, left⟩
    · rfl
    · obtain ⟨-, hread, -⟩ := tencDecodeElement_cases h
      dsimp only
      rw [if_pos (hread.trans hid)]
      rfl

theorem scanTable_ends (offset : ℕ) (found : ℕ × ℕ) (hsteps : length < steps) :
    ∃ r, (scanTable w offset steps data length found).result mem = some r := by
  induction steps generalizing data length found with
  | zero => omega
  | succ steps ih =>
    rw [scanTable]
    split_ifs with hlen
    · have hread : ∀ p, ∃ v, (decodeUnsigned w p).result mem = some v := fun p => ⟨_, rfl⟩
      have hkeeps : ∀ p, Logged.Keeps (decodeUnsigned w p) := fun p => Logged.Keeps.ask _ _
      obtain ⟨bcOff, hbc⟩ := hread data
      rw [(hkeeps _).result_bind hbc]
      split_ifs
      · exact ⟨found, rfl⟩
      · obtain ⟨fileOff, hfile⟩ := hread (data + 4)
        obtain ⟨lineOff, hline⟩ := hread (data + 4 + 4)
        rw [(hkeeps _).result_bind hfile, (hkeeps _).result_bind hline]
        exact ih _ (by omega)
    · exact ⟨found, rfl⟩

theorem scanTable_keeps (offset steps : ℕ) (data : ℤ) (length : ℕ) (found : ℕ × ℕ) :
    Logged.Keeps (scanTable w offset steps data length found) := by
  induction steps generalizing data length found with
  | zero => exact Logged.Keeps.diverge
  | succ steps ih =>
    have hkeeps : ∀ p, Logged.Keeps (decodeUnsigned w p) := fun p => Logged.Keeps.ask _ _
    rw [scanTable]
    split_ifs
    · refine (hkeeps _).bind fun bcOff => ?_
      split_ifs
      · exact Logged.Keeps.pure _
      · exact (hkeeps _).bind fun fileOff => (hkeeps _).bind fun lineOff => ih _ _ _
    · exact Logged.Keeps.pure _

end Ends

/-! ## What is laid out is found -/

section Laid

variable {w fuel steps : ℕ} {mem : Memory} {p : ℤ} {id data rest : List UInt8}

theorem length_elementBytes (w : ℕ) (data : List UInt8) (hid : id.length = 4) :
    (elementBytes w id data).length = w + 4 + (data.length + TEncode.pad w data.length) := by
  rw [elementBytes, List.length_append, List.length_append, List.length_append, hid,
    BigEndian.length_encode, List.length_replicate]
  omega

/-- Where the parts of an element lie. -/
theorem holds_elementBytes (hid : id.length = 4)
    (h : Window.Holds mem p (elementBytes w id data ++ rest)) :
    Window.Holds mem p (id ++ BigEndian.encode w data.length) ∧
      Window.Holds mem (p + (w + 4 : ℕ)) data ∧
      Window.Holds mem (p + (w + 4 : ℕ) + (data.length + TEncode.pad w data.length : ℕ)) rest := by
  have hlen := length_elementBytes w data hid
  have hdata := h.left.left.right
  have hrest := h.right
  rw [List.length_append, hid, BigEndian.length_encode, Nat.add_comm] at hdata
  rw [hlen, Nat.cast_add, ← add_assoc] at hrest
  exact ⟨h.left.left.left, hdata, hrest⟩

theorem loadStr_keeps (id : List UInt8) (p : ℤ) (n : ℕ) : Logged.Keeps (loadStr w fuel id p n) := by
  refine (tencWalkToElement_keeps id fuel p n).bind fun r => ?_
  rcases r with _ | ⟨e, left⟩
  · exact Logged.Keeps.pure _
  · dsimp only
    split_ifs <;> exact Logged.Keeps.pure _

/-- A string that lies where it is looked for. -/
theorem loadStr_here {n left : ℕ} {e : Element} (hid : Window.read mem p 4 = id)
    (hdec : tencDecodeElement w mem p n = some (e, left)) (hlen : 0 < e.length) (hfuel : n ≤ fuel) :
    (loadStr w fuel id p n).result mem = some (some (e.bytes, e.next, left)) := by
  have hwalk := tencWalkToElement_here (w := w) hid hfuel
  rw [hdec] at hwalk
  refine ((tencWalkToElement_keeps id fuel p n).result_bind hwalk).trans ?_
  dsimp only
  rw [if_neg (by omega)]
  rfl

/-- **A list of names is walked to its end.** -/
theorem nameAt_ends (hw : w = 2 ∨ w = 4) (names : List (List UInt8)) (fileOff : ℕ)
    (str : Option ℤ)
    (hold : Window.Holds mem p
      (names.flatMap fun name => elementBytes w (ident "fn S") (name ++ [0])))
    (hfuel : (names.flatMap fun name => elementBytes w (ident "fn S") (name ++ [0])).length ≤ fuel)
    (hrep : Representable w (names.flatMap fun name =>
      elementBytes w (ident "fn S") (name ++ [0])).length)
    (hsteps : names.length < steps) :
    ∃ r, (nameAt w fuel steps fileOff str p (names.flatMap fun name =>
      elementBytes w (ident "fn S") (name ++ [0])).length).result mem = some r := by
  obtain ⟨steps, rfl⟩ : ∃ k, steps = k + 1 := ⟨steps - 1, by omega⟩
  induction names generalizing p fileOff str steps with
  | nil =>
    have hnone : (loadStr w fuel (ident "fn S") p 0).result mem = some none := by
      cases fuel <;> rfl
    rw [nameAt, if_pos (Nat.zero_le fileOff)]
    exact ⟨_, Logged.result_bind hnone⟩
  | cons name names ih =>
    rw [List.flatMap_cons] at hold hfuel hrep ⊢
    have hlen := length_elementBytes w (name ++ [0]) (show (ident "fn S").length = 4 from rfl)
    obtain ⟨hhead, -, hrest⟩ := holds_elementBytes rfl hold
    rw [List.length_append, hlen, add_assoc] at hfuel hrep ⊢
    have hname : (name ++ [0]).length < 256 ^ w := by
      rw [pow_256]
      exact (hrep.mono (by omega)).1
    have hdec := tencDecodeElement_data (by omega) (show (ident "fn S").length = 4 from rfl) hname
      hrep.2 (by decide) hhead
    have hload := loadStr_here (read_id rfl hhead.left) hdec
      (show 0 < (name ++ [0]).length by simp) (show _ ≤ fuel by omega)
    rw [nameAt, if_pos (Nat.zero_le fileOff), (loadStr_keeps _ p _).result_bind hload]
    obtain ⟨steps, rfl⟩ : ∃ k, steps = k + 1 :=
      ⟨steps - 1, by rw [List.length_cons] at hsteps; omega⟩
    exact ih _ _ hrest (by omega) (hrep.mono (by omega)) steps
      (by rw [List.length_cons] at hsteps; omega)

theorem length_names_lt (names : List (List UInt8)) :
    names.length ≤ (names.flatMap fun name =>
      elementBytes w (ident "fn S") (name ++ [0])).length := by
  induction names with
  | nil => exact le_rfl
  | cons name names ih =>
    rw [List.flatMap_cons, List.length_append, List.length_cons,
      length_elementBytes _ _ (show (ident "fn S").length = 4 from rfl)]
    omega

/-- The names take whole words. -/
theorem length_names_mod (hw : w = 2 ∨ w = 4) (names : List (List UInt8)) :
    (names.flatMap fun name => elementBytes w (ident "fn S") (name ++ [0])).length % w = 0 := by
  induction names with
  | nil => exact Nat.zero_mod w
  | cons name names ih =>
    have hpad := add_pad_mod hw (name ++ [0]).length
    rw [List.flatMap_cons, List.length_append,
      length_elementBytes _ _ (show (ident "fn S").length = 4 from rfl)]
    rcases hw with rfl | rfl <;> omega

variable {length left left' n offset : ℕ} {stack : ℕ × ℕ} {ptr : ℤ} {e : Element}

theorem length_lt_of_decode (h : tencDecodeElement w mem p left = some (e, left')) :
    e.length + (w + 4) ≤ left := by
  obtain ⟨hroom, -, ⟨-, hzero, -⟩ | ⟨-, -, hle, -⟩⟩ := tencDecodeElement_cases h <;> omega

/-- An element whose data need no padding, where it is decoded. -/
theorem tencDecodeElement_whole (hid : Window.read mem p 4 = id) (hI : letter id ≠ ascii 'I')
    (hU : letter id ≠ ascii 'U') (hlen : tencDecodeInt w mem (p + 4) = n)
    (hpad : TEncode.pad w n = 0) (hw : 0 < w) (hsmall : n < 2 ^ 31)
    (h : tencDecodeElement w mem p left = some (e, left')) :
    e.length = n ∧ e.bytes = p + (w + 4 : ℕ) ∧ e.next = p + (w + 4 : ℕ) + n ∧ left' ≤ left := by
  obtain ⟨-, hid', ⟨hnum, -⟩ | ⟨-, -, hle, hlength, hdata, hnext, hleft⟩⟩ :=
    tencDecodeElement_cases h
  · rw [hid', hid] at hnum
    exact absurd hnum (not_or.mpr ⟨hI, hU⟩)
  · rw [hlen] at hlength
    rw [hlength, alignUp_toInt hw (by rw [hpad]; exact hsmall), hpad, Nat.add_zero] at hnext hleft
    unfold toUnsigned at hleft
    exact ⟨hlength, by rw [Element.bytes, hdata], hnext, by omega⟩

/-- **On well-formed information the function ends.** -/
theorem tbcDebugFileAndLine_ends (hw : w = 2 ∨ w = 4) (info : DebugInfo)
    (hdbg : (tencWalkToElement w (ident "dbgL") fuel ptr length).result mem = some (some (e, left)))
    (hlen : e.length = (info.bytes w).length) (hold : Window.Holds mem e.bytes (info.bytes w))
    (hrep : Representable w e.length) (hfuel : left ≤ fuel) (hfuel' : e.length ≤ fuel) :
    ∃ r, (tbcDebugFileAndLine w fuel stack ptr length offset).result mem = some r := by
  have hw₀ : 0 < w := by omega
  have htotal := length_elementBytes w (info.nameBytes w) (show (ident "fn L").length = 4 from rfl)
  have hnames : info.names.length ≤ (info.nameBytes w).length := length_names_lt info.names
  have hwhole : (info.nameBytes w).length % w = 0 := length_names_mod hw info.names
  have hpad : TEncode.pad w (info.nameBytes w).length = 0 := if_neg fun h => h hwhole
  rw [DebugInfo.bytes] at hold
  rw [DebugInfo.bytes, List.length_append, htotal] at hlen
  obtain ⟨hhead, hnameBytes, hrest⟩ := holds_elementBytes rfl hold
  rw [hpad, Nat.add_zero] at hrest
  have hrepNames : Representable w (info.nameBytes w).length := hrep.mono (by omega)
  have hshort : (info.nameBytes w).length < fuel := by omega
  have hint : tencDecodeInt w mem (e.bytes + 4) = (info.nameBytes w).length :=
    tencDecodeInt_field (by rw [pow_256]; exact hrepNames.1) hhead.right
  have hid : Window.read mem e.bytes 4 = ident "fn L" := read_id rfl hhead.left
  -- the list of names
  unfold tbcDebugFileAndLine
  rw [(tencWalkToElement_keeps _ _ _ _).result_bind hdbg]
  dsimp only
  rw [(tencWalkToElement_keeps _ _ _ _).result_bind (tencWalkToElement_here hid hfuel)]
  rcases hfiles : tencDecodeElement w mem e.bytes left with _ | ⟨files, left'⟩
  · exact ⟨_, rfl⟩
  obtain ⟨hlength, hbytes, hnext, hleft⟩ := tencDecodeElement_whole hid (by decide) (by decide) hint
    hpad hw₀ hrepNames.2 hfiles
  -- the table
  have hid' : Window.read mem files.next 4 = ident "lndB" := by
    rw [hnext]
    rw [elementBytes, List.append_assoc, List.append_assoc] at hrest
    exact read_id rfl hrest.left
  dsimp only
  rw [(tencWalkToElement_keeps _ _ _ _).result_bind
    (tencWalkToElement_here hid' (hleft.trans hfuel))]
  rcases hlnd : tencDecodeElement w mem files.next left' with _ | ⟨lnd, left''⟩
  · exact ⟨_, rfl⟩
  have hlndLength : lnd.length < fuel := by
    have := length_lt_of_decode hlnd
    clear hnext hbytes hrep hrepNames hlen htotal hwhole hpad
    omega
  obtain ⟨found, hfound⟩ := scanTable_ends (w := w) offset stack
    hlndLength
  obtain ⟨name, hname⟩ := nameAt_ends hw info.names found.1 none
    hnameBytes hshort.le hrepNames (hnames.trans_lt hshort)
  dsimp only
  rw [(scanTable_keeps _ _ _ _ _).result_bind hfound, hbytes, hlength]
  rw [nameAt_result hname] at hname
  exact ⟨(-1, none, 0), (Logged.result_bind hname).trans rfl⟩

/-- **The function never finds a position**: whatever the memory, the run does not end with `0`, and
on well-formed debugging information, wherever it lies, it ends with `-1`, no file and line `0`. -/
theorem tbcDebugFileAndLine_fails (w : ℕ) (hw : w = 2 ∨ w = 4) (info : DebugInfo) (mem : Memory)
    (stack : ℕ × ℕ) (ptr : ℤ) (length offset : ℕ) :
    (∀ fuel, ¬ Finds info offset mem (tbcDebugFileAndLine w fuel stack ptr length offset)) ∧
      ∀ fuel e left,
        (tencWalkToElement w (ident "dbgL") fuel ptr length).result mem = some (some (e, left)) →
        e.length = (info.bytes w).length → Window.Holds mem e.bytes (info.bytes w) →
        Representable w e.length → left ≤ fuel → e.length ≤ fuel →
        (tbcDebugFileAndLine w fuel stack ptr length offset).result mem = some (-1, none, 0) := by
  refine ⟨fun fuel => not_finds info, fun fuel e left hdbg hlen hold hrep hfuel hfuel' => ?_⟩
  obtain ⟨r, hr⟩ := tbcDebugFileAndLine_ends hw info hdbg hlen
    hold hrep hfuel hfuel'
  rw [hr, tbcDebugFileAndLine_result hr]

end Laid

/-- One file, `a`, and one entry: line 7 from offset 0 on. -/
def oneLine : DebugInfo where
  names := [[97]]
  table := [(0, 0, 7)]
  word := by decide
  increasing := List.pairwise_singleton _ _
  file := by decide

/-- The entry as a `dbgL` element of a file, and as much again behind it. -/
def oneLineFile : List UInt8 :=
  elementBytes 4 (ident "dbgL") (oneLine.bytes 4) ++ elementBytes 4 (ident "padB")
    (List.replicate 64 0)

/-- The position of offset 3 is that entry's, and the function does not find it. -/
theorem not_finds_oneLine :
    oneLine.entry 3 = some (0, 0, 7) ∧
      (tbcDebugFileAndLine 4 128 (0, 0) 0 120 3).result (Window.ofList 0 oneLineFile) =
        some (-1, none, 0) ∧
      ¬ Finds oneLine 3 (Window.ofList 0 oneLineFile)
        (tbcDebugFileAndLine 4 128 (0, 0) 0 120 3) := by
  have hrun : (tbcDebugFileAndLine 4 128 (0, 0) 0 120 3).result (Window.ofList 0 oneLineFile) =
      some (-1, none, 0) := by decide +kernel
  refine ⟨by decide, hrun, ?_⟩
  rintro ⟨t, name, ptr, -, -, hresult, -⟩
  rw [hrun] at hresult
  exact absurd (congrArg Prod.fst (Option.some.inj hresult)) (show (-1 : ℤ) ≠ 0 by decide)

/-- The theorem at that file. -/
theorem tbcDebugFileAndLine_fails_oneLine :
    (∀ fuel, ¬ Finds oneLine 3 (Window.ofList 0 oneLineFile)
        (tbcDebugFileAndLine 4 fuel (0, 0) 0 120 3)) ∧
      (tbcDebugFileAndLine 4 128 (0, 0) 0 120 3).result (Window.ofList 0 oneLineFile) =
        some (-1, none, 0) := by
  obtain ⟨hnever, hends⟩ :=
    tbcDebugFileAndLine_fails 4 (Or.inr rfl) oneLine (Window.ofList 0 oneLineFile) (0, 0) 0 120 3
  refine ⟨hnever, hends 128 ⟨ident "dbgL", 40, .bytes 8, 48⟩ 72 (by decide +kernel)
    (by decide +kernel) (by unfold Window.Holds; decide +kernel) (by unfold Representable; decide)
    (by decide) (by decide)⟩

end Tencode

end Kroc
