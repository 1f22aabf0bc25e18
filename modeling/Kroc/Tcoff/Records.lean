import Kroc.Tcoff.Numbers

/-!
# Tcoff/Records — the lengths of records

`tcoff_putrec` of `ilibr/tcofflib/tcoff_io.c` walks along its format twice: once to add up how long
the record is, and once to write it.  A reader that knows nothing of the tags depends on the first.
-/

namespace Kroc

namespace Tcoff

/-! ## The writer -/

/-- An argument of `tcoff_putrec`; a string is what is in memory from its address on. -/
inductive RecArg
  | str (string : List ℕ)
  | long (l : ℤ)
  | ulong (l : ℕ)
  deriving DecidableEq

/-- `strlen` -/
def strlen : List ℕ → Option ℕ
  | [] => none
  | c :: cs => if c = 0 then some 0 else (strlen cs).map (· + 1)

/-- `tcoff_putul` -/
def putul (l : ℕ) : List ℕ := putBytes 4 l

/-- `tcoff_puts` -/
def puts (size : ℕ) (string : List ℕ) : List ℕ := putl size ++ string.take size

/-- The loop of `_tcoff_record_length`; other characters end the program. -/
def recordLength : List Char → List RecArg → ℤ → Option ℤ
  | [], _, res => some res
  | '%' :: 's' :: p, .str string :: ap, res => do
    let l ← strlen string
    recordLength p ap (res + (sizel l + l))
  | '%' :: 'l' :: 'd' :: p, .long l :: ap, res => recordLength p ap (res + sizel l)
  | '%' :: 'l' :: 'u' :: p, .ulong _ :: ap, res => recordLength p ap (res + 4)
  | ' ' :: p, ap, res => recordLength p ap res
  | _, _, _ => none

/-- `_tcoff_print_rec` -/
def printRec : List Char → List RecArg → Option (List ℕ)
  | [], _ => some []
  | '%' :: 's' :: p, .str string :: ap => do
    let l ← strlen string
    (printRec p ap).map (puts l string ++ ·)
  | '%' :: 'l' :: 'd' :: p, .long l :: ap => (printRec p ap).map (putl l ++ ·)
  | '%' :: 'l' :: 'u' :: p, .ulong l :: ap => (printRec p ap).map (putul l ++ ·)
  | ' ' :: p, ap => printRec p ap
  | _, _ => none

/-- What `tcoff_putrec` is called with. -/
structure Rec where
  tag : ℤ
  fmt : List Char
  args : List RecArg

/-- `tcoff_putrec` -/
def putrec (r : Rec) : Option (List ℕ) := do
  let recLen ← recordLength r.fmt r.args 0
  let written ← printRec r.fmt r.args
  some (putl r.tag ++ putl recLen ++ written)

/-- Records one after another. -/
def putrecs : List Rec → Option (List ℕ)
  | [] => some []
  | r :: rs => do
    let written ← putrec r
    (putrecs rs).map (written ++ ·)

/-- The arguments are those that the format asks for, and the strings have an end. -/
inductive Matches : List Char → List RecArg → Prop
  | nil : Matches [] []
  | space {p : List Char} {ap : List RecArg} (h : Matches p ap) : Matches (' ' :: p) ap
  | str {p : List Char} {ap : List RecArg} (h : Matches p ap) {string : List ℕ}
    (hend : 0 ∈ string) :
      Matches ('%' :: 's' :: p) (.str string :: ap)
  | long {p : List Char} {ap : List RecArg} (h : Matches p ap) (l : ℤ) :
      Matches ('%' :: 'l' :: 'd' :: p) (.long l :: ap)
  | ulong {p : List Char} {ap : List RecArg} (h : Matches p ap) (l : ℕ) :
      Matches ('%' :: 'l' :: 'u' :: p) (.ulong l :: ap)

/-! ## The length -/

/-- The end of a string is one of its bytes. -/
theorem exists_strlen {string : List ℕ} (h : 0 ∈ string) : ∃ l, strlen string = some l := by
  induction string with
  | nil => exact absurd h List.not_mem_nil
  | cons c cs ih =>
    rw [strlen]
    by_cases hc : c = 0
    · exact ⟨0, if_pos hc⟩
    · obtain ⟨l, hl⟩ := ih ((List.mem_cons.mp h).resolve_left (Ne.symm hc))
      exact ⟨l + 1, by rw [if_neg hc, hl, Option.map_some]⟩

theorem strlen_le {string : List ℕ} {l : ℕ} (h : strlen string = some l) : l ≤ string.length := by
  induction string generalizing l with
  | nil => exact absurd h.symm (Option.some_ne_none l)
  | cons c cs ih =>
    rw [strlen, ite_eq_iff] at h
    obtain ⟨-, h⟩ | ⟨-, h⟩ := h
    · exact Option.some.inj h ▸ Nat.zero_le _
    · obtain ⟨n, hn, rfl⟩ := Option.map_eq_some_iff.mp h
      exact Nat.succ_le_succ (ih hn)

/-- What `tcoff_puts` writes is as long as `_tcoff_record_length` takes it to be. -/
theorem length_puts {string : List ℕ} {l : ℕ} (h : strlen string = some l) :
    (puts l string).length = sizel l + l := by
  rw [puts, List.length_append, length_putl, List.length_take_of_le (strlen_le h)]

/-- One more item of a record. -/
theorem map_length_append (item : List ℕ) (rest : Option (List ℕ)) (res : ℤ) :
    (rest.map (item ++ ·)).map (fun written => res + (written.length : ℤ)) =
      rest.map fun written => res + (item.length : ℤ) + written.length := by
  rw [Option.map_map]
  refine congrArg (Option.map · rest) (funext fun written => ?_)
  rw [Function.comp_apply, List.length_append, Nat.cast_add, add_assoc]

/-- **The two walks** along a format agree, and stop at the same characters. -/
theorem recordLength_eq (p : List Char) (ap : List RecArg) (res : ℤ) :
    recordLength p ap res = (printRec p ap).map fun written => res + (written.length : ℤ) := by
  induction p, ap, res using recordLength.induct with
  | case1 ap res =>
    rw [recordLength, printRec, Option.map_some, List.length_nil, Nat.cast_zero, add_zero]
  | case2 p string ap res ih =>
    rw [recordLength, printRec]
    cases hl : strlen string with
    | none => rfl
    | some l =>
      rw [Option.bind_eq_bind, Option.bind_some, Option.bind_eq_bind, Option.bind_some,
        map_length_append, length_puts hl, ih l, Nat.cast_add]
  | case3 p l ap res ih => rw [recordLength, printRec, map_length_append, length_putl, ih]
  | case4 p l ap res ih =>
    rw [recordLength, printRec, map_length_append, putul, length_putBytes, ih]
    rfl
  | case5 p ap res ih => rw [recordLength, printRec, ih]
  | case6 p ap res hend hstr hlong hulong hspace =>
    rw [recordLength, printRec]
    · rfl
    all_goals assumption

/-- What is asked for is written. -/
theorem Matches.printRec {p : List Char} {ap : List RecArg} (h : Matches p ap) :
    ∃ written, printRec p ap = some written := by
  induction h with
  | nil => exact ⟨[], rfl⟩
  | space h ih => exact ih
  | str h hend ih =>
    obtain ⟨written, hwritten⟩ := ih
    obtain ⟨l, hl⟩ := exists_strlen hend
    exact ⟨_, by rw [Tcoff.printRec, hl, hwritten]; rfl⟩
  | long h l ih =>
    obtain ⟨written, hwritten⟩ := ih
    exact ⟨_, by rw [Tcoff.printRec, hwritten]; rfl⟩
  | ulong h l ih =>
    obtain ⟨written, hwritten⟩ := ih
    exact ⟨_, by rw [Tcoff.printRec, hwritten]; rfl⟩

/-- **A record** is its tag, how much follows, and what follows. -/
theorem putrec_eq {r : Rec} {written : List ℕ} (h : printRec r.fmt r.args = some written) :
    putrec r = some (putl r.tag ++ putl written.length ++ written) := by
  have hlen := recordLength_eq r.fmt r.args 0
  rw [h, Option.map_some, zero_add] at hlen
  rw [putrec, hlen, h]
  rfl

/-! ## A reader that skips -/

/-- A reader that looks at the headers alone, with its own reader of numbers; no more than `fuel`
records. -/
def visitRecords (getl : List ℕ → Option (ℤ × List ℕ)) : ℕ → List ℕ → Option (List (ℤ × List ℕ))
  | _, [] => some []
  | 0, _ :: _ => none
  | fuel + 1, b :: fs => do
    let (tag, fs) ← getl (b :: fs)
    let (len, fs) ← getl fs
    if len < 0 ∨ fs.length < len then none
    else (visitRecords getl fuel (fs.drop len.toNat)).map ((tag, fs.take len.toNat) :: ·)

/-- The number is read back, whatever follows. -/
def ReadsBack (getl : List ℕ → Option (ℤ × List ℕ)) (l : ℤ) : Prop :=
  ∀ rest, getl (putl l ++ rest) = some (l, rest)

theorem putl_append_ne_nil (l : ℤ) (rest : List ℕ) : putl l ++ rest ≠ [] := by
  refine List.append_ne_nil_of_left_ne_nil ?_ rest
  rw [putl, putNat, putNat]
  split_ifs <;> exact List.cons_ne_nil _ _

/-- **One record** is visited, and the rest then. -/
theorem visitRecords_append {getl : List ℕ → Option (ℤ × List ℕ)} {tag : ℤ} {written : List ℕ}
    (htag : ReadsBack getl tag) (hlen : ReadsBack getl written.length) (fuel : ℕ) (rest : List ℕ) :
    visitRecords getl (fuel + 1) (putl tag ++ putl written.length ++ written ++ rest) =
      (visitRecords getl fuel rest).map ((tag, written) :: ·) := by
  have hfits : ¬ ((written.length : ℤ) < 0 ∨ ((written ++ rest).length : ℤ) < written.length) := by
    rw [List.length_append]
    omega
  obtain ⟨b, fs, hfile⟩ :=
    List.exists_cons_of_ne_nil (putl_append_ne_nil tag (putl written.length ++ (written ++ rest)))
  rw [List.append_assoc, List.append_assoc, hfile, visitRecords, ← hfile, htag, Option.bind_eq_bind,
    Option.bind_some]
  dsimp only
  rw [hlen, Option.bind_some]
  dsimp only
  rw [if_neg hfits, Int.toNat_natCast, List.drop_left, List.take_left]

/-- **Records** that have been written one after another are visited in order. -/
theorem visitRecords_putrecs {getl : List ℕ → Option (ℤ × List ℕ)} {rs : List Rec}
    (hmatches : ∀ r ∈ rs, Matches r.fmt r.args)
    (hreads : ∀ r ∈ rs, ∀ written ∈ printRec r.fmt r.args,
      ReadsBack getl r.tag ∧ ReadsBack getl written.length) :
    ∃ file visited, putrecs rs = some file ∧
      List.Forall₂ (fun r v => v.1 = r.tag ∧ printRec r.fmt r.args = some v.2) rs visited ∧
      ∀ fuel ≥ rs.length, visitRecords getl fuel file = some visited := by
  induction rs with
  | nil =>
    refine ⟨[], [], rfl, .nil, fun fuel _ => ?_⟩
    rw [visitRecords]
  | cons r rs ih =>
    obtain ⟨hr, hrs⟩ := List.forall_mem_cons.mp hmatches
    obtain ⟨hread, hreads⟩ := List.forall_mem_cons.mp hreads
    obtain ⟨file, visited, hfile, hvisited, hvisit⟩ := ih hrs hreads
    obtain ⟨written, hwritten⟩ := hr.printRec
    obtain ⟨htag, hlen⟩ := hread written hwritten
    refine ⟨putl r.tag ++ putl written.length ++ written ++ file, (r.tag, written) :: visited, ?_,
      .cons ⟨rfl, hwritten⟩ hvisited, fun fuel hfuel => ?_⟩
    · rw [putrecs, putrec_eq hwritten, Option.bind_eq_bind, Option.bind_some, hfile,
        Option.map_some]
    · obtain ⟨fuel, rfl⟩ : ∃ n, fuel = n + 1 := Nat.exists_eq_add_one_of_ne_zero (by
        rw [List.length_cons] at hfuel
        omega)
      rw [visitRecords_append htag hlen, hvisit fuel (Nat.le_of_succ_le_succ hfuel),
        Option.map_some]

/-- **The lengths of records are exact**: `tcoff_putrec` writes the tag, the number of bytes that
follow and these bytes, and a reader that skips what it has the length of visits the records that
were written, if it reads back the numbers in their headers. -/
theorem putrec_exact :
    (∀ r : Rec, Matches r.fmt r.args → ∃ written, printRec r.fmt r.args = some written ∧
      putrec r = some (putl r.tag ++ putl written.length ++ written)) ∧
    ∀ (getl : List ℕ → Option (ℤ × List ℕ)) (rs : List Rec), (∀ r ∈ rs, Matches r.fmt r.args) →
      (∀ r ∈ rs, ∀ written ∈ printRec r.fmt r.args,
        ReadsBack getl r.tag ∧ ReadsBack getl written.length) →
      ∃ file visited, putrecs rs = some file ∧
        List.Forall₂ (fun r v => v.1 = r.tag ∧ printRec r.fmt r.args = some v.2) rs visited ∧
        ∀ fuel ≥ rs.length, visitRecords getl fuel file = some visited :=
  ⟨fun _ h => h.printRec.imp fun _ hwritten => ⟨hwritten, putrec_eq hwritten⟩,
    fun _ _ => visitRecords_putrecs⟩

/-- A negative number and a string, and behind them a number of three bytes. -/
def twoRecs : List Rec :=
  [⟨20, ['%', 'l', 'd', ' ', '%', 's'], [.long (-5), .str [104, 105, 0, 7]]⟩,
    ⟨300, ['%', 'l', 'd'], [.long 70000]⟩]

/-- The two records, as the reader of tcofflib visits them where `long int` has 64 bits. -/
theorem putrec_exact_two :
    ∃ file visited, putrecs twoRecs = some file ∧
      List.Forall₂ (fun r v => v.1 = r.tag ∧ printRec r.fmt r.args = some v.2) twoRecs visited ∧
      ∀ fuel ≥ 2, visitRecords (getlTest 64) fuel file = some visited := by
  refine putrec_exact.2 (getlTest 64) twoRecs ?_ ?_
  · exact List.forall_mem_cons.mpr ⟨.long (.space (.str .nil (by decide))) (-5),
      List.forall_mem_singleton.mpr (.long .nil 70000)⟩
  · refine List.forall_mem_cons.mpr ⟨fun written hwritten => ?_,
      List.forall_mem_singleton.mpr fun written hwritten => ?_⟩
    · have hput : printRec ['%', 'l', 'd', ' ', '%', 's'] [.long (-5), .str [104, 105, 0, 7]] =
          some [255, 4, 2, 104, 105] := by
        simp [printRec, strlen, puts, putl, putNat, complement]
      obtain rfl := Option.some.inj (hwritten.symm.trans hput)
      exact ⟨fun _ => getlTest_putl (by decide) ⟨by decide, by decide⟩,
        fun _ => getlTest_putl (by decide) ⟨by decide, by decide⟩⟩
    · have hput : printRec ['%', 'l', 'd'] [.long 70000] = some [253, 112, 17, 1, 0] := by
        simp [printRec, putl, putNat, countBytes, bytesToTag, putBytes]
      obtain rfl := Option.some.inj (hwritten.symm.trans hput)
      exact ⟨fun _ => getlTest_putl (by decide) ⟨by decide, by decide⟩,
        fun _ => getlTest_putl (by decide) ⟨by decide, by decide⟩⟩

end Tcoff

end Kroc
