import Kroc.Slinker.Expansions
import Kroc.Slinker.Linking

/-!
# Slinker/Renumber — from the tables of the files to the table that is linked

`renumber4` of `slinker/code-output.ss` with the `inst2binary` behind it: the tables of the files,
expanded, are one list in the order of its keys, and its labels become the numbers of the
instructions behind them.  A label that is set twice is where it was set last.

The labels of a file's jump tables are all of one name.  What is loaded is their difference, which
is that of the two instructions between any such pair.
-/

open HashTable

namespace Kroc

namespace Slinker

/-! ## Renumbering -/

/-- `newh` and `labelmap` -/
structure Renumbering (β : Type*) where
  newh : List (Inst β)
  labelmap : Label → Option ℕ

/-- What `renumber-keys` does with an instruction; `newkey` is the length of `newh`. -/
def renumberKey {β : Type*} (r : Renumbering β) : Inst β → Renumbering β
  | .ulabel name => { r with labelmap := Function.update r.labelmap name (some r.newh.length) }
  | inst => { r with newh := r.newh ++ [inst] }

/-- `renumber-keys` -/
def renumberKeys {β : Type*} (bytes : List (Inst β)) : Renumbering β :=
  bytes.foldl renumberKey ⟨[], fun _ => none⟩

/-- What `renumber-instructions` puts at a key; a label that is not known is an error. -/
def renumberInstruction {β : Type*} (lookup : Label → Option ℕ) : Inst β → Option (Inst β)
  | .ujump value fn => (lookup value).map fun tgt => .ujump (.number tgt) fn
  | .loadLabel value => (lookup value).map fun tgt => .loadLabel (.number tgt)
  | .loadLabelDifference start stop =>
    match lookup start, lookup stop with
    | some start, some stop => some (.loadLabelDifference (.number start) (.number stop))
    | _, _ => none
  | inst => some inst

/-- `renumber4` -/
def renumber4 {β : Type*} (bytes : List (Inst β)) : Option (List (Inst β)) :=
  let r := renumberKeys bytes
  forEach (fun _ => renumberInstruction r.labelmap) 0 r.newh

/-- What `inst2binary` puts at a key. -/
def inst2binary {β : Type*} (ws : ℕ) : Inst β → Inst β
  | .inst fn opd => .binary (prefixing ws fn opd)
  | v => v

/-! ## The table that is linked -/

/-- The records that neither the expansions nor renumbering take apart. -/
inductive Unlinked
  | stubname (value : List ℕ)
  | ffiStubname (value : List ℕ)
  | align (value : ℕ)
  deriving DecidableEq

def Unlinked.entry : Unlinked → Entry
  | .stubname value => .stubname value
  | .ffiStubname value => .ffiStubname value
  | .align value => .align value

/-- A renumbered instruction; the passes before have left no others. -/
def toEntry : Inst Unlinked → Option Entry
  | .binary value => some (.binary value)
  | .ujump (.number value) fn => some (.ujump value fn)
  | .loadLabel (.number value) => some (.loadLabel value)
  | .loadLabelDifference (.number start) (.number stop) => some (.loadLabelDifference start stop)
  | .other v => some v.entry
  | _ => none

/-- The instructions of a file's table, expanded. -/
def fileCode {β : Type*} (ws file : ℕ) (l : List (ℕ × Inst β)) : List (Inst β) :=
  (initialised ws file l).map Prod.snd

/-- The expanded tables of all files, in the order of the keys: `decode` numbers one file behind the
other. -/
def program {β : Type*} (ws : ℕ) (files : List (List (ℕ × Inst β))) : List (Inst β) :=
  files.zipIdx.flatMap fun file => fileCode ws file.2 file.1

/-- The entries that linking starts from. -/
def entries (ws : ℕ) (files : List (List (ℕ × Inst Unlinked))) : Option (List Entry) :=
  (renumber4 (program ws files)).bind fun newh =>
    forEach (fun _ v => toEntry (inst2binary ws v)) 0 newh

/-- The label that an instruction sets. -/
def Inst.sets {β : Type*} : Inst β → Option Label
  | .ulabel name => some name
  | .loopend _ _ stop _ => some stop
  | _ => none

/-- **The tables before the expansions**: `gensym` has not yet made the labels of the
jump tables. -/
def Source {β : Type*} (files : List (List (ℕ × Inst β))) : Prop :=
  ∀ l ∈ files, ∀ p ∈ l, ∀ file, p.2.sets ≠ some (.m file) ∧ p.2.sets ≠ some (.jumpTable file)

/-! ## Where the labels are -/

section located

variable {β : Type*} {ws file : ℕ} {r : Renumbering β} {l : List (ℕ × Inst β)} {v : Inst β}

/-- Everything but the labels. -/
def Inst.kept : Inst β → Bool
  | .ulabel _ => false
  | _ => true

theorem newh_foldl (bytes : List (Inst β)) (r : Renumbering β) :
    (bytes.foldl renumberKey r).newh = r.newh ++ bytes.filter Inst.kept := by
  induction bytes generalizing r with
  | nil => exact (List.append_nil _).symm
  | cons v bytes ih =>
    rw [List.foldl_cons, ih]
    cases v with
    | ulabel name => rfl
    | _ => exact List.append_assoc _ [_] _

/-- **Labels leave no entries.** -/
theorem newh_renumberKeys (bytes : List (Inst β)) :
    (renumberKeys bytes).newh = bytes.filter Inst.kept := newh_foldl bytes _

/-- The labels of a file's jump tables are two entries apart, which are the `bsub` and
the `gcall`. -/
def Located (r : Renumbering β) (file : ℕ) : Prop :=
  ∃ s, r.labelmap (.m file) = some s ∧ r.labelmap (.jumpTable file) = some (s + 2) ∧ 0 < s ∧
    r.newh[s]? = some (.inst op 0x2) ∧ r.newh[s + 1]? = some (.inst op 0x6)

theorem getElem?_append_of_eq_some {α : Type*} {xs : List α} {k : ℕ} {x : α} (h : xs[k]? = some x)
    (ys : List α) : (xs ++ ys)[k]? = some x := by
  rw [List.getElem?_append_left (List.getElem?_eq_some_iff.mp h).1, h]

/-- The instruction does not set the labels of a file's jump tables. -/
def Apart (file : ℕ) (v : Inst β) : Prop := v ≠ .ulabel (.m file) ∧ v ≠ .ulabel (.jumpTable file)

theorem Located.renumberKey (h : Located r file) (hv : Apart file v) :
    Located (renumberKey r v) file := by
  obtain ⟨s, hm, hj, hs, hsub, hcall⟩ := h
  cases v with
  | ulabel name =>
    have hne : Label.m file ≠ name ∧ Label.jumpTable file ≠ name :=
      ⟨fun h => hv.1 (h ▸ rfl), fun h => hv.2 (h ▸ rfl)⟩
    exact ⟨s, (Function.update_of_ne hne.1 _ _).trans hm,
      (Function.update_of_ne hne.2 _ _).trans hj, hs, hsub, hcall⟩
  | _ => exact ⟨s, hm, hj, hs, getElem?_append_of_eq_some hsub _,
    getElem?_append_of_eq_some hcall _⟩

theorem Located.foldl {bytes : List (Inst β)} (h : Located r file)
    (hbytes : ∀ v ∈ bytes, Apart file v) : Located (bytes.foldl Slinker.renumberKey r) file := by
  induction bytes generalizing r with
  | nil => exact h
  | cons v bytes ih =>
    exact ih (h.renumberKey (hbytes v List.mem_cons_self)) fun u hu =>
      hbytes u (List.mem_cons_of_mem _ hu)

/-- What one instruction of a file becomes. -/
def code (ws : ℕ) (b : ℕ × ℕ × Inst β) : List (Inst β) := fileCode ws b.1 [b.2]

/-- The code of a `starttable`. -/
def starttableCode (ws file : ℕ) : List (Inst β) :=
  [.inst ldc (2 * ws), .inst op 0x8, .loadLabelDifference (.m file) (.jumpTable file),
    .inst op 0x1B, .ulabel (.m file), .inst op 0x2, .inst op 0x6, .ulabel (.jumpTable file)]

theorem code_starttable (ws file k : ℕ) :
    code ws (file, k, Inst.starttable) = (starttableCode ws file : List (Inst β)) := rfl

/-- **A jump table sets both labels** around its `bsub` and `gcall`. -/
theorem located_starttable (r : Renumbering β) :
    Located ((starttableCode ws file).foldl renumberKey r) file := by
  have hnewh : ((starttableCode ws file).foldl renumberKey r).newh = r.newh ++
      [.inst ldc (2 * ws), .inst op 0x8, .loadLabelDifference (.m file) (.jumpTable file),
        .inst op 0x1B, .inst op 0x2, .inst op 0x6] := newh_foldl _ _
  refine ⟨r.newh.length + 4, ?_, ?_, Nat.succ_pos _, ?_, ?_⟩
  · simp [starttableCode, renumberKey, Function.update]
  · simp [starttableCode, renumberKey, Function.update]
  · rw [hnewh, List.getElem?_append_right (Nat.le_add_right _ _), Nat.add_sub_cancel_left]
    rfl
  · rw [hnewh, add_assoc, List.getElem?_append_right (Nat.le_add_right _ _),
      Nat.add_sub_cancel_left]
    rfl

theorem pairCode_binary {mspOffset : ℕ} {pair : ℕ × ℕ} (hv : v ∈ pairCode ws mspOffset pair) :
    ∃ value, v = .binary value := by
  unfold pairCode at hv
  split_ifs at hv <;> simp only [List.mem_cons, List.not_mem_nil, or_false] at hv
  · rcases hv with rfl | rfl | rfl <;> exact ⟨_, rfl⟩
  · rcases hv with rfl | rfl | rfl | rfl <;> exact ⟨_, rfl⟩
  · rcases hv with rfl | rfl | rfl | rfl | rfl | rfl <;> exact ⟨_, rfl⟩

theorem insLoc_values (c : ℕ) (vs : List (Inst β)) :
    ((insLoc c vs).map Store.pair).map Prod.snd = vs := by
  induction vs generalizing c with
  | nil => rfl
  | cons v vs ih => exact congrArg (v :: ·) (ih (c + 1))

theorem label_of_mem_mobileinitCode {k mspOffset : ℕ} {pairs : List (ℕ × ℕ)} {name : Label}
    (h : .ulabel name ∈ (mobileinitCode ws k mspOffset pairs : List (Inst β))) :
    name = .mobileinitOut k := by
  rw [mobileinitCode, List.mem_append, List.mem_append] at h
  rcases h with (h | h) | h
  · simp at h
  · obtain ⟨pair, -, h⟩ := List.mem_flatMap.mp h
    obtain ⟨value, h⟩ := pairCode_binary h
    cases h
  · cases List.mem_singleton.mp h
    rfl

/-- **Only a `starttable` sets the labels of a jump table**, and only those of its file. -/
theorem label_of_mem_code {b : ℕ × ℕ × Inst β} {name : Label} (h : .ulabel name ∈ code ws b) :
    b.2.2.sets = some name ∨ (∃ k, name = .mobileinitOut k) ∨
      b.2.2 = .starttable ∧ (name = .m b.1 ∨ name = .jumpTable b.1) := by
  obtain ⟨file, k, v⟩ := b
  cases v with
  | mobileinit mspOffset pairs =>
    have hcode : code ws (file, k, Inst.mobileinit (β := β) mspOffset pairs) =
        ((insLoc k (mobileinitCode ws k mspOffset pairs)).map Store.pair ++ []).map Prod.snd := rfl
    rw [hcode, List.append_nil, insLoc_values] at h
    exact .inr (.inl ⟨k, label_of_mem_mobileinitCode h⟩)
  | starttable =>
    simp [code_starttable, starttableCode] at h
    exact .inr (.inr ⟨rfl, h⟩)
  | ulabel label =>
    have h : Inst.ulabel name ∈ [Inst.ulabel label] := h
    cases List.mem_singleton.mp h
    exact .inl rfl
  | loopend kind ctrlBlockAddr stop start =>
    have h : Inst.ulabel name ∈ [Inst.inst ldlp ctrlBlockAddr, .loadLabelDifference start stop,
      .inst op kind.fn, .ulabel (β := β) stop] := h
    simp at h
    exact .inl (h ▸ rfl)
  | sllimm value | slrimm value =>
    obtain ⟨b₁, b₂, b₃, b₄, hcode⟩ : ∃ b₁ b₂ b₃ b₄, Inst.ulabel name ∈
      [Inst.binary (β := β) b₁, .binary b₂, .binary b₃, .binary b₄] := ⟨_, _, _, _, h⟩
    simp at hcode
  | _ => cases List.mem_singleton.mp h

/-- The label is none of the jump tables of a file. -/
def NotSet (file : ℕ) (v : Inst β) : Prop :=
  v.sets ≠ some (.m file) ∧ v.sets ≠ some (.jumpTable file)

/-- **Whatever an instruction becomes**, the labels stay where there is a `bsub` and a `gcall`. -/
theorem Located.foldl_code (h : Located r file) {b : ℕ × ℕ × Inst β} (hb : NotSet file b.2.2) :
    Located ((code ws b).foldl Slinker.renumberKey r) file := by
  by_cases htable : b.1 = file ∧ b.2.2 = .starttable
  · obtain ⟨g, k, v⟩ := b
    obtain ⟨rfl, rfl⟩ := htable
    exact located_starttable r
  · have hlabel : ∀ name, name = .m file ∨ name = .jumpTable file →
        Inst.ulabel name ∉ code ws b := by
      intro name hname hmem
      rcases label_of_mem_code hmem with hset | ⟨k, rfl⟩ | ⟨hstart, hgensym⟩
      · rcases hname with rfl | rfl
        · exact hb.1 hset
        · exact hb.2 hset
      · rcases hname with hname | hname <;> cases hname
      · refine htable ⟨?_, hstart⟩
        rcases hname with rfl | rfl <;> rcases hgensym with hgensym | hgensym <;> cases hgensym <;>
          rfl
    exact h.foldl fun v hv => ⟨fun hname => hlabel _ (.inl rfl) (hname ▸ hv),
      fun hname => hlabel _ (.inr rfl) (hname ▸ hv)⟩

theorem Located.foldl_flatMap {bs : List (ℕ × ℕ × Inst β)} (h : Located r file)
    (hbs : ∀ b ∈ bs, NotSet file b.2.2) :
    Located ((bs.flatMap (code ws)).foldl Slinker.renumberKey r) file := by
  induction bs generalizing r with
  | nil => exact h
  | cons b bs ih =>
    rw [List.flatMap_cons, List.foldl_append]
    exact ih (h.foldl_code (hbs b List.mem_cons_self)) fun c hc => hbs c (List.mem_cons_of_mem _ hc)

/-- The instructions of all files, each with its file. -/
def tagged (files : List (List (ℕ × Inst β))) : List (ℕ × ℕ × Inst β) :=
  files.zipIdx.flatMap fun file => file.1.map (Prod.mk file.2)

theorem program_eq (ws : ℕ) (files : List (List (ℕ × Inst β))) :
    program ws files = (tagged files).flatMap (code ws) := by
  rw [program, tagged, List.flatMap_assoc]
  refine List.flatMap_congr fun file _ => ?_
  rw [fileCode, initialised_eq, List.map_flatMap, List.flatMap_map]
  rfl

theorem Source.notSet {files : List (List (ℕ × Inst β))} (hsource : Source files)
    {b : ℕ × ℕ × Inst β} (hb : b ∈ tagged files) : NotSet file b.2.2 := by
  obtain ⟨l, hl, hb⟩ := List.mem_flatMap.mp hb
  obtain ⟨p, hp, rfl⟩ := List.mem_map.mp hb
  exact hsource l.1 (List.fst_mem_of_mem_zipIdx hl) p hp file

end located

/-! ## Jump tables -/

section tables

variable {ws n : ℕ} {files : List (List (ℕ × Inst Unlinked))} {targets : List ℕ} {h : List Entry}

/-- The files have a `starttable` with jumps behind it: its code starts at entry `n`, and the jumps
are to the entries `targets`. -/
def HasTable {β : Type*} (ws : ℕ) (files : List (List (ℕ × Inst β))) (n : ℕ) (targets : List ℕ) :
    Prop :=
  ∃ file k pre post, ∃ labels : List (ℕ × Label),
    tagged files = pre ++ (file, k, .starttable) ::
      (labels.map fun q => (file, q.1, .ujump q.2 .j)) ++ post ∧
    n = (renumberKeys (pre.flatMap (code ws))).newh.length ∧
    (labels.map fun q => (renumberKeys (program ws files)).labelmap q.2) = targets.map some

/-- A jump table as it is linked. -/
structure TableAt (ws : ℕ) (h : List Entry) (n : ℕ) (targets : List ℕ) : Prop where
  jumpSize : h[n]? = some (.binary (prefixing ws ldc (2 * ws)))
  prod : h[n + 1]? = some (.binary (prefixing ws op 0x8))
  /-- The two labels are around a `bsub` and a `gcall`. -/
  offset : ∃ s, h[n + 2]? = some (.loadLabelDifference s (s + 2)) ∧ 0 < s ∧
    h[s]? = some (.binary (prefixing ws op 0x2)) ∧
    h[s + 1]? = some (.binary (prefixing ws op 0x6))
  ldpi : h[n + 3]? = some (.binary (prefixing ws op ldpi))
  bsub : h[n + 4]? = some (.binary (prefixing ws op 0x2))
  gcall : h[n + 5]? = some (.binary (prefixing ws op 0x6))
  jump : ∀ i target, targets[i]? = some target → h[n + 6 + i]? = some (.ujump target .j)

theorem getElem?_entries (hentries : entries ws files = some h) {k : ℕ} {v : Inst Unlinked}
    (hk : (renumberKeys (program ws files)).newh[k]? = some v) :
    h[k]? = (renumberInstruction (renumberKeys (program ws files)).labelmap v).bind
      fun w => toEntry (inst2binary ws w) := by
  obtain ⟨newh, hnewh, hentries⟩ := Option.bind_eq_some_iff.mp hentries
  have hget := getElem?_of_forEach hnewh hk
  obtain ⟨w, hw⟩ : ∃ w, newh[k]? = some w := ⟨_, List.getElem?_eq_getElem
    (length_of_forEach hnewh ▸ (List.getElem?_eq_some_iff.mp hk).1)⟩
  rw [hget, hw, Option.bind_some]
  exact (getElem?_of_forEach hentries hw).symm

/-- **The code of a jump table is there**, with labels that are two entries apart. -/
theorem tableAt_of_hasTable (hsource : Source files) (hentries : entries ws files = some h)
    (htable : HasTable ws files n targets) : TableAt ws h n targets := by
  obtain ⟨file, k, pre, post, labels, hfiles, hn, htargets⟩ := htable
  have hprogram : program ws files = pre.flatMap (code ws) ++ (starttableCode ws file ++
      ((labels.map fun q => Inst.ujump q.2 .j) ++ post.flatMap (code ws))) := by
    have hjumps : (labels.map fun q => (file, q.1, Inst.ujump (β := Unlinked) q.2 .j)).flatMap
        (code ws) = labels.map fun q => Inst.ujump q.2 .j := by
      rw [List.flatMap_map, List.map_eq_flatMap]
      rfl
    rw [program_eq, hfiles, List.flatMap_append, List.flatMap_append, List.flatMap_cons,
      code_starttable, hjumps, List.append_assoc, List.append_assoc]
  have hlocated : Located (renumberKeys (program ws files)) file := by
    rw [hprogram, renumberKeys, List.foldl_append, List.foldl_append, List.foldl_append]
    refine Located.foldl_flatMap ((located_starttable _).foldl fun v hv => ?_) fun b hb =>
      hsource.notSet (hfiles ▸ List.mem_append_right _ hb)
    obtain ⟨q, -, rfl⟩ := List.mem_map.mp hv
    exact ⟨nofun, nofun⟩
  have hjumps : (labels.map fun q => Inst.ujump (β := Unlinked) q.2 .j).filter Inst.kept =
      labels.map fun q => Inst.ujump q.2 .j := List.filter_eq_self.mpr fun v hv => by
    obtain ⟨q, -, rfl⟩ := List.mem_map.mp hv
    rfl
  have hget : ∀ {i : ℕ} {v : Inst Unlinked}, ([.inst ldc (2 * ws), .inst op 0x8,
      .loadLabelDifference (.m file) (.jumpTable file), .inst op 0x1B, .inst op 0x2,
      .inst op 0x6] ++ labels.map fun q => Inst.ujump q.2 .j)[i]? = some v →
        (renumberKeys (program ws files)).newh[n + i]? = some v := by
    intro i v hi
    rw [newh_renumberKeys] at hn
    rw [newh_renumberKeys, hprogram, List.filter_append, List.filter_append, List.filter_append,
      hjumps, hn, List.getElem?_append_right (Nat.le_add_right _ _), Nat.add_sub_cancel_left,
      ← List.append_assoc]
    exact getElem?_append_of_eq_some hi _
  obtain ⟨s, hm, hj, hs, hsub, hcall⟩ := hlocated
  refine ⟨getElem?_entries hentries (hget (i := 0) rfl),
    getElem?_entries hentries (hget (i := 1) rfl), ⟨s, ?_, hs, getElem?_entries hentries hsub,
    getElem?_entries hentries hcall⟩, getElem?_entries hentries (hget (i := 3) rfl),
    getElem?_entries hentries (hget (i := 4) rfl), getElem?_entries hentries (hget (i := 5) rfl),
    fun i target htarget => ?_⟩
  · rw [getElem?_entries hentries (hget (i := 2) rfl), renumberInstruction, hm, hj]
    rfl
  · have hlabel : (labels.map fun q => (renumberKeys (program ws files)).labelmap q.2)[i]? =
        some (some target) := by
      rw [htargets, List.getElem?_map, htarget, Option.map_some]
    rw [List.getElem?_map] at hlabel
    obtain ⟨q, hq, htarget⟩ := Option.map_eq_some_iff.mp hlabel
    have hi : (labels.map fun q => Inst.ujump (β := Unlinked) q.2 .j)[i]? =
      some (.ujump q.2 .j) := by
      rw [List.getElem?_map, hq, Option.map_some]
    rw [add_assoc, getElem?_entries hentries (hget (i := 6 + i) ?_), renumberInstruction, htarget]
    · rfl
    · rw [List.getElem?_append_right (Nat.le_add_right 6 i)]
      exact (congrArg _ (Nat.add_sub_cancel_left 6 i)).trans hi

end tables

end Slinker

end Kroc
