import Mathlib.Tactic

/-!
# Plinker/Debug — the table of source positions

The directives of `assemble` of `tools/plinker/TVM.pm` and the table that `tools/plinker/main.pl`
makes of them.  A directive is collected at the position of what comes behind it; an entry without a
file gets that of the entry before, and an entry that says nothing new is deleted.

**An entry without a line gets none** (`position_iff`): where the last directives are of a file
only, the line is lost.
-/

namespace Kroc.Plinker.Debug

/-- The name of a file, which is not empty. -/
abbrev FileName := { name : List Char // name ≠ [] }

/-- An entry of `%debug`. -/
@[ext]
structure Entry where
  file : Option FileName
  line : Option ℕ
  deriving DecidableEq

/-- `{}` -/
def Entry.empty : Entry := ⟨none, none⟩

/-- The file as a string. -/
def Entry.name (e : Entry) : List Char := e.file.elim [] (·.1)

/-- The line as a number. -/
def Entry.number (e : Entry) : ℕ := e.line.getD 0

/-- What is emitted: the beginning of a label, so many bytes, and the directives. -/
inductive Op
  | label (pos : ℕ)
  | bytes (n : ℕ)
  | filename (file : FileName)
  | line (number : ℕ)

/-- What `.FILENAME` and `.LINE` do to an entry. -/
def Entry.setFile (file : FileName) (e : Entry) : Entry := { e with file := some file }

def Entry.setLine (number : ℕ) (e : Entry) : Entry := { e with line := some number }

/-- `$debug{$pos}` is made when it is not there, and written. -/
def put (debug : List (ℕ × Entry)) (pos : ℕ) (f : Entry → Entry) : List (ℕ × Entry) :=
  if debug.any fun p => p.1 = pos then debug.map fun p => if p.1 = pos then (p.1, f p.2) else p
  else debug ++ [(pos, f .empty)]

/-- The loops of `assemble`, which dies at a label that should be before `$pos`. -/
def collect : ℕ → List (ℕ × Entry) → List Op → Option (List (ℕ × Entry))
  | _, debug, [] => some debug
  | pos, debug, .label p :: ops => if pos ≤ p then collect p debug ops else none
  | pos, debug, .bytes n :: ops => collect (pos + n) debug ops
  | pos, debug, .filename file :: ops => collect pos (put debug pos (.setFile file)) ops
  | pos, debug, .line number :: ops => collect pos (put debug pos (.setLine number)) ops

/-- One entry of "fill in missing file entries and delete duplicates": what is left, and `$last`,
which comes to be when it is looked at. -/
def fill (s : List (ℕ × Entry) × Option Entry) (p : ℕ × Entry) : List (ℕ × Entry) × Option Entry :=
  if p.2.file = none ∧ s.2 = none then (s.1 ++ [p], none)
  else
    let last := s.2.getD .empty
    let entry : Entry := ⟨p.2.file.or last.file, p.2.line⟩
    if last.name = entry.name ∧ last.number = entry.number then (s.1, some last)
    else (s.1 ++ [(p.1, entry)], some entry)

/-- The debug information that `assemble` returns. -/
def assemble (ops : List Op) : Option (List (ℕ × Entry)) :=
  (collect 0 [] ops).map fun debug =>
    ((debug.mergeSort fun p p' => p.1 ≤ p'.1).foldl fill ([], none)).1

/-- What is packed into `lndB`: offsets, indices of files, and lines.  The files are sorted by how
often they are named, and those that are named as often come in any order. -/
def table (files : List (List Char)) (debug : List (ℕ × Entry)) : List (ℕ × ℕ × ℕ) :=
  debug.map fun p => (p.1, files.idxOf p.2.name, p.2.number)

/-- **What is found at an offset**: the last entry before one that is above it. -/
def position (files : List (List Char)) (lines : List (ℕ × ℕ × ℕ)) (offset : ℕ) :
    Option (List Char × ℕ) := do
  let entry ← (lines.takeWhile fun p => p.1 ≤ offset).getLast?
  let file ← files[entry.2.1]?
  some (file, entry.2.2)

/-! ## What is meant -/

/-- What has been emitted: the last directives, and those at the last position that has any. -/
structure Seen where
  source : Entry
  pos : ℕ
  here : Entry

def Seen.start : Seen := ⟨.empty, 0, .empty⟩

/-- A directive at a position. -/
def Seen.note (s : Seen) (pos : ℕ) (f : Entry → Entry) : Seen :=
  ⟨f s.source, pos, if s.pos = pos then f s.here else f .empty⟩

/-- **What precedes the bytes that cover an offset.** -/
def covering : Seen → ℕ → List Op → ℕ → Option Seen
  | _, _, [], _ => none
  | s, _, .label p :: ops, offset => covering s p ops offset
  | s, pos, .bytes n :: ops, offset =>
    if pos ≤ offset ∧ offset < pos + n then some s else covering s (pos + n) ops offset
  | s, pos, .filename file :: ops, offset => covering (s.note pos (.setFile file)) pos ops offset
  | s, pos, .line number :: ops, offset => covering (s.note pos (.setLine number)) pos ops offset

variable {pos b offset : ℕ} {ops : List Op} {debug l m : List (ℕ × Entry)} {s s' : Seen}
  {f : Entry → Entry}

/-! ## Collecting -/

/-- What is before the position stays. -/
theorem put_append (hl : ∀ p ∈ l, p.1 < pos) : put (l ++ m) pos f = l ++ put m pos f := by
  have hany : (l ++ m).any (fun p => p.1 = pos) = m.any fun p => p.1 = pos := by
    rw [List.any_append, Bool.or_eq_right_iff_imp, List.any_eq_true]
    rintro ⟨p, hp, heq⟩
    have := hl p hp
    simp only [decide_eq_true_eq] at heq
    omega
  have hmap : l.map (fun p => if p.1 = pos then (p.1, f p.2) else p) = l :=
    (List.map_congr_left fun p hp => if_neg (hl p hp).ne).trans (List.map_id l)
  rw [put, put, hany]
  split_ifs
  · rw [List.map_append, hmap]
  · rw [List.append_assoc]

theorem put_nil : put [] pos f = [(pos, f .empty)] := rfl

theorem put_singleton (e : Entry) : put [(pos, e)] pos f = [(pos, f e)] := by simp [put]

theorem mem_put {p : ℕ × Entry} (h : p ∈ put m pos f) : p.1 = pos ∨ p ∈ m := by
  rw [put] at h
  split_ifs at h
  · obtain ⟨p', hp', rfl⟩ := List.mem_map.mp h
    split_ifs with heq
    · exact Or.inl heq
    · exact Or.inr hp'
  · rcases List.mem_append.mp h with h | h
    · exact Or.inr h
    · rw [List.mem_singleton.mp h]
      exact Or.inl rfl

/-- **What was collected before a position stays**, and the rest is at that position or behind. -/
theorem collect_append (hl : ∀ p ∈ l, p.1 < b) (hb : b ≤ pos) (hm : ∀ p ∈ m, b ≤ p.1)
    (h : collect pos (l ++ m) ops = some debug) :
    ∃ m', debug = l ++ m' ∧ ∀ p ∈ m', b ≤ p.1 := by
  induction ops generalizing pos m with
  | nil =>
    cases h
    exact ⟨m, rfl, hm⟩
  | cons op ops ih =>
    have hput : ∀ f, collect pos (put (l ++ m) pos f) ops = some debug →
        ∃ m', debug = l ++ m' ∧ ∀ p ∈ m', b ≤ p.1 := fun f h => by
      rw [put_append fun p hp => (hl p hp).trans_le hb] at h
      refine ih hb (fun p hp => ?_) h
      rcases mem_put hp with e | hp
      · omega
      · exact hm p hp
    cases op with
    | label p =>
      rw [collect] at h
      split_ifs at h with hle
      exact ih (hb.trans hle) hm h
    | bytes n => exact ih (hb.trans (Nat.le_add_right _ _)) hm h
    | filename file => exact hput _ h
    | line number => exact hput _ h

theorem map_fst_put : (put debug pos f).map Prod.fst =
    if pos ∈ debug.map Prod.fst then debug.map Prod.fst else debug.map Prod.fst ++ [pos] := by
  have hany : debug.any (fun p => p.1 = pos) = true ↔ pos ∈ debug.map Prod.fst := by
    simp only [List.any_eq_true, decide_eq_true_eq, List.mem_map]
  rw [put]
  by_cases h : pos ∈ debug.map Prod.fst
  · rw [if_pos (hany.mpr h), if_pos h, List.map_map]
    refine List.map_congr_left fun p _ => ?_
    rw [Function.comp_apply]
    split_ifs <;> rfl
  · rw [if_neg (mt hany.mp h), if_neg h, List.map_append]
    rfl

/-- **The keys are collected in their order.** -/
theorem collect_sorted (h : collect pos l ops = some debug)
    (hl : (l.map Prod.fst).Pairwise (· < ·)) (hle : ∀ k ∈ l.map Prod.fst, k ≤ pos) :
    (debug.map Prod.fst).Pairwise (· < ·) := by
  induction ops generalizing pos l with
  | nil =>
    cases h
    exact hl
  | cons op ops ih =>
    have hput : ∀ f, collect pos (put l pos f) ops = some debug →
        (debug.map Prod.fst).Pairwise (· < ·) := fun f h => by
      refine ih h ?_ ?_
      all_goals
        rw [map_fst_put]
        split_ifs with hpos
      · exact hl
      · refine List.pairwise_append.mpr ⟨hl, List.pairwise_singleton _ _, fun k hk k' hk' => ?_⟩
        rw [List.mem_singleton.mp hk']
        exact (hle k hk).lt_of_ne fun e => hpos (e ▸ hk)
      · exact hle
      · intro k hk
        rcases List.mem_append.mp hk with hk | hk
        · exact hle k hk
        · exact (List.mem_singleton.mp hk).le
    cases op with
    | label p =>
      rw [collect] at h
      split_ifs at h with hp
      exact ih h hl fun k hk => (hle k hk).trans hp
    | bytes n => exact ih h hl fun k hk => (hle k hk).trans (Nat.le_add_right _ _)
    | filename file => exact hput _ h
    | line number => exact hput _ h

/-! ## Filling in -/

/-- The entries that are left are where there were some. -/
theorem foldl_fill {P : ℕ → Prop} (hm : ∀ p ∈ m, P p.1) (r : List (ℕ × Entry) × Option Entry) :
    ∃ x, (m.foldl fill r).1 = r.1 ++ x ∧ ∀ p ∈ x, P p.1 := by
  induction m generalizing r with
  | nil => exact ⟨[], (List.append_nil _).symm, fun p hp => absurd hp List.not_mem_nil⟩
  | cons p m ih =>
    obtain ⟨hp, hm⟩ := List.forall_mem_cons.mp hm
    obtain ⟨y, hy, hkey⟩ : ∃ y, (fill r p).1 = r.1 ++ y ∧ ∀ p' ∈ y, P p'.1 := by
      rw [fill]
      dsimp only
      split_ifs
      · exact ⟨[p], rfl, fun p' hp' => by rwa [List.mem_singleton.mp hp']⟩
      · exact ⟨[], (List.append_nil _).symm, fun p' hp' => absurd hp' List.not_mem_nil⟩
      · exact ⟨_, rfl, fun p' hp' => by rwa [List.mem_singleton.mp hp']⟩
    obtain ⟨x, hx, hkeys⟩ := ih hm (fill r p)
    refine ⟨y ++ x, by rw [List.foldl_cons, hx, hy, List.append_assoc], fun p' hp' => ?_⟩
    exact (List.mem_append.mp hp').elim (hkey p') (hkeys p')

/-- Some entries have been filled in, the last file being `file`: it is that of the last entry that
is left. -/
def Filled (r : List (ℕ × Entry) × Option Entry) (file : Option FileName) : Prop :=
  match file with
  | none => r.2 = none
  | some file => ∃ k e, r.2 = some e ∧ r.1.getLast? = some (k, e) ∧ e.file = some file

theorem name_inj {e e' : Entry} {file file' : FileName} (h : e.file = some file)
    (h' : e'.file = some file') : e.name = e'.name ↔ file = file' := by
  rw [Entry.name, Entry.name, h, h']
  exact Subtype.ext_iff.symm

/-- **Filling in one entry**: what is left last has the last file, and the line of this entry. -/
theorem fill_spec {r : List (ℕ × Entry) × Option Entry} {file file' : Option FileName}
    (h : Filled r file) (p : ℕ × Entry) (hfile : p.2.file.or file = file') :
    Filled (fill r p) file' ∧
      ∃ k e, (fill r p).1.getLast? = some (k, e) ∧ e.file = file' ∧ e.number = p.2.number := by
  obtain ⟨k, e⟩ := p
  dsimp only at hfile ⊢
  cases file' with
  | none =>
    obtain ⟨he, rfl⟩ := Option.or_eq_none_iff.mp hfile
    rw [fill, if_pos ⟨he, h⟩]
    exact ⟨rfl, k, e, List.getLast?_concat, he, rfl⟩
  | some file' =>
    have hlast : ¬ (e.file = none ∧ r.2 = none) := fun ⟨he, hr⟩ => by
      cases file with
      | none =>
        rw [he] at hfile
        cases hfile
      | some file =>
        obtain ⟨k, e', he', -⟩ := h
        rw [hr] at he'
        cases he'
    have hentry : e.file.or (r.2.getD .empty).file = some file' := by
      cases file with
      | none =>
        rw [Filled] at h
        rw [h]
        exact hfile
      | some file =>
        obtain ⟨k, e', he', -, hfile'⟩ := h
        rw [he', Option.getD_some, hfile']
        exact hfile
    rw [fill, if_neg hlast]
    dsimp only
    split_ifs with hsame
    · -- the entry says nothing new
      rw [hentry] at hsame
      cases file with
      | none =>
        rw [Filled] at h
        rw [h] at hsame
        exact absurd hsame.1.symm file'.2
      | some file =>
        obtain ⟨k', e', he', hk', hfile'⟩ := h
        rw [he', Option.getD_some] at hsame
        have hfiles : e'.file = some file' := by
          rw [hfile', (name_inj hfile' rfl).mp hsame.1]
        refine ⟨⟨k', e', congrArg some ?_, hk', hfiles⟩, k', e', hk', hfiles, hsame.2⟩
        rw [he', Option.getD_some]
    · exact ⟨⟨k, _, rfl, List.getLast?_concat, hentry⟩, k, _, List.getLast?_concat, hentry, rfl⟩

/-! ## Where the source is known -/

/-- An entry over another. -/
def Entry.over (e source : Entry) : Entry := ⟨e.file.or source.file, e.line.or source.line⟩

/-- A directive writes what it is about, and nothing else. -/
def Writes (f : Entry → Entry) : Prop := ∀ e source : Entry, f (e.over source) = (f e).over source

theorem writes_setFile (file : FileName) : Writes (.setFile file) := fun _ _ => rfl

theorem writes_setLine (number : ℕ) : Writes (.setLine number) := fun _ _ => rfl

/-- **What has been collected** at a position: the last entry has the directives there, and those
before it the rest. -/
def Collected (pos : ℕ) (debug : List (ℕ × Entry)) (s : Seen) : Prop :=
  (debug = [] ∧ s = .start) ∨
    ∃ before source, debug = before ++ [(s.pos, s.here)] ∧ (∀ p ∈ before, p.1 < s.pos) ∧
      s.pos ≤ pos ∧ s.source = s.here.over source ∧
      Filled (before.foldl fill ([], none)) source.file

theorem Collected.le (h : Collected pos debug s) : ∀ p ∈ debug, p.1 ≤ pos := by
  intro p hp
  rcases h with ⟨rfl, -⟩ | ⟨before, source, rfl, hlt, hle, -⟩
  · cases hp
  · rcases List.mem_append.mp hp with hp | hp
    · exact ((hlt p hp).trans_le hle).le
    · rw [List.mem_singleton.mp hp]
      exact hle

theorem Collected.mono (h : Collected pos debug s) (hb : pos ≤ b) : Collected b debug s := by
  rcases h with h | ⟨before, source, hdebug, hlt, hle, hsource⟩
  · exact Or.inl h
  · exact Or.inr ⟨before, source, hdebug, hlt, hle.trans hb, hsource⟩

theorem note_start : Seen.start.note pos f = ⟨f .empty, pos, f .empty⟩ := by
  rw [Seen.note, Seen.start]
  dsimp only
  rw [ite_self]

theorem Collected.note (h : Collected pos debug s) (hf : Writes f) :
    Collected pos (put debug pos f) (s.note pos f) := by
  rcases h with ⟨rfl, rfl⟩ | ⟨before, source, rfl, hlt, hle, hsource, hfilled⟩
  · rw [note_start]
    exact Or.inr ⟨[], .empty, rfl, fun p hp => absurd hp List.not_mem_nil, le_rfl,
      hf .empty .empty, rfl⟩
  · by_cases hpos : s.pos = pos
    · -- at the same position as the last
      refine Or.inr ⟨before, source, ?_, hpos ▸ hlt, le_rfl, ?_, hfilled⟩
      · rw [Seen.note]
        dsimp only
        rw [if_pos hpos, hpos, put_append (hpos ▸ hlt), put_singleton]
      · rw [Seen.note]
        dsimp only
        rw [if_pos hpos, hsource, hf]
    · have hlast : ∀ p ∈ before ++ [(s.pos, s.here)], p.1 < pos := fun p hp => by
        rcases List.mem_append.mp hp with hp | hp
        · exact (hlt p hp).trans_le hle
        · rw [List.mem_singleton.mp hp]
          exact hle.lt_of_ne hpos
      refine Or.inr ⟨before ++ [(s.pos, s.here)], s.source, ?_, hlast, le_rfl, ?_, ?_⟩
      · have hput := put_append (m := []) (f := f) hlast
        rw [List.append_nil, put_nil] at hput
        rw [hput, Seen.note]
        dsimp only
        rw [if_neg hpos]
      · rw [Seen.note]
        dsimp only
        rw [if_neg hpos]
        exact hf .empty s.source
      · rw [List.foldl_append]
        exact (fill_spec hfilled _ (by rw [hsource]; rfl)).1

/-- **Where the bytes of an offset are**, what was collected is before, and the rest behind. -/
theorem collect_covering (hs : covering s pos ops offset = some s')
    (h : collect pos l ops = some debug) (hl : Collected pos l s) :
    ∃ l' m at', debug = l' ++ m ∧ Collected at' l' s' ∧ at' ≤ offset ∧ ∀ p ∈ m, offset < p.1 := by
  induction ops generalizing pos l s with
  | nil => cases hs
  | cons op ops ih =>
    cases op with
    | label p =>
      rw [collect] at h
      split_ifs at h with hp
      exact ih hs h (hl.mono hp)
    | bytes n =>
      rw [covering] at hs
      rw [collect] at h
      split_ifs at hs with hcover
      · cases hs
        rw [← List.append_nil l] at h
        obtain ⟨m, rfl, hm⟩ := collect_append (b := pos + n)
          (fun p hp => (hl.le p hp).trans_lt (by omega)) le_rfl
          (fun p hp => absurd hp List.not_mem_nil) h
        exact ⟨l, m, pos, rfl, hl, hcover.1, fun p hp => hcover.2.trans_le (hm p hp)⟩
      · exact ih hs h (hl.mono (Nat.le_add_right _ _))
    | filename file => exact ih hs h (hl.note (writes_setFile file))
    | line number => exact ih hs h (hl.note (writes_setLine number))

/-! ## Looking up -/

/-- What is found is the last entry at the offset or before. -/
theorem position_append {files : List (List Char)} {k : ℕ} {e : Entry}
    (hl : ∀ p ∈ l, p.1 ≤ offset) (hm : ∀ p ∈ m, offset < p.1) (hlast : l.getLast? = some (k, e))
    (hmem : e.name ∈ files) :
    position files (table files (l ++ m)) offset = some (e.name, e.number) := by
  have hl' : ∀ p ∈ table files l, decide (p.1 ≤ offset) = true := fun p hp => by
    obtain ⟨p', hp', rfl⟩ := List.mem_map.mp hp
    exact decide_eq_true (hl p' hp')
  have hm' : (table files m).takeWhile (fun p => p.1 ≤ offset) = [] := by
    cases m with
    | nil => rfl
    | cons p m => exact List.takeWhile_cons_of_neg (by simpa using hm p List.mem_cons_self)
  have htake : (table files (l ++ m)).takeWhile (fun p => p.1 ≤ offset) = table files l := by
    rw [table, List.map_append]
    refine (List.takeWhile_append_of_pos hl').trans ?_
    exact (congrArg (table files l ++ ·) hm').trans (List.append_nil _)
  have hget : files[files.idxOf e.name]? = some e.name := by
    have hlt := List.idxOf_lt_length_iff.mpr hmem
    rw [List.getElem?_eq_getElem hlt, List.getElem_idxOf]
  rw [position, htake, table, List.getLast?_map, hlast]
  show (files[files.idxOf e.name]?).bind _ = _
  rw [hget]
  rfl

/-- The keys are in their order as they are. -/
theorem assemble_eq (h : collect 0 [] ops = some debug) :
    assemble ops = some (debug.foldl fill ([], none)).1 := by
  have hsorted := collect_sorted h List.Pairwise.nil fun k hk => absurd hk List.not_mem_nil
  have hsort : debug.mergeSort (fun p p' => p.1 ≤ p'.1) = debug := by
    rw [List.pairwise_map] at hsorted
    exact List.mergeSort_of_pairwise (hsorted.imp fun h => decide_eq_true h.le)
  rw [assemble, h, Option.map_some, hsort]

/-- **The table has the source of an offset** that a directive precedes, exactly where there is a
line among the last directives, those at one position, or the line before them is 0 or there is
none. -/
theorem position_iff {ops : List Op} {debug : List (ℕ × Entry)} {files : List (List Char)}
    (h : assemble ops = some debug) (hfiles : files.Perm (debug.map fun p => p.2.name).dedup)
    {offset : ℕ} {s : Seen} (hs : covering .start 0 ops offset = some s)
    (hknown : s.source ≠ .empty) :
    position files (table files debug) offset = some (s.source.name, s.source.number) ↔
      s.here.line ≠ none ∨ s.source.number = 0 := by
  obtain ⟨collected, hcollect, -⟩ := Option.map_eq_some_iff.mp h
  obtain rfl := Option.some.inj (h.symm.trans (assemble_eq hcollect))
  obtain ⟨l, m, pos, rfl, hl, hle, hm⟩ := collect_covering hs hcollect (Or.inl ⟨rfl, rfl⟩)
  rw [List.foldl_append] at hfiles ⊢
  obtain ⟨before, source, hlast, hlt, hpos, hsource, hfilled⟩ := hl.resolve_left fun e => by
    rw [e.2] at hknown
    exact hknown rfl
  have hfill : s.here.file.or source.file = s.source.file := by rw [hsource]; rfl
  obtain ⟨-, k, e, hk, hefile, henumber⟩ := fill_spec hfilled (s.pos, s.here) hfill
  have hfilledl : (l.foldl fill ([], none)).1.getLast? = some (k, e) := by
    rw [hlast, List.foldl_append]
    exact hk
  obtain ⟨kept, hkept, hbelow⟩ :=
    foldl_fill (P := (· ≤ offset)) (fun p hp => (hl.le p hp).trans hle) ([], none)
  rw [List.nil_append] at hkept
  rw [← hkept] at hbelow
  obtain ⟨rest, hrest, habove⟩ := foldl_fill (P := (offset < ·)) hm (l.foldl fill ([], none))
  have hname : e.name = s.source.name := by rw [Entry.name, Entry.name, hefile]
  have hmem : e.name ∈ files := by
    rw [hfiles.mem_iff, List.mem_dedup, hrest]
    exact List.mem_map.mpr ⟨(k, e), List.mem_append_left _ (List.mem_of_getLast? hfilledl), rfl⟩
  rw [hrest, position_append hbelow habove hfilledl hmem, hname, henumber, Option.some_inj,
    Prod.mk.injEq, and_iff_right rfl, hsource]
  rw [Entry.number, Entry.number, Entry.over]
  cases s.here.line with
  | none => simp [eq_comm]
  | some line => simp

/-- The line of the second byte was said before the first. -/
def lostLine : List Op :=
  [.filename ⟨['a'], List.cons_ne_nil _ _⟩, .line 5, .bytes 1,
    .filename ⟨['b'], List.cons_ne_nil _ _⟩, .bytes 1]

theorem collect_lostLine :
    collect 0 [] lostLine = some [(0, ⟨some ⟨['a'], List.cons_ne_nil _ _⟩, some 5⟩),
      (1, ⟨some ⟨['b'], List.cons_ne_nil _ _⟩, none⟩)] := rfl

theorem position_iff_lostLine :
    position [['a'], ['b']] [(0, 0, 5), (1, 1, 0)] 0 = some (['a'], 5) := by
  have hs : covering .start 0 lostLine 0 =
      some ⟨⟨some ⟨['a'], List.cons_ne_nil _ _⟩, some 5⟩, 0, _, some 5⟩ := rfl
  have hiff :=
    position_iff (assemble_eq collect_lostLine) (List.Perm.refl [['a'], ['b']]) hs (by decide)
  exact hiff.mpr (Or.inl nofun)

/-- **A line is lost** at a file that is not followed by one: 0 is found for 5. -/
theorem position_lost :
    ¬ ∀ (debug : List (ℕ × Entry)) (files : List (List Char)) (offset : ℕ) (s : Seen),
      assemble lostLine = some debug → files.Perm (debug.map fun p => p.2.name).dedup →
      covering .start 0 lostLine offset = some s → s.source ≠ .empty →
      position files (table files debug) offset = some (s.source.name, s.source.number) := by
  intro h
  have hfound :=
    h _ [['a'], ['b']] 1 _ (assemble_eq collect_lostLine) (List.Perm.refl _) rfl (by decide)
  exact absurd hfound (by decide)

end Kroc.Plinker.Debug
