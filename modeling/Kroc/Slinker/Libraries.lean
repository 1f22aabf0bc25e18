import Kroc.Lib.Demand
import Kroc.Lib.HashTable
import Kroc.Slinker.Linking

/-!
# Slinker/Libraries — linking with precompiled libraries

The passes of `slinker/code-merging.ss` over `*precompiled-libraries*`, in the order of
`slinker.sxml`: `dead-library-elimination`, `set-precompiled-library-offsets`,
`insert-precompiled-libraries` and `merge-library-globalnames`, and the passes behind them that turn
the stubs into jumps.  An error is `none`.

The libraries that are left are those that something needs (`deadLibraryElimination_eq`).  Linked
with them, a program is what linking makes of all the code, one module behind the other, and a stub
is a jump to whatever module exports its name (`linkWithLibraries_eq`, `calls_resolved`).
-/

open HashTable Offsets

namespace Kroc

namespace Slinker

/-! ## Libraries -/

/-- `pass`, with the one piece of metadata that is changed. -/
structure Pass where
  globalnames : HashTable (List ℕ) ℕ
  bytes : HashTable ℕ Entry

/-- An entry as it is when libraries are inserted: loads are bytes by then, and jumps of a library
too, which is `Settled 0`. -/
def Entry.Settled (n : ℕ) : Entry → Prop
  | .binary _ | .stubname _ | .ffiStubname _ => True
  | .ujump target _ => target < n
  | _ => False

/-- **A renumbered table**, and the entries that it exports. -/
structure Module extends Pass where
  contiguous : bytes.Contiguous
  exports_lt : ∀ name k, globalnames.lookup name = some k → k < bytes.count

/-- The program, without its libraries. -/
structure Program extends Module where
  settled : ∀ k v, bytes.lookup k = some v → v.Settled bytes.count

/-- **A library**, with the `required-stubnames` that are written into it. -/
structure Library extends Module where
  filename : List ℕ
  requiredStubnames : List (List ℕ)
  settled : ∀ k v, bytes.lookup k = some v → v.Settled 0
  required_iff : ∀ name, name ∈ requiredStubnames ↔ ∃ k, bytes.lookup k = some (.stubname name)

/-- The names of the stubs, as `dead-library-elimination` and `binary2scheme` gather them. -/
def stubnames (bytes : HashTable ℕ Entry) : List (List ℕ) :=
  bytes.pairs.foldl (fun stubnames p => match p.2 with
    | .stubname value => value :: stubnames
    | _ => stubnames) []

theorem mem_stubnames {bytes : HashTable ℕ Entry} {name : List ℕ} :
    name ∈ stubnames bytes ↔ ∃ k, bytes.lookup k = some (.stubname name) := by
  have hfold : ∀ (l : List (ℕ × Entry)) (names : List (List ℕ)),
      name ∈ l.foldl (fun stubnames p => match p.2 with
        | .stubname value => value :: stubnames
        | _ => stubnames) names ↔ (∃ k, (k, .stubname name) ∈ l) ∨ name ∈ names := by
    intro l
    induction l with
    | nil => exact fun names => ⟨Or.inr, fun h => h.resolve_left fun ⟨_, h⟩ => List.not_mem_nil h⟩
    | cons p l ih =>
      intro names
      obtain ⟨k, v⟩ := p
      rw [List.foldl_cons, ih]
      simp only [List.mem_cons, Prod.mk.injEq, exists_or]
      cases v <;> simp [or_assoc, or_comm, or_left_comm]
  rw [stubnames, hfold, or_iff_left List.not_mem_nil]
  simp only [mem_pairs_iff]

/-- `binary2scheme`, which writes a library, and what loading it gives. -/
def binary2scheme (filename : List ℕ) (m : Module)
    (settled : ∀ k v, m.bytes.lookup k = some v → v.Settled 0) : Library where
  toModule := m
  filename := filename
  requiredStubnames := stubnames m.bytes
  settled := settled
  required_iff := fun _ => mem_stubnames

/-! ## The passes -/

/-- What a library provides and needs. -/
def demand : Demand.Modules Library (List ℕ) (List ℕ) where
  key := Library.filename
  provides lib stub := (lib.globalnames.lookup stub).isSome
  needs := Library.requiredStubnames

/-- `dead-library-elimination`: the loop over the list of stubnames, and the new list of
libraries. -/
def deadLibraryElimination (bytes : HashTable ℕ Entry) (libs : List Library) :
    Option (List Library) :=
  (demand.loop libs (libs.length + 1) ⟨stubnames bytes, []⟩).map fun s =>
    libs.foldl (fun kept lib => if lib.filename ∈ s.taken then lib :: kept else kept) []

/-- What `set-precompiled-library-offsets` does with a library. -/
def Pass.bump (currentOffset : ℕ) (lib : Pass) : Pass where
  globalnames := lib.globalnames.putAll
    (lib.globalnames.pairs.map fun p => (p.1, p.2 + currentOffset))
  bytes := HashTable.putAll ∅ (lib.bytes.pairs.map fun p => (p.1 + currentOffset, p.2))

/-- `set-precompiled-library-offsets`, from `current-offset`. -/
def setPrecompiledLibraryOffsets : ℕ → List Pass → List Pass
  | _, [] => []
  | currentOffset, lib :: libs =>
    lib.bump currentOffset ::
      setPrecompiledLibraryOffsets (currentOffset + (lib.bump currentOffset).bytes.count) libs

/-- `insert-precompiled-libraries` -/
def insertPrecompiledLibraries (bytes : HashTable ℕ Entry) (libs : List Pass) :
    Option (HashTable ℕ Entry) :=
  libs.foldlM (fun bytes lib => bytes.putNew lib.bytes.pairs) bytes

/-- `merge-library-globalnames` -/
def mergeLibraryGlobalnames (globalnames : HashTable (List ℕ) ℕ) (libs : List Pass) :
    Option (HashTable (List ℕ) ℕ) := do
  let new ← libs.foldlM (fun new lib => HashTable.putNew new lib.globalnames.pairs) ∅
  HashTable.putNew new globalnames.pairs

/-- A renumbered table, as the list that the passes of linking go over. -/
def listing (bytes : HashTable ℕ Entry) : List Entry :=
  (List.range bytes.count).filterMap fun k => bytes.lookup k

/-- The passes from `expand-ffi-stubnames` on, and the bytes that are left. -/
def finish (ws : ℕ) (globalnames : List ℕ → Option ℕ) (ffiIndex : List ℕ → ℤ) (h : List Entry) :
    Option (List (List ℕ)) := do
  let h ← expandFfiStubnames ws ffiIndex h
  let h ← resolveStubnamesPicky ws globalnames h
  let h ← jumps2binary ws h
  forEach (fun _ v => v.binaryValue) 0 h

/-- **Linking with libraries**, from the elimination of those that are not needed. -/
def linkWithLibraries (ws : ℕ) (ffiIndex : List ℕ → ℤ) (program : Program)
    (libs : List Library) : Option (List (List ℕ)) := do
  let libs ← deadLibraryElimination program.bytes libs
  let libs := setPrecompiledLibraryOffsets program.bytes.count
    (libs.map fun lib => lib.toPass)
  let bytes ← insertPrecompiledLibraries program.bytes libs
  let globalnames ← mergeLibraryGlobalnames program.globalnames libs
  finish ws globalnames.lookup ffiIndex (listing bytes)

/-! ## What linking with libraries is -/

/-- The code of the modules, one behind the other. -/
def merged (modules : List Module) : List Entry := modules.flatMap fun m => listing m.bytes

/-- What the modules export, of code that starts at entry `start`. -/
def exported (start : ℕ) : List Module → List ℕ → Option ℕ
  | [], _ => none
  | m :: modules, name =>
    match m.globalnames.lookup name with
    | some k => some (start + k)
    | none => exported (start + m.bytes.count) modules name

/-- No two modules export one name. -/
def Distinct (modules : List Module) : Prop :=
  modules.Pairwise fun m m' => ∀ name, name ∈ m.globalnames → name ∉ m'.globalnames

/-- **The libraries that are needed**: they export the name of a stub of the program, or of a
library that is needed. -/
def Needed (program : Module) (libs : List Library) (lib : Library) : Prop :=
  demand.Wanted libs (stubnames program.bytes) lib

open scoped Classical in
/-- They are linked from the last to the first. -/
noncomputable def needed (program : Module) (libs : List Library) : List Library :=
  (libs.filter fun lib => Needed program libs lib).reverse

/-- The program and the libraries that it needs. -/
noncomputable def modules (program : Module) (libs : List Library) : List Module :=
  program :: (needed program libs).map fun lib => lib.toModule

variable {ws start : ℕ} {ffiIndex : List ℕ → ℤ} {globalnames : List ℕ → Option ℕ}
  {program : Module} {libs : List Library} {lib : Library} {ms : List Module} {m : Module}
  {bytes t : HashTable ℕ Entry} {name : List ℕ} {k : ℕ} {v : Entry} {h : List Entry}

/-! ## Elimination -/

theorem foldl_kept (p : Library → Prop) [DecidablePred p] (libs kept : List Library) :
    libs.foldl (fun kept lib => if p lib then lib :: kept else kept) kept =
      (libs.filter fun lib => p lib).reverse ++ kept := by
  induction libs generalizing kept with
  | nil => rfl
  | cons lib libs ih =>
    rw [List.foldl_cons, ih, List.filter_cons]
    by_cases hp : p lib
    · rw [if_pos hp, if_pos (decide_eq_true hp), List.reverse_cons, List.append_assoc]
      rfl
    · rw [if_neg hp, if_neg (by simpa using hp)]

theorem mem_needed : lib ∈ needed program libs ↔ lib ∈ libs ∧ Needed program libs lib := by
  simp [needed]

/-- **`dead-library-elimination` ends**, and leaves exactly what is needed. -/
theorem deadLibraryElimination_eq (hlibs : (libs.map Library.filename).Nodup) :
    deadLibraryElimination program.bytes libs = some (needed program libs) := by
  have hfuel : demand.left libs ⟨stubnames program.bytes, []⟩ < libs.length + 1 :=
    Nat.lt_succ_of_le (demand.left_le _ _)
  obtain ⟨s, hs, htaken⟩ :=
    Demand.Modules.loop_eq hlibs (demand.sound_start libs (stubnames program.bytes)) hfuel
  rw [deadLibraryElimination, hs, Option.map_some, foldl_kept, List.append_nil, needed]
  congr 2
  refine List.filter_congr fun lib hlib => ?_
  exact decide_eq_decide.mpr (htaken lib hlib)

/-! ## Offsets -/

theorem lookup_bump (start : ℕ) (m : Pass) (name : List ℕ) :
    (m.bump start).globalnames.lookup name = (m.globalnames.lookup name).map (· + start) := by
  have hnodup : ((m.globalnames.pairs.map fun p => (p.1, p.2 + start)).map Prod.fst).Nodup := by
    rw [List.map_map]
    exact m.globalnames.nodup_pairs
  refine Option.ext fun k => ?_
  rw [Pass.bump, lookup_putAll_eq_some_iff hnodup, Option.map_eq_some_iff]
  simp only [List.mem_map, Prod.exists, Prod.mk.injEq, mem_pairs_iff]
  constructor
  · rintro (⟨name', k', hk', rfl, rfl⟩ | ⟨hnot, hk⟩)
    · exact ⟨k', hk', rfl⟩
    · exact absurd ⟨name, k + start, ⟨name, k, hk, rfl, rfl⟩, rfl⟩ hnot
  · rintro ⟨k', hk', rfl⟩
    exact Or.inl ⟨name, k', hk', rfl, rfl⟩

theorem mem_bump : name ∈ (m.bump start).globalnames ↔ name ∈ m.globalnames := by
  rw [mem_iff, mem_iff, lookup_bump]
  simp

theorem lookup_bump_bytes (start : ℕ) (m : Pass) (k : ℕ) :
    (m.bump start).bytes.lookup k = if start ≤ k then m.bytes.lookup (k - start) else none := by
  have hnodup : ((m.bytes.pairs.map fun p => (p.1 + start, p.2)).map Prod.fst).Nodup := by
    have := m.bytes.nodup_pairs.map (add_left_injective start)
    rwa [List.map_map] at this ⊢
  refine Option.ext fun v => ?_
  rw [Pass.bump, lookup_putAll_eq_some_iff hnodup, AList.lookup_empty]
  simp only [List.mem_map, Prod.exists, Prod.mk.injEq, mem_pairs_iff, reduceCtorEq, and_false,
    or_false]
  constructor
  · rintro ⟨k', v', hk', rfl, rfl⟩
    rwa [if_pos (Nat.le_add_left _ _), Nat.add_sub_cancel]
  · intro h
    split_ifs at h with hle
    exact ⟨k - start, v, h, Nat.sub_add_cancel hle, rfl⟩

theorem count_bump (start : ℕ) (m : Pass) : (m.bump start).bytes.count = m.bytes.count := by
  have hnodup : ((m.bytes.pairs.map fun p => (p.1 + start, p.2)).map Prod.fst).Nodup := by
    have := m.bytes.nodup_pairs.map (add_left_injective start)
    rwa [List.map_map] at this ⊢
  rw [Pass.bump, count_putAll hnodup fun p _ => AList.notMem_empty p.1, List.length_map,
    length_pairs]
  exact Nat.zero_add _

/-! ## Tables as lists -/

theorem count_eq_length (ht : ∀ k, t.lookup k = h[k]?) : t.count = h.length := by
  rw [← length_keys, ← List.length_range (n := h.length)]
  refine List.Perm.length_eq
    ((List.perm_ext_iff_of_nodup t.keys_nodup List.nodup_range).mpr fun k => ?_)
  rw [← AList.mem_keys, mem_iff, ht, List.mem_range]
  exact ⟨fun ⟨_, hv⟩ => (List.getElem?_eq_some_iff.mp hv).1,
    fun hlt => ⟨_, List.getElem?_eq_getElem hlt⟩⟩

theorem filterMap_range (h : List Entry) :
    ((List.range h.length).filterMap fun k => h[k]?) = h := by
  induction h using List.reverseRecOn with
  | nil => rfl
  | append_singleton h v ih =>
    rw [List.length_append, List.length_singleton, List.range_succ, List.filterMap_append]
    have hcongr : ((List.range h.length).filterMap fun k => (h ++ [v])[k]?) =
        (List.range h.length).filterMap fun k => h[k]? :=
      List.filterMap_congr fun k hk => List.getElem?_append_left (List.mem_range.mp hk)
    rw [hcongr, ih]
    simp

/-- **A table has one list.** -/
theorem listing_eq (ht : ∀ k, t.lookup k = h[k]?) : listing t = h := by
  rw [listing, count_eq_length ht]
  simp only [ht]
  exact filterMap_range h

theorem getElem?_listing (ht : t.Contiguous) (k : ℕ) : (listing t)[k]? = t.lookup k := by
  have hlist : ∀ k, t.lookup k =
      ((List.range t.count).pmap (fun k hk => (t.lookup k).get hk) fun k hk =>
        AList.lookup_isSome.mpr ((ht k).mpr (List.mem_range.mp hk)))[k]? := by
    intro k
    rw [List.getElem?_pmap]
    by_cases hk : k < t.count
    · simp [hk]
    · simp [hk, AList.lookup_eq_none.mpr (mt (ht k).mp hk)]
  rw [listing_eq hlist, ← hlist]

theorem length_listing (ht : t.Contiguous) : (listing t).length = t.count :=
  (count_eq_length fun k => (getElem?_listing ht k).symm).symm

/-! ## Insertion -/

/-- The pairs that are inserted, of modules from `start` on. -/
def insertions (start : ℕ) (ms : List Module) : List (ℕ × Entry) :=
  (setPrecompiledLibraryOffsets start (ms.map fun m => m.toPass)).flatMap fun m => m.bytes.pairs

theorem insertions_cons (start : ℕ) (m : Module) (ms : List Module) :
    insertions start (m :: ms) =
      (m.bump start).bytes.pairs ++ insertions (start + m.bytes.count) ms := by
  rw [insertions, List.map_cons, setPrecompiledLibraryOffsets, List.flatMap_cons, count_bump]
  rfl

theorem merged_cons (m : Module) (ms : List Module) :
    merged (m :: ms) = listing m.bytes ++ merged ms := List.flatMap_cons

/-- **Every entry is inserted where its module is put.** -/
theorem mem_insertions :
    (k, v) ∈ insertions start ms ↔ start ≤ k ∧ (merged ms)[k - start]? = some v := by
  induction ms generalizing start with
  | nil => exact ⟨fun h => absurd h List.not_mem_nil, fun h => (by cases h.2)⟩
  | cons m ms ih =>
    have hlen := length_listing m.contiguous
    rw [insertions_cons, List.mem_append, mem_pairs_iff, lookup_bump_bytes, ih, merged_cons]
    by_cases hk : k < start + m.bytes.count
    · by_cases hle : start ≤ k
      · rw [if_pos hle, List.getElem?_append_left (by omega), getElem?_listing m.contiguous]
        refine ⟨fun h => ⟨hle, h.resolve_right (by omega)⟩, fun h => Or.inl h.2⟩
      · rw [if_neg hle]
        exact ⟨fun h => h.elim (fun h => (by cases h)) (by omega), fun h => absurd h.1 hle⟩
    · have hnone : m.bytes.lookup (k - start) = none :=
        AList.lookup_eq_none.mpr fun hmem => by
          have := (m.contiguous _).mp hmem
          omega
      rw [if_pos (by omega), hnone, List.getElem?_append_right (by omega), hlen, Nat.sub_sub]
      exact ⟨fun h => h.elim (fun h => (by cases h)) fun h => ⟨by omega, h.2⟩,
        fun h => Or.inr ⟨by omega, h.2⟩⟩

theorem nodup_insertions : ((insertions start ms).map Prod.fst).Nodup := by
  induction ms generalizing start with
  | nil => exact List.nodup_nil
  | cons m ms ih =>
    rw [insertions_cons, List.map_append]
    refine List.Nodup.append (nodup_pairs _) ih fun k hk hk' => ?_
    obtain ⟨p, hp, rfl⟩ := List.mem_map.mp hk
    obtain ⟨q, hq, heq⟩ := List.mem_map.mp hk'
    have hq := (mem_insertions.mp hq).1
    rw [mem_pairs_iff, lookup_bump_bytes] at hp
    split_ifs at hp with hle
    have := (m.contiguous _).mp (mem_iff.mpr ⟨_, hp⟩)
    omega

/-- **`insert-precompiled-libraries` never puts one entry over another**, and leaves the code of all
modules. -/
theorem insertPrecompiledLibraries_eq (m : Module) (ms : List Module) :
    ∃ t, insertPrecompiledLibraries m.bytes
        (setPrecompiledLibraryOffsets m.bytes.count (ms.map fun m => m.toPass)) = some t ∧
      ∀ k, t.lookup k = (merged (m :: ms))[k]? := by
  have hnew : ∀ p ∈ insertions m.bytes.count ms, p.1 ∉ m.bytes := fun p hp hmem => by
    have := (mem_insertions.mp hp).1
    have := (m.contiguous _).mp hmem
    omega
  refine ⟨m.bytes.putAll (insertions m.bytes.count ms), ?_, fun k => Option.ext fun v => ?_⟩
  · rw [insertPrecompiledLibraries, foldlM_putNew]
    exact putNew_eq_some_iff.mpr ⟨nodup_insertions, hnew, rfl⟩
  · have hlen := length_listing m.contiguous
    rw [lookup_putAll_eq_some_iff nodup_insertions, mem_insertions, merged_cons]
    by_cases hk : k < m.bytes.count
    · rw [List.getElem?_append_left (by omega), getElem?_listing m.contiguous]
      refine ⟨fun h => h.elim (fun h => absurd h.1 (by omega)) And.right, fun h => Or.inr ⟨?_, h⟩⟩
      intro hmem
      obtain ⟨p, hp, rfl⟩ := List.mem_map.mp hmem
      exact hnew p hp (mem_iff.mpr ⟨v, h⟩)
    · rw [List.getElem?_append_right (by omega), hlen]
      refine ⟨fun h => h.elim And.right fun h => ?_, fun h => Or.inl ⟨by omega, h⟩⟩
      exact absurd ((m.contiguous k).mp (mem_iff.mpr ⟨v, h.2⟩)) hk

/-! ## Names -/

/-- The pairs of `globalnames` that are merged, of modules from `start` on. -/
def exports (start : ℕ) (ms : List Module) : List (List ℕ × ℕ) :=
  (setPrecompiledLibraryOffsets start (ms.map fun m => m.toPass)).flatMap
    fun m => m.globalnames.pairs

theorem exports_cons (start : ℕ) (m : Module) (ms : List Module) :
    exports start (m :: ms) =
      (m.bump start).globalnames.pairs ++ exports (start + m.bytes.count) ms := by
  rw [exports, List.map_cons, setPrecompiledLibraryOffsets, List.flatMap_cons, count_bump]
  rfl

theorem mem_map_exports :
    name ∈ (exports start ms).map Prod.fst ↔ ∃ m ∈ ms, name ∈ m.globalnames := by
  induction ms generalizing start with
  | nil => exact ⟨fun h => absurd h List.not_mem_nil, fun ⟨_, h, _⟩ => absurd h List.not_mem_nil⟩
  | cons m ms ih =>
    rw [exports_cons, List.map_append, List.mem_append, ih, map_fst_pairs, ← AList.mem_keys,
      mem_bump]
    simp

theorem distinct_cons : Distinct (m :: ms) ↔
    (∀ m' ∈ ms, ∀ name, name ∈ m.globalnames → name ∉ m'.globalnames) ∧ Distinct ms :=
  List.pairwise_cons

/-- **A name is put twice if it is exported twice.** -/
theorem nodup_exports : ((exports start ms).map Prod.fst).Nodup ↔ Distinct ms := by
  induction ms generalizing start with
  | nil => exact ⟨fun _ => List.Pairwise.nil, fun _ => List.nodup_nil⟩
  | cons m ms ih =>
    rw [exports_cons, List.map_append, List.nodup_append', ih, distinct_cons]
    have hdisjoint : List.Disjoint ((m.bump start).globalnames.pairs.map Prod.fst)
        ((exports (start + m.bytes.count) ms).map Prod.fst) ↔
          ∀ m' ∈ ms, ∀ name, name ∈ m.globalnames → name ∉ m'.globalnames := by
      simp only [List.Disjoint, mem_map_exports, map_fst_pairs, ← AList.mem_keys, mem_bump]
      exact ⟨fun h m' hm' name hm hname => h hm ⟨m', hm', hname⟩,
        fun h name hm ⟨m', hm', hname⟩ => h m' hm' name hm hname⟩
    rw [hdisjoint]
    exact ⟨fun h => ⟨h.2.2, h.2.1⟩, fun h => ⟨nodup_pairs _, h.2, h.1⟩⟩

theorem mem_exports (hms : Distinct ms) :
    (name, k) ∈ exports start ms ↔ exported start ms name = some k := by
  induction ms generalizing start with
  | nil => exact ⟨fun h => absurd h List.not_mem_nil, fun h => by cases h⟩
  | cons m ms ih =>
    obtain ⟨hm, hms⟩ := distinct_cons.mp hms
    rw [exports_cons, List.mem_append, mem_pairs_iff, lookup_bump, exported]
    cases hlookup : m.globalnames.lookup name with
    | none =>
      rw [← ih hms]
      exact ⟨fun h => h.resolve_left fun h => (by cases h), Or.inr⟩
    | some k' =>
      dsimp only [Option.map]
      rw [Nat.add_comm k']
      refine ⟨fun h => h.resolve_right fun h => ?_, Or.inl⟩
      obtain ⟨m', hm', hname⟩ := mem_map_exports.mp (List.mem_map_of_mem h)
      exact hm m' hm' name (mem_iff.mpr ⟨k', hlookup⟩) hname

/-- **`merge-library-globalnames` is an error exactly if a name is exported twice.** -/
theorem mergeLibraryGlobalnames_eq (m : Module) (ms : List Module) :
    (Distinct (m :: ms) → ∃ g, mergeLibraryGlobalnames m.globalnames
      (setPrecompiledLibraryOffsets m.bytes.count (ms.map fun m => m.toPass)) = some g ∧
        ∀ name, g.lookup name = exported 0 (m :: ms) name) ∧
    (¬ Distinct (m :: ms) → mergeLibraryGlobalnames m.globalnames
      (setPrecompiledLibraryOffsets m.bytes.count (ms.map fun m => m.toPass)) = none) := by
  have hnew : ∀ g, HashTable.putNew ∅ (exports m.bytes.count ms) = some g ↔
      Distinct ms ∧ g = HashTable.putAll ∅ (exports m.bytes.count ms) := fun g => by
    rw [putNew_eq_some_iff, nodup_exports]
    exact ⟨fun h => ⟨h.1, h.2.2⟩, fun h => ⟨h.1, fun p _ => AList.notMem_empty p.1, h.2⟩⟩
  have hmem : ∀ name, name ∈ HashTable.putAll ∅ (exports m.bytes.count ms) ↔
      ∃ m' ∈ ms, name ∈ m'.globalnames := fun name => by
    rw [mem_putAll, mem_map_exports, or_iff_left (AList.notMem_empty name)]
  have hapart : Distinct (m :: ms) ↔ Distinct ms ∧ ∀ p ∈ m.globalnames.pairs,
      p.1 ∉ HashTable.putAll ∅ (exports m.bytes.count ms) := by
    simp only [hmem]
    rw [distinct_cons]
    constructor
    · rintro ⟨hm, hms⟩
      exact ⟨hms, fun p hp ⟨m', hm', hname⟩ =>
        hm m' hm' p.1 (mem_iff.mpr ⟨p.2, mem_pairs_iff.mp hp⟩) hname⟩
    · rintro ⟨hms, hm⟩
      refine ⟨fun m' hm' name hname hname' => ?_, hms⟩
      obtain ⟨k, hk⟩ := mem_iff.mp hname
      exact hm (name, k) (mem_pairs_iff.mpr hk) ⟨m', hm', hname'⟩
  rw [mergeLibraryGlobalnames, foldlM_putNew]
  change (_ → ∃ g, (HashTable.putNew ∅ (exports m.bytes.count ms)).bind _ = some g ∧ _) ∧
    (_ → (HashTable.putNew ∅ (exports m.bytes.count ms)).bind _ = none)
  constructor
  · intro hall
    obtain ⟨hms, hm⟩ := hapart.mp hall
    refine ⟨HashTable.putAll (HashTable.putAll ∅ (exports m.bytes.count ms)) m.globalnames.pairs,
      ?_, fun name => Option.ext fun k => ?_⟩
    · rw [(hnew _).mpr ⟨hms, rfl⟩, Option.bind_some]
      exact putNew_eq_some_iff.mpr ⟨nodup_pairs _, hm, rfl⟩
    · rw [lookup_putAll_eq_some_iff (nodup_pairs _), mem_pairs_iff, map_fst_pairs, ← AList.mem_keys,
        lookup_putAll_eq_some_iff (nodup_exports.mpr hms), AList.lookup_empty, mem_exports hms,
        exported]
      cases hlookup : m.globalnames.lookup name with
      | none =>
        have := AList.lookup_eq_none.mp hlookup
        simp [this]
      | some k' =>
        have : name ∈ m.globalnames := mem_iff.mpr ⟨k', hlookup⟩
        simp [this]
  · intro hall
    rw [Option.bind_eq_none_iff]
    intro g hg
    obtain ⟨hms, rfl⟩ := (hnew g).mp hg
    rw [← Option.not_isSome_iff_eq_none, Option.isSome_iff_exists]
    rintro ⟨g', hg'⟩
    exact hall (hapart.mpr ⟨hms, (putNew_eq_some_iff.mp hg').2.1⟩)

/-- What is exported is there. -/
theorem exported_lt (h : exported start ms name = some k) : k < start + (merged ms).length := by
  induction ms generalizing start with
  | nil => cases h
  | cons m ms ih =>
    rw [merged_cons, List.length_append, length_listing m.contiguous]
    rw [exported] at h
    cases hlookup : m.globalnames.lookup name with
    | none =>
      rw [hlookup] at h
      have := ih h
      omega
    | some k' =>
      rw [hlookup] at h
      cases h
      have := m.exports_lt name k' hlookup
      omega

theorem exported_isSome_iff :
    (∃ k, exported start ms name = some k) ↔ ∃ m ∈ ms, name ∈ m.globalnames := by
  induction ms generalizing start with
  | nil => exact ⟨fun ⟨_, h⟩ => (by cases h), fun ⟨_, h, _⟩ => absurd h List.not_mem_nil⟩
  | cons m ms ih =>
    have hcons : (∃ m' ∈ m :: ms, name ∈ m'.globalnames) ↔
        name ∈ m.globalnames ∨ ∃ k, exported (start + m.bytes.count) ms name = some k := by
      rw [ih]
      exact List.exists_mem_cons_iff _ _ _
    rw [hcons, mem_iff, exported]
    cases m.globalnames.lookup name <;> simp

/-- **A name stands for the entry that it stood for in its module.** -/
theorem exported_at (hms : Distinct ms) (hm : m ∈ ms) (hname : m.globalnames.lookup name = some k) :
    ∃ n, exported start ms name = some (start + n) ∧ (merged ms)[n]? = m.bytes.lookup k := by
  induction ms generalizing start with
  | nil => cases hm
  | cons m' ms ih =>
    obtain ⟨hfirst, hms⟩ := distinct_cons.mp hms
    rw [exported, merged_cons]
    rcases List.mem_cons.mp hm with rfl | hm
    · rw [hname]
      refine ⟨k, rfl, ?_⟩
      rw [List.getElem?_append_left, getElem?_listing m.contiguous]
      rw [length_listing m.contiguous]
      exact m.exports_lt name k hname
    · have hnone : m'.globalnames.lookup name = none :=
        AList.lookup_eq_none.mpr fun hmem => hfirst m hm name hmem (mem_iff.mpr ⟨k, hname⟩)
      obtain ⟨n, hn, hentry⟩ : ∃ n, exported (start + m'.bytes.count) ms name =
          some (start + m'.bytes.count + n) ∧ (merged ms)[n]? = m.bytes.lookup k := ih hms hm
      rw [hnone]
      refine ⟨m'.bytes.count + n, by rw [hn, add_assoc], ?_⟩
      rw [List.getElem?_append_right (by rw [length_listing m'.contiguous]; omega),
        length_listing m'.contiguous, Nat.add_sub_cancel_left]
      exact hentry

/-! ## The passes behind -/

theorem Entry.Settled.not_align (hv : v.Settled k) (value : ℕ) : v ≠ .align value := by
  rintro rfl
  exact hv

theorem aligned_eq (ws : ℕ) (hh : ∀ v ∈ h, ∃ n, v.Settled n) : aligned ws h = h := by
  refine List.ext_getElem? fun k => ?_
  cases hk : h[k]? with
  | none => exact List.getElem?_eq_none (length_aligned ws h ▸ List.getElem?_eq_none_iff.mp hk)
  | some v =>
    obtain ⟨n, hv⟩ := hh v (List.mem_of_getElem? hk)
    rw [getElem?_aligned ws hk]
    cases v with
    | align value => exact absurd hv id
    | _ => rfl

/-- **The passes that the program has gone through before** leave the libraries as they are. -/
theorem finish_eq (hh : ∀ v ∈ h, ∃ n, v.Settled n) :
    finish ws globalnames ffiIndex h = link ws globalnames ffiIndex h := by
  have haligned : Aligned h := aligned_eq ws hh ▸ aligned_aligned ws h
  have hloads : loadLabels2binary ws h = some h := by
    rw [loadLabels2binary, buildGetDistanceCache_eq haligned]
    refine forEach_eq_some_iff.mpr ⟨rfl, fun i v hi => ?_⟩
    obtain ⟨n, hv⟩ := hh v (List.mem_of_getElem? hi)
    rw [hi]
    cases v with
    | loadLabel target => exact absurd hv id
    | loadLabelDifference start stop => exact absurd hv id
    | _ => rfl
  rw [link, insertAlignment_eq, aligned_eq ws hh, Option.bind_eq_bind, Option.bind_some, hloads]
  rfl

/-- **A stub becomes a jump of a fixed length** to the entry that its name stands for. -/
theorem stub_resolved {h₁ h₂ : List Entry} (hffi : expandFfiStubnames ws ffiIndex h = some h₁)
    (hresolve : resolveStubnamesPicky ws globalnames h₁ = some h₂)
    (hk : h[k]? = some (.stubname name)) :
    ∃ target, globalnames name = some target ∧ h₂[k]? = some (.fjump target .j (2 * ws)) := by
  have hk₁ : some (Entry.stubname name) = h₁[k]? := getElem?_of_forEach hffi hk
  have hk₂ := getElem?_of_forEach hresolve hk₁.symm
  have hlt := (List.getElem?_eq_some_iff.mp hk₁.symm).1
  rw [← length_of_forEach hresolve] at hlt
  rw [List.getElem?_eq_getElem hlt] at hk₂ ⊢
  obtain ⟨target, htarget, hjump⟩ := Option.map_eq_some_iff.mp hk₂
  exact ⟨target, htarget, congrArg some hjump.symm⟩

/-- `resolve-stubnames-picky` is an error exactly at a name that it does not know. -/
theorem resolve_iff {h₁ : List Entry} (hffi : expandFfiStubnames ws ffiIndex h = some h₁) :
    (∃ h₂, resolveStubnamesPicky ws globalnames h₁ = some h₂) ↔
      ∀ name, .stubname name ∈ h → ∃ target, globalnames name = some target := by
  constructor
  · rintro ⟨h₂, hresolve⟩ name hname
    obtain ⟨k, hk⟩ := List.getElem?_of_mem hname
    obtain ⟨target, htarget, -⟩ := stub_resolved hffi hresolve hk
    exact ⟨target, htarget⟩
  · intro hnames
    refine forEach_isSome fun k v hk => ?_
    cases v with
    | stubname name =>
      have hlt := (List.getElem?_eq_some_iff.mp hk).1
      rw [length_of_forEach hffi] at hlt
      have hentry := getElem?_of_forEach hffi (List.getElem?_eq_getElem hlt)
      rw [hk] at hentry
      obtain ⟨target, htarget⟩ := hnames name (by
        have hmem := List.getElem_mem hlt
        cases hv : h[k] with
        | ffiStubname value =>
          rw [hv] at hentry
          obtain ⟨bs, -, hbs⟩ := Option.map_eq_some_iff.mp hentry
          cases hbs
        | stubname value =>
          rw [hv] at hentry hmem
          cases hentry
          exact hmem
        | _ =>
          rw [hv] at hentry
          cases hentry)
      rw [resolveStubname, htarget]
      rfl
    | _ => rfl

/-- The passes end with an error at a name that is not known. -/
theorem name_of_finish {out : List (List ℕ)} (hout : finish ws globalnames ffiIndex h = some out)
    (hk : h[k]? = some (.stubname name)) : ∃ target, globalnames name = some target := by
  obtain ⟨h₁, hffi, hout⟩ := Option.bind_eq_some_iff.mp hout
  obtain ⟨h₂, hresolve, -⟩ := Option.bind_eq_some_iff.mp hout
  obtain ⟨target, htarget, -⟩ := stub_resolved hffi hresolve hk
  exact ⟨target, htarget⟩

/-! ## Linking -/

theorem mem_listing (ht : t.Contiguous) : v ∈ listing t ↔ ∃ k, t.lookup k = some v := by
  rw [List.mem_iff_getElem?]
  simp only [getElem?_listing ht]

theorem mem_merged : v ∈ merged ms ↔ ∃ m ∈ ms, ∃ k, m.bytes.lookup k = some v := by
  rw [merged, List.mem_flatMap]
  exact exists_congr fun m => and_congr_right fun _ => mem_listing m.contiguous

theorem Entry.Settled.mono {n : ℕ} (hv : v.Settled k) (hle : k ≤ n) : v.Settled n := by
  cases v with
  | ujump target fn => exact hv.trans_le hle
  | _ => exact hv

theorem settled_merged {program : Program} (hv : v ∈ merged (modules program.toModule libs)) :
    v.Settled (merged (modules program.toModule libs)).length := by
  obtain ⟨m, hm, k, hk⟩ := mem_merged.mp hv
  rcases List.mem_cons.mp hm with rfl | hm
  · refine (program.settled k v hk).mono ?_
    rw [modules, merged_cons, List.length_append, length_listing program.contiguous]
    exact Nat.le_add_right _ _
  · obtain ⟨lib, -, rfl⟩ := List.mem_map.mp hm
    exact (lib.settled k v hk).mono (Nat.zero_le _)

/-- **Linking with libraries is linking all the code**, unless a name is exported twice. -/
theorem linkWithLibraries_eq {program : Program} (hlibs : (libs.map Library.filename).Nodup) :
    (Distinct (modules program.toModule libs) → linkWithLibraries ws ffiIndex program libs =
      link ws (exported 0 (modules program.toModule libs)) ffiIndex
        (merged (modules program.toModule libs))) ∧
    (¬ Distinct (modules program.toModule libs) → linkWithLibraries ws ffiIndex program libs =
      none) := by
  obtain ⟨t, ht, hlookup⟩ := insertPrecompiledLibraries_eq program.toModule
    ((needed program.toModule libs).map fun lib => lib.toModule)
  obtain ⟨hdistinct, hnot⟩ := mergeLibraryGlobalnames_eq program.toModule
    ((needed program.toModule libs).map fun lib => lib.toModule)
  rw [List.map_map] at ht hdistinct hnot
  have hlink : linkWithLibraries ws ffiIndex program libs =
      (mergeLibraryGlobalnames program.globalnames (setPrecompiledLibraryOffsets
        program.bytes.count ((needed program.toModule libs).map fun lib => lib.toPass))).bind
          fun g =>
          finish ws (fun name => g.lookup name) ffiIndex
            (merged (modules program.toModule libs)) := by
    rw [linkWithLibraries, deadLibraryElimination_eq hlibs, Option.bind_eq_bind, Option.bind_some]
    change (insertPrecompiledLibraries _ _).bind _ = _
    rw [show insertPrecompiledLibraries program.bytes (setPrecompiledLibraryOffsets
      program.bytes.count ((needed program.toModule libs).map fun lib => lib.toPass)) =
        some t from ht,
      Option.bind_some, listing_eq hlookup]
    rfl
  rw [hlink]
  constructor
  · intro hall
    obtain ⟨g, hg, hexported⟩ := hdistinct hall
    rw [show mergeLibraryGlobalnames program.globalnames (setPrecompiledLibraryOffsets
      program.bytes.count ((needed program.toModule libs).map fun lib => lib.toPass)) =
        some g from hg,
      Option.bind_some, funext hexported]
    exact finish_eq fun v hv => ⟨_, settled_merged hv⟩
  · intro hall
    rw [show mergeLibraryGlobalnames program.globalnames (setPrecompiledLibraryOffsets
      program.bytes.count ((needed program.toModule libs).map fun lib => lib.toPass)) =
        none from hnot hall,
      Option.bind_none]

/-- Every stub is of a name that is exported. -/
def Defined (ms : List Module) : Prop :=
  ∀ name, .stubname name ∈ merged ms → ∃ m ∈ ms, name ∈ m.globalnames

/-- The operands fit, and so do the foreign indices. -/
def AllFit (ws : ℕ) (ffiIndex : List ℕ → ℤ) (ms : List Module) : Prop :=
  ∀ k v, (merged ms)[k]? = some v → Fits ws (exported 0 ms) ffiIndex (merged ms) k v

theorem namesLt_of_defined (hms : Defined ms) (hv : v ∈ merged ms)
    (hsettled : v.Settled (merged ms).length) :
    NamesLt (exported 0 ms) (merged ms).length v := by
  intro n hn
  cases v with
  | ujump target fn => exact ⟨target, hsettled, List.mem_singleton.mp hn⟩
  | stubname name =>
    obtain ⟨target, htarget⟩ := exported_isSome_iff.mpr (hms name hv)
    refine ⟨target, Nat.zero_add (merged ms).length ▸ exported_lt htarget, ?_⟩
    rw [← htarget]
    exact List.mem_singleton.mp hn
  | binary _ | ffiStubname _ => cases hn
  | _ => exact absurd hsettled id

/-- The code of modules that are settled. -/
def table (hms : Defined ms) (hsettled : ∀ v ∈ merged ms, v.Settled (merged ms).length) :
    Table (exported 0 ms) where
  entries := merged ms
  names_lt := fun v hv => namesLt_of_defined hms hv (hsettled v hv)

theorem aligned_table (ws : ℕ) (hms : Defined ms)
    (hsettled : ∀ v ∈ merged ms, v.Settled (merged ms).length) :
    aligned ws (table hms hsettled).entries = merged ms :=
  aligned_eq ws fun v hv => ⟨_, hsettled v hv⟩

theorem defined_of_link {out : List (List ℕ)}
    (hsettled : ∀ v ∈ merged ms, v.Settled (merged ms).length)
    (hout : link ws (exported 0 ms) ffiIndex (merged ms) = some out) : Defined ms := by
  intro name hname
  obtain ⟨k, hk⟩ := List.getElem?_of_mem hname
  rw [← finish_eq fun v hv => ⟨_, hsettled v hv⟩] at hout
  exact exported_isSome_iff.mp (name_of_finish hout hk)

theorem link_merged (hws : 0 < ws) (hms : Defined ms)
    (hsettled : ∀ v ∈ merged ms, v.Settled (merged ms).length) :
    link ws (exported 0 ms) ffiIndex (merged ms) =
      forEach (finalBytes ws (exported 0 ms) ffiIndex (merged ms)) 0 (merged ms) := by
  have hlink : link ws (exported 0 ms) ffiIndex (table hms hsettled).entries = _ :=
    link_eq hws (table hms hsettled)
  rwa [aligned_table] at hlink

theorem link_merged_iff (hws : 0 < ws) (hms : Defined ms)
    (hsettled : ∀ v ∈ merged ms, v.Settled (merged ms).length) :
    (∃ out, link ws (exported 0 ms) ffiIndex (merged ms) = some out) ↔
      AllFit ws ffiIndex ms := by
  have hentry : ∀ k v, (merged ms)[k]? = some v →
      ((finalBytes ws (exported 0 ms) ffiIndex (merged ms) k v).isSome ↔
        Fits ws (exported 0 ms) ffiIndex (merged ms) k v) := fun k v hk => by
    have hv := List.mem_of_getElem? hk
    have hset := hsettled v hv
    rw [finalBytes_isSome_iff (namesLt_of_defined hms hv hset) hset.not_align, and_iff_left]
    rintro stop rfl
    exact hset
  rw [link_merged hws hms hsettled]
  constructor
  · rintro ⟨out, hout⟩ k v hk
    have hlt := (List.getElem?_eq_some_iff.mp hk).1
    rw [← hentry k v hk, getElem?_of_forEach hout hk,
      List.getElem?_eq_getElem (length_of_forEach hout ▸ hlt)]
    rfl
  · intro hfit
    refine forEach_isSome fun k v hk => ?_
    rw [zero_add]
    exact (hentry k v hk).mpr (hfit k v hk)

theorem resolves_merged {out : List (List ℕ)} (hws : 0 < ws) (hms : Defined ms)
    (hsettled : ∀ v ∈ merged ms, v.Settled (merged ms).length)
    (hout : link ws (exported 0 ms) ffiIndex (merged ms) = some out) :
    Resolves ws (exported 0 ms) (merged ms) out := by
  rw [link_merged hws hms hsettled] at hout
  refine ⟨length_of_forEach hout, fun k v bytes hk hbytes => ?_⟩
  rw [← aligned_table ws hms hsettled] at hout
  refine (resolved_iff hws (table hms hsettled) hout hk hbytes).mpr ?_
  have hv := hsettled v (List.mem_of_getElem? hk)
  cases v with
  | loadLabel target => exact absurd hv id
  | loadLabelDifference start stop => exact absurd hv id
  | align value => exact absurd hv id
  | _ => trivial

/-- **slinker links with libraries** exactly if no name is exported by two of the modules, every
stub is of a name that one of them exports, and the operands fit; the modules are the program and
the libraries it needs.  Then every jump and every stub of all of them reaches its entry and bytes
are copied, in the mode without opt-pfx.  A foreign stub becomes the load of its index and the call
of fficall, of which nothing is said here. -/
theorem linkWithLibraries_resolves {program : Program} (hws : 0 < ws)
    (hlibs : (libs.map Library.filename).Nodup) :
    ((∃ out, linkWithLibraries ws ffiIndex program libs = some out) ↔
      Distinct (modules program.toModule libs) ∧ Defined (modules program.toModule libs) ∧
        AllFit ws ffiIndex (modules program.toModule libs)) ∧
    ∀ out, linkWithLibraries ws ffiIndex program libs = some out →
      Resolves ws (exported 0 (modules program.toModule libs))
        (merged (modules program.toModule libs)) out := by
  obtain ⟨hlink, hnone⟩ : _ ∧ (¬ _ → linkWithLibraries ws ffiIndex program libs = none) :=
    linkWithLibraries_eq hlibs
  have hsettled : ∀ v ∈ merged (modules program.toModule libs), v.Settled _ :=
    fun v hv => settled_merged hv
  by_cases hall : Distinct (modules program.toModule libs)
  · rw [hlink hall]
    refine ⟨⟨fun ⟨out, hout⟩ => ?_, fun ⟨_, hms, hfit⟩ => ?_⟩, fun out hout => ?_⟩
    · have hms := defined_of_link hsettled hout
      exact ⟨hall, hms, (link_merged_iff hws hms hsettled).mp ⟨out, hout⟩⟩
    · exact (link_merged_iff hws hms hsettled).mpr hfit
    · exact resolves_merged hws (defined_of_link hsettled hout) hsettled hout
  · rw [hnone hall]
    exact ⟨⟨fun ⟨_, hout⟩ => (by cases hout), fun h => absurd h.1 hall⟩,
      fun out hout => by cases hout⟩

/-- **Elimination loses no definition**: it ends with exactly the libraries that are needed, and
whatever a stub that is left names is still exported if it was. -/
theorem deadLibraryElimination_keeps (hlibs : (libs.map Library.filename).Nodup) :
    ∃ kept, deadLibraryElimination program.bytes libs = some kept ∧
      (∀ lib, lib ∈ kept ↔ lib ∈ libs ∧ Needed program libs lib) ∧
      ∀ name, .stubname name ∈ merged (program :: kept.map fun lib => lib.toModule) →
        (∃ lib ∈ libs, name ∈ lib.globalnames) → ∃ lib ∈ kept, name ∈ lib.globalnames := by
  refine ⟨_, deadLibraryElimination_eq hlibs, fun lib => mem_needed, ?_⟩
  rintro name hname ⟨lib, hlib, hexports⟩
  have hasked : demand.Asked libs (stubnames program.bytes) name := by
    obtain ⟨m, hm, hstub⟩ := mem_merged.mp hname
    rcases List.mem_cons.mp hm with rfl | hm
    · exact .start (mem_stubnames.mpr hstub)
    · obtain ⟨lib', hlib', rfl⟩ := List.mem_map.mp hm
      obtain ⟨hmem, n, hn, hprovides⟩ := mem_needed.mp hlib'
      exact .needs hmem hn hprovides ((lib'.required_iff name).mpr hstub)
  exact ⟨lib, mem_needed.mpr ⟨hlib, name, hasked, AList.lookup_isSome.mpr hexports⟩, hexports⟩

/-- The program and the libraries that are kept. -/
def linked (program : Module) (kept : List Library) : List Module :=
  program :: kept.map fun lib => lib.toModule

/-- The libraries that are kept, behind the program. -/
def placed (program : Module) (kept : List Library) : List Pass :=
  setPrecompiledLibraryOffsets program.bytes.count (kept.map fun lib => lib.toPass)

/-- Libraries that export different names still do when some are left out. -/
theorem distinct_kept (hlibs : Distinct (libs.map fun lib => lib.toModule)) :
    Distinct ((needed program libs).map fun lib => lib.toModule) := by
  rw [Distinct, List.pairwise_map] at hlibs ⊢
  rw [needed, List.pairwise_reverse]
  exact (hlibs.filter _).imp fun h name hname hname' => h name hname' hname

/-- **Libraries are linked as they are needed**, of files that `use-precompiled-library` does not
take twice.  Elimination ends with exactly the libraries that are needed.  Every entry of the
program and of these is put at its own key, one module behind the other from 0, and every exported
name stands for the key of the entry that it named, where no library exports a name of the program,
which is an error.  A stub is a jump of a fixed length to that key, where the names of all stubs are
exported, and otherwise an error. -/
theorem libraries_linked (hfiles : (libs.map Library.filename).Nodup)
    (hlibs : Distinct (libs.map fun lib => lib.toModule)) :
    ∃ kept, deadLibraryElimination program.bytes libs = some kept ∧
      (∀ lib, lib ∈ kept ↔ lib ∈ libs ∧ Needed program libs lib) ∧
      ∃ bytes, insertPrecompiledLibraries program.bytes (placed program kept) = some bytes ∧
        (∀ k, bytes.lookup k = (merged (linked program kept))[k]?) ∧
        ((∃ lib ∈ kept, ∃ name ∈ program.globalnames, name ∈ lib.globalnames) →
          mergeLibraryGlobalnames program.globalnames (placed program kept) = none) ∧
        ((∀ lib ∈ kept, ∀ name ∈ program.globalnames, name ∉ lib.globalnames) →
          ∃ globalnames,
            mergeLibraryGlobalnames program.globalnames (placed program kept) = some globalnames ∧
            (∀ name, globalnames.lookup name = exported 0 (linked program kept) name) ∧
            (∀ m ∈ linked program kept, ∀ name k, m.globalnames.lookup name = some k →
              ∃ n, globalnames.lookup name = some n ∧ bytes.lookup n = m.bytes.lookup k) ∧
            ∀ ws ffiIndex h₁, expandFfiStubnames ws ffiIndex (listing bytes) = some h₁ →
              ((∃ h₂, resolveStubnamesPicky ws (fun name => globalnames.lookup name) h₁ = some h₂) ↔
                Defined (linked program kept)) ∧
              ∀ h₂, resolveStubnamesPicky ws (fun name => globalnames.lookup name) h₁ = some h₂ →
                ∀ k name, bytes.lookup k = some (.stubname name) →
                  ∃ n, globalnames.lookup name = some n ∧
                    h₂[k]? = some (.fjump n .j (2 * ws))) := by
  refine ⟨needed program libs, deadLibraryElimination_eq hfiles, fun lib => mem_needed, ?_⟩
  obtain ⟨bytes, hbytes, hlookup⟩ := insertPrecompiledLibraries_eq program
    ((needed program libs).map fun lib => lib.toModule)
  obtain ⟨hdistinct, hnot⟩ := mergeLibraryGlobalnames_eq program
    ((needed program libs).map fun lib => lib.toModule)
  rw [List.map_map] at hbytes hdistinct hnot
  have happart : Distinct (linked program (needed program libs)) ↔
      ∀ lib ∈ needed program libs, ∀ name ∈ program.globalnames, name ∉ lib.globalnames := by
    rw [linked, distinct_cons, List.forall_mem_map, and_iff_left (distinct_kept hlibs)]
  refine ⟨bytes, hbytes, hlookup, fun ⟨lib, hlib, name, hname, hname'⟩ => hnot fun hall => ?_,
    fun hfree => ?_⟩
  · exact happart.mp hall lib hlib name hname hname'
  · have hms := happart.mpr hfree
    obtain ⟨globalnames, hmerge, hexported⟩ := hdistinct hms
    refine ⟨globalnames, hmerge, hexported, fun m hm name k hname => ?_, fun ws ffiIndex h₁ hffi =>
      ⟨?_, fun h₂ hresolve k name hk => ?_⟩⟩
    · obtain ⟨n, hn, hentry⟩ : ∃ n, exported 0 (linked program (needed program libs)) name =
          some (0 + n) ∧ _ := exported_at hms hm hname
      rw [Nat.zero_add] at hn
      exact ⟨n, (hexported name).trans hn, (hlookup n).trans hentry⟩
    · rw [resolve_iff hffi, listing_eq hlookup]
      simp only [hexported]
      exact forall_congr' fun name => imp_congr_right fun _ => exported_isSome_iff
    · refine stub_resolved hffi hresolve ?_
      rw [listing_eq hlookup, ← hlookup, hk]

/-- A module of one entry, which it exports. -/
def single (name : List ℕ) (v : Entry) : Module where
  globalnames := AList.singleton name 0
  bytes := AList.singleton 0 v
  contiguous := fun k => AList.mem_keys.trans (List.mem_singleton.trans Nat.lt_one_iff.symm)
  exports_lt := fun name' k hk => by
    obtain ⟨rfl, rfl⟩ : name' = name ∧ k = 0 := by
      simpa [AList.mem_lookup_iff, AList.singleton, ← Option.mem_def] using hk
    exact Nat.one_pos

theorem settled_single {name : List ℕ} {v v' : Entry} {k n : ℕ} (hv : v.Settled n)
    (h : (single name v).bytes.lookup k = some v') : v'.Settled n := by
  obtain ⟨rfl, rfl⟩ : k = 0 ∧ v' = v := by
    simpa [single, AList.mem_lookup_iff, AList.singleton, ← Option.mem_def] using h
  exact hv

/-- A library of one entry. -/
def singleLibrary (filename : List ℕ) (name : List ℕ) (v : Entry) (hv : v.Settled 0) : Library :=
  binary2scheme filename (single name v) fun _ _ => settled_single hv

/-- The program needs `[10]`, which needs `[11]`, which goes back to the program; nothing needs
`[12]`. -/
theorem linkWithLibraries_cycle :
    let program : Program :=
      ⟨single [0] (.stubname [1]), fun _ _ => settled_single (n := 1) trivial⟩
    let libs := [singleLibrary [11] [2] (.stubname [0]) trivial,
      singleLibrary [12] [3] (.binary [0x40]) trivial,
      singleLibrary [10] [1] (.stubname [2]) trivial]
    let out := [[0x20, 0x20, 0x20, 0x20, 0x20, 0x20, 0x20, 0x00],
      [0x20, 0x20, 0x20, 0x20, 0x20, 0x20, 0x20, 0x00],
      [0x20, 0x20, 0x20, 0x20, 0x20, 0x20, 0x61, 0x08]]
    linkWithLibraries 4 (fun _ => 0) program libs = some out ∧
      Resolves 4 (exported 0 (modules program.toModule libs))
        (merged (modules program.toModule libs)) out := by
  intro program libs out
  have hout : linkWithLibraries 4 (fun _ => 0) program libs = some out := by decide +kernel
  exact ⟨hout, (linkWithLibraries_resolves (by decide) (by decide)).2 out hout⟩

theorem deadLibraryElimination_cycle :
    let program : Module := single [0] (.stubname [1])
    let libs := [singleLibrary [11] [2] (.stubname [0]) trivial,
      singleLibrary [12] [3] (.binary [0x40]) trivial,
      singleLibrary [10] [1] (.stubname [2]) trivial]
    ∃ kept, deadLibraryElimination program.bytes libs = some kept ∧
      kept.map Library.filename = [[10], [11]] ∧
      (∀ lib, lib ∈ kept ↔ lib ∈ libs ∧ Needed program libs lib) := by
  intro program libs
  have hlibs : (libs.map Library.filename).Nodup := by decide
  obtain ⟨kept, hkept, hneeded, -⟩ :
      ∃ kept, deadLibraryElimination program.bytes libs = some kept ∧ _ :=
    deadLibraryElimination_keeps hlibs
  refine ⟨kept, hkept, ?_, hneeded⟩
  have : (deadLibraryElimination program.bytes libs).map (List.map Library.filename) =
    some [[10], [11]] := by decide +kernel
  rw [hkept] at this
  exact Option.some.inj this

/-- Two libraries that need each other. -/
theorem libraries_linked_cycle :
    let program : Module := single [0] (.stubname [1])
    let libs := [singleLibrary [11] [2] (.stubname [1]) trivial,
      singleLibrary [10] [1] (.stubname [2]) trivial]
    ∃ kept, deadLibraryElimination program.bytes libs = some kept ∧
      ∀ lib, lib ∈ kept ↔ lib ∈ libs ∧ Needed program libs lib := by
  intro program libs
  have hlibs : Distinct (libs.map fun lib => lib.toModule) := by
    refine List.pairwise_pair.mpr fun name hname hname' => ?_
    obtain rfl := List.mem_singleton.mp (AList.mem_keys.mp hname)
    exact absurd (List.mem_singleton.mp (AList.mem_keys.mp hname')) (by decide)
  obtain ⟨kept, hkept, hneeded, -⟩ :
      ∃ kept, deadLibraryElimination program.bytes libs = some kept ∧ _ :=
    libraries_linked (by decide) hlibs
  exact ⟨kept, hkept, hneeded⟩

end Slinker

end Kroc
