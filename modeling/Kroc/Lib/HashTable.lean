import Mathlib.Data.List.AList
import Mathlib.Tactic

/-!
# Lib/HashTable — hash tables, and loops that put into them

A table is an association list with one pair for each key, in the order a `for-each` visits it in.
Two loops cover what passes over tables do: `putAll` overwrites, and `putNew` refuses to.  Whatever
the order of the visits, the lookups afterwards are the same.
-/

/-- A hash table. -/
abbrev HashTable (κ α : Type*) := AList fun _ : κ => α

namespace HashTable

variable {κ α : Type*}

/-! ## Pairs -/

/-- The pairs, as they are visited. -/
def pairs (t : HashTable κ α) : List (κ × α) := t.entries.map fun p => (p.1, p.2)

/-- How many there are. -/
def count (t : HashTable κ α) : ℕ := t.entries.length

theorem map_fst_pairs (t : HashTable κ α) : t.pairs.map Prod.fst = t.keys := by
  rw [pairs, List.map_map]
  rfl

theorem nodup_pairs (t : HashTable κ α) : (t.pairs.map Prod.fst).Nodup := by
  rw [map_fst_pairs]
  exact t.keys_nodup

theorem length_keys (t : HashTable κ α) : t.keys.length = t.count := List.length_map _

@[simp]
theorem length_pairs (t : HashTable κ α) : t.pairs.length = t.count := List.length_map _

variable [DecidableEq κ] {t t' : HashTable κ α} {l l' : List (κ × α)} {k : κ} {a : α}

theorem mem_pairs_iff : (k, a) ∈ t.pairs ↔ t.lookup k = some a := by
  rw [← Option.mem_def, AList.mem_lookup_iff, pairs, List.mem_map]
  constructor
  · rintro ⟨⟨k', a'⟩, hmem, heq⟩
    cases heq
    exact hmem
  · exact fun h => ⟨⟨k, a⟩, h, rfl⟩

theorem mem_iff : k ∈ t ↔ ∃ a, t.lookup k = some a := by
  rw [← AList.lookup_isSome, Option.isSome_iff_exists]

/-! ## Putting -/

/-- Pairs put one after the other, a later one over an earlier. -/
def putAll (t : HashTable κ α) (l : List (κ × α)) : HashTable κ α :=
  l.foldl (fun t p => t.insert p.1 p.2) t

@[simp]
theorem putAll_nil (t : HashTable κ α) : t.putAll [] = t := rfl

theorem putAll_cons (t : HashTable κ α) (p : κ × α) (l : List (κ × α)) :
    t.putAll (p :: l) = HashTable.putAll (t.insert p.1 p.2) l := rfl

theorem lookup_putAll_of_notMem (h : k ∉ l.map Prod.fst) :
    (t.putAll l).lookup k = t.lookup k := by
  induction l generalizing t with
  | nil => rfl
  | cons p l ih =>
    rw [List.map_cons, List.mem_cons, not_or] at h
    rw [putAll_cons, ih h.2, AList.lookup_insert_ne h.1]

theorem mem_putAll : k ∈ t.putAll l ↔ k ∈ l.map Prod.fst ∨ k ∈ t := by
  induction l generalizing t with
  | nil => simp
  | cons p l ih =>
    rw [putAll_cons, ih, AList.mem_insert, List.map_cons, List.mem_cons]
    tauto

/-- **The last pair of a key stays**: whatever the pairs of one key go up in, it is the greatest. -/
theorem lookup_putAll_last {r : α → α → Prop} [Std.Refl r]
    (hl : l.Pairwise fun p q => p.1 = q.1 → r p.2 q.2) (hk : k ∈ l.map Prod.fst) :
    ∃ a, (t.putAll l).lookup k = some a ∧ (k, a) ∈ l ∧ ∀ b, (k, b) ∈ l → r b a := by
  induction l generalizing t with
  | nil => exact absurd hk List.not_mem_nil
  | cons p l ih =>
    obtain ⟨hp, hl⟩ := List.pairwise_cons.mp hl
    rw [putAll_cons]
    by_cases hmem : k ∈ l.map Prod.fst
    · obtain ⟨a, hlookup, ha, hmax⟩ := ih hl hmem (t := t.insert p.1 p.2)
      refine ⟨a, hlookup, List.mem_cons_of_mem _ ha, fun b hb => ?_⟩
      rcases List.mem_cons.mp hb with rfl | hb
      · exact hp _ ha rfl
      · exact hmax b hb
    · have hfst : k = p.1 := by
        rw [List.map_cons, List.mem_cons] at hk
        exact hk.resolve_right hmem
      refine ⟨p.2, ?_, ?_, fun b hb => ?_⟩
      · rw [lookup_putAll_of_notMem hmem, hfst, AList.lookup_insert]
      · rw [hfst]
        exact List.mem_cons_self
      · rcases List.mem_cons.mp hb with rfl | hb
        · exact refl_of r b
        · exact absurd (List.mem_map_of_mem hb) hmem

/-- **With distinct keys every pair stays**, and nothing else changes. -/
theorem lookup_putAll_eq_some_iff (hl : (l.map Prod.fst).Nodup) :
    (t.putAll l).lookup k = some a ↔
      (k, a) ∈ l ∨ k ∉ l.map Prod.fst ∧ t.lookup k = some a := by
  by_cases hk : k ∈ l.map Prod.fst
  · have hpairwise : l.Pairwise fun p q => p.1 = q.1 → p.2 = q.2 :=
      (List.pairwise_map.mp hl).imp fun hne heq => absurd heq hne
    obtain ⟨b, hlookup, hb, hlast⟩ := lookup_putAll_last (t := t) hpairwise hk
    rw [hlookup, Option.some_inj]
    constructor
    · rintro rfl
      exact Or.inl hb
    · rintro (ha | ⟨hnot, -⟩)
      · exact (hlast a ha).symm
      · exact absurd hk hnot
  · rw [lookup_putAll_of_notMem hk]
    constructor
    · exact fun h => Or.inr ⟨hk, h⟩
    · rintro (ha | ⟨-, h⟩)
      · exact absurd (List.mem_map_of_mem ha) hk
      · exact h

theorem count_insert_of_notMem (h : k ∉ t) : count (t.insert k a) = t.count + 1 := by
  rw [count, AList.entries_insert_of_notMem h, List.length_cons, count]

theorem count_putAll (hl : (l.map Prod.fst).Nodup) (hnew : ∀ p ∈ l, p.1 ∉ t) :
    (t.putAll l).count = t.count + l.length := by
  induction l generalizing t with
  | nil => rfl
  | cons p l ih =>
    rw [List.map_cons, List.nodup_cons] at hl
    rw [putAll_cons, ih hl.2, count_insert_of_notMem (hnew p List.mem_cons_self), List.length_cons]
    · omega
    · intro q hq hmem
      rcases (AList.mem_insert _).mp hmem with heq | hmem
      · exact hl.1 (heq ▸ List.mem_map_of_mem hq)
      · exact hnew q (List.mem_cons_of_mem _ hq) hmem

/-! ## Putting what is not there yet -/

/-- Pairs put one after the other; a key that is there already is an error. -/
def putNew (t : HashTable κ α) (l : List (κ × α)) : Option (HashTable κ α) :=
  l.foldlM (fun t p => if p.1 ∈ t then none else some (t.insert p.1 p.2)) t

/-- **Nothing is put over anything.** -/
theorem putNew_eq_some_iff : t.putNew l = some t' ↔
    (l.map Prod.fst).Nodup ∧ (∀ p ∈ l, p.1 ∉ t) ∧ t' = t.putAll l := by
  induction l generalizing t with
  | nil => simp [putNew, eq_comm]
  | cons p l ih =>
    rw [putNew, List.foldlM_cons, List.map_cons, List.nodup_cons]
    split_ifs with hp
    · exact ⟨fun h => (by cases h), fun h => absurd hp (h.2.1 p List.mem_cons_self)⟩
    · refine (ih (t := t.insert p.1 p.2)).trans ?_
      have hfresh : (∀ q ∈ l, q.1 ∉ t.insert p.1 p.2) ↔
          p.1 ∉ l.map Prod.fst ∧ ∀ q ∈ l, q.1 ∉ t := by
        simp only [AList.mem_insert, not_or, List.mem_map, not_exists, not_and]
        exact ⟨fun h => ⟨fun q hq => (h q hq).1, fun q hq => (h q hq).2⟩,
          fun h q hq => ⟨h.1 q hq, h.2 q hq⟩⟩
      rw [hfresh, List.forall_mem_cons, putAll_cons]
      tauto

/-- **Lists put one after the other** are put like one list. -/
theorem foldlM_putNew {ι : Type*} (f : ι → List (κ × α)) (is : List ι) (t : HashTable κ α) :
    is.foldlM (fun t i => HashTable.putNew t (f i)) t = t.putNew (is.flatMap f) := by
  induction is generalizing t with
  | nil => rfl
  | cons i is ih =>
    rw [List.foldlM_cons, List.flatMap_cons, putNew, putNew, List.foldlM_append]
    exact congrArg _ (funext ih)

/-! ## Keys without a gap -/

/-- The keys are `0 … count - 1`. -/
def Contiguous (t : HashTable ℕ α) : Prop := ∀ k, k ∈ t ↔ k < t.count

end HashTable
