import Kroc.Lib.HashTable
import Kroc.Lib.SortedMap

/-!
# Lib/Expansion — tables in which a pair becomes several

A loop over a table makes a new one, into which it stores several pairs for each that it visits; a
store either overwrites or refuses to.  `Represents` gives a table in the order of its keys.  When
the expansions, one behind the other in that order, are in the order of their keys themselves,
nothing is overwritten or refused, and the new table is these expansions, whatever order the loop
visits the pairs in.
-/

namespace HashTable

variable {κ α β : Type*}

/-- A store into a table: over what is there, or only if nothing is. -/
inductive Store (κ α : Type*)
  | put (k : κ) (a : α)
  | insert (k : κ) (a : α)

namespace Store

/-- What is stored. -/
def pair : Store κ α → κ × α
  | put k a | insert k a => (k, a)

end Store

variable [DecidableEq κ]

/-- One store. -/
def store (t : HashTable κ α) : Store κ α → Option (HashTable κ α)
  | .put k a => some (AList.insert k a t)
  | .insert k a => if k ∈ t then none else some (AList.insert k a t)

/-- A loop that stores what `f` gives for each pair into a new table. -/
def expand (f : κ → α → List (Store κ β)) (t : HashTable κ α) : Option (HashTable κ β) :=
  (t.pairs.flatMap fun p => f p.1 p.2).foldlM store ∅

/-- **Stores to different keys all succeed**, checked or not. -/
theorem foldlM_store {l : List (Store κ β)} {u : HashTable κ β}
    (hl : ((l.map Store.pair).map Prod.fst).Nodup) (hnew : ∀ p ∈ l.map Store.pair, p.1 ∉ u) :
    l.foldlM store u = some (u.putAll (l.map Store.pair)) := by
  induction l generalizing u with
  | nil => rfl
  | cons w l ih =>
    rw [List.map_cons, List.map_cons, List.nodup_cons] at hl
    rw [List.map_cons, List.forall_mem_cons] at hnew
    have hstore : u.store w = some (AList.insert w.pair.1 w.pair.2 u) := by
      cases w with
      | put k a => rfl
      | insert k a => exact if_neg hnew.1
    rw [List.foldlM_cons, hstore, List.map_cons, putAll_cons]
    refine ih hl.2 fun p hp hmem => ?_
    rcases (AList.mem_insert _).mp hmem with heq | hmem
    · exact hl.1 (heq ▸ List.mem_map_of_mem hp)
    · exact hnew.2 p hp hmem

/-! ## In the order of the keys -/

variable {ι : Type*} [LinearOrder ι] {t : HashTable ι α} {l : List (ι × α)}
  {f : ι → α → List (Store ι β)}

/-- What becomes of some pairs. -/
def expansion (f : κ → α → List (Store κ β)) (l : List (κ × α)) : List (κ × β) :=
  l.flatMap fun p => (f p.1 p.2).map Store.pair

omit [DecidableEq κ] in
theorem expansion_eq (f : κ → α → List (Store κ β)) (l : List (κ × α)) :
    expansion f l = (l.flatMap fun p => f p.1 p.2).map Store.pair := by
  rw [expansion, List.map_flatMap]

/-- A table in the order of its keys has the pairs that a loop visits. -/
theorem perm_of_represents (h : Represents l t.lookup) : t.pairs.Perm l := by
  refine (List.perm_ext_iff_of_nodup t.nodup_pairs.of_map ?_).mpr fun p => ?_
  · exact List.Nodup.of_map Prod.fst (List.pairwise_map.mpr (h.sorted.imp ne_of_lt))
  · rw [h.mem_iff p.1 p.2]
    exact mem_pairs_iff

/-- **Expansions that stay in order lose nothing**: the loop ends without an error, and its table is
the expansions. -/
theorem expand_represents (h : Represents l t.lookup)
    (hsorted : (expansion f l).Pairwise fun a b => a.1 < b.1) :
    ∃ u, t.expand f = some u ∧ Represents (expansion f l) u.lookup := by
  have hperm : (expansion f t.pairs).Perm (expansion f l) :=
    (perm_of_represents h).flatMap_right _
  have hnodup : ((expansion f t.pairs).map Prod.fst).Nodup :=
    (hperm.map Prod.fst).nodup_iff.mpr (List.pairwise_map.mpr (hsorted.imp ne_of_lt))
  have heq := expansion_eq f t.pairs
  refine ⟨_, foldlM_store ?_ fun p _ => AList.notMem_empty p.1, hsorted, fun k b => ?_⟩
  · rw [← heq]
    exact hnodup
  · rw [← heq, lookup_putAll_eq_some_iff hnodup, AList.lookup_empty, hperm.mem_iff]
    simp

/-- Every sorted list is a table. -/
theorem exists_represents (h : l.Pairwise fun a b => a.1 < b.1) :
    ∃ t : HashTable ι α, Represents l t.lookup := by
  have hnodup : (l.map Prod.fst).Nodup := List.pairwise_map.mpr (h.imp ne_of_lt)
  refine ⟨putAll ∅ l, h, fun k a => ?_⟩
  rw [lookup_putAll_eq_some_iff hnodup, AList.lookup_empty]
  simp

/-- **Nothing is lost**, in whatever order the loop visits the pairs. -/
def Lossless (f : ι → α → List (Store ι β)) (l : List (ι × α)) : Prop :=
  ∀ t : HashTable ι α, Represents l t.lookup →
    ∃ u, t.expand f = some u ∧ Represents (expansion f l) u.lookup

/-- **Nothing is lost exactly where the expansions are in order.** -/
theorem lossless_iff (hl : l.Pairwise fun a b => a.1 < b.1) :
    Lossless f l ↔ (expansion f l).Pairwise fun a b => a.1 < b.1 := by
  constructor
  · intro h
    obtain ⟨t, ht⟩ := exists_represents hl
    obtain ⟨u, -, hu⟩ := h t ht
    exact hu.sorted
  · exact fun h t ht => expand_represents ht h

/-- Checked stores that collide are an error, in whatever order. -/
theorem expand_eq_none (h : Represents l t.lookup)
    (hinsert : ∀ p ∈ l, ∀ w ∈ f p.1 p.2, ∃ k b, w = .insert k b)
    (hcollide : ¬ ((expansion f l).map Prod.fst).Nodup) : t.expand f = none := by
  have hperm := perm_of_represents h
  have hputNew : ∀ {ws : List (Store ι β)} {u : HashTable ι β},
      (∀ w ∈ ws, ∃ k b, w = .insert k b) → ws.foldlM store u = putNew u (ws.map Store.pair) := by
    intro ws
    induction ws with
    | nil => exact fun _ => rfl
    | cons w ws ih =>
      intro u hws
      rw [List.forall_mem_cons] at hws
      obtain ⟨⟨k, b, rfl⟩, hws⟩ := hws
      rw [List.foldlM_cons, List.map_cons, putNew, List.foldlM_cons, store]
      by_cases hk : k ∈ u
      · have hpair : (Store.insert k b).pair.1 ∈ u := hk
        rw [if_pos hk, if_pos hpair]
        rfl
      · have hpair : (Store.insert k b).pair.1 ∉ u := hk
        rw [if_neg hk, if_neg hpair]
        exact ih hws
  rw [expand, hputNew]
  · by_contra hsome
    obtain ⟨u, hu⟩ := Option.ne_none_iff_exists'.mp hsome
    rw [← expansion_eq] at hu
    exact hcollide
      (((hperm.flatMap_right _).map Prod.fst).nodup_iff.mp (putNew_eq_some_iff.mp hu).1)
  · intro w hw
    obtain ⟨p, hp, hw⟩ := List.mem_flatMap.mp hw
    exact hinsert p (hperm.mem_iff.mp hp) w hw

end HashTable
