import Mathlib

/-!
# Lib/SortedMap — finite maps in sorted tables

A table of keys and values, in the strict order of its keys, represents a map.  Its operations are
the map's: what is looked for from the left can stop at the first larger key.
-/

variable {κ α : Type*} [LinearOrder κ]

/-- The table is in the order of its keys, and its entries are the map's. -/
structure Represents (t : List (κ × α)) (f : κ → Option α) : Prop where
  sorted : t.Pairwise fun a b => a.1 < b.1
  mem_iff : ∀ k a, (k, a) ∈ t ↔ f k = some a

/-- The search for a key in the part of a table from place `i` on, up to the first larger key. -/
def searchKey (k : κ) : List (κ × α) → ℕ → Option (ℕ × α)
  | [], _ => none
  | e :: rest, i => if e.1 ≤ k then if e.1 = k then some (i, e.2) else searchKey k rest (i + 1)
    else none

/-- The table with an entry put before the first larger key. -/
def insertKey (e : κ × α) : List (κ × α) → List (κ × α)
  | [] => [e]
  | x :: rest => if e.1 < x.1 then e :: x :: rest else x :: insertKey e rest

theorem mem_insertKey {e x : κ × α} {t : List (κ × α)} : x ∈ insertKey e t ↔ x = e ∨ x ∈ t := by
  induction t with
  | nil => rw [insertKey, List.mem_singleton, or_iff_left List.not_mem_nil]
  | cons y rest ih =>
    rw [insertKey]
    by_cases hlt : e.1 < y.1
    · rw [if_pos hlt, List.mem_cons]
    · rw [if_neg hlt, List.mem_cons, ih, List.mem_cons, or_left_comm]

theorem length_insertKey (e : κ × α) (t : List (κ × α)) :
    (insertKey e t).length = t.length + 1 := by
  induction t with
  | nil => rfl
  | cons x rest ih =>
    rw [insertKey]
    by_cases hlt : e.1 < x.1
    · rw [if_pos hlt]
      rfl
    · rw [if_neg hlt, List.length_cons, ih, List.length_cons]

namespace Represents

variable {t l₁ l₂ : List (κ × α)} {f : κ → Option α} {k : κ} {a b : α}

theorem empty : Represents ([] : List (κ × α)) fun _ => none :=
  ⟨List.Pairwise.nil, fun _ _ => iff_of_false List.not_mem_nil (Option.some_ne_none _).symm⟩

/-- A key that is not in the map is not in the table. -/
theorem key_ne (h : Represents t f) (hk : f k = none) : ∀ e ∈ t, e.1 ≠ k := by
  rintro ⟨j, a⟩ he rfl
  rw [h.mem_iff, hk] at he
  exact Option.some_ne_none a he.symm

/-- The entry of a key is the only one that has it. -/
theorem unique (h : Represents t f) (ha : (k, a) ∈ t) (hb : (k, b) ∈ t) : a = b :=
  Option.some.inj (((h.mem_iff k a).mp ha).symm.trans ((h.mem_iff k b).mp hb))

/-- The keys on both sides of an entry. -/
theorem split (h : Represents (l₁ ++ (k, a) :: l₂) f) :
    (∀ e ∈ l₁, e.1 < k) ∧ ∀ e ∈ l₂, k < e.1 := by
  obtain ⟨-, htail, hcross⟩ := List.pairwise_append.mp h.sorted
  exact ⟨fun e he => hcross e he (k, a) (List.mem_cons_self ..), (List.pairwise_cons.mp htail).1⟩

/-- **The search** finds the entry of a key. -/
theorem searchKey_eq (h : Represents (l₁ ++ (k, a) :: l₂) f) (i : ℕ) :
    searchKey k (l₁ ++ (k, a) :: l₂) i = some (i + l₁.length, a) := by
  have hlt := h.split.1
  clear h
  induction l₁ generalizing i with
  | nil =>
    rw [List.nil_append, searchKey, if_pos le_rfl, if_pos rfl]
    rfl
  | cons e rest ih =>
    have he := hlt e (List.mem_cons_self ..)
    rw [List.cons_append, searchKey, if_pos he.le, if_neg he.ne,
      ih (i + 1) fun x hx => hlt x (List.mem_cons_of_mem _ hx), List.length_cons]
    congr 2
    omega

theorem searchKey_eq_none (hk : ∀ e ∈ t, e.1 ≠ k) (i : ℕ) : searchKey k t i = none := by
  induction t generalizing i with
  | nil => rfl
  | cons e rest ih =>
    rw [searchKey, if_neg (hk e (List.mem_cons_self ..)),
      ih (fun x hx => hk x (List.mem_cons_of_mem _ hx)), ite_self]

/-- Where an entry is. -/
theorem exists_split (h : Represents t f) (hk : f k = some a) : ∃ l₁ l₂, t = l₁ ++ (k, a) :: l₂ :=
  List.append_of_mem ((h.mem_iff k a).mpr hk)

/-- **Insertion** of a key that is not in the map. -/
theorem insert [DecidableEq κ] (h : Represents t f) (hk : f k = none) :
    Represents (insertKey (k, a) t) (Function.update f k (some a)) where
  sorted := by
    have hne := h.key_ne hk
    have hsorted := h.sorted
    clear h
    induction t with
    | nil => exact List.pairwise_singleton _ _
    | cons x rest ih =>
      obtain ⟨hx, hrest⟩ := List.pairwise_cons.mp hsorted
      rw [insertKey]
      by_cases hlt : k < x.1
      · rw [if_pos hlt]
        refine List.pairwise_cons.mpr ⟨fun y hy => ?_, hsorted⟩
        obtain rfl | hy := List.mem_cons.mp hy
        · exact hlt
        · exact hlt.trans (hx y hy)
      · rw [if_neg hlt]
        have hxk : x.1 < k := lt_of_le_of_ne (not_lt.mp hlt) (hne x (List.mem_cons_self ..))
        refine List.pairwise_cons.mpr
          ⟨fun y hy => ?_, ih (fun e he => hne e (List.mem_cons_of_mem _ he)) hrest⟩
        obtain rfl | hy := mem_insertKey.mp hy
        · exact hxk
        · exact hx y hy
  mem_iff j b := by
    rw [mem_insertKey, h.mem_iff]
    by_cases hj : j = k
    · rw [hj, Function.update_self, Option.some.injEq, hk, or_iff_left (Option.some_ne_none b).symm,
        Prod.mk.injEq, and_iff_right rfl, eq_comm]
    · rw [Function.update_of_ne hj, or_iff_right fun h => hj (Prod.mk.inj h).1]

/-- **Removal** of an entry. -/
theorem erase [DecidableEq κ] (h : Represents (l₁ ++ (k, a) :: l₂) f) :
    Represents (l₁ ++ l₂) (Function.update f k none) where
  sorted := h.sorted.sublist (List.Sublist.append_left (List.sublist_cons_self _ _) _)
  mem_iff j b := by
    obtain ⟨hlo, hhi⟩ := h.split
    have hmem := h.mem_iff j b
    rw [List.mem_append, List.mem_cons] at hmem
    rw [List.mem_append]
    by_cases hj : j = k
    · subst hj
      rw [Function.update_self]
      refine iff_of_false ?_ (Option.some_ne_none b).symm
      rintro (hb | hb)
      · exact lt_irrefl _ (hlo _ hb)
      · exact lt_irrefl _ (hhi _ hb)
    · rw [Function.update_of_ne hj, ← hmem, or_left_comm,
        or_iff_right fun h => hj (Prod.mk.inj h).1]

/-- **A new value** for a key. -/
theorem set [DecidableEq κ] (h : Represents (l₁ ++ (k, a) :: l₂) f) :
    Represents (l₁ ++ (k, b) :: l₂) (Function.update f k (some b)) where
  sorted := by
    have hs := h.sorted
    rw [List.pairwise_append, List.pairwise_cons] at hs ⊢
    refine ⟨hs.1, hs.2.1, fun x hx y hy => ?_⟩
    obtain rfl | hy := List.mem_cons.mp hy
    · exact hs.2.2 x hx (k, a) (List.mem_cons_self ..)
    · exact hs.2.2 x hx y (List.mem_cons_of_mem _ hy)
  mem_iff j c := by
    have herase := (h.erase).mem_iff j c
    rw [List.mem_append] at herase
    rw [List.mem_append, List.mem_cons, or_left_comm, herase]
    by_cases hj : j = k
    · rw [hj, Function.update_self, Function.update_self, Prod.mk.injEq, and_iff_right rfl,
        or_iff_left (Option.some_ne_none c).symm, Option.some.injEq, eq_comm]
    · rw [Function.update_of_ne hj, Function.update_of_ne hj,
        or_iff_right fun h => hj (Prod.mk.inj h).1]

/-- **The entries** that are kept. -/
theorem filter (h : Represents t f) (p : κ × α → Bool) :
    Represents (t.filter p) fun k => (f k).filter fun a => p (k, a) where
  sorted := h.sorted.sublist List.filter_sublist
  mem_iff j b := by
    rw [List.mem_filter, h.mem_iff, Option.filter_eq_some_iff]

end Represents
