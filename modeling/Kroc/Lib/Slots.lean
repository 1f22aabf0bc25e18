import Mathlib

/-!
# Lib/Slots — arrays in allocated memory

A block of slots, each with what was last stored in it.  Outside the block nothing is read or
stored: there the operations give nothing.  `Starts` is what a growing array keeps: the block begins
with the list of what was added.
-/

/-- A block, with `none` for what is not stored yet. -/
structure Slots (α : Type*) where
  slots : List (Option α)

namespace Slots

variable {α : Type*}

/-- A new block. -/
def alloc (n : ℕ) : Slots α := ⟨List.replicate n none⟩

def size (b : Slots α) : ℕ := b.slots.length

def load (b : Slots α) (i : ℕ) : Option α := b.slots[i]?.join

def store (b : Slots α) (i : ℕ) (a : α) : Option (Slots α) :=
  if i < b.size then some ⟨b.slots.set i (some a)⟩ else none

/-- The first `n` slots of `src` over those of `dst`. -/
def copy (dst src : Slots α) (n : ℕ) : Option (Slots α) :=
  if n ≤ dst.size ∧ n ≤ src.size then some ⟨src.slots.take n ++ dst.slots.drop n⟩ else none

/-- A loop that stores `a` in `n` slots from `i` on. -/
def fill (b : Slots α) (a : α) (i n : ℕ) : Option (Slots α) :=
  (List.range' i n).foldlM (fun b i => b.store i a) b

/-- A loop over `n` slots from `j` on, to the first that holds `a` or to the end. -/
def search [DecidableEq α] (b : Slots α) (a : α) : ℕ → ℕ → Option ℕ
  | 0, j => some j
  | n + 1, j => (b.load j).bind fun v => if v = a then some j else search b a n (j + 1)

/-- The block begins with `l`. -/
def Starts (b : Slots α) (l : List α) : Prop := l.map some <+: b.slots

theorem size_alloc (n : ℕ) : (alloc n : Slots α).size = n := List.length_replicate

theorem starts_nil (b : Slots α) : b.Starts [] := List.nil_prefix

variable {b c : Slots α} {l : List α} {a : α} {i n : ℕ}

namespace Starts

theorem length_le (h : b.Starts l) : l.length ≤ b.size :=
  (List.length_map some).ge.trans (List.IsPrefix.length_le h)

theorem load (h : b.Starts l) (hi : i < l.length) : b.load i = some l[i] := by
  have hget := List.prefix_iff_getElem?.mp h i ((List.length_map some).symm ▸ hi)
  rw [Slots.load, hget, List.getElem_map]
  rfl

theorem load_middle {m : List α} (h : b.Starts (m ++ a :: l)) : b.load m.length = some a := by
  have hlt : m.length < (m ++ a :: l).length := by
    rw [List.length_append, List.length_cons]
    omega
  rw [h.load hlt, List.getElem_append_right le_rfl]
  simp only [Nat.sub_self, List.getElem_cons_zero]

/-- **A store behind what was added** adds, if there is room. -/
theorem add (h : b.Starts l) (hroom : l.length < b.size) (a : α) :
    ∃ c, b.store l.length a = some c ∧ c.size = b.size ∧ c.Starts (l ++ [a]) := by
  refine ⟨_, if_pos hroom, List.length_set, ?_⟩
  obtain ⟨rest, hrest⟩ := h
  cases rest with
  | nil =>
    rw [List.append_nil] at hrest
    rw [size, ← hrest, List.length_map] at hroom
    exact absurd hroom (lt_irrefl _)
  | cons x rest =>
    refine ⟨rest, ?_⟩
    dsimp only
    rw [← hrest, List.set_append_right _ _ (List.length_map some).le, List.length_map, Nat.sub_self,
      List.set_cons_zero, List.map_append, List.append_assoc]
    rfl

/-- A copy of all that was added begins with it. -/
theorem copy (h : b.Starts l) (hn : l.length ≤ n) (hb : n ≤ b.size) (hc : n ≤ c.size) :
    ∃ d, c.copy b n = some d ∧ d.size = c.size ∧ d.Starts l := by
  refine ⟨_, if_pos ⟨hc, hb⟩, ?_, ?_⟩
  · rw [size, List.length_append, List.length_take, List.length_drop]
    rw [size] at hb hc ⊢
    omega
  · have htake : l.map some <+: b.slots.take n :=
      List.prefix_take_iff.mpr ⟨h, (List.length_map some).le.trans hn⟩
    exact htake.trans (List.prefix_append _ _)

/-- A store behind what was added, and whatever comes there, leaves it. -/
theorem store (h : b.Starts l) (hi : l.length ≤ i) (hroom : i < b.size) (a : α) :
    ∃ c, b.store i a = some c ∧ c.size = b.size ∧ c.Starts l := by
  refine ⟨_, if_pos hroom, List.length_set, ?_⟩
  obtain ⟨rest, hrest⟩ := h
  refine ⟨rest.set (i - l.length) (some a), ?_⟩
  dsimp only
  rw [← hrest, List.set_append_right _ _ ((List.length_map some).le.trans hi), List.length_map]

theorem fill (h : b.Starts l) (hi : l.length ≤ i) (hn : i + n ≤ b.size) (a : α) :
    ∃ c, b.fill a i n = some c ∧ c.size = b.size ∧ c.Starts l := by
  induction n generalizing b i with
  | zero => exact ⟨b, rfl, rfl, h⟩
  | succ n ih =>
    obtain ⟨c, hc, hsize, hstarts⟩ := h.store hi (show i < b.size by omega) a
    obtain ⟨d, hd, hsize', hstarts'⟩ :=
      ih hstarts (Nat.le_succ_of_le hi) (show i + 1 + n ≤ c.size by omega)
    refine ⟨d, ?_, hsize'.trans hsize, hstarts'⟩
    rw [Slots.fill, List.range'_succ, List.foldlM_cons, hc]
    exact hd

/-- **The search finds the first of what was added**, and stops behind it otherwise. -/
theorem search [DecidableEq α] {m : List α} (h : b.Starts (m ++ l)) (a : α) :
    b.search a l.length m.length = some (m.length + l.idxOf a) := by
  induction l generalizing m with
  | nil => rfl
  | cons x l ih =>
    have hload := h.load_middle
    rw [List.length_cons, Slots.search, hload, Option.bind_some]
    by_cases hx : x = a
    · rw [if_pos hx, List.idxOf_cons_eq l hx]
      rfl
    · have hrest := ih (m := m ++ [x]) (by rwa [List.append_assoc])
      rw [List.length_append, List.length_singleton] at hrest
      rw [if_neg hx, List.idxOf_cons_ne l hx, hrest, Nat.add_assoc, Nat.add_comm 1]

end Starts

end Slots
