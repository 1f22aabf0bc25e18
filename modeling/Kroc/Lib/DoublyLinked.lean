import Mathlib.Data.List.Basic
import Mathlib.Tactic

/-!
# Lib/DoublyLinked — segments of a doubly-linked list

A store holds nodes under ids; `cell i p q a` says that node `i` links to `p` before it and to `q`
behind it and holds `a`.  `Segment cell p l q` says that the elements of `l`, each an id with what
is held there, are linked one to the next, from `p` before the first to `q` behind the last.  A
segment depends on its own cells only, splits wherever its list does, and is what a walk over either
link meets.
-/

namespace DoublyLinked

variable {ι α : Type*} {cell cell' : ι → Option ι → Option ι → α → Prop} {p q : Option ι}
  {l m : List (ι × α)} {x : ι × α}

/-- The first id of a segment, or what is behind it. -/
def first : List (ι × α) → Option ι → Option ι
  | [], q => q
  | x :: _, _ => some x.1

/-- The last id of a segment, or what is before it. -/
def last : Option ι → List (ι × α) → Option ι
  | p, [] => p
  | _, x :: l => last (some x.1) l

/-- The elements, linked both ways. -/
def Segment (cell : ι → Option ι → Option ι → α → Prop) :
    Option ι → List (ι × α) → Option ι → Prop
  | _, [], _ => True
  | p, x :: l, q => cell x.1 p (first l q) x.2 ∧ Segment cell (some x.1) l q

/-! ## The ends -/

@[simp] theorem first_nil : first ([] : List (ι × α)) q = q := rfl

@[simp] theorem first_cons : first (x :: l) q = some x.1 := rfl

@[simp] theorem last_nil : last p ([] : List (ι × α)) = p := rfl

@[simp] theorem last_cons : last p (x :: l) = last (some x.1) l := rfl

@[simp]
theorem first_append (l m : List (ι × α)) (q : Option ι) :
    first (l ++ m) q = first l (first m q) := by
  cases l <;> rfl

@[simp]
theorem last_append (p : Option ι) (l m : List (ι × α)) : last p (l ++ m) = last (last p l) m := by
  induction l generalizing p with
  | nil => rfl
  | cons x l ih => exact ih (some x.1)

/-- A segment that has an id behind the last one has an element there. -/
theorem exists_last {i : ι} (h : last none l = some i) : ∃ m a, l = m ++ [(i, a)] := by
  rcases List.eq_nil_or_concat l with rfl | ⟨m, x, rfl⟩
  · cases h
  · rw [List.concat_eq_append, last_append] at h
    cases h
    exact ⟨m, x.2, List.concat_eq_append⟩

/-! ## Cutting and changing -/

@[simp]
theorem segment_nil : Segment cell p [] q ↔ True := Iff.rfl

@[simp]
theorem segment_cons :
    Segment cell p (x :: l) q ↔ cell x.1 p (first l q) x.2 ∧ Segment cell (some x.1) l q :=
  Iff.rfl

/-- **A segment splits wherever its list does.** -/
theorem segment_append :
    Segment cell p (l ++ m) q ↔ Segment cell p l (first m q) ∧ Segment cell (last p l) m q := by
  induction l generalizing p with
  | nil => simp
  | cons x l ih =>
    rw [List.cons_append, segment_cons, segment_cons, ih, first_append, last_cons, and_assoc]

/-- **A segment depends on its own cells only.** -/
theorem Segment.congr (h : Segment cell p l q)
    (hsame : ∀ i ∈ l.map Prod.fst, ∀ p q a, cell i p q a → cell' i p q a) :
    Segment cell' p l q := by
  induction l generalizing p with
  | nil => trivial
  | cons x l ih =>
    refine ⟨hsame x.1 List.mem_cons_self _ _ _ h.1, ih h.2 fun i hi => ?_⟩
    exact hsame i (List.mem_cons_of_mem _ hi)

/-- Every element has its cell. -/
theorem Segment.exists_cell (h : Segment cell p l q) (hx : x ∈ l) : ∃ p q, cell x.1 p q x.2 := by
  obtain ⟨a, b, rfl⟩ := List.append_of_mem hx
  exact ⟨_, _, (segment_append.mp h).2.1⟩

/-! ## Walks -/

/-- The elements met along a link, until there is none; `read` has the link and the object of a
node, and `fuel` bounds the steps. -/
def walk (read : ι → Option (Option ι × α)) : ℕ → Option ι → Option (List (ι × α))
  | _, none => some []
  | 0, some _ => none
  | fuel + 1, some i =>
    match read i with
    | none => none
    | some (link, a) => (walk read fuel link).map ((i, a) :: ·)

variable {read : ι → Option (Option ι × α)} {fuel : ℕ}

/-- **Forwards, a walk meets the elements in order.** -/
theorem Segment.walk_next (h : Segment cell p l none)
    (hread : ∀ i p q a, cell i p q a → read i = some (q, a)) (hfuel : l.length ≤ fuel) :
    walk read fuel (first l none) = some l := by
  induction l generalizing p fuel with
  | nil => cases fuel <;> rfl
  | cons x l ih =>
    obtain ⟨fuel, rfl⟩ := Nat.exists_eq_add_of_lt (Nat.lt_of_lt_of_le (Nat.succ_pos _) hfuel)
    rw [Nat.zero_add, first_cons, walk, hread _ _ _ _ h.1]
    dsimp only
    rw [ih h.2 (by rw [List.length_cons] at hfuel; omega)]
    rfl

/-- **Backwards, it meets them in reverse.** -/
theorem Segment.walk_prev (h : Segment cell none l q)
    (hread : ∀ i p q a, cell i p q a → read i = some (p, a)) (hfuel : l.length ≤ fuel) :
    walk read fuel (last none l) = some l.reverse := by
  induction l using List.reverseRecOn generalizing q fuel with
  | nil => cases fuel <;> rfl
  | append_singleton l x ih =>
    obtain ⟨hinit, hlast, -⟩ := segment_append.mp h
    rw [List.length_append, List.length_singleton] at hfuel
    obtain ⟨fuel, rfl⟩ : ∃ k, fuel = k + 1 := ⟨fuel - 1, by omega⟩
    rw [last_append, last_cons, last_nil, walk, hread _ _ _ _ hlast]
    dsimp only
    rw [ih hinit (by omega), List.reverse_append]
    rfl

end DoublyLinked
