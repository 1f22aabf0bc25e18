import Mathlib

/-!
# Lib/Owned — trees of objects in memory

A pointer is null, or it leads to an object that nobody else has a pointer to, or to one that is
shared and counts the pointers to it.  A memory shows, at a pointer, a tree of such objects; what it
owns there is the objects of the first kind.
-/

open Finset (range)

namespace Kroc

namespace Owned

variable {P L : Type*}

/-- What hangs from a pointer. -/
inductive Tree (P L : Type*)
  | null
  | shared (p : P)
  | node (label : L) (n : ℕ) (kids : ℕ → Tree P L)

/-- A memory, as far as trees go: the label of an object that has one owner, with the pointers in
it, and which objects are shared. -/
structure View (P L : Type*) where
  node : P → Option (L × List P)
  live : P → Prop

namespace Tree

/-- How often a shared object hangs in the tree. -/
def count [DecidableEq P] (q : P) : Tree P L → ℕ
  | null => 0
  | shared p => if p = q then 1 else 0
  | node _ n kids => ∑ i ∈ range n, (kids i).count q

/-- How deep the objects are nested. -/
def depth : Tree P L → ℕ
  | null => 0
  | shared _ => 0
  | node _ n kids => (range n).sup (fun i => (kids i).depth + 1)

theorem depth_lt {label : L} {n i : ℕ} {kids : ℕ → Tree P L} (hi : i < n) :
    (kids i).depth < (node label n kids).depth :=
  Nat.lt_of_succ_le (Finset.le_sup (f := fun i => (kids i).depth + 1) (Finset.mem_range.mpr hi))

theorem count_le [DecidableEq P] {label : L} {n i : ℕ} {kids : ℕ → Tree P L} (hi : i < n) (q : P) :
    (kids i).count q ≤ (node label n kids).count q :=
  Finset.single_le_sum (f := fun i => (kids i).count q) (fun _ _ => Nat.zero_le _)
    (Finset.mem_range.mpr hi)

end Tree

namespace View

variable [Zero P] (v : View P L)

/-- The `i`th pointer in an object. -/
def kid (p : P) (i : ℕ) : P := ((v.node p).elim [] Prod.snd).getD i 0

/-- The objects of a tree that have no other owner. -/
def owned : P → Tree P L → Set P
  | _, .null => ∅
  | _, .shared _ => ∅
  | p, .node _ n kids => insert p {q | ∃ i < n, q ∈ owned (v.kid p i) (kids i)}

/-- **The memory shows a tree** at a pointer; no object hangs in it in two places. -/
def Shows : P → Tree P L → Prop
  | p, .null => p = 0
  | p, .shared q => p = q ∧ p ≠ 0 ∧ v.live p
  | p, .node label n kids => p ≠ 0 ∧ (∃ ps, v.node p = some (label, ps) ∧ ps.length = n) ∧
      (∀ i < n, Shows (v.kid p i) (kids i)) ∧
      (∀ i < n, p ∉ v.owned (v.kid p i) (kids i)) ∧
      ∀ i < n, ∀ j < n, i ≠ j →
        Disjoint (v.owned (v.kid p i) (kids i)) (v.owned (v.kid p j) (kids j))

variable {v} {v' : View P L} {p q : P} {t : Tree P L} {label : L} {n i : ℕ} {kids : ℕ → Tree P L}

theorem mem_owned_node : q ∈ v.owned p (.node label n kids) ↔
    q = p ∨ ∃ i < n, q ∈ v.owned (v.kid p i) (kids i) := by
  simp only [owned, Set.mem_insert_iff, Set.mem_ofPred_eq]

theorem kid_eq {ps : List P} (hp : v.node p = some (label, ps)) (hi : i < ps.length) :
    v.kid p i = ps[i] := by
  unfold kid
  rw [hp]
  simp [hi]

theorem kid_congr (h : v'.node p = v.node p) : v'.kid p i = v.kid p i := by
  unfold kid
  rw [h]

namespace Shows

theorem kid (h : v.Shows p (.node label n kids)) (hi : i < n) : v.Shows (v.kid p i) (kids i) :=
  h.2.2.1 i hi

/-- What is owned is there. -/
theorem node_isSome (h : v.Shows p t) (hq : q ∈ v.owned p t) : (v.node q).isSome ∧ q ≠ 0 := by
  induction t generalizing p with
  | null => exact absurd hq (Set.notMem_empty q)
  | shared => exact absurd hq (Set.notMem_empty q)
  | node label n kids ih =>
    rcases mem_owned_node.mp hq with rfl | ⟨i, hi, hq⟩
    · obtain ⟨hne, ⟨ps, hps, -⟩, -⟩ := h
      exact ⟨hps ▸ rfl, hne⟩
    · exact ih i (h.kid hi) hq

theorem live [DecidableEq P] (h : v.Shows p t) (hq : 0 < t.count q) : v.live q := by
  induction t generalizing p with
  | null => exact absurd hq (lt_irrefl 0)
  | shared s =>
    obtain ⟨rfl, -, hlive⟩ := h
    by_cases hs : p = q
    · exact hs ▸ hlive
    · simp [Tree.count, hs] at hq
  | node label n kids ih =>
    obtain ⟨i, hi, hpos⟩ : ∃ i ∈ range n, 0 < (kids i).count q :=
      Finset.exists_lt_of_sum_lt (by simpa [Tree.count] using hq)
    exact ih i (h.kid (Finset.mem_range.mp hi)) hpos

/-- **A memory that has the objects as they were shows the tree as it was**. -/
theorem congr [DecidableEq P] (h : v.Shows p t)
    (hnode : ∀ q ∈ v.owned p t, v'.node q = v.node q)
    (hlive : ∀ q, 0 < t.count q → v.live q → v'.live q) :
    v'.Shows p t ∧ v'.owned p t = v.owned p t := by
  induction t generalizing p with
  | null => exact ⟨h, rfl⟩
  | shared q =>
    obtain ⟨rfl, hne, hl⟩ := h
    exact ⟨⟨rfl, hne, hlive p (by simp [Tree.count]) hl⟩, rfl⟩
  | node label n kids ih =>
    obtain ⟨hne, hps, hkids, hself, hapart⟩ := h
    have hp : v'.node p = v.node p := hnode p (mem_owned_node.mpr (.inl rfl))
    have hkid : ∀ i < n, v'.Shows (v'.kid p i) (kids i) ∧
        v'.owned (v'.kid p i) (kids i) = v.owned (v.kid p i) (kids i) := by
      intro i hi
      rw [kid_congr hp]
      exact ih i (hkids i hi) (fun q hq => hnode q (mem_owned_node.mpr (.inr ⟨i, hi, hq⟩)))
        fun q hq => hlive q (hq.trans_le (Tree.count_le hi q))
    refine ⟨⟨hne, hp ▸ hps, fun i hi => (hkid i hi).1, fun i hi => ?_, fun i hi j hj hij => ?_⟩, ?_⟩
    · rw [(hkid i hi).2]
      exact hself i hi
    · rw [(hkid i hi).2, (hkid j hj).2]
      exact hapart i hi j hj hij
    · ext q
      rw [mem_owned_node, mem_owned_node]
      refine or_congr_right (exists_congr fun i => and_congr_right fun hi => ?_)
      rw [(hkid i hi).2]

/-- **An object whose label alone is changed** has over it the tree that it had. -/
theorem relabel [DecidableEq P] {label' : L} (h : v.Shows p (.node label n kids))
    (hp : ∀ ps, v.node p = some (label, ps) → v'.node p = some (label', ps))
    (hne : ∀ q, q ≠ p → v'.node q = v.node q) (hlive : ∀ q, v.live q → v'.live q) :
    v'.Shows p (.node label' n kids) ∧
      v'.owned p (.node label' n kids) = v.owned p (.node label n kids) := by
  obtain ⟨hzero, ⟨ps, hps, rfl⟩, hkids, hself, hapart⟩ := h
  have hkid : ∀ i < ps.length, v'.kid p i = v.kid p i := fun i hi => by
    rw [kid_eq (hp ps hps) hi, kid_eq hps hi]
  have hkeep : ∀ i < ps.length, v'.Shows (v'.kid p i) (kids i) ∧
      v'.owned (v'.kid p i) (kids i) = v.owned (v.kid p i) (kids i) := fun i hi => by
    rw [hkid i hi]
    exact (hkids i hi).congr (fun q hq => hne q fun e => hself i hi (e ▸ hq)) fun q _ => hlive q
  refine ⟨⟨hzero, ⟨ps, hp ps hps, rfl⟩, fun i hi => (hkeep i hi).1, fun i hi => ?_,
    fun i hi j hj hij => ?_⟩, ?_⟩
  · rw [(hkeep i hi).2]
    exact hself i hi
  · rw [(hkeep i hi).2, (hkeep j hj).2]
    exact hapart i hi j hj hij
  · ext q
    rw [mem_owned_node, mem_owned_node]
    refine or_congr_right (exists_congr fun i => and_congr_right fun hi => ?_)
    rw [(hkeep i hi).2]

end Shows

/-- **A new object** over trees that lie apart. -/
theorem Shows.of_kids (hne : p ≠ 0) {ps : List P} (hp : v.node p = some (label, ps))
    (hkids : ∀ (i : ℕ) (hi : i < ps.length), v.Shows ps[i] (kids i) ∧ p ∉ v.owned ps[i] (kids i))
    (hapart : ∀ (i j : ℕ) (hi : i < ps.length) (hj : j < ps.length), i ≠ j →
      Disjoint (v.owned ps[i] (kids i)) (v.owned ps[j] (kids j))) :
    v.Shows p (.node label ps.length kids) := by
  refine ⟨hne, ⟨ps, hp, rfl⟩, fun i hi => ?_, fun i hi => ?_, fun i hi j hj hij => ?_⟩
  · rw [kid_eq hp hi]
    exact (hkids i hi).1
  · rw [kid_eq hp hi]
    exact (hkids i hi).2
  · rw [kid_eq hp hi, kid_eq hp hj]
    exact hapart i j hi hj hij

end View

end Owned

end Kroc
