import Mathlib.Algebra.BigOperators.Group.List.Basic
import Mathlib.Tactic

/-!
# Lib/Offsets — where the parts of a sequence start

A sequence is laid out as parts, one after the other; `offset l k` is where part `k` starts when the
parts have the lengths `l`.
-/

namespace Offsets

/-- Where part `k` starts. -/
def offset (l : List ℕ) (k : ℕ) : ℕ := (l.take k).sum

variable {l : List ℕ} {i j k n : ℕ}

@[simp]
theorem offset_zero (l : List ℕ) : offset l 0 = 0 := rfl

theorem offset_succ (h : l[k]? = some n) : offset l (k + 1) = offset l k + n := by
  rw [offset, List.take_add_one, h, List.sum_append]
  exact congrArg _ (List.sum_singleton)

theorem offset_mono (l : List ℕ) (hij : i ≤ j) : offset l i ≤ offset l j := by
  obtain ⟨d, rfl⟩ := Nat.exists_eq_add_of_le hij
  rw [offset, offset, List.take_add, List.sum_append]
  exact Nat.le_add_right _ _

theorem offset_le_sum (l : List ℕ) (k : ℕ) : offset l k ≤ l.sum := by
  have hsum := congrArg List.sum (List.take_append_drop k l)
  rw [List.sum_append] at hsum
  exact hsum ▸ Nat.le_add_right _ _

theorem offset_append_left {l' : List ℕ} (hk : k ≤ l.length) :
    offset (l ++ l') k = offset l k := by
  rw [offset, offset, List.take_append_of_le_length hk]

/-- Part `k` of what is laid out starts at `offset` of the lengths. -/
theorem length_flatten_take {α : Type*} (parts : List (List α)) (k : ℕ) :
    (parts.take k).flatten.length = offset (parts.map List.length) k := by
  rw [List.length_flatten, List.map_take, offset]

/-- **Lengths that differ for one kind of part** move an offset by the parts of that kind. -/
theorem offset_map_eq {α : Type*} {f g : α → ℕ} {p : α → Bool} {c : ℤ}
    (hfg : ∀ a, (f a : ℤ) = g a + if p a then c else 0) (as : List α) (k : ℕ) :
    (offset (as.map f) k : ℤ) = offset (as.map g) k + c * (as.take k).countP p := by
  unfold offset
  rw [← List.map_take, ← List.map_take]
  induction as.take k with
  | nil => simp
  | cons a as ih =>
    rw [List.map_cons, List.map_cons, List.sum_cons, List.sum_cons, List.countP_cons,
      Nat.cast_add, Nat.cast_add, ih, hfg a]
    split_ifs <;> push_cast <;> ring

end Offsets
