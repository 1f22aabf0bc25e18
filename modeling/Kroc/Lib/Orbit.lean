import Mathlib.Data.Set.Finite.Basic
import Mathlib.Order.Preorder.Finite

/-!
# Lib/Orbit — what a partial function leads to, step by step

A partial function is followed from a start on, as long as it goes on.  Within finitely many places,
it comes to an end exactly when no place is come back to.
-/

namespace Orbit

variable {α : Type*} {step : α → Option α} {a b : α} {m n : ℕ}

/-- What `n` steps lead to, if there are so many. -/
def after (step : α → Option α) : ℕ → α → Option α
  | 0, a => some a
  | n + 1, a => (step a).bind (after step n)

theorem after_add (step : α → Option α) (m n : ℕ) (a : α) :
    after step (m + n) a = (after step m a).bind (after step n) := by
  induction m generalizing a with
  | zero => rw [Nat.zero_add, after, Option.bind_some]
  | succ m ih =>
    rw [Nat.succ_add, after, after, Option.bind_assoc]
    exact congrArg _ (funext ih)

/-- Nothing comes after the end. -/
theorem after_none (h : after step m a = none) (hle : m ≤ n) : after step n a = none := by
  obtain ⟨k, rfl⟩ := Nat.exists_eq_add_of_le hle
  rw [after_add, h, Option.bind_none]

/-- What is come back to once is come back to again and again. -/
theorem after_mul (h : after step m b = some b) (k : ℕ) : after step (m * k) b = some b := by
  induction k with
  | zero => rfl
  | succ k ih => rw [Nat.mul_succ, after_add, ih, Option.bind_some, h]

/-- No place that is reached is come back to. -/
def NoReturn (step : α → Option α) (a : α) : Prop :=
  ∀ n b, after step n a = some b → ∀ m, 0 < m → after step m b ≠ some b

/-- What has an end does not come back. -/
theorem noReturn_of_ends (h : after step n a = none) : NoReturn step a := by
  intro k b hb m hm hback
  have hagain : after step (k + m * n) a = some b := by
    rw [after_add, hb, Option.bind_some, after_mul hback]
  rw [after_none h (Nat.le_add_left_of_le (Nat.le_mul_of_pos_left n hm))] at hagain
  exact Option.some_ne_none b hagain.symm

/-- **An end** is come to, within finitely many places, exactly when no place is come back to. -/
theorem ends_iff {s : Set α} (hs : s.Finite) (hmem : ∀ n b, after step n a = some b → b ∈ s) :
    (∃ n, after step n a = none) ↔ NoReturn step a := by
  refine ⟨fun ⟨n, hn⟩ => noReturn_of_ends hn, fun h => ?_⟩
  by_contra hnone
  have hgoes : ∀ n, ∃ b, after step n a = some b := fun n =>
    Option.ne_none_iff_exists'.mp fun hn => hnone ⟨n, hn⟩
  choose x hx using hgoes
  obtain ⟨i, j, hij, heq⟩ := hs.exists_lt_map_eq_of_forall_mem fun n => hmem n (x n) (hx n)
  obtain ⟨k, rfl⟩ := Nat.exists_eq_add_of_lt hij
  refine h i (x i) (hx i) (k + 1) k.succ_pos ?_
  have hlater := hx (i + k + 1)
  rwa [Nat.add_assoc, after_add, hx i, Option.bind_some, ← Nat.add_assoc, ← heq] at hlater

/-- What only goes up does not come back. -/
theorem noReturn_of_lt [Preorder α]
    (h : ∀ n b c, after step n a = some b → step b = some c → b < c) :
    NoReturn step a := by
  have hup : ∀ m n b c, after step n a = some b → after step (m + 1) b = some c → b < c := by
    intro m
    induction m with
    | zero =>
      intro n b c hb hc
      obtain ⟨d, hd, hc⟩ := Option.bind_eq_some_iff.mp hc
      exact Option.some.inj hc ▸ h n b d hb hd
    | succ m ih =>
      intro n b c hb hc
      obtain ⟨d, hd, hc⟩ := Option.bind_eq_some_iff.mp hc
      have hnext : after step (n + 1) a = some d := by
        rw [after_add, hb, Option.bind_some, after, hd]
        rfl
      exact (h n b d hb hd).trans (ih (n + 1) d c hnext hc)
  intro n b hb m hm hback
  obtain ⟨k, rfl⟩ := Nat.exists_eq_add_one_of_ne_zero hm.ne'
  exact lt_irrefl b (hup k n b b hb hback)

end Orbit
