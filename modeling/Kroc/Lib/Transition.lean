import Mathlib.Tactic

/-!
# Lib/Transition — runs of a deterministic labelled system

A system takes labelled steps, `step s a = some s'`.  `Reach step ok s₀ s` says that a run leads
from `s₀` to `s`, every step of which meets the condition `ok`, a condition on the state before the
step and its label.  What the steps preserve holds in every state reached.
-/

namespace Transition

variable {σ α : Type*} {step : σ → α → Option σ} {ok ok' : σ → α → Prop} {s₀ s s' : σ}

/-- The states reached by runs whose steps all meet `ok`. -/
inductive Reach (step : σ → α → Option σ) (ok : σ → α → Prop) (s₀ : σ) : σ → Prop
  | start : Reach step ok s₀ s₀
  | next {s s' : σ} {a : α} : Reach step ok s₀ s → ok s a → step s a = some s' →
      Reach step ok s₀ s'

/-- No condition on the steps. -/
def Any (_ : σ) (_ : α) : Prop := True

/-- **What every step preserves holds in every state reached.** -/
theorem Reach.invariant {I : σ → Prop} (h₀ : I s₀)
    (hstep : ∀ {s s' a}, I s → ok s a → step s a = some s' → I s')
    (h : Reach step ok s₀ s) : I s := by
  induction h with
  | start => exact h₀
  | next _ hok hs ih => exact hstep ih hok hs

/-- The run of a list of labels, which stops where a step does not meet `ok` or is not possible. -/
def exec (step : σ → α → Option σ) (ok : σ → α → Prop) [∀ s a, Decidable (ok s a)] :
    σ → List α → Option σ
  | s, [] => some s
  | s, a :: as => if ok s a then (step s a).bind fun s' => exec step ok s' as else none

/-- **The run of a list reaches its last state.** -/
theorem reach_of_exec [∀ s a, Decidable (ok s a)] {as : List α}
    (h : exec step ok s as = some s') (hs : Reach step ok s₀ s) : Reach step ok s₀ s' := by
  induction as generalizing s with
  | nil =>
    obtain rfl : s = s' := Option.some.inj h
    exact hs
  | cons a as ih =>
    rw [exec] at h
    split_ifs at h with hok
    obtain ⟨t, ht, h⟩ := Option.bind_eq_some_iff.mp h
    exact ih h (hs.next hok ht)

instance (s : σ) (a : α) : Decidable (Any s a) := isTrue trivial

end Transition
