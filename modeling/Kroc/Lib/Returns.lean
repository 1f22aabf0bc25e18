import Mathlib.Data.Nat.Notation
import Mathlib.Order.Defs.LinearOrder
import Mathlib.Order.Nat

/-!
# Lib/Returns — calls with a bound on their loops

A loop in memory is a function of a bound, and gives nothing where the bound runs out.  The call
returns what it gives for every bound that is large enough.
-/

/-- The call with a bound on its loops returns `a`, for every bound that is large enough. -/
def Returns {α : Type*} (call : ℕ → Option α) (a : α) : Prop :=
  ∃ k, ∀ fuel, k ≤ fuel → call fuel = some a

variable {α β : Type*} {a b : α}

theorem Returns.of_some {call : ℕ → Option α} (h : ∀ fuel, call fuel = some a) :
    Returns call a := ⟨0, fun fuel _ => h fuel⟩

theorem Returns.of_add {call : ℕ → Option α} (k : ℕ) (h : ∀ fuel, call (fuel + k) = some a) :
    Returns call a :=
  ⟨k, fun fuel hle => by
    obtain ⟨j, rfl⟩ := Nat.exists_eq_add_of_le' hle
    exact h j⟩

/-- **A call after a call**. -/
theorem Returns.bind {call : ℕ → Option α} {rest : ℕ → α → Option β} {c : β}
    (h : Returns call a) (hrest : Returns (fun fuel => rest fuel a) c) :
    Returns (fun fuel => (call fuel).bind (rest fuel)) c := by
  obtain ⟨k, hk⟩ := h
  obtain ⟨j, hj⟩ := hrest
  refine ⟨max k j, fun fuel hle => ?_⟩
  dsimp only
  rw [hk fuel ((Nat.le_max_left k j).trans hle)]
  exact hj fuel ((Nat.le_max_right k j).trans hle)

theorem Returns.map {call : ℕ → Option α} (h : Returns call a) (f : α → β) :
    Returns (fun fuel => (call fuel).map f) (f a) := by
  obtain ⟨k, hk⟩ := h
  refine ⟨k, fun fuel hle => ?_⟩
  dsimp only
  rw [hk fuel hle, Option.map_some]

/-- A call that more of a bound does not change. -/
theorem Returns.of_mono {call : ℕ → Option α}
    (hmono : ∀ fuel, call fuel = some a → call (fuel + 1) = some a) {k : ℕ} (hk : call k = some a) :
    Returns call a :=
  ⟨k, fun _ hle => Nat.le_induction hk (fun m _ hm => hmono m hm) _ hle⟩

theorem Returns.eq {call : ℕ → Option α} (ha : Returns call a)
    (hb : Returns call b) : a = b := by
  obtain ⟨k, hk⟩ := ha
  obtain ⟨j, hj⟩ := hb
  exact Option.some.inj ((hk _ (Nat.le_max_left k j)).symm.trans (hj _ (Nat.le_max_right k j)))
