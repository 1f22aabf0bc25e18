import Mathlib.Data.Int.Notation
import Mathlib.Data.Option.Basic

/-!
# Lib/Exact — operations on words that are exact or flagged

An operation on words stands for one on numbers, whose result may be undefined, or a number that no
word stands for.
-/

variable {α : Type*} {value : α → ℤ} {Fits : ℤ → Prop} {result : Option ℤ} {r : Option α} {x : ℤ}
    {w : α}

/-- The operation is flagged where the result is undefined or does not fit, and gives the result's
word everywhere else. -/
structure ExactOrFlagged (value : α → ℤ) (Fits : ℤ → Prop) (result : Option ℤ) (r : Option α) :
    Prop where
  flagged : r = none ↔ ∀ x ∈ result, ¬ Fits x
  delivered : ∀ w ∈ r, value w ∈ result

namespace ExactOrFlagged

/-- **What is delivered fits**, so that it can be an operand again. -/
theorem fits (h : ExactOrFlagged value Fits result r) (hw : w ∈ r) : Fits (value w) := by
  by_contra hfit
  have hnone : r = none := h.flagged.mpr fun x hx => by
    rw [Option.mem_unique hx (h.delivered w hw)]
    exact hfit
  rw [hnone] at hw
  exact absurd hw (Option.not_mem_none w)

theorem of_undefined : ExactOrFlagged value Fits none (none : Option α) :=
  ⟨⟨fun _ _ hx => absurd hx (Option.not_mem_none _), fun _ => rfl⟩,
    fun _ hw => absurd hw (Option.not_mem_none _)⟩

theorem of_none (h : ¬ Fits x) : ExactOrFlagged value Fits (some x) (none : Option α) :=
  ⟨⟨fun _ _ hx => Option.mem_some_iff.mp hx ▸ h, fun _ => rfl⟩,
    fun _ hw => absurd hw (Option.not_mem_none _)⟩

theorem of_some (hx : Fits x) (h : value w = x) : ExactOrFlagged value Fits (some x) (some w) :=
  ⟨⟨fun hnone => absurd hnone (Option.some_ne_none w), fun hfit => absurd hx (hfit x rfl)⟩,
    fun w' hw => by rw [← Option.mem_some_iff.mp hw, h]; rfl⟩

theorem none_iff : ExactOrFlagged value Fits (some x) (none : Option α) ↔ ¬ Fits x :=
  ⟨fun h => h.flagged.mp rfl x rfl, of_none⟩

theorem some_iff : ExactOrFlagged value Fits (some x) (some w) ↔ Fits x ∧ value w = x := by
  refine ⟨fun h => ?_, fun h => of_some h.1 h.2⟩
  have hval : value w = x := (Option.mem_some_iff.mp (h.delivered w rfl)).symm
  exact ⟨hval ▸ h.fits rfl, hval⟩

/-- An operation that writes its result and decides for itself whether it is flagged. -/
theorem of_ite {flag : Prop} [Decidable flag] (hflag : flag ↔ ¬ Fits x) (h : Fits x → value w = x) :
    ExactOrFlagged value Fits (some x) (if flag then none else some w) := by
  by_cases hf : flag
  · rw [if_pos hf]
    exact of_none (hflag.mp hf)
  · rw [if_neg hf]
    have hx : Fits x := not_not.mp (mt hflag.mpr hf)
    exact of_some hx (h hx)

/-- What is delivered of an operation that is undefined at some operands. -/
theorem delivered_of_ite {p : Prop} [Decidable p]
    (h : ExactOrFlagged value Fits (if p then none else some x) r) (hw : w ∈ r) :
      ¬ p ∧ value w = x := by
  have hval := h.delivered w hw
  by_cases hp : p
  · rw [if_pos hp] at hval
    exact absurd hval (Option.not_mem_none _)
  · rw [if_neg hp] at hval
    exact ⟨hp, (Option.mem_some_iff.mp hval).symm⟩

/-- An operation that gives its flag and its result. -/
def deliver (r : Bool × α) : Option α := if r.1 then none else some r.2

/-- The result in another representation. -/
theorem map {β : Type*} {value' : β → ℤ} {f : α → β} (h : ExactOrFlagged value Fits result r)
    (hf : ∀ w ∈ r, value' (f w) = value w) : ExactOrFlagged value' Fits result (r.map f) := by
  refine ⟨Option.map_eq_none_iff.trans h.flagged, fun y hy => ?_⟩
  obtain ⟨w, hw, rfl⟩ := Option.mem_map.mp hy
  rw [hf w hw]
  exact h.delivered w hw

/-- **A narrower range**, that is asked for after the operation. -/
theorem narrow {Fits' : ℤ → Prop} {r : Bool × α} {c : α → Bool}
    (h : ExactOrFlagged value Fits (some x) (deliver r)) (hsub : Fits' x → Fits x)
    (hcheck : ∀ w, c w = true ↔ ¬ Fits' (value w)) :
    ExactOrFlagged value Fits' (some x) (deliver (r.1 || c r.2, r.2)) := by
  obtain ⟨flag, w⟩ := r
  cases flag with
  | true => exact of_none fun hx => (none_iff.mp h) (hsub hx)
  | false =>
    have hval : value w = x := (some_iff.mp h).2
    exact of_ite ((hcheck w).trans (by rw [hval])) fun _ => hval

end ExactOrFlagged
