import Mathlib.Data.Multiset.AddSub
import Mathlib.Tactic.Common

/-!
# Lib/FirstMatch — removing what a search stops at

A search through a list that stops at `q` removes an element with `P`, where every `P` is a `q`.
-/

namespace Kroc

namespace FirstMatch

variable {α : Type*} {P : α → Prop} {q : α → Bool} {c c' l₁ l₂ : List α} {a b : α}

/-- **One element with `P` removed, or none there**; the others are left in their order. -/
def Removed (P : α → Prop) (c c' : List α) : Prop :=
  (∃ pre e post, c = pre ++ e :: post ∧ P e ∧ c' = pre ++ post) ∨ (∀ e ∈ c, ¬ P e) ∧ c' = c

theorem eq_of_perm_cons {l l' : List α} (h : (a :: l).Perm (b :: l')) (hl : l = l') : a = b := by
  subst hl
  have hcoe : a ::ₘ (l : Multiset α) = b ::ₘ (l : Multiset α) := Multiset.coe_eq_coe.mpr h
  exact (Multiset.cons_inj_left _).mp hcoe

theorem find?_split (h₁ : ∀ b ∈ l₁, ¬ q b = true) (ha : q a = true) :
    (l₁ ++ a :: l₂).find? q = some a := by
  rw [List.find?_append, List.find?_eq_none.mpr h₁, Option.none_or, List.find?_cons_of_pos ha]

/-- **The search removes rightly** exactly when what it stops at has `P`. -/
theorem removed_eraseP_iff (hPq : ∀ e, P e → q e = true) :
    Removed P c (c.eraseP q) ↔ ∀ e ∈ c.find? q, P e := by
  rcases List.exists_or_eq_self_of_eraseP q c with hself | ⟨a, l₁, l₂, h₁, ha, rfl, heq⟩
  · have hnone : ∀ e ∈ c, ¬ q e = true := List.eraseP_eq_self_iff.mp hself
    rw [hself, List.find?_eq_none.mpr hnone]
    refine ⟨fun _ e he => absurd he (Option.not_mem_none e), fun _ => .inr ⟨fun e he hP => ?_, rfl⟩⟩
    exact hnone e he (hPq e hP)
  · rw [heq, find?_split h₁ ha]
    constructor
    · rintro (⟨pre, e, post, hsplit, hP, hrest⟩ | ⟨-, hsame⟩) e' he'
      · obtain rfl := Option.some.inj he'
        have hperm : (a :: (l₁ ++ l₂)).Perm (e :: (pre ++ post)) :=
          List.perm_middle.symm.trans ((List.Perm.of_eq hsplit).trans List.perm_middle)
        exact eq_of_perm_cons hperm hrest ▸ hP
      · have hlength := congrArg List.length hsame
        simp at hlength
    · exact fun h => .inl ⟨l₁, a, l₂, rfl, h a rfl, rfl⟩

end FirstMatch

end Kroc
