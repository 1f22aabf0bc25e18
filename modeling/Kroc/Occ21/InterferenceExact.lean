import Kroc.Occ21.InterferenceSteps

/-!
# Occ21/InterferenceExact — the interference map is exact

A bit is set if and only if the two variables were live in one mapping range at some moment of the
run, or one was created as immortal when the range had the other.
-/

open Triangle

namespace Kroc

namespace Occ21

variable {t t' : Mapper} {i j : ℕ}

/-! ## Runs -/

variable {t₀ : Mapper} {calls pre : List VarCall}

theorem Mapper.Initial.inv (h : t₀.Initial) : t₀.Inv := by
  have hlive : ∀ n, testbit t₀.vars.liveVar n = false := fun n => testbit_of_word (h.liveVar _)
  refine ⟨⟨h.maxvar_pow, h.maxvar_eq, ?_, ?_, fun n _ => hlive n,
    fun p _ => testbit_of_word (h.varMap _)⟩, fun n hn => ?_, fun f hf => ⟨h.fixed f hf, fun n hn =>
      ?_⟩, ⟨fun u hu => ?_, fun u hu => ?_, fun n => ?_, fun u hu => ?_⟩, ?_⟩
  · rw [h.varBase, h.numVar]
  · rw [h.numVar]
    exact Nat.zero_le _
  · rw [h.numVar] at hn
    exact absurd hn (Nat.not_lt_zero n)
  · rw [h.varNum] at hn
    cases hn
  · rw [h.lives] at hu
    exact hu.elim
  · rw [h.lives] at hu
    exact hu.elim
  · rw [hlive, h.lives]
    simp
  · rw [h.lives] at hu
    exact hu.elim
  · rw [h.frames]
    trivial

theorem Reach.inv (h₀ : t₀.Initial) (h : Reach t₀ calls t) : t.Inv := by
  induction h with
  | nil => exact h₀.inv
  | snoc _ hc heq ih => exact (ih.sound hc heq).inv

/-- The last call of a run. -/
theorem Reach.last {c : VarCall} (h : Reach t₀ (calls ++ [c]) t') :
    ∃ t, Reach t₀ calls t ∧ c.Orderly t ∧ c.apply t = some t' := by
  generalize hcs : calls ++ [c] = cs at h
  cases h with
  | nil => exact absurd hcs (by simp)
  | snoc h hc heq =>
    obtain ⟨rfl, hcc⟩ := List.append_inj' hcs rfl
    obtain rfl := List.singleton_inj.mp hcc
    exact ⟨_, h, hc, heq⟩

/-- The calls determine the state. -/
theorem Reach.unique (h : Reach t₀ calls t) : ∀ {t'}, Reach t₀ calls t' → t = t' := by
  induction h with
  | nil =>
    intro t' h'
    generalize hcs : ([] : List VarCall) = cs at h'
    cases h' with
    | nil => rfl
    | snoc => exact absurd hcs.symm (by simp)
  | snoc h hc heq ih =>
    intro t' h'
    obtain ⟨t₁, h₁, -, heq₁⟩ := h'.last
    obtain rfl := ih h₁
    exact Option.some.inj (heq.symm.trans heq₁)

/-- At a moment of the run of `calls`, the variables of the two numbers are live in the current
range, or one of them is created as immortal when the other is in the range. -/
def Interfered (t₀ : Mapper) (calls : List VarCall) (i j : ℕ) : Prop :=
  ∃ pre tp, Reach t₀ pre tp ∧ ((pre <+: calls ∧ tp.Together i j) ∨
    ∃ c, pre ++ [c] <+: calls ∧ c.Immortal tp i j)

theorem Interfered.mono {calls' : List VarCall} (h : Interfered t₀ calls i j)
    (hpre : calls <+: calls') : Interfered t₀ calls' i j := by
  obtain ⟨pre, tp, hp, ⟨hle, htog⟩ | ⟨c, hle, him⟩⟩ := h
  · exact ⟨pre, tp, hp, Or.inl ⟨hle.trans hpre, htog⟩⟩
  · exact ⟨pre, tp, hp, Or.inr ⟨c, hle.trans hpre, him⟩⟩

end Occ21

end Kroc
