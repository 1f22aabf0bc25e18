import Mathlib.Data.Finset.Lattice.Basic
import Mathlib.Algebra.Order.BigOperators.Group.Finset
import Mathlib.Tactic

/-!
# Lib/Worklist — the least solution of monotone equations, by chaotic iteration

Unknowns `i ∈ unknowns`, a number for each, and an equation `x i = f x i` with `f` monotone.  A pass
visits the unknowns to do in any order and puts `f x i` for `x i` there and then; whoever depends on
an unknown that changed is to do in the next pass.

**The passes come to an end, and at the least solution above the start** (`run_eq`), whatever the
order of the visits.
-/

namespace Worklist

variable {ι : Type*} [DecidableEq ι]

section Algorithm

variable (f : (ι → ℕ) → ι → ℕ) (dependents : ι → Finset ι)

/-- One visit: the numbers, and what is to do in the next pass. -/
def visit (r : (ι → ℕ) × Finset ι) (i : ι) : (ι → ℕ) × Finset ι :=
  (Function.update r.1 i (f r.1 i), if f r.1 i = r.1 i then r.2 else r.2 ∪ dependents i)

/-- One pass. -/
def pass (keys : List ι) (x : ι → ℕ) : (ι → ℕ) × Finset ι := keys.foldl (visit f dependents) (x, ∅)

/-- The passes, `keys r todo` being the order of the visits in pass `r`. -/
def run (keys : ℕ → Finset ι → List ι) : ℕ → ℕ → (ι → ℕ) → Finset ι → Option (ι → ℕ)
  | 0, _, _, _ => none
  | fuel + 1, r, x, todo =>
    if todo = ∅ then some x
    else run keys fuel (r + 1) (pass f dependents (keys r todo) x).1
      (pass f dependents (keys r todo) x).2

end Algorithm

/-- The orders of visits: in every pass, everything to do is visited once. -/
structure Order (ι : Type*) where
  keys : ℕ → Finset ι → List ι
  nodup : ∀ r todo, (keys r todo).Nodup
  mem_iff : ∀ r todo i, i ∈ keys r todo ↔ i ∈ todo

/-- **Equations that can be solved**: they are monotone, none asks for more than `bound`, and an
unknown matters only to its dependents. -/
structure Equations (f : (ι → ℕ) → ι → ℕ) (dependents : ι → Finset ι) (unknowns : Finset ι)
    (bound : ℕ) : Prop where
  mono : ∀ {x y : ι → ℕ} {i}, i ∈ unknowns → x ≤ y → f x i ≤ f y i
  le_bound : ∀ x i, i ∈ unknowns → f x i ≤ bound
  depends : ∀ {i j}, i ∈ unknowns → j ∈ unknowns → i ∉ dependents j →
    ∀ x v, f (Function.update x j v) i = f x i
  closed : ∀ j ∈ unknowns, dependents j ⊆ unknowns

/-- A solution above the start. -/
structure Solution (f : (ι → ℕ) → ι → ℕ) (unknowns : Finset ι) (x₀ x : ι → ℕ) : Prop where
  above : x₀ ≤ x
  known : ∀ i ∉ unknowns, x i = x₀ i
  solves : ∀ i ∈ unknowns, f x i = x i

/-- **Where an iteration is**: below its equations and every solution, and only what is to do is not
solved. -/
structure Under (f : (ι → ℕ) → ι → ℕ) (unknowns : Finset ι) (x₀ x : ι → ℕ) (todo : ι → Prop) :
    Prop where
  above : x₀ ≤ x
  known : ∀ i ∉ unknowns, x i = x₀ i
  under : ∀ i ∈ unknowns, x i ≤ f x i
  least : ∀ z, Solution f unknowns x₀ z → x ≤ z
  solved : ∀ i ∈ unknowns, ¬ todo i → f x i = x i

variable {f : (ι → ℕ) → ι → ℕ} {dependents : ι → Finset ι} {unknowns todo : Finset ι}
  {bound : ℕ} {x₀ x y : ι → ℕ} {i : ι} {order : Order ι}

theorem visit_fst (r : (ι → ℕ) × Finset ι) :
    (visit f dependents r i).1 = Function.update r.1 i (f r.1 i) := rfl

theorem visit_snd (r : (ι → ℕ) × Finset ι) :
    (visit f dependents r i).2 = if f r.1 i = r.1 i then r.2 else r.2 ∪ dependents i := rfl

theorem le_update (h : x i ≤ f x i) : x ≤ Function.update x i (f x i) := by
  intro j
  by_cases e : j = i
  · subst e
    rw [Function.update_self]
    exact h
  · rw [Function.update_of_ne e]

/-- **One visit** solves an equation, and only the dependents of the unknown may have to be done
again. -/
theorem Under.visit (he : Equations f dependents unknowns bound) {rest : ι → Prop}
    {r : (ι → ℕ) × Finset ι} (hi : i ∈ unknowns)
    (h : Under f unknowns x₀ r.1 fun j => (j = i ∨ rest j) ∨ j ∈ r.2) :
    Under f unknowns x₀ (visit f dependents r i).1
      fun j => rest j ∨ j ∈ (Worklist.visit f dependents r i).2 := by
  have hle := le_update (h.under i hi)
  rw [visit_fst, visit_snd]
  refine ⟨h.above.trans hle, fun j hj => ?_, fun j hj => ?_, fun z hz j => ?_, fun j hj hdone => ?_⟩
  · rw [Function.update_of_ne (ne_of_mem_of_not_mem hi hj).symm]
    exact h.known j hj
  · refine le_trans ?_ (he.mono hj hle)
    by_cases e : j = i
    · rw [e, Function.update_self]
    · rw [Function.update_of_ne e]
      exact h.under j hj
  · by_cases e : j = i
    · rw [e, Function.update_self, ← hz.solves i hi]
      exact he.mono hi (h.least z hz)
    · rw [Function.update_of_ne e]
      exact h.least z hz j
  · obtain ⟨hrest, hpending⟩ := not_or.mp hdone
    by_cases hsame : f r.1 i = r.1 i
    · rw [if_pos hsame] at hpending
      rw [hsame, Function.update_eq_self]
      by_cases e : j = i
      · rw [e, hsame]
      · exact h.solved j hj (by tauto)
    · rw [if_neg hsame, Finset.mem_union, not_or] at hpending
      rw [he.depends hj hi hpending.2]
      by_cases e : j = i
      · rw [e, Function.update_self]
      · rw [Function.update_of_ne e]
        exact h.solved j hj (by tauto)

/-- What is to do stays among the unknowns. -/
theorem visit_subset (he : Equations f dependents unknowns bound) (hi : i ∈ unknowns)
    {r : (ι → ℕ) × Finset ι} (h : r.2 ⊆ unknowns) : (visit f dependents r i).2 ⊆ unknowns := by
  rw [visit_snd]
  split_ifs
  · exact h
  · exact Finset.union_subset h (he.closed i hi)

theorem foldl_subset (he : Equations f dependents unknowns bound) {keys : List ι}
    (hkeys : ∀ i ∈ keys, i ∈ unknowns) {r : (ι → ℕ) × Finset ι} (hr : r.2 ⊆ unknowns) :
    (keys.foldl (visit f dependents) r).2 ⊆ unknowns := by
  induction keys generalizing r with
  | nil => exact hr
  | cons i keys ih =>
    exact ih (fun j hj => hkeys j (List.mem_cons_of_mem i hj))
      (visit_subset he (hkeys i List.mem_cons_self) hr)

/-- Only unknowns are to do after a pass. -/
theorem pass_subset (he : Equations f dependents unknowns bound) (order : Order ι)
    (htodo : todo ⊆ unknowns) (r : ℕ) (x : ι → ℕ) :
    (pass f dependents (order.keys r todo) x).2 ⊆ unknowns :=
  foldl_subset he (fun i hi => htodo ((order.mem_iff r todo i).mp hi)) (Finset.empty_subset _)

/-- A visit that leaves more to do has got on. -/
theorem visit_advances (hi : i ∈ unknowns) {r : (ι → ℕ) × Finset ι} (h : r.1 i ≤ f r.1 i) :
    (visit f dependents r i).2 = r.2 ∨
      ∃ j ∈ unknowns, r.1 j < (visit f dependents r i).1 j := by
  rw [visit_fst, visit_snd]
  by_cases hsame : f r.1 i = r.1 i
  · exact Or.inl (if_pos hsame)
  · refine Or.inr ⟨i, hi, ?_⟩
    rw [Function.update_self]
    exact lt_of_le_of_ne h (Ne.symm hsame)

/-- What holds after some visits, from `r` to `r'`. -/
structure Visited (f : (ι → ℕ) → ι → ℕ) (unknowns : Finset ι) (x₀ : ι → ℕ)
    (r r' : (ι → ℕ) × Finset ι) : Prop where
  under : Under f unknowns x₀ r'.1 (· ∈ r'.2)
  grown : r.1 ≤ r'.1
  advances : r'.2 = r.2 ∨ ∃ i ∈ unknowns, r.1 i < r'.1 i

/-- **The visits of a pass** solve their equations. -/
theorem Under.foldl (he : Equations f dependents unknowns bound) {keys : List ι}
    (hkeys : ∀ i ∈ keys, i ∈ unknowns) {r : (ι → ℕ) × Finset ι}
    (h : Under f unknowns x₀ r.1 fun j => j ∈ keys ∨ j ∈ r.2) :
    Visited f unknowns x₀ r (keys.foldl (Worklist.visit f dependents) r) := by
  induction keys generalizing r with
  | nil =>
    refine ⟨⟨h.above, h.known, h.under, h.least, fun i hi hn => h.solved i hi ?_⟩, le_rfl,
      Or.inl rfl⟩
    simpa using hn
  | cons i keys ih =>
    have hi := hkeys i List.mem_cons_self
    have hle := h.under i hi
    have hvisit := Under.visit he hi (by simpa only [List.mem_cons] using h)
    have hrest := ih (fun j hj => hkeys j (List.mem_cons_of_mem _ hj)) hvisit
    have hgrown : r.1 ≤ (Worklist.visit f dependents r i).1 := le_update hle
    rw [List.foldl_cons]
    refine ⟨hrest.under, hgrown.trans hrest.grown, ?_⟩
    rcases hrest.advances with hsame | ⟨j, hj, hlt⟩
    · rcases visit_advances hi hle with hsame' | ⟨j, hj, hlt⟩
      · exact Or.inl (hsame.trans hsame')
      · exact Or.inr ⟨j, hj, hlt.trans_le (hrest.grown j)⟩
    · exact Or.inr ⟨j, hj, (hgrown j).trans_lt hlt⟩

/-- **A pass** does everything that is to do. -/
theorem Under.pass (he : Equations f dependents unknowns bound) (htodo : todo ⊆ unknowns)
    (h : Under f unknowns x₀ x (· ∈ todo)) (order : Order ι) (r : ℕ) :
    Visited f unknowns x₀ (x, ∅) (pass f dependents (order.keys r todo) x) := by
  refine Under.foldl he (fun i hi => htodo ((order.mem_iff r todo i).mp hi))
    ⟨h.above, h.known, h.under, h.least, fun i hi hn => h.solved i hi ?_⟩
  rw [order.mem_iff] at hn
  exact fun e => hn (Or.inl e)

/-- The sum of the unknowns, which the passes drive up to its bound. -/
theorem Under.sum_le (he : Equations f dependents unknowns bound) {p : ι → Prop}
    (h : Under f unknowns x₀ x p) : ∑ i ∈ unknowns, x i ≤ bound * unknowns.card := by
  have hle := Finset.sum_le_card_nsmul unknowns x bound fun i hi =>
    (h.under i hi).trans (he.le_bound x i hi)
  rwa [smul_eq_mul, mul_comm] at hle

/-- **The passes come to an end**, at a solution that is below every other. -/
theorem Under.run (he : Equations f dependents unknowns bound) (order : Order ι) (fuel r : ℕ)
    (htodo : todo ⊆ unknowns) (h : Under f unknowns x₀ x (· ∈ todo))
    (hfuel : todo = ∅ ∧ 1 ≤ fuel ∨ bound * unknowns.card + 2 ≤ fuel + ∑ i ∈ unknowns, x i) :
    ∃ z, run f dependents order.keys fuel r x todo = some z ∧ Solution f unknowns x₀ z ∧
      ∀ z', Solution f unknowns x₀ z' → z ≤ z' := by
  have hsum := h.sum_le he
  induction fuel generalizing r x todo with
  | zero => omega
  | succ fuel ih =>
    rw [Worklist.run]
    by_cases hempty : todo = ∅
    · subst hempty
      exact ⟨x, if_pos rfl, ⟨h.above, h.known, fun i hi => h.solved i hi (by simp)⟩, h.least⟩
    · rw [if_neg hempty]
      have hpass := h.pass he htodo order r
      have hsum' := hpass.under.sum_le he
      have henough := hfuel.resolve_left fun e => hempty e.1
      refine ih (r + 1) (pass_subset he order htodo r x) hpass.under ?_ hsum'
      rcases hpass.advances with hdone | ⟨i, hi, hlt⟩
      · exact Or.inl ⟨hdone, by omega⟩
      · have hgrown : ∑ i ∈ unknowns, x i <
            ∑ i ∈ unknowns, (Worklist.pass f dependents (order.keys r todo) x).1 i :=
          Finset.sum_lt_sum (fun i _ => hpass.grown i) ⟨i, hi, hlt⟩
        omega

/-- **The passes end at the least solution**, in whatever order they visit the unknowns. -/
theorem run_eq (he : Equations f dependents unknowns bound) (h₀ : ∀ i ∈ unknowns, x₀ i ≤ f x₀ i) :
    ∃ x, Solution f unknowns x₀ x ∧ (∀ z, Solution f unknowns x₀ z → x ≤ z) ∧
      ∀ (order : Order ι) (fuel : ℕ), bound * unknowns.card + 2 ≤ fuel →
        run f dependents order.keys fuel 0 x₀ unknowns = some x := by
  have hstart : Under f unknowns x₀ x₀ (· ∈ unknowns) :=
    ⟨le_rfl, fun _ _ => rfl, h₀, fun z hz => hz.above, fun i hi hn => absurd hi hn⟩
  have hruns : ∀ (order : Order ι) (fuel : ℕ), bound * unknowns.card + 2 ≤ fuel →
      ∃ z, run f dependents order.keys fuel 0 x₀ unknowns = some z ∧ Solution f unknowns x₀ z ∧
        ∀ z', Solution f unknowns x₀ z' → z ≤ z' := fun order fuel hfuel =>
    hstart.run he order fuel 0 subset_rfl (Or.inr (by omega))
  let order₀ : Order ι := ⟨fun _ todo => todo.toList, fun _ todo => todo.nodup_toList,
    fun _ _ _ => Finset.mem_toList⟩
  obtain ⟨x, -, hx, hleast⟩ := hruns order₀ _ le_rfl
  refine ⟨x, hx, hleast, fun order fuel hfuel => ?_⟩
  obtain ⟨z, hz, hsol, hleast'⟩ := hruns order fuel hfuel
  rw [hz, le_antisymm (hleast' x hx) (hleast z hsol)]

end Worklist
