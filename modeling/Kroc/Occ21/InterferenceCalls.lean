import Kroc.Occ21.Interference

/-!
# Occ21/InterferenceCalls — what a call does to the rows

There is room for the next number as long as rows are counted in an `int`, and the arrays grow
without a change of their bits; a variable that is created or resurrected is marked with all the
live ones of its range.
-/

open Triangle

namespace Kroc

namespace Occ21

variable {s s' : Vars} {nptr n m i j p : ℕ}

/-! ## The arrays -/

/-- The arrays are as long as `maxvar` says, which is `MAXVAR` doubled, and no bit behind is set. -/
structure Vars.Sized (s : Vars) : Prop where
  maxvar_pow : ∃ k ≤ 9, s.maxvar = 64 * 2 ^ k
  maxvar_eq : s.maxvar = 32 * s.varrow
  base_le : s.varBase ≤ s.numVar
  num_le : s.numVar ≤ s.maxvar
  live_behind : ∀ n ≥ s.maxvar, testbit s.liveVar n = false
  map_behind : ∀ p ≥ start s.maxvar, testbit s.varMap p = false

/-- Rows are counted in an `int` up to the 32768th. -/
theorem numwordsOf_of_le (h : n ≤ 2 ^ 15) :
    ∃ w, numwordsOf n = some w ∧ start n ≤ 32 * w ∧ start n < 2 ^ 31 := by
  have hle : (n + 1) * n ≤ (2 ^ 15 + 1) * 2 ^ 15 := Nat.mul_le_mul (Nat.succ_le_succ h) h
  have hmod : start n &&& 31 = start n % 32 := Nat.and_two_pow_sub_one_eq_mod (start n) 5
  have htwo := two_mul_start n
  rw [numwordsOf, if_pos (by omega)]
  refine ⟨_, rfl, ?_, by omega⟩
  rw [hmod, Nat.shiftRight_eq_div_pow]
  split_ifs <;> omega

/-- The rows of 65536 variables are too many. -/
theorem numwordsOf_double : numwordsOf (64 * 2 ^ 9 * 2) = none := by decide

theorem start_mono (h : n ≤ m) : start n ≤ start m := by
  rcases Nat.eq_or_lt_of_le h with rfl | hlt
  · exact le_rfl
  · have := start_add_lt hlt (Nat.zero_le n)
    omega

theorem Vars.Sized.maxvar_le (h : s.Sized) : s.maxvar ≤ 2 ^ 15 := by
  obtain ⟨k, hk, hmax⟩ := h.maxvar_pow
  have := Nat.pow_le_pow_right Nat.two_pos hk
  omega

/-- **Growing changes no bit** that there was, and the new ones are clear. -/
theorem Vars.Sized.stretch_bits (h : s.Sized) (heq : s.stretch = some s') :
    (∀ p, testbit s'.varMap p = testbit s.varMap p) ∧
      ∀ n, testbit s'.liveVar n = testbit s.liveVar n := by
  obtain ⟨w, hw, hle, -⟩ := numwordsOf_of_le h.maxvar_le
  obtain ⟨_, -, heq⟩ := Option.bind_eq_some_iff.mp heq
  rw [hw, Option.map_some, Option.some_inj] at heq
  subst heq
  constructor
  · intro p
    rw [testbit_eq, testbit_eq]
    dsimp only
    split_ifs with hw
    · rfl
    · have hp : start s.maxvar ≤ p := by omega
      rw [← testbit_eq, h.map_behind p hp]
      exact BitVec.getLsbD_zero
  · intro n
    have hmax := h.maxvar_eq
    rw [testbit_eq, testbit_eq]
    dsimp only
    split_ifs with hw
    · rfl
    · have hn : s.maxvar ≤ n := by omega
      rw [← testbit_eq, h.live_behind n hn]
      exact BitVec.getLsbD_zero

/-- The same variables and bits, with `numVar` numbers and as much room or more. -/
structure Vars.Next (s s' : Vars) (numVar : ℕ) : Prop where
  sized : s'.Sized
  varrow : s.varrow ≤ s'.varrow
  numVar_eq : s'.numVar = numVar
  varBase : s'.varBase = s.varBase
  varList : s'.varList = s.varList
  node : s'.node = s.node
  fixedwsList : s'.fixedwsList = s.fixedwsList
  map : ∀ p, testbit s'.varMap p = testbit s.varMap p
  live : ∀ n, testbit s'.liveVar n = testbit s.liveVar n

theorem Vars.Sized.stretch_next (h : s.Sized) (heq : s.stretch = some s') :
    s.Next s' s.numVar ∧ s'.maxvar = s.maxvar * 2 := by
  obtain ⟨hmap, hlive⟩ := h.stretch_bits heq
  obtain ⟨_, hnew, heq⟩ := Option.bind_eq_some_iff.mp heq
  obtain ⟨_, -, rfl⟩ := Option.map_eq_some_iff.mp heq
  have hmax := h.maxvar_eq
  have hle : s.maxvar ≤ s.maxvar * 2 := Nat.le_mul_of_pos_right _ Nat.two_pos
  refine ⟨⟨⟨?_, show s.maxvar * 2 = 32 * (s.varrow * 2) by omega, h.base_le, h.num_le.trans hle,
    fun n hn => ?_, fun p hp => ?_⟩, Nat.le_mul_of_pos_right _ Nat.two_pos, rfl, rfl, rfl, rfl, rfl,
    hmap, hlive⟩, rfl⟩
  · obtain ⟨k, hk, hpow⟩ := h.maxvar_pow
    refine ⟨k + 1, Nat.succ_le_of_lt (lt_of_le_of_ne hk fun hnine => ?_), ?_⟩
    · rw [hpow, hnine, numwordsOf_double] at hnew
      cases hnew
    · show s.maxvar * 2 = 64 * 2 ^ (k + 1)
      rw [hpow, pow_succ, mul_assoc]
  · rw [hlive]
    exact h.live_behind n (hle.trans hn)
  · rw [hmap]
    exact h.map_behind p ((start_mono hle).trans hp)

/-- **The next number** is the least that is not in use, and there is room for it. -/
theorem nextvarnum_spec {r : ℕ × Vars} (h : s.Sized) (heq : nextvarnum s = some r) :
    r.1 = s.numVar ∧ s.Next r.2 (s.numVar + 1) := by
  obtain ⟨s₁, hs₁, rfl⟩ := Option.map_eq_some_iff.mp heq
  split_ifs at hs₁ with hfull
  · obtain ⟨hnext, hmax⟩ := h.stretch_next hs₁
    have hnum := hnext.numVar_eq
    obtain ⟨k, -, hpow⟩ := h.maxvar_pow
    have hpos := Nat.two_pow_pos k
    have hle := h.num_le
    refine ⟨hnum, ⟨hnext.sized.maxvar_pow, hnext.sized.maxvar_eq, ?_, ?_, hnext.sized.live_behind,
      hnext.sized.map_behind⟩, hnext.varrow, by rw [hnum], hnext.varBase, hnext.varList, hnext.node,
      hnext.fixedwsList, hnext.map, hnext.live⟩
    · exact hnext.sized.base_le.trans (Nat.le_succ _)
    · show s₁.numVar + 1 ≤ s₁.maxvar
      omega
  · cases hs₁
    exact ⟨rfl, ⟨h.maxvar_pow, h.maxvar_eq, h.base_le.trans (Nat.le_succ _), not_le.mp hfull,
      h.live_behind, h.map_behind⟩, le_rfl, rfl, rfl, rfl, rfl, rfl, fun _ => rfl, fun _ => rfl⟩

theorem testbit_markbitmap (map mask : ℕ → BitVec (2 ^ 5)) (first last n p : ℕ) :
    testbit (markbitmap map mask first last n) p = true ↔ testbit map p = true ∨
      ∃ i, first ≤ i ∧ i ≤ last ∧ testbit mask i = true ∧ p = index i n := by
  rw [markbitmap, testbit_foldl_setPair (testbit mask)]
  refine or_congr Iff.rfl (exists_congr fun i => ?_)
  have hmem : i ∈ List.range' first (last + 1 - first) ↔ first ≤ i ∧ i ≤ last := by
    rw [List.mem_range'_1]
    omega
  rw [hmem, and_assoc]

theorem index_lt (hi : i < m) (hj : j < m) : index i j < start m := by
  unfold index
  split_ifs with h
  · exact start_add_lt hi h.le
  · exact start_add_lt hj (not_lt.mp h)

/-- The positions of the bits are numbers of an `int`. -/
theorem Vars.Sized.index_lt (h : s.Sized) (hi : i < s.maxvar) (hj : j < s.maxvar) :
    index i j < 2 ^ 31 := by
  obtain ⟨_, -, -, hlt⟩ := numwordsOf_of_le h.maxvar_le
  exact (Occ21.index_lt hi hj).trans hlt

/-! ## Creating -/

/-- `nptr` has become the variable `s.numVar`, and the bits `marks` are set for it. -/
structure Vars.Created (s s' : Vars) (nptr : ℕ) (live : Bool) (marks : ℕ → Prop) : Prop where
  sized : s'.Sized
  varrow : s.varrow ≤ s'.varrow
  numVar : s'.numVar = s.numVar + 1
  varBase : s'.varBase = s.varBase
  varList : s'.varList = Function.update s.varList s.numVar nptr
  varNum : ∀ u, (s'.node u).varNum = if u = nptr then some s.numVar else (s.node u).varNum
  tag : ∀ u, (s'.node u).tag = (s.node u).tag
  fixedwsList : s'.fixedwsList = s.fixedwsList
  map : ∀ p, testbit s'.varMap p = true ↔ testbit s.varMap p = true ∨
    ∃ i, s.varBase ≤ i ∧ i ≤ s.numVar ∧ marks i ∧ p = index i s.numVar
  live : ∀ n, testbit s'.liveVar n = true ↔
    (live = true ∧ n = s.numVar) ∨ testbit s.liveVar n = true

theorem createVar_spec {s₁ : Vars} (h : s.Sized) (heq : createVar nptr s = some s₁) :
    s.Created s₁ nptr true fun i => i = s.numVar ∨ testbit s.liveVar i = true := by
  obtain ⟨⟨n, s'⟩, hnext, rfl⟩ := Option.map_eq_some_iff.mp heq
  obtain ⟨hn, hs'⟩ := nextvarnum_spec h hnext
  dsimp only at hn hs' ⊢
  subst hn
  have hlast : s'.numVar - 1 = s.numVar := by
    rw [hs'.numVar_eq]
    rfl
  have hlt : s.numVar < s'.maxvar := by
    have := hs'.sized.num_le
    rw [hs'.numVar_eq] at this
    exact this
  have hlive : ∀ n, testbit (setbit s'.liveVar s.numVar) n = true ↔
      n = s.numVar ∨ testbit s.liveVar n = true := by
    intro n
    rw [testbit_setbit, Bool.or_eq_true, decide_eq_true_iff, hs'.live]
  have hmap : ∀ p, testbit (markbitmap s'.varMap (setbit s'.liveVar s.numVar) s'.varBase
      (s'.numVar - 1) s.numVar) p = true ↔ testbit s.varMap p = true ∨ ∃ i, s.varBase ≤ i ∧
        i ≤ s.numVar ∧ (i = s.numVar ∨ testbit s.liveVar i = true) ∧ p = index i s.numVar := by
    intro p
    simp only [testbit_markbitmap, hlive, hs'.map, hs'.varBase, hlast]
  refine ⟨⟨hs'.sized.maxvar_pow, hs'.sized.maxvar_eq, hs'.sized.base_le, hs'.sized.num_le,
    fun n hn => ?_, fun p hp => ?_⟩, hs'.varrow, hs'.numVar_eq, hs'.varBase, ?_, fun u => ?_,
    fun u => ?_, hs'.fixedwsList, hmap, fun n => ?_⟩
  · refine Bool.eq_false_iff.mpr fun hbit => ?_
    rcases (hlive n).mp hbit with rfl | hbit
    · exact absurd hn (not_le.mpr hlt)
    · rw [← hs'.live, hs'.sized.live_behind n hn] at hbit
      cases hbit
  · refine Bool.eq_false_iff.mpr fun hbit => ?_
    rcases (hmap p).mp hbit with hbit | ⟨i, -, hi, -, rfl⟩
    · rw [← hs'.map, hs'.sized.map_behind p hp] at hbit
      cases hbit
    · exact absurd hp (not_le.mpr (index_lt (hi.trans_lt hlt) hlt))
  · rw [← hs'.varList]
  · rw [← hs'.node]
    show (Function.update s'.node nptr _ u).varNum = _
    rw [Function.update_apply]
    split_ifs <;> rfl
  · rw [← hs'.node]
    show (Function.update s'.node nptr _ u).tag = _
    rw [Function.update_apply]
    split_ifs with hu
    · rw [hu]
    · rfl
  · rw [hlive]
    simp

theorem createImmortalvar_spec {s₁ : Vars} (h : s.Sized)
    (heq : createImmortalvar nptr s = some s₁) : s.Created s₁ nptr false fun _ => True := by
  obtain ⟨⟨n, s'⟩, hnext, rfl⟩ := Option.map_eq_some_iff.mp heq
  obtain ⟨hn, hs'⟩ := nextvarnum_spec h hnext
  dsimp only at hn hs' ⊢
  subst hn
  have hlt : s.numVar < s'.maxvar := by
    have := hs'.sized.num_le
    rw [hs'.numVar_eq] at this
    exact this
  have hmap : ∀ p, testbit ((List.range' s'.varBase (s.numVar + 1 - s'.varBase)).foldl
      (fun map i => setPair map i s.numVar) s'.varMap) p = true ↔
        testbit s.varMap p = true ∨ ∃ i, s.varBase ≤ i ∧ i ≤ s.numVar ∧ True ∧
          p = index i s.numVar := by
    intro p
    have hall := testbit_foldl_setPair (fun _ => true) s.numVar p
      (List.range' s'.varBase (s.numVar + 1 - s'.varBase)) s'.varMap
    simp only [if_true, true_and, hs'.map, hs'.varBase] at hall
    rw [hs'.varBase, hall]
    refine or_congr Iff.rfl (exists_congr fun i => ?_)
    have hmem : i ∈ List.range' s.varBase (s.numVar + 1 - s.varBase) ↔
        s.varBase ≤ i ∧ i ≤ s.numVar := by
      rw [List.mem_range'_1]
      omega
    rw [hmem, true_and, and_assoc]
  refine ⟨⟨hs'.sized.maxvar_pow, hs'.sized.maxvar_eq, hs'.sized.base_le, hs'.sized.num_le,
    hs'.sized.live_behind, fun p hp => ?_⟩, hs'.varrow, hs'.numVar_eq, hs'.varBase, ?_, fun u => ?_,
    fun u => ?_, hs'.fixedwsList, hmap, fun n => ?_⟩
  · refine Bool.eq_false_iff.mpr fun hbit => ?_
    rcases (hmap p).mp hbit with hbit | ⟨i, -, hi, -, rfl⟩
    · rw [← hs'.map, hs'.sized.map_behind p hp] at hbit
      cases hbit
    · exact absurd hp (not_le.mpr (index_lt (hi.trans_lt hlt) hlt))
  · rw [← hs'.varList]
  · rw [← hs'.node]
    show (Function.update s'.node nptr _ u).varNum = _
    rw [Function.update_apply]
    split_ifs <;> rfl
  · rw [← hs'.node]
    show (Function.update s'.node nptr _ u).tag = _
    rw [Function.update_apply]
    split_ifs with hu
    · rw [hu]
    · rfl
  · show testbit s'.liveVar n = true ↔ _
    rw [hs'.live]
    simp

/-- The variable `n` is live, and is marked with the others of the range if it was not. -/
structure Vars.Revived (s s' : Vars) (n : ℕ) : Prop where
  sized : s'.Sized
  varrow : s'.varrow = s.varrow
  varBase : s'.varBase = s.varBase
  numVar : s'.numVar = s.numVar
  varList : s'.varList = s.varList
  node : s'.node = s.node
  fixedwsList : s'.fixedwsList = s.fixedwsList
  map : ∀ p, testbit s'.varMap p = true ↔ testbit s.varMap p = true ∨
    testbit s.liveVar n = false ∧ ∃ i, s.varBase ≤ i ∧ i < s.numVar ∧
      (i = n ∨ testbit s.liveVar i = true) ∧ p = index i n
  live : ∀ m, testbit s'.liveVar m = true ↔ m = n ∨ testbit s.liveVar m = true

theorem resurrectVar_spec (h : s.Sized) (hn : (s.node nptr).varNum = some n) (hlt : n < s.numVar) :
    ∃ s', resurrectVar nptr s = some s' ∧ s.Revived s' n := by
  rw [resurrectVar, hn, Option.map_some]
  refine ⟨_, rfl, ?_⟩
  by_cases hbit : testbit s.liveVar n = true
  · rw [if_pos hbit]
    refine ⟨h, rfl, rfl, rfl, rfl, rfl, rfl, fun p => ?_, fun m => ?_⟩
    · simp [hbit]
    · refine ⟨Or.inr, fun hm => hm.elim (fun heq => heq ▸ hbit) id⟩
  · have hlive : ∀ m, testbit (setbit s.liveVar n) m = true ↔
        m = n ∨ testbit s.liveVar m = true := fun m => by
      rw [testbit_setbit, Bool.or_eq_true, decide_eq_true_iff]
    have hmap : ∀ p, testbit (markbitmap s.varMap (setbit s.liveVar n) s.varBase (s.numVar - 1) n)
        p = true ↔ testbit s.varMap p = true ∨ testbit s.liveVar n = false ∧
          ∃ i, s.varBase ≤ i ∧ i < s.numVar ∧ (i = n ∨ testbit s.liveVar i = true) ∧
            p = index i n := by
      intro p
      simp only [testbit_markbitmap, hlive, Bool.eq_false_iff.mpr hbit, true_and,
        Nat.le_sub_one_iff_lt (Nat.zero_lt_of_lt hlt)]
    rw [if_neg hbit]
    refine ⟨⟨h.maxvar_pow, h.maxvar_eq, h.base_le, h.num_le, fun m hm => ?_, fun p hp => ?_⟩, rfl,
      rfl, rfl, rfl, rfl, rfl, hmap, hlive⟩
    · refine Bool.eq_false_iff.mpr fun hset => ?_
      rcases (hlive m).mp hset with rfl | hset
      · exact absurd (hlt.trans_le h.num_le) (not_lt.mpr hm)
      · rw [h.live_behind m hm] at hset
        cases hset
    · refine Bool.eq_false_iff.mpr fun hset => ?_
      rcases (hmap p).mp hset with hset | ⟨-, i, -, hi, -, rfl⟩
      · rw [h.map_behind p hp] at hset
        cases hset
      · have hmax := h.num_le
        exact absurd hp (not_le.mpr (index_lt (hi.trans_le hmax) (hlt.trans_le hmax)))

/-! ## The end of a range -/

/-- The node without its number, if it is a reserved area. -/
def VarNode.released (nptr : VarNode) : VarNode :=
  if nptr.tag = .reservedws then { nptr with varNum := none } else nptr

/-- The reserved areas among the variables `l` lose their numbers. -/
theorem foldl_free (l : List ℕ) : ∀ s : Vars, ∃ node', l.foldl (fun s i =>
    if (s.node (s.varList i)).tag = .reservedws then
      { s with
        node := Function.update s.node (s.varList i) { s.node (s.varList i) with varNum := none } }
    else s) s = { s with node := node' } ∧
      ∀ u, node' u = if u ∈ l.map s.varList then (s.node u).released else s.node u := by
  induction l with
  | nil => exact fun s => ⟨s.node, rfl, fun u => rfl⟩
  | cons k l ih =>
    intro s
    have hstep : ∃ node₁ : ℕ → VarNode, (if (s.node (s.varList k)).tag = .reservedws then
        { s with
          node := Function.update s.node (s.varList k)
            { s.node (s.varList k) with varNum := none } }
        else s) = { s with node := node₁ } ∧
        ∀ u, node₁ u = if u = s.varList k then (s.node u).released else s.node u := by
      split_ifs with htag
      · refine ⟨_, rfl, fun u => ?_⟩
        rw [Function.update_apply]
        split_ifs with hu
        · rw [hu, VarNode.released, if_pos htag]
        · rfl
      · refine ⟨s.node, rfl, fun u => ?_⟩
        split_ifs with hu
        · rw [hu, VarNode.released, if_neg htag]
        · rfl
    obtain ⟨node₁, heq, hnode₁⟩ := hstep
    obtain ⟨node', heq', hnode'⟩ := ih { s with node := node₁ }
    refine ⟨node', by rw [List.foldl_cons, heq, heq'], fun u => ?_⟩
    have htwice : (s.node u).released.released = (s.node u).released := by
      unfold VarNode.released
      split_ifs <;> rfl
    rw [hnode']
    dsimp only
    rw [hnode₁, List.map_cons]
    by_cases hk : u = s.varList k
    · rw [if_pos hk, if_pos (List.mem_cons.mpr (Or.inl hk)), htwice, ite_self]
    · rw [if_neg hk]
      refine if_congr ?_ rfl rfl
      rw [List.mem_cons, or_iff_right hk]

/-- **A range is freed**: the reserved areas that are variables of it have no number any more. -/
theorem freeFixedwslist_spec (s : Vars) : ∃ node', freeFixedwslist s = { s with node := node' } ∧
    ∀ u, node' u = if u ∈ (List.range' s.varBase (s.numVar - s.varBase)).map s.varList then
      (s.node u).released else s.node u :=
  foldl_free (List.range' s.varBase (s.numVar - s.varBase)) s

end Occ21

end Kroc
