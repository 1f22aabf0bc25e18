import Kroc.Occ21.AllocVars
import Mathlib.Data.List.Sort

/-!
# Occ21/ParamSlots — the workspace that `allocvars` makes

The variables at the top of the workspace go to the slots of the parameters that a routine has not,
all by the same distance.  `allocvars_sound_iff` says when the result is sound: reserved areas keep
the places they were given, and a variable of two slots or more keeps its alignment on the way to
the parameter slots only if the workspace had an even size.
-/

namespace Kroc

namespace Occ21

variable {s : Setup} {st st' : State} {var : ℕ} {base : ℤ} {u v : ℕ}

/-! ## Parameter slots -/

/-- `var` is a variable whose last slot is right below `stop`. -/
def EndsAt (s : Setup) (st : State) (stop : ℤ) (var : ℕ) : Prop :=
  (st.offset var).map (· + (slots s var : ℤ)) = some stop

instance (s : Setup) (st : State) (stop : ℤ) (var : ℕ) : Decidable (EndsAt s st stop var) :=
  inferInstanceAs (Decidable (_ = _))

/-- All that ends at `stop` fits in `limit` slots and can go there. -/
def CanMove (s : Setup) (st : State) (limit : ℕ) (stop : ℤ) : Prop :=
  ∀ var ∈ vars s, EndsAt s st stop var → ¬ Reserved s var ∧ slots s var ≤ limit

/-- The list of what ends at `stop`, in the order in which the source links it. -/
def movelist (s : Setup) (st : State) (stop : ℤ) : List ℕ :=
  ((vars s).filter fun var => EndsAt s st stop var).reverse

theorem mem_movelist {stop : ℤ} :
    var ∈ movelist s st stop ↔ var ∈ vars s ∧ EndsAt s st stop var := by
  rw [movelist, List.mem_reverse, List.mem_filter, decide_eq_true_iff]

theorem topVars_spec {free : ℕ} {stop : ℤ} : ∀ l acc : List ℕ,
    (∃ m, topVars s st free stop acc l = some m ∧
      m = (l.filter fun var => EndsAt s st stop var).reverse ++ acc ∧
      ∀ var ∈ l, EndsAt s st stop var → ¬ Reserved s var ∧ slots s var ≤ free + 1) ∨
    (topVars s st free stop acc l = none ∧
      ∃ var ∈ l, EndsAt s st stop var ∧ (Reserved s var ∨ free + 1 < slots s var)) := by
  intro l
  induction l with
  | nil => exact fun acc => Or.inl ⟨acc, rfl, rfl, fun u hu => by cases hu⟩
  | cons var l ih =>
    intro acc
    have hskip : ∀ {var' : ℕ} {P : Prop}, var' ∈ var :: l → ¬ EndsAt s st stop var →
        EndsAt s st stop var' → (var' ∈ l → P) → P := fun hmem hnot hends h => by
      rcases List.mem_cons.mp hmem with rfl | hmem
      · exact absurd hends hnot
      · exact h hmem
    rw [topVars]
    split_ifs with hends hbad
    · exact Or.inr ⟨rfl, var, List.mem_cons_self, hends, hbad⟩
    · replace hends : EndsAt s st stop var := hends
      have hgood : ¬ Reserved s var ∧ slots s var ≤ free + 1 := by
        rw [not_or, not_lt] at hbad
        exact hbad
      rcases ih (var :: acc) with ⟨m, hm, hlist, hall⟩ | ⟨hm, var', hvar', hbad'⟩
      · refine Or.inl ⟨m, hm, ?_, fun u hu hu' => ?_⟩
        · rw [hlist, List.filter_cons_of_pos (p := fun var => EndsAt s st stop var)
            (decide_eq_true_iff.mpr hends), List.reverse_cons, List.append_assoc]
          rfl
        · rcases List.mem_cons.mp hu with rfl | hu
          · exact hgood
          · exact hall u hu hu'
      · exact Or.inr ⟨hm, var', List.mem_cons_of_mem _ hvar', hbad'⟩
    · replace hends : ¬ EndsAt s st stop var := hends
      rcases ih acc with ⟨m, hm, hlist, hall⟩ | ⟨hm, var', hvar', hbad'⟩
      · refine Or.inl ⟨m, hm, ?_, fun u hu hu' => hskip hu hends hu' fun h => hall u h hu'⟩
        rw [hlist, List.filter_cons_of_neg (p := fun var => EndsAt s st stop var)
          (by rw [decide_eq_true_iff]; exact hends)]
      · exact Or.inr ⟨hm, var', List.mem_cons_of_mem _ hvar', hbad'⟩

/-- How far the squeezing goes: `n` slots, with what ends at each of them. -/
theorem squeeze_spec (s : Setup) (st : State) (free : ℕ) {wssize : ℤ} (acc : List (List ℕ))
    (hnonneg : 0 ≤ wssize) : ∃ n : ℕ,
    squeeze s st free wssize acc = (free - n, wssize - n,
      ((List.range n).map fun i : ℕ => movelist s st (wssize - n + 1 + i)) ++ acc) ∧
    n ≤ free ∧ n ≤ wssize ∧ (∀ i < n, CanMove s st (free - i) (wssize - i)) ∧
    (n < free → n < wssize → ¬ CanMove s st (free - n) (wssize - n)) := by
  have hzero : wssize - ((0 : ℕ) : ℤ) = wssize := by simp
  induction free generalizing wssize acc with
  | zero => exact ⟨0, by rw [squeeze, hzero]; rfl, le_rfl, hnonneg,
      fun i hi => absurd hi (Nat.not_lt_zero i), fun h => absurd h (Nat.not_lt_zero 0)⟩
  | succ free ih =>
    rw [squeeze]
    split_ifs with hpos
    · rcases topVars_spec (s := s) (vars s) [] with
        ⟨m, hm, hlist, hall⟩ | ⟨hm, var, hvar, hends, hbad⟩
      · rw [List.append_nil] at hlist
        obtain ⟨n, heq, hfree, hle, hmove, hstop⟩ :=
          ih (m :: acc) (show 0 ≤ wssize - 1 by omega) (by simp)
        have hsub : ∀ i : ℕ, wssize - 1 - i = wssize - ((i + 1 : ℕ) : ℤ) := fun i => by
          push_cast
          ring
        rw [hm]
        refine ⟨n + 1, ?_, by omega, by omega, fun i hi => ?_, fun h h' => ?_⟩
        · dsimp only
          rw [heq, List.range_succ, List.map_append, List.append_assoc, Nat.add_sub_add_right, hsub,
            List.map_singleton, List.singleton_append, hlist,
            show wssize - ((n + 1 : ℕ) : ℤ) + 1 + n = wssize by push_cast; ring, movelist]
        · rcases i with _ | i
          · rw [hzero]
            exact hall
          · have hi := hmove i (by omega)
            rw [hsub] at hi
            rwa [Nat.add_sub_add_right]
        · rw [Nat.add_sub_add_right, ← hsub]
          exact hstop (by omega) (by omega)
      · rw [hm]
        refine ⟨0, by rw [hzero]; rfl, Nat.zero_le _, hnonneg,
          fun i hi => absurd hi (Nat.not_lt_zero i), fun _ _ h => ?_⟩
        rw [hzero] at h
        obtain ⟨hres, hle⟩ := h var hvar hends
        rcases hbad with hbad | hbad
        · exact hres hbad
        · exact absurd hle (not_le.mpr hbad)
    · exact ⟨0, by rw [hzero]; rfl, Nat.zero_le _, hnonneg,
        fun i hi => absurd hi (Nat.not_lt_zero i), fun _ h => absurd h hpos⟩

/-- `var` has gone from where it was to `base`, and its chain with it. -/
structure Moved (st st' : State) (var : ℕ) (base : ℤ) : Prop where
  offset : st'.offset var = some base
  overlay : st'.overlay var =
    (st.overlay var).map fun o => (base + (o - st.at var)).bmod (2 ^ 32)

/-- `var` is where it was. -/
structure Kept (st st' : State) (var : ℕ) : Prop where
  offset : st'.offset var = st.offset var
  overlay : st'.overlay var = st.overlay var

theorem Kept.at_eq (h : Kept st st' var) : st'.at var = st.at var := by
  rw [State.at, h.offset, State.at]

theorem Kept.trans {st'' : State} (h : Kept st st' var) (h' : Kept st' st'' var) :
    Kept st st'' var := ⟨h'.offset.trans h.offset, h'.overlay.trans h.overlay⟩

theorem Moved.keep {st'' : State} (h : Moved st st' var base) (h' : Kept st' st'' var) :
    Moved st st'' var base := ⟨h'.offset.trans h.offset, h'.overlay.trans h.overlay⟩

theorem Kept.move {st'' : State} (h : Kept st st' var) (h' : Moved st' st'' var base) :
    Moved st st'' var base := ⟨h'.offset, by rw [h'.overlay, h.overlay, h.at_eq]⟩

theorem moveVar_moved (top : ℤ) :
    Moved st (moveVar s top st var) var (top - (slots s var - 1)) :=
  ⟨Function.update_self _ _ _, Function.update_self _ _ _⟩

theorem moveVar_kept {top : ℤ} (h : u ≠ var) : Kept st (moveVar s top st var) u :=
  ⟨Function.update_of_ne h _ _, Function.update_of_ne h _ _⟩

theorem foldl_moveVar_kept {top : ℤ} {l : List ℕ} (h : u ∉ l) :
    Kept st (l.foldl (moveVar s top) st) u := by
  induction l generalizing st with
  | nil => exact ⟨rfl, rfl⟩
  | cons var l ih =>
    obtain ⟨hne, hl⟩ := not_or.mp (mt List.mem_cons.mpr h)
    exact (moveVar_kept hne).trans (ih hl)

theorem foldl_moveVar_moved {top : ℤ} {l : List ℕ} (hnodup : l.Nodup) (h : u ∈ l) :
    Moved st (l.foldl (moveVar s top) st) u (top - (slots s u - 1)) := by
  induction l generalizing st with
  | nil => cases h
  | cons var l ih =>
    obtain ⟨hvar, hnodup⟩ := List.nodup_cons.mp hnodup
    rcases List.mem_cons.mp h with rfl | h
    · exact (moveVar_moved top).keep (foldl_moveVar_kept hvar)
    · exact (moveVar_kept (ne_of_mem_of_not_mem h hvar)).move (ih hnodup h)

theorem moveVars_kept {top : ℤ} {lists : List (List ℕ)} (h : u ∉ lists.flatten) :
    Kept st (moveVars s st top lists) u := by
  induction lists generalizing st top with
  | nil => exact ⟨rfl, rfl⟩
  | cons l lists ih =>
    rw [List.flatten_cons, List.mem_append, not_or] at h
    exact (foldl_moveVar_kept h.1).trans (ih h.2)

/-- **What is in the list of a slot goes there.** -/
theorem moveVars_moved (st : State) (top : ℤ) {i : ℕ} {lists : List (List ℕ)} {l : List ℕ}
    (hnodup : lists.flatten.Nodup) (hl : lists[i]? = some l) (h : u ∈ l) :
    Moved st (moveVars s st top lists) u (top + i - (slots s u - 1)) := by
  induction lists generalizing st top i with
  | nil => cases hl
  | cons l' lists ih =>
    obtain ⟨hl', hlists, hdisjoint⟩ := List.nodup_append.mp (List.flatten_cons ▸ hnodup)
    cases i with
    | zero =>
      cases hl
      rw [Nat.cast_zero, add_zero]
      refine (foldl_moveVar_moved hl' h).keep (moveVars_kept fun hmem => ?_)
      exact hdisjoint u h u hmem rfl
    | succ i =>
      have hmem : u ∈ lists.flatten :=
        List.mem_flatten.mpr ⟨l, List.mem_of_getElem? hl, h⟩
      have hnot : u ∉ l' := fun hu => hdisjoint u hu u hmem rfl
      rw [show top + ((i + 1 : ℕ) : ℤ) = top + 1 + i by push_cast; ring]
      exact (foldl_moveVar_kept hnot).move (ih _ _ hlists hl)

/-! ## What `allocvars` makes of the allocation -/

theorem le_roundUp (s : Setup) (wssize : ℤ) : wssize ≤ roundUp s wssize := by
  unfold roundUp
  split_ifs <;> omega

theorem roundUp_even (h : s.needsQuadalign = true) (wssize : ℤ) : roundUp s wssize % 2 = 0 := by
  rw [roundUp, if_pos h]
  omega

@[simp]
theorem roundUp_roundUp (s : Setup) (wssize : ℤ) :
    roundUp s (roundUp s wssize) = roundUp s wssize := by
  unfold roundUp
  split_ifs <;> omega

/-- `n` slots at the top of the workspace of `st` have gone to parameter slots: `wssize` slots are
left, and everything is where `st'` says. -/
structure Squeezed (s : Setup) (st : State) (free : ℕ) (wssize : ℤ) (st' : State) (n : ℕ) :
    Prop where
  le_free : n ≤ free
  le_wssize : n ≤ st.wssize
  canMove : ∀ i < n, CanMove s st (free - i) (st.wssize - i)
  stop : n < free → n < st.wssize → ¬ CanMove s st (free - n) (st.wssize - n)
  size : wssize = roundUp s (st.wssize - n)
  moved : ∀ u ∈ vars s, 0 < slots s u → ∀ i < n, EndsAt s st (st.wssize - i) u →
    Moved st st' u (wssize + insExtra + regParams - i - slots s u)
  kept : ∀ u, (∀ i < n, u ∈ vars s → ¬ EndsAt s st (st.wssize - i) u) → Kept st st' u

theorem nodup_movelists {stops : ℕ → ℤ} {n : ℕ} (h : ∀ i j, stops i = stops j → i = j) :
    ((List.range n).map fun i => movelist s st (stops i)).flatten.Nodup := by
  refine List.nodup_flatten.mpr ⟨fun l hl => ?_, ?_⟩
  · obtain ⟨i, -, rfl⟩ := List.mem_map.mp hl
    exact List.nodup_reverse.mpr ((nodup_vars s).filter _)
  · refine List.pairwise_map.mpr (List.nodup_range.imp fun hij u hu hu' => hij (h _ _ ?_))
    have heq := (mem_movelist.mp hu).2.symm.trans (mem_movelist.mp hu').2
    exact Option.some.inj heq

theorem squeezed_none (hnonneg : 0 ≤ st.wssize) {free : ℕ}
    (hstop : 0 < free → 0 < st.wssize → ¬ CanMove s st free st.wssize) :
    Squeezed s st free (roundUp s st.wssize) st 0 := by
  have hzero : st.wssize - ((0 : ℕ) : ℤ) = st.wssize := by simp
  exact ⟨Nat.zero_le _, hnonneg, fun i hi => absurd hi (Nat.not_lt_zero i),
    fun h h' => by rw [hzero]; exact hstop h h', by rw [hzero],
    fun _ _ _ i hi => absurd hi (Nat.not_lt_zero i), fun _ _ => ⟨rfl, rfl⟩⟩

/-- **Squeezing** moves what ends at one of the slots at the top, and nothing else. -/
theorem squeezed_moveVars (hnonneg : 0 ≤ st.wssize) (free : ℕ) : ∃ n,
    Squeezed s st free (roundUp s (squeeze s st free st.wssize []).2.1)
      (moveVars s st (roundUp s (squeeze s st free st.wssize []).2.1 + insExtra +
        (regParams - free) + (squeeze s st free st.wssize []).1)
        (squeeze s st free st.wssize []).2.2) n := by
  obtain ⟨n, heq, hle, hle', hmove, hstop⟩ := squeeze_spec s st free [] hnonneg
  rw [heq, List.append_nil]
  dsimp only
  have hnodup : ((List.range n).map fun i : ℕ =>
      movelist s st (st.wssize - n + 1 + i)).flatten.Nodup :=
    nodup_movelists fun i j h => by omega
  refine ⟨n, hle, hle', hmove, hstop, rfl, fun u hu hpos i hi hends => ?_, fun u hu => ?_⟩
  · have hstop : st.wssize - n + 1 + ((n - 1 - i : ℕ) : ℤ) = st.wssize - i := by omega
    have hmem : u ∈ movelist s st (st.wssize - n + 1 + ((n - 1 - i : ℕ) : ℤ)) :=
      mem_movelist.mpr ⟨hu, hstop ▸ hends⟩
    have hget : ((List.range n).map fun i : ℕ =>
        movelist s st (st.wssize - n + 1 + i))[n - 1 - i]? =
        some (movelist s st (st.wssize - n + 1 + ((n - 1 - i : ℕ) : ℤ))) := by
      rw [List.getElem?_map, List.getElem?_range (by omega), Option.map_some]
    have hmoved := moveVars_moved (s := s) st (roundUp s (st.wssize - n) + insExtra +
      (regParams - free) + ((free - n : ℕ) : ℤ)) hnodup hget hmem
    convert hmoved using 1
    omega
  · refine moveVars_kept fun hmem => ?_
    obtain ⟨l, hl, hmem⟩ := List.mem_flatten.mp hmem
    obtain ⟨i, hi, rfl⟩ := List.mem_map.mp hl
    rw [List.mem_range] at hi
    obtain ⟨hvars, hends⟩ := mem_movelist.mp hmem
    refine hu (n - 1 - i) (by omega) hvars ?_
    rwa [show st.wssize - ((n - 1 - i : ℕ) : ℤ) = st.wssize - n + 1 + i by omega]

theorem allocateVars_of_le (q : Qsort) (h : s.numVar ≤ s.firstVar) :
    allocateVars s q = some (initialState s) := by
  have hnil : vars s = [] := by
    rw [vars, List.drop_eq_nil_iff, List.length_range]
    exact h
  have hsort : sortedVar s q = [] := (hnil ▸ sortedVar_perm s q).eq_nil
  show allocateAll s q (initialState s) false (sortedVar s q).length (sortedVar s q) = _
  rw [hsort, List.length_nil, allocateAll]

/-- **`allocvars`** squeezes what it has allocated, if there is anything. -/
theorem squeezed_allocvars {q : Qsort} {freeParamslots wssize : ℤ}
    (heq : allocvars s q freeParamslots = some (wssize, st')) :
    ∃ st n, allocateVars s q = some st ∧ Fixed s st ∧
      Squeezed s st freeParamslots.toNat wssize st' n := by
  unfold allocvars at heq
  split_ifs at heq with hvars hpos
  · obtain ⟨st, hst, heq⟩ := Option.bind_eq_some_iff.mp heq
    have hfixed := (fixed_initialState s).allocateAll q _ hst
    obtain ⟨n, hn⟩ := squeezed_moveVars (s := s) hfixed.nonneg freeParamslots.toNat
    obtain ⟨_, -, heq⟩ := Option.map_eq_some_iff.mp heq
    obtain ⟨rfl, rfl⟩ := Prod.mk.inj heq
    rw [roundUp_roundUp]
    rw [Int.toNat_of_nonneg hpos.le] at hn
    exact ⟨st, n, hst, hfixed, hn⟩
  · obtain ⟨st, hst, heq⟩ := Option.bind_eq_some_iff.mp heq
    have hfixed := (fixed_initialState s).allocateAll q _ hst
    obtain ⟨w, hw, heq⟩ := Option.map_eq_some_iff.mp heq
    obtain ⟨rfl, -⟩ := sum32_eq_some hw
    obtain ⟨rfl, rfl⟩ := Prod.mk.inj heq
    rw [Int.toNat_of_nonpos (not_lt.mp hpos)]
    exact ⟨st, 0, hst, hfixed, squeezed_none hfixed.nonneg fun h => absurd h (lt_irrefl 0)⟩
  · obtain ⟨rfl, rfl⟩ := Prod.mk.inj (Option.some.inj heq)
    exact ⟨_, 0, allocateVars_of_le q (not_lt.mp hvars), fixed_initialState s,
      squeezed_none le_rfl fun _ h => absurd h (lt_irrefl 0)⟩

/-! ## Soundness -/

/-- All of `u` is in the workspace. -/
def InWorkspace (s : Setup) (wssize : ℤ) (st : State) (u : ℕ) : Prop :=
  ∃ base, st.offset u = some base ∧ 0 ≤ base ∧ base + slots s u ≤ wssize

/-- All of `u` is in the parameter slots that a routine does not use, its last `freeParamslots`. -/
def InParamslots (s : Setup) (wssize freeParamslots : ℤ) (st : State) (u : ℕ) : Prop :=
  ∃ base, st.offset u = some base ∧ wssize + insExtra + (regParams - freeParamslots) ≤ base ∧
    base + slots s u ≤ wssize + insExtra + regParams

/-- What the places of variables are for. -/
structure Layout (s : Setup) (freeParamslots wssize : ℤ) (st : State) : Prop where
  apart : ∀ u v, Allocated s u → Allocated s v → u ≠ v → testbitmap s u v = true → Apart s st u v
  inside : ∀ u, Allocated s u →
    InWorkspace s wssize st u ∨ (¬ Reserved s u ∧ InParamslots s wssize freeParamslots st u)
  aligned : s.needsQuadalign = true → ∀ u, Allocated s u → ¬ Reserved s u → 2 ≤ slots s u →
    st.at u % 2 = 0
  overlaid : ∀ u, Allocated s u → ¬ Reserved s u →
    st.overlay u = (s.varList u).overlays.map fun o => (st.at u + o.offset).bmod (2 ^ 32)

/-- What the allocation is for: a size and places for all the variables, with the list in its order
after any number of them. -/
def AllocSound (s : Setup) (q : Qsort) (freeParamslots : ℤ) : Prop :=
  (∃ wssize st, allocvars s q freeParamslots = some (wssize, st) ∧
    Layout s freeParamslots wssize st) ∧
  ∀ k st, allocateAll s q (initialState s) false k (sortedVar s q) = some st →
    st.alloclist.Pairwise (Before s st)

/-- Reserved areas that interfere have disjoint places. -/
def ReservedApart (s : Setup) : Prop :=
  ∀ u v, Allocated s u → Allocated s v → Reserved s u → Reserved s v → u ≠ v →
    testbitmap s u v = true →
      (s.varList u).fixed + slots s u ≤ (s.varList v).fixed ∨
      (s.varList v).fixed + slots s v ≤ (s.varList u).fixed

/-- The workspace before variables are squeezed has an even size, or nothing that is to be aligned
can go to a parameter slot. -/
def KeepsQuad (s : Setup) (st : State) (free : ℕ) : Prop :=
  s.needsQuadalign = true → st.wssize % 2 = 0 ∨
    ∀ j : ℕ, j < free → j < st.wssize →
      (∀ i : ℕ, i ≤ j → CanMove s st (free - i) (st.wssize - i)) →
      ∀ v ∈ vars s, EndsAt s st (st.wssize - j) v → slots s v < 2

section Sound

variable {free n : ℕ} {wssize : ℤ}

/-- An allocated variable has gone to the parameter slots, or is where it was. -/
theorem Squeezed.cases (h : Squeezed s st free wssize st' n) (halloc : Allocating s st [])
    (hu : Allocated s u) :
    ((∃ i < n, EndsAt s st (st.wssize - i) u) ∧ ¬ Reserved s u ∧ Moved st st' u (st'.at u) ∧
      st'.at u + st.wssize = st.at u + (wssize + insExtra + regParams) ∧
      wssize + insExtra + regParams ≤ st'.at u + free ∧ st.at u + slots s u ≤ st.wssize) ∨
    (Kept st st' u ∧ st.at u + slots s u ≤ wssize) := by
  have hmem := halloc.mem_iff.mpr hu
  have hset := halloc.set u hmem
  have hinside := halloc.inside u hmem
  have hle_free := h.le_free
  by_cases hends : ∃ i < n, EndsAt s st (st.wssize - i) u
  · have hends' := hends
    obtain ⟨i, hi, hends⟩ := hends
    have hmoved := h.moved u hu.1 hu.slots_pos i hi hends
    obtain ⟨hres, hle⟩ := h.canMove i hi u hu.1 hends
    have hat := State.at_of_offset hmoved.offset
    rw [EndsAt, hset, Option.map_some, Option.some_inj] at hends
    exact Or.inl ⟨hends', hres, hat ▸ hmoved, by omega, by omega, hinside⟩
  · rw [not_exists] at hends
    refine Or.inr ⟨h.kept u fun i hi _ hi' => hends i ⟨hi, hi'⟩, ?_⟩
    have hle := h.size ▸ le_roundUp s (st.wssize - n)
    by_contra hlt
    refine hends (st.wssize - (st.at u + slots s u)).toNat ⟨by omega, ?_⟩
    rw [EndsAt, hset, Option.map_some, Option.some_inj]
    omega

/-- Distances between variables that are both moved, or both kept, do not change. -/
theorem Squeezed.apart (h : Squeezed s st free wssize st' n) (halloc : Allocating s st [])
    (hfree : free ≤ regParams) (hu : Allocated s u) (hv : Allocated s v)
    (hapart : Apart s st u v) : Apart s st' u v := by
  unfold Apart at *
  rcases h.cases halloc hu with ⟨-, -, -, hu, hu', hu''⟩ | ⟨hu, hu'⟩ <;>
    rcases h.cases halloc hv with ⟨-, -, -, hv, hv', hv''⟩ | ⟨hv, hv'⟩ <;>
    unfold regParams at *
  · omega
  · rw [hv.at_eq]
    omega
  · rw [hu.at_eq]
    omega
  · rw [hu.at_eq, hv.at_eq]
    exact hapart

/-- **A reserved area is where it was told to be.** -/
theorem Squeezed.offset_reserved (h : Squeezed s st free wssize st' n) (hfixed : Fixed s st)
    (hres : Reserved s u) : st'.offset u = some (s.varList u).fixed := by
  have hkept := h.kept u fun i hi hu hends => (h.canMove i hi u hu hends).1 hres
  rw [hkept.offset, hfixed.offset u hres]

/-- The chain of a variable is at its offsets from where the variable has gone. -/
theorem Squeezed.overlaid (h : Squeezed s st free wssize st' n) (halloc : Allocating s st [])
    (hu : Allocated s u) (hres : ¬ Reserved s u) :
    st'.overlay u = (s.varList u).overlays.map fun o => (st'.at u + o.offset).bmod (2 ^ 32) := by
  have hoverlay := halloc.overlaid u (halloc.mem_iff.mpr hu) hres
  rcases h.cases halloc hu with ⟨-, -, hmoved, -⟩ | ⟨hkept, -⟩
  · rw [hmoved.overlay, hoverlay, List.map_map]
    refine List.map_congr_left fun o _ => ?_
    show (st'.at u + ((st.at u + o.offset).bmod (2 ^ 32) - st.at u)).bmod (2 ^ 32) = _
    rw [← add_sub_assoc, Int.sub_eq_add_neg, add_right_comm, Int.add_bmod_bmod]
    congr 1
    ring
  · rw [hkept.overlay, hkept.at_eq, hoverlay]

end Sound

/-- **The allocation is sound exactly if** no reserved area starts below the workspace, those that
interfere were given disjoint places, the squeezing keeps alignment, and no sum of offsets
overflows.
-/
theorem allocvars_sound_iff (s : Setup) (q : Qsort) (freeParamslots : ℤ)
    (hfree : freeParamslots ≤ regParams) :
    AllocSound s q freeParamslots ↔ ReservedInside s ∧ ReservedApart s ∧
      (∀ st, allocateVars s q = some st → KeepsQuad s st freeParamslots.toNat) ∧
      (allocvars s q freeParamslots).isSome := by
  have hfree' : freeParamslots.toNat ≤ regParams := by omega
  constructor
  · rintro ⟨⟨wssize, st', heq, hsound⟩, -⟩
    obtain ⟨st, n, hst, hfixed, h⟩ := squeezed_allocvars heq
    have hat : ∀ u, Reserved s u → st'.at u = (s.varList u).fixed := fun u hu =>
      State.at_of_offset (h.offset_reserved hfixed hu)
    have hreserved : ReservedInside s := fun u hu hres => by
      obtain ⟨base, hbase, hnonneg, -⟩ := (hsound.inside u hu).resolve_right fun hp => hp.1 hres
      rwa [← hat u hres, State.at_of_offset hbase]
    have halloc := allocating_allocateVars hreserved hst
    refine ⟨hreserved, fun u v hu hv hru hrv hne htest => ?_,
      fun st₂ hst₂ hquad => ?_, by rw [heq]; rfl⟩
    · have hapart := hsound.apart u v hu hv hne htest
      rwa [Apart, hat u hru, hat v hrv] at hapart
    obtain rfl := Option.some.inj (hst.symm.trans hst₂)
    refine or_iff_not_imp_left.mpr fun hodd j hj hj' hmove v hv hends => ?_
    have hjn : j < n := by
      by_contra hle
      exact h.stop (by omega) (by omega) (hmove n (by omega))
    have hres := (hmove j le_rfl v hv hends).1
    have hmem : v ∈ st.alloclist := by
      by_contra hnot
      rw [EndsAt, halloc.fresh v hnot,
        show (initialState s).offset v = none from if_neg hres] at hends
      cases hends
    have hv' := halloc.allocated v hmem
    have halign := halloc.aligned v hmem hres
    by_contra hlen
    have heven := hsound.aligned hquad v hv' hres (by omega)
    have hmoved := State.at_of_offset (h.moved v hv hv'.slots_pos j hjn hends).offset
    have hround : wssize % 2 = 0 := h.size ▸ roundUp_even hquad _
    rw [EndsAt, halloc.set v hmem, Option.map_some, Option.some_inj] at hends
    rw [quad] at halign
    split_ifs at halign with hcond
    · omega
    · have : st.at v % 2 = 0 := by
        by_contra hodd'
        exact hcond ⟨hquad, by omega, hodd'⟩
      unfold regParams insExtra at *
      omega
  · rintro ⟨hinside, hreserved, hkeeps, hsome⟩
    obtain ⟨⟨wssize, st'⟩, heq⟩ := Option.isSome_iff_exists.mp hsome
    obtain ⟨st, n, hst, hfixed, h⟩ := squeezed_allocvars heq
    have halloc := allocating_allocateVars hinside hst
    refine ⟨⟨wssize, st', heq, fun u v hu hv hne htest => ?_, fun u hu => ?_,
      fun hquad u hu hres hlen => ?_, fun u hu hres => h.overlaid halloc hu hres⟩,
      fun k st₁ hst₁ => ?_⟩
    · refine h.apart halloc hfree' hu hv ?_
      by_cases hres : Reserved s u ∧ Reserved s v
      · rw [Apart, State.at_of_offset (halloc.fixed u hres.1),
          State.at_of_offset (halloc.fixed v hres.2)]
        exact hreserved u v hu hv hres.1 hres.2 hne htest
      · exact halloc.apart u (halloc.mem_iff.mpr hu) v (halloc.mem_iff.mpr hv) hne htest hres
    · have hmem := halloc.mem_iff.mpr hu
      have hpos := hu.slots_pos
      rcases h.cases halloc hu with ⟨-, hres, hmoved, heq, hle, hle'⟩ | ⟨hkept, hle⟩
      · exact Or.inr ⟨hres, _, hmoved.offset, by omega, by omega⟩
      · exact Or.inl ⟨_, hkept.offset.trans (halloc.set u hmem), halloc.nonneg u hmem, hle⟩
    · have halign := halloc.aligned u (halloc.mem_iff.mpr hu) hres
      have heven : st.at u % 2 = 0 := by
        by_contra hodd
        rw [quad, if_pos ⟨hquad, hlen, hodd⟩] at halign
        omega
      rcases h.cases halloc hu with ⟨⟨i, hi, hends⟩, -, -, heq, -⟩ | ⟨hkept, -⟩
      · have hround : wssize % 2 = 0 := h.size ▸ roundUp_even hquad _
        have hwssize : st.wssize % 2 = 0 := by
          refine (hkeeps st hst hquad).resolve_right fun hshort => ?_
          have := h.le_free
          have := h.le_wssize
          have := hshort i (by omega) (by omega) (fun j hj => h.canMove j (by omega)) u hu.1 hends
          omega
        unfold regParams insExtra at heq
        omega
      · rw [hkept.at_eq, heven]
    · obtain ⟨rest, hrest, -⟩ := (allocating_initialState q hinside).allocateAll q k false hst₁
      exact hrest.sorted

/-- **No sum overflows** if the demands of the variables are small enough. -/
theorem allocvars_isSome (q : Qsort) (freeParamslots : ℤ) (h : ReservedInside s)
    (hroom : ((vars s).map (demand s)).sum + insExtra + regParams < 2 ^ 31 - 1) :
    (allocvars s q freeParamslots).isSome := by
  have hroundUp : ∀ x : ℤ, roundUp s x ≤ x + 1 := fun x => by
    unfold roundUp
    split_ifs <;> omega
  obtain ⟨st, hst, hle⟩ := exists_allocateVars q h (by omega)
  unfold allocvars
  split_ifs with hvars hpos
  · have hfixed := (fixed_initialState s).allocateAll q _ hst
    obtain ⟨n, heq, -⟩ := squeeze_spec s st freeParamslots.toNat [] hfixed.nonneg
    have hround := hroundUp (st.wssize - n)
    rw [hst, Option.bind_some, heq]
    dsimp only
    rw [sum32, if_pos (by omega)]
    rfl
  · have hround := hroundUp st.wssize
    rw [hst, Option.bind_some, sum32, if_pos (by omega)]
    rfl
  · rfl

/-! ## A `REAL64` and some `INT`s -/

/-- A `sup_qsort` that inserts. -/
def insertionQsort : Qsort where
  sort compare l := l.insertionSort fun u v => compare u v ≤ 0
  perm _ l := l.perm_insertionSort _
  sorted compare l htotal htrans :=
    haveI : Std.Total fun u v => compare u v ≤ 0 := ⟨htotal⟩
    haveI : IsTrans ℕ fun u v => compare u v ≤ 0 := ⟨htrans⟩
    l.pairwise_insertionSort _

/-- A declared variable of `allocsize` words. -/
def declared (allocsize useCount : ℕ) : Name where
  tag := .decl
  rsize := 0
  typePlaced := false
  isplaced := false
  isinmobilespace := false
  isinvectorspace := false
  modePointer := false
  isdynmobilearray := false
  dynmobiledimensioncount := 0
  isdynmobilechantype := false
  allocsize := allocsize
  abbrevmode := .val
  replStep := false
  typeTag := 0
  scope := 0
  useCount := useCount
  vsOffset := 0
  fixed := 0
  overlays := []

/-- The lowest two words are reserved. -/
def reserved : Name where
  __ := declared 0 0
  tag := .reservedws
  rsize := 2

/-- A routine without parameters, with a variable of two words that has a name at its second, and
two of one word; all of them are alive when two words of the workspace are reserved. -/
def mixed : Setup where
  needsQuadalign := true
  noDivBySize := false
  byScope := false
  noVsOpt := false
  needWsmap := false
  insidePar := false
  varList
    | 0 => { declared 2 2 with overlays := [⟨1, 1⟩] }
    | 3 => reserved
    | _ => declared 1 1
  varMap _ := -1
  firstVar := 0
  numVar := 4

theorem reserved_mixed_iff {var : ℕ} : Reserved mixed var ↔ var = 3 := by
  unfold Reserved mixed
  dsimp only
  split
  next => simp [declared]
  next => simp [reserved]
  next h => simpa [declared] using h

theorem reservedInside_mixed : ReservedInside mixed := fun u _ hu => by
  rw [reserved_mixed_iff.mp hu]
  exact le_rfl

/-- Above the reserved words, the two words keep their place and the others go to
parameter slots. -/
theorem allocvars_sound_mixed : AllocSound mixed insertionQsort 3 ∧
    (allocvars mixed insertionQsort 3).map (fun r =>
      (r.1, (List.range 4).map r.2.at, r.2.overlay 0)) = some (4, [2, 6, 7, 0], [3]) := by
  refine ⟨(allocvars_sound_iff mixed insertionQsort 3 (by decide)).mpr
    ⟨reservedInside_mixed, fun u v _ _ hu hv hne => ?_, fun st hst _ => Or.inl ?_, ?_⟩, ?_⟩
  · exact absurd ((reserved_mixed_iff.mp hu).trans (reserved_mixed_iff.mp hv).symm) hne
  · have hsize : (allocateVars mixed insertionQsort).map State.wssize = some 6 := by
      decide +kernel
    rw [hst, Option.map_some, Option.some_inj] at hsize
    rw [hsize]
    rfl
  · exact allocvars_isSome insertionQsort 3 reservedInside_mixed (by decide)
  · decide +kernel

/-- A routine without parameters, with a variable of two words and one of one word that is alive at
the same time. -/
def realInt : Setup where
  __ := mixed
  numVar := 2

/-- **Below the one word, the two go to an odd parameter slot.** -/
theorem not_allocvars_sound_realInt : ¬ AllocSound realInt insertionQsort 3 := by
  rintro ⟨⟨wssize, st, heq, hsound⟩, -⟩
  have hvar : Allocated realInt 0 := by
    unfold Allocated
    decide +kernel
  have hodd : (allocvars realInt insertionQsort 3).map (fun r => r.2.at 0 % 2) = some 1 := by
    decide +kernel
  have heven := hsound.aligned rfl 0 hvar nofun (by decide)
  rw [heq, Option.map_some, Option.some_inj, heven] at hodd
  cases hodd

end Occ21

end Kroc
