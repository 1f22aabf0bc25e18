import Kroc.Occ21.Bind3

/-!
# Occ21/AllocVars — where variables go

What a search for a slot finds, and what the list of allocated variables keeps while variables are
added to it.  A variable that is placed clashes with none that it interferes with, whatever the
order, the use counts and the types are, as long as no reserved area starts below the workspace: the
search would go on from its end.
-/

open Triangle

namespace Kroc

namespace Occ21

variable {s : Setup} {st st' : State} {var : ℕ} {base : ℤ} {before this : List ℕ} {u v : ℕ}

/-! ## Looking for a slot -/

/-- `u` starts below a place, and does not reach into it if `var` interferes with it. -/
def Behind (s : Setup) (st : State) (var : ℕ) (base : ℤ) (u : ℕ) : Prop :=
  st.at u < base ∧ (testbitmap s var u = true → st.at u + slots s u ≤ base)

/-- Who is behind a place is behind every later one. -/
theorem Behind.mono {base' : ℤ} (h : Behind s st var base u) (hle : base ≤ base') :
    Behind s st var base' u := ⟨h.1.trans_le hle, fun ht => (h.2 ht).trans hle⟩

theorem le_quad (s : Setup) (length : ℕ) (base : ℤ) : base ≤ quad s length base := by
  unfold quad
  split_ifs <;> omega

theorem quad_le (s : Setup) (length : ℕ) (base : ℤ) : quad s length base ≤ base + 1 := by
  unfold quad
  split_ifs <;> omega

/-- Aligning twice is aligning once. -/
@[simp]
theorem quad_quad (s : Setup) (length : ℕ) (base : ℤ) :
    quad s length (quad s length base) = quad s length base := by
  unfold quad
  split_ifs <;> omega

/-- **The next gap** is behind all that was passed and not behind what is left. -/
theorem nextGap_spec (hslots : ∀ u ∈ this, 0 < slots s u)
    (hbefore : ∀ u ∈ before, Behind s st var base u)
    (hthis : this.Pairwise fun u v => st.at u ≤ st.at v) :
    ∃ gap left, nextGap s st var base before this = (gap, left) ∧ base ≤ gap ∧
      left.1 ++ left.2 = before ++ this ∧ (∀ u ∈ left.1, Behind s st var gap u) ∧
      (∀ u ∈ left.2, gap ≤ st.at u) ∧ left.2.Pairwise fun u v => st.at u ≤ st.at v := by
  induction this generalizing before base with
  | nil => exact ⟨base, (before, []), rfl, le_rfl, rfl, hbefore, (fun u hu => by cases hu), hthis⟩
  | cons t rest ih =>
    obtain ⟨ht, hrest⟩ := List.pairwise_cons.mp hthis
    have hpos := hslots t List.mem_cons_self
    have hslots' : ∀ u ∈ rest, 0 < slots s u := fun u hu => hslots u (List.mem_cons_of_mem _ hu)
    have happend : before ++ t :: rest = before ++ [t] ++ rest := by rw [List.append_assoc]; rfl
    have hnext : ∀ {base'}, base ≤ base' → Behind s st var base' t →
        ∀ u ∈ before ++ [t], Behind s st var base' u := fun hle ht u hu => by
      rcases List.mem_append.mp hu with hu | hu
      · exact (hbefore u hu).mono hle
      · exact List.mem_singleton.mp hu ▸ ht
    rw [nextGap]
    dsimp only
    split_ifs with hpass hmove
    · obtain ⟨gap, left, heq, hle, hlist, hrec⟩ :=
        ih hslots' (hnext hmove.2.le ⟨by omega, fun _ => le_rfl⟩) hrest
      exact ⟨gap, left, heq, hmove.2.le.trans hle, hlist.trans happend.symm, hrec⟩
    · have hbehind : Behind s st var base t := by
        by_cases hclash : testbitmap s var t ∨ !canAllocIn s var t (base - st.at t)
        · have hge : ¬ base < st.at t + slots s t := fun h => hmove ⟨hclash, h⟩
          exact ⟨by omega, fun _ => by omega⟩
        · rw [not_or] at hclash
          exact ⟨hpass.resolve_right hclash.2, fun h => absurd h hclash.1⟩
      obtain ⟨gap, left, heq, hle, hlist, hrec⟩ := ih hslots' (hnext le_rfl hbehind) hrest
      exact ⟨gap, left, heq, hle, hlist.trans happend.symm, hrec⟩
    · refine ⟨base, (before, t :: rest), rfl, le_rfl, rfl, hbefore, fun u hu => ?_, hthis⟩
      have hbase : base ≤ st.at t := not_lt.mp fun hlt => hpass (Or.inl hlt)
      rcases List.mem_cons.mp hu with rfl | hu
      · exact hbase
      · exact hbase.trans (ht u hu)

/-- What a search ends with: nothing behind the slot reaches into it, and nothing it clashes with
starts before its end. -/
structure SlotFound (s : Setup) (st : State) (var : ℕ) (slot : ℤ × List ℕ × List ℕ)
    (list : List ℕ) : Prop where
  nonneg : 0 ≤ slot.1
  append : slot.2.1 ++ slot.2.2 = list
  behind : ∀ u ∈ slot.2.1, Behind s st var slot.1 u
  ahead : ∀ u ∈ slot.2.2, testbitmap s var u = true → slot.1 + slots s var ≤ st.at u
  aligned : quad s (slots s var) slot.1 = slot.1

/-- **A search finds a slot.** -/
theorem lookForSlot_spec : ∀ {n : ℕ} {base : ℤ} {before this : List ℕ}, this.length ≤ n →
    0 ≤ base → (∀ u ∈ before ++ this, 0 < slots s u) → (∀ u ∈ before, Behind s st var base u) →
    (∀ u ∈ this, base ≤ st.at u) → (this.Pairwise fun u v => st.at u ≤ st.at v) →
    (this = [] → quad s (slots s var) base = base) →
      SlotFound s st var (lookForSlot s st var base before this) (before ++ this) := by
  intro n
  induction n with
  | zero =>
    intro base before this hlen hnonneg _ hbefore _ _ hquad
    obtain rfl := List.length_eq_zero_iff.mp (Nat.le_zero.mp hlen)
    rw [lookForSlot]
    exact ⟨hnonneg, rfl, hbefore, (fun u hu => by cases hu), hquad rfl⟩
  | succ n ih =>
    intro base before this hlen hnonneg hslots hbefore hbase hsorted hquad
    cases this with
    | nil =>
      rw [lookForSlot]
      exact ⟨hnonneg, rfl, hbefore, (fun u hu => by cases hu), hquad rfl⟩
    | cons t rest =>
      have hle := le_quad s (slots s var) base
      have hquad_le := quad_le s (slots s var) base
      have hbehind : ∀ u ∈ before, Behind s st var (quad s (slots s var) base) u :=
        fun u hu => (hbefore u hu).mono hle
      rw [lookForSlot]
      dsimp only
      split_ifs with hfits
      · refine ⟨hnonneg.trans hle, rfl, hbehind, fun u hu _ => ?_, quad_quad _ _ _⟩
        rcases List.mem_cons.mp hu with rfl | hu
        · exact hfits.1
        · exact hfits.1.trans ((List.pairwise_cons.mp hsorted).1 u hu)
      · split
        next hnone =>
          refine ⟨hnonneg.trans hle, rfl, hbehind, fun u hu hclash => ?_, quad_quad _ _ _⟩
          rw [firstClash_eq_none hnone u hu] at hclash
          cases hclash
        next passed clash others hsome =>
          obtain ⟨hlist, hclash, hpassed⟩ := firstClash_eq hsome
          have hmem : clash ∈ t :: rest := hlist ▸ List.mem_append_right _ List.mem_cons_self
          rw [hlist] at hsorted
          obtain ⟨-, hsorted', hcross⟩ := List.pairwise_append.mp hsorted
          obtain ⟨hclash_le, hothers⟩ := List.pairwise_cons.mp hsorted'
          split
          next hroom =>
            refine ⟨hnonneg.trans hle, rfl, hbehind, fun u hu huclash => ?_, quad_quad _ _ _⟩
            rw [hlist] at hu
            rcases List.mem_append.mp hu with hu | hu
            · rw [hpassed u hu] at huclash
              cases huclash
            · rcases List.mem_cons.mp hu with rfl | hu
              · exact hroom.1
              · exact hroom.1.trans (hclash_le u hu)
          next =>
            have hpos := hslots clash (List.mem_append_right _ hmem)
            have hend : quad s (slots s var) base ≤ st.at clash + slots s clash := by
              have := hbase clash hmem
              omega
            have hall : ∀ u ∈ before ++ passed ++ [clash],
                Behind s st var (st.at clash + slots s clash) u := by
              intro u hu
              rcases List.mem_append.mp hu with hu | hu
              · rcases List.mem_append.mp hu with hu | hu
                · exact (hbehind u hu).mono hend
                · have := hcross u hu clash List.mem_cons_self
                  exact ⟨by omega, fun h => by rw [hpassed u hu] at h; cases h⟩
              · rw [List.mem_singleton.mp hu]
                exact ⟨by omega, fun _ => le_rfl⟩
            have hslots' : ∀ u ∈ others, 0 < slots s u := fun u hu =>
              hslots u (List.mem_append_right _
                (hlist ▸ List.mem_append_right _ (List.mem_cons_of_mem _ hu)))
            obtain ⟨gap, left, heq, hgap, hleft, hleft_before, hleft_this, hleft_sorted⟩ :=
              nextGap_spec hslots' hall hothers
            have hlength : (nextGap s st var (st.at clash + slots s clash)
                (before ++ passed ++ [clash]) others).2.2.length ≤ others.length :=
              length_nextGap_le
            have hsum := congrArg List.length hlist
            rw [List.length_append, List.length_cons, List.length_cons] at hsum
            rw [List.length_cons] at hlen
            rw [heq] at hlength ⊢
            dsimp only at hlength ⊢
            have hwhole : before ++ t :: rest = left.1 ++ left.2 := by
              rw [hleft, hlist, List.append_assoc, List.append_assoc]
              rfl
            have hmove : gap ≤ if left.2 = [] then quad s (slots s var) gap else gap := by
              split_ifs
              · exact le_quad _ _ _
              · exact le_rfl
            rw [hwhole]
            refine ih (by omega) (by omega) (fun u hu => hslots u (hwhole ▸ hu))
              (fun u hu => (hleft_before u hu).mono hmove) (fun u hu => ?_) hleft_sorted
              fun hnil => ?_
            · rw [if_neg (List.ne_nil_of_mem hu)]
              exact hleft_this u hu
            · rw [if_pos hnil, quad_quad]

/-- The next gap is in the workspace, or behind it. -/
theorem nextGap_le {limit : ℤ} : ∀ {this : List ℕ} (before : List ℕ) {base : ℤ}, base ≤ limit →
    (∀ u ∈ this, st.at u + slots s u ≤ limit) → (nextGap s st var base before this).1 ≤ limit ∧
      ∀ u ∈ (nextGap s st var base before this).2.2, u ∈ this := by
  intro this
  induction this with
  | nil => exact fun _ _ hbase _ => ⟨hbase, fun _ hu => hu⟩
  | cons t rest ih =>
    intro before base hbase hthis
    have hrest : ∀ u ∈ rest, st.at u + slots s u ≤ limit :=
      fun u hu => hthis u (List.mem_cons_of_mem _ hu)
    rw [nextGap]
    dsimp only
    split_ifs
    · obtain ⟨hle, hmem⟩ := ih (before ++ [t]) (hthis t List.mem_cons_self) hrest
      exact ⟨hle, fun u hu => List.mem_cons_of_mem _ (hmem u hu)⟩
    · obtain ⟨hle, hmem⟩ := ih (before ++ [t]) hbase hrest
      exact ⟨hle, fun u hu => List.mem_cons_of_mem _ (hmem u hu)⟩
    · exact ⟨hbase, fun _ hu => hu⟩

/-- **A slot is found in the workspace, or behind it**, one further for its alignment. -/
theorem lookForSlot_le {limit : ℤ} : ∀ {n : ℕ} {base : ℤ} (before : List ℕ) {this : List ℕ},
    this.length ≤ n → quad s (slots s var) base ≤ limit + 1 →
    (∀ u ∈ this, st.at u + slots s u ≤ limit) →
      (lookForSlot s st var base before this).1 ≤ limit + 1 := by
  intro n
  induction n with
  | zero =>
    intro base before this hlen hbase _
    obtain rfl := List.length_eq_zero_iff.mp (Nat.le_zero.mp hlen)
    rw [lookForSlot]
    exact (le_quad _ _ _).trans hbase
  | succ n ih =>
    intro base before this hlen hbase hthis
    cases this with
    | nil =>
      rw [lookForSlot]
      exact (le_quad _ _ _).trans hbase
    | cons t rest =>
      rw [lookForSlot]
      dsimp only
      split_ifs
      · exact hbase
      split
      next => exact hbase
      next passed clash others hsome =>
        obtain ⟨hlist, -, -⟩ := firstClash_eq hsome
        split
        next => exact hbase
        next =>
          have hmem : clash ∈ t :: rest := hlist ▸ List.mem_append_right _ List.mem_cons_self
          have hothers : ∀ u ∈ others, u ∈ t :: rest := fun u hu =>
            hlist ▸ List.mem_append_right _ (List.mem_cons_of_mem _ hu)
          have hshort : (nextGap s st var (st.at clash + slots s clash)
              (before ++ passed ++ [clash]) others).2.2.length ≤ others.length :=
            length_nextGap_le
          obtain ⟨hgap, hleft⟩ := nextGap_le (before ++ passed ++ [clash])
            (hthis clash hmem) fun u hu => hthis u (hothers u hu)
          have hsum := congrArg List.length hlist
          rw [List.length_append, List.length_cons, List.length_cons] at hsum
          rw [List.length_cons] at hlen
          refine ih _ (hshort.trans (by omega)) ?_
            fun u hu => hthis u (hothers u (hleft u hu))
          have hquad := quad_le s (slots s var) (nextGap s st var
            (st.at clash + slots s clash) (before ++ passed ++ [clash]) others).1
          split_ifs
          · rw [quad_quad]
            omega
          · omega

/-! ## The orders of the variables -/

/-- A reserved area. -/
def Reserved (s : Setup) (var : ℕ) : Prop := (s.varList var).tag = .reservedws

instance (s : Setup) (var : ℕ) : Decidable (Reserved s var) := inferInstanceAs (Decidable (_ = _))

/-- Reserved areas first, then temporaries, then the larger scopes. -/
theorem compareScope_le_iff : compareScope s u v ≤ 0 ↔ Reserved s u ∨
    (¬ Reserved s v ∧ ((s.varList u).tag = .temp ∨
      ((s.varList v).tag ≠ .temp ∧ (s.varList v).scope ≤ (s.varList u).scope))) := by
  unfold compareScope Reserved
  dsimp only
  split_ifs with hres heq hu htemp heq' hu' hscope hscope' <;>
    simp_all [le_of_lt]
  exact lt_of_le_of_ne hscope hscope'

/-- Reserved areas first, then what is used most. -/
theorem compareUse_le_iff : compareUse s u v ≤ 0 ↔ Reserved s u ∨
    (¬ Reserved s v ∧ (initUseCount s v < initUseCount s u ∨
      (initUseCount s v = initUseCount s u ∧ compareScope s u v ≤ 0))) := by
  unfold compareUse Reserved
  dsimp only
  split_ifs with hres heq hu huse huse' <;>
    simp_all [le_of_lt]
  omega

/-- Both comparisons are total preorders, as `qsort` asks of them. -/
theorem compareScope_total (u v : ℕ) : compareScope s u v ≤ 0 ∨ compareScope s v u ≤ 0 := by
  simp only [compareScope_le_iff]
  rcases le_total (s.varList u).scope (s.varList v).scope with h | h <;> tauto

theorem compareScope_trans (u v w : ℕ) (huv : compareScope s u v ≤ 0)
    (hvw : compareScope s v w ≤ 0) : compareScope s u w ≤ 0 := by
  simp only [compareScope_le_iff] at *
  have : (s.varList v).scope ≤ (s.varList u).scope → (s.varList w).scope ≤ (s.varList v).scope →
    (s.varList w).scope ≤ (s.varList u).scope := fun h h' => h'.trans h
  tauto

theorem compareUse_total (u v : ℕ) : compareUse s u v ≤ 0 ∨ compareUse s v u ≤ 0 := by
  simp only [compareUse_le_iff]
  have := compareScope_total (s := s) u v
  rcases lt_trichotomy (initUseCount s u) (initUseCount s v) with h | h | h <;> tauto

theorem compareUse_trans (u v w : ℕ) (huv : compareUse s u v ≤ 0) (hvw : compareUse s v w ≤ 0) :
    compareUse s u w ≤ 0 := by
  simp only [compareUse_le_iff] at *
  rcases huv with huv | ⟨huv, huv'⟩
  · exact Or.inl huv
  · obtain ⟨hw, hvw'⟩ := hvw.resolve_left huv
    refine Or.inr ⟨hw, ?_⟩
    rcases huv' with h | ⟨h, hscope⟩ <;> rcases hvw' with h' | ⟨h', hscope'⟩
    · exact Or.inl (h'.trans h)
    · exact Or.inl (h'.trans_lt h)
    · exact Or.inl (h'.trans_eq h)
    · exact Or.inr ⟨h'.trans h, compareScope_trans u v w hscope hscope'⟩

/-- Reserved areas come first. -/
def ReservedFirst (s : Setup) (l : List ℕ) : Prop :=
  l.Pairwise fun u v => Reserved s v → Reserved s u

/-- Either way the reserved areas come first. -/
theorem reservedFirst_sort_scope (q : Qsort) (l : List ℕ) :
    ReservedFirst s (q.sort (compareScope s) l) :=
  (q.sorted _ l compareScope_total compareScope_trans).imp fun h hv =>
    (compareScope_le_iff.mp h).resolve_right fun h' => h'.1 hv

theorem reservedFirst_sort_use (q : Qsort) (l : List ℕ) :
    ReservedFirst s (q.sort (compareUse s) l) :=
  (q.sorted _ l compareUse_total compareUse_trans).imp fun h hv =>
    (compareUse_le_iff.mp h).resolve_right fun h' => h'.1 hv

/-! ## The list of allocated variables -/

/-- The order of the list: by place, and the longer first. -/
def Before (s : Setup) (st : State) (u v : ℕ) : Prop :=
  st.at u < st.at v ∨ (st.at u = st.at v ∧ slots s v ≤ slots s u)

theorem Before.at_le (h : Before s st u v) : st.at u ≤ st.at v := h.elim le_of_lt fun h => h.1.le

theorem Before.trans {w : ℕ} (h : Before s st u v) (h' : Before s st v w) : Before s st u w := by
  unfold Before at *
  omega

/-- **The place in the list** is behind everything below the offset. -/
theorem findPlace_spec {offset : ℤ} {p : List ℕ × List ℕ}
    (h : findPlace st offset before this = p) (hbefore : ∀ u ∈ before, st.at u < offset) :
    p.1 ++ p.2 = before ++ this ∧ ∀ u ∈ p.1, st.at u < offset := by
  induction this generalizing before with
  | nil =>
    subst h
    exact ⟨rfl, hbefore⟩
  | cons t rest ih =>
    rw [findPlace] at h
    split_ifs at h with hlt
    · obtain ⟨happend, hall⟩ := ih h fun u hu => by
        rcases List.mem_append.mp hu with hu | hu
        · exact hbefore u hu
        · exact List.mem_singleton.mp hu ▸ hlt
      exact ⟨happend.trans (by rw [List.append_assoc]; rfl), hall⟩
    · subst h
      exact ⟨rfl, hbefore⟩

/-- **What is added is where it belongs**, if all that is behind it starts earlier. -/
theorem addToList_spec (hvar : st.at var = base) (hsorted : (before ++ this).Pairwise (Before s st))
    (hbefore : ∀ u ∈ before, Before s st u var) :
    (addToList s st var base before this).Perm (var :: (before ++ this)) ∧
      (addToList s st var base before this).Pairwise (Before s st) := by
  induction this generalizing before with
  | nil =>
    rw [addToList, List.append_nil] at *
    refine ⟨List.perm_append_singleton _ _, List.pairwise_append.mpr
      ⟨hsorted, List.pairwise_singleton _ _, fun u hu v hv => ?_⟩⟩
    exact List.mem_singleton.mp hv ▸ hbefore u hu
  | cons t rest ih =>
    rw [addToList]
    have happend : before ++ t :: rest = before ++ [t] ++ rest := by rw [List.append_assoc]; rfl
    split_ifs with hpass
    · rw [happend] at hsorted ⊢
      refine ih hsorted fun u hu => ?_
      rcases List.mem_append.mp hu with hu | hu
      · exact hbefore u hu
      · rw [List.mem_singleton.mp hu, Before, hvar]
        exact hpass.imp_right fun h => ⟨h.1, h.2.le⟩
    · obtain ⟨hbehind, hahead, hcross⟩ := List.pairwise_append.mp hsorted
      have hnext : Before s st var t := by
        unfold Before
        omega
      refine ⟨List.perm_middle, List.pairwise_append.mpr ⟨hbehind, ?_, fun u hu v hv => ?_⟩⟩
      · refine List.pairwise_cons.mpr ⟨fun v hv => ?_, hahead⟩
        rcases List.mem_cons.mp hv with rfl | hv
        · exact hnext
        · exact hnext.trans ((List.pairwise_cons.mp hahead).1 v hv)
      · rcases List.mem_cons.mp hv with rfl | hv
        · exact hbefore u hu
        · exact hcross u hu v hv

/-- A sum that has not overflowed. -/
theorem sum32_eq_some {x y : ℤ} (h : sum32 x = some y) : y = x ∧ x < 2 ^ 31 := by
  unfold sum32 at h
  split_ifs at h with hx
  exact ⟨(Option.some.inj h).symm, hx⟩

/-- The state after `var` went to `base`. -/
structure Placed (s : Setup) (st st' : State) (var : ℕ) (base : ℤ) : Prop where
  offset : st'.offset = Function.update st.offset var (some base)
  overlay : ∀ u ≠ var, st'.overlay u = st.overlay u
  perm : st'.alloclist.Perm (var :: st.alloclist)
  sorted : st'.alloclist.Pairwise (Before s st')
  wssize : st'.wssize = max st.wssize (base + slots s var)

theorem State.at_of_offset (h : st.offset var = some base) : st.at var = base := by
  rw [State.at, h, Option.getD_some]

/-- What has an offset already is entered there. -/
theorem allocate_of_some (heq : allocate s st var = some st') (h : st.offset var = some base)
    (hsorted : st.alloclist.Pairwise (Before s st)) :
    Placed s st st' var base ∧ st'.overlay = st.overlay := by
  obtain ⟨happend, hbefore⟩ :=
    findPlace_spec (p := findPlace st base [] st.alloclist) rfl (fun u hu => by cases hu)
  rw [List.nil_append] at happend
  have hat := State.at_of_offset h
  obtain ⟨hperm, hlist⟩ := addToList_spec (s := s) hat
    (happend.symm ▸ hsorted) fun u hu => Or.inl ((hbefore u hu).trans_eq hat.symm)
  rw [happend] at hperm
  have hself : Function.update st.offset var (some base) = st.offset := by
    rw [← h, Function.update_eq_self]
  unfold allocate at heq
  rw [h] at heq
  obtain ⟨stop, hstop, rfl⟩ := Option.map_eq_some_iff.mp heq
  obtain ⟨rfl, -⟩ := sum32_eq_some hstop
  exact ⟨⟨hself.symm, fun _ _ => rfl, hperm, hlist, rfl⟩, rfl⟩

/-- **A variable goes where it clashes with none that is allocated.** -/
theorem allocate_of_none (heq : allocate s st var = some st') (h : st.offset var = none)
    (hvar : var ∉ st.alloclist) (hslots : ∀ u ∈ st.alloclist, 0 < slots s u)
    (hnonneg : ∀ u ∈ st.alloclist, 0 ≤ st.at u) (hsorted : st.alloclist.Pairwise (Before s st)) :
    ∃ base, Placed s st st' var base ∧ 0 ≤ base ∧
      st'.overlay var = ((s.varList var).overlays.map fun o => (base + o.offset).bmod (2 ^ 32)) ∧
      quad s (slots s var) base = base ∧
      ∀ u ∈ st.alloclist, testbitmap s var u = true →
        st.at u + slots s u ≤ base ∨ base + slots s var ≤ st.at u := by
  have hquad : quad s (slots s var) 0 = 0 := by simp [quad]
  have hslot : SlotFound s st var (lookForSlot s st var 0 [] st.alloclist) ([] ++ st.alloclist) :=
    lookForSlot_spec le_rfl le_rfl hslots (fun u hu => by cases hu) hnonneg
      (hsorted.imp Before.at_le) fun _ => hquad
  unfold allocate at heq
  rw [h] at heq
  dsimp only at heq
  generalize lookForSlot s st var 0 [] st.alloclist = slot at hslot heq
  obtain ⟨base, behind, ahead⟩ := slot
  obtain ⟨hbase, happend, hbehind, hahead, hquad⟩ := hslot
  obtain ⟨stop, hstop, rfl⟩ := Option.map_eq_some_iff.mp heq
  obtain ⟨rfl, -⟩ := sum32_eq_some hstop
  dsimp only [List.nil_append] at hbase happend hbehind hahead hquad ⊢
  have hat : (setOffset s st var base).at var = base :=
    State.at_of_offset (Function.update_self _ _ _)
  have hat' : ∀ u ∈ st.alloclist, (setOffset s st var base).at u = st.at u := fun u hu =>
    congrArg (Option.getD · 0) (Function.update_of_ne (ne_of_mem_of_not_mem hu hvar) _ _)
  have hsorted' : (behind ++ ahead).Pairwise (Before s (setOffset s st var base)) := by
    rw [happend]
    refine hsorted.imp_of_mem fun hu hv huv => ?_
    rw [Before, hat' _ hu, hat' _ hv]
    exact huv
  obtain ⟨hperm, hlist⟩ := addToList_spec hat hsorted' fun u hu => Or.inl <| by
    rw [hat, hat' u (happend ▸ List.mem_append_left _ hu)]
    exact (hbehind u hu).1
  rw [happend] at hperm
  refine ⟨base, ⟨rfl, fun u hu => Function.update_of_ne hu _ _, hperm, hlist, rfl⟩, hbase,
    Function.update_self _ _ _, hquad, fun u hu hclash => ?_⟩
  rw [← happend] at hu
  rcases List.mem_append.mp hu with hu | hu
  · exact Or.inl ((hbehind u hu).2 hclash)
  · exact Or.inr (hahead u hu hclash)

/-- Reserved areas have their offsets, and the size is not negative. -/
structure Fixed (s : Setup) (st : State) : Prop where
  offset : ∀ u, (s.varList u).tag = .reservedws → st.offset u = some (s.varList u).fixed
  nonneg : 0 ≤ st.wssize

/-- **Reserved areas stay where they are**, whatever else is allocated. -/
theorem Fixed.allocate (h : Fixed s st) (heq : allocate s st var = some st') : Fixed s st' := by
  unfold Occ21.allocate at heq
  dsimp only at heq
  split at heq
  next hnone =>
    obtain ⟨stop, -, rfl⟩ := Option.map_eq_some_iff.mp heq
    refine ⟨fun u hu => ?_, le_max_of_le_left h.nonneg⟩
    have hne : u ≠ var := by
      rintro rfl
      rw [h.offset u hu] at hnone
      cases hnone
    exact (Function.update_of_ne hne _ _).trans (h.offset u hu)
  next =>
    obtain ⟨stop, -, rfl⟩ := Option.map_eq_some_iff.mp heq
    exact ⟨h.offset, le_max_of_le_left h.nonneg⟩

/-- **No fixed place is moved** by the whole allocation. -/
theorem Fixed.allocateAll (q : Qsort) (left : ℕ) : ∀ {st : State} {reSorted : Bool} {todo : List ℕ},
    Fixed s st → allocateAll s q st reSorted left todo = some st' → Fixed s st' := by
  induction left with
  | zero =>
    intro st reSorted todo h heq
    rw [Occ21.allocateAll, Option.some_inj] at heq
    exact heq ▸ h
  | succ left ih =>
    intro st reSorted todo h heq
    cases todo with
    | nil =>
      rw [Occ21.allocateAll, Option.some_inj] at heq
      exacts [heq ▸ h, nofun]
    | cons var todo =>
      rw [Occ21.allocateAll] at heq
      split_ifs at heq
      · exact ih h heq
      · exact ih (show Fixed s { st with varsMappedOntoVsptr := var :: st.varsMappedOntoVsptr } from
          ⟨h.offset, h.nonneg⟩) heq
      all_goals
        obtain ⟨st₁, hst₁, heq⟩ := Option.bind_eq_some_iff.mp heq
        have hfixed := h.allocate hst₁
        split_ifs at heq
        · exact ih hfixed heq
        · exact ih hfixed heq

theorem fixed_initialState (s : Setup) : Fixed s (initialState s) :=
  ⟨fun _ hu => if_pos hu, le_rfl⟩

/-! ## Allocating one variable after the other -/

/-- A variable that gets slots here. -/
def Allocated (s : Setup) (var : ℕ) : Prop :=
  var ∈ vars s ∧ ¬ notAllocated s var ∧ ¬ mappedOntoVsptr s var

theorem Allocated.slots_pos (h : Allocated s var) : 0 < slots s var :=
  Nat.pos_of_ne_zero fun hzero => h.2.1 (Or.inl hzero)

/-- The slots of `u` and `v` are disjoint. -/
def Apart (s : Setup) (st : State) (u v : ℕ) : Prop :=
  st.at u + slots s u ≤ st.at v ∨ st.at v + slots s v ≤ st.at u

theorem Apart.symm (h : Apart s st u v) : Apart s st v u := Or.symm h

/-- The invariant of the allocation: what is in the list, and `todo`. -/
structure Allocating (s : Setup) (st : State) (todo : List ℕ) : Prop where
  nodup : (st.alloclist ++ todo).Nodup
  allocated : ∀ u ∈ st.alloclist, Allocated s u
  nonneg : ∀ u ∈ st.alloclist, 0 ≤ st.at u
  reserved_nonneg : ∀ u, Allocated s u → Reserved s u → 0 ≤ (s.varList u).fixed
  todo_vars : ∀ u ∈ todo, u ∈ vars s
  complete : ∀ u, Allocated s u → u ∈ st.alloclist ∨ u ∈ todo
  sorted : st.alloclist.Pairwise (Before s st)
  inside : ∀ u ∈ st.alloclist, st.at u + slots s u ≤ st.wssize
  set : ∀ u ∈ st.alloclist, st.offset u = some (st.at u)
  fresh : ∀ u ∉ st.alloclist, st.offset u = (initialState s).offset u
  fixed : ∀ u, Reserved s u → st.offset u = some (s.varList u).fixed
  aligned : ∀ u ∈ st.alloclist, ¬ Reserved s u → quad s (slots s u) (st.at u) = st.at u
  overlaid : ∀ u ∈ st.alloclist, ¬ Reserved s u →
    st.overlay u = (s.varList u).overlays.map fun o => (st.at u + o.offset).bmod (2 ^ 32)
  apart : ∀ u ∈ st.alloclist, ∀ v ∈ st.alloclist, u ≠ v → testbitmap s u v = true →
    ¬ (Reserved s u ∧ Reserved s v) → Apart s st u v
  todo_first : ReservedFirst s todo
  first : ∀ v ∈ todo, Reserved s v → ∀ u ∈ st.alloclist, Reserved s u

section Step

variable {todo todo' : List ℕ}

/-- Who is still to be allocated is not in the list. -/
theorem Allocating.notMem (h : Allocating s st (var :: todo)) : var ∉ st.alloclist := fun hmem =>
  (List.nodup_append.mp h.nodup).2.2 var hmem var List.mem_cons_self rfl

/-- What gets no slots is passed over. -/
theorem Allocating.skip (h : Allocating s st (var :: todo)) (hvar : ¬ Allocated s var) :
    Allocating s st todo where
  __ := h
  nodup := h.nodup.sublist ((List.sublist_cons_self _ _).append_left _)
  todo_vars u hu := h.todo_vars u (List.mem_cons_of_mem _ hu)
  complete u hu := (h.complete u hu).imp_right fun hmem =>
    (List.mem_cons.mp hmem).resolve_left (by rintro rfl; exact hvar hu)
  todo_first := (List.pairwise_cons.mp h.todo_first).2
  first v hv := h.first v (List.mem_cons_of_mem _ hv)

/-- What is left may be sorted again. -/
theorem Allocating.resort (h : Allocating s st todo) (hperm : todo'.Perm todo)
    (hfirst : ReservedFirst s todo') : Allocating s st todo' where
  __ := h
  nodup := (hperm.append_left _).nodup_iff.mpr h.nodup
  todo_vars u hu := h.todo_vars u (hperm.mem_iff.mp hu)
  complete u hu := (h.complete u hu).imp_right hperm.mem_iff.mpr
  todo_first := hfirst
  first v hv := h.first v (hperm.mem_iff.mp hv)

theorem Allocating.map (h : Allocating s st todo) (mapped : List ℕ) :
    Allocating s { st with varsMappedOntoVsptr := mapped } todo := { h with }

/-- A variable that is placed keeps the invariant, if its place suits it. -/
theorem Allocating.placed (h : Allocating s st (var :: todo)) (hvar : Allocated s var)
    (hplaced : Placed s st st' var base) (hbase : 0 ≤ base)
    (hfixed : Reserved s var → base = (s.varList var).fixed)
    (hoverlay : ¬ Reserved s var →
      st'.overlay var = (s.varList var).overlays.map fun o => (base + o.offset).bmod (2 ^ 32))
    (haligned : ¬ Reserved s var → quad s (slots s var) base = base)
    (hapart : ¬ Reserved s var → ∀ u ∈ st.alloclist, testbitmap s var u = true →
      st.at u + slots s u ≤ base ∨ base + slots s var ≤ st.at u) :
    Allocating s st' todo := by
  have hnotMem := h.notMem
  have hoffset : st'.offset var = some base := by rw [hplaced.offset, Function.update_self]
  have hat : st'.at var = base := State.at_of_offset hoffset
  have hoffset' : ∀ u ≠ var, st'.offset u = st.offset u := fun u hu => by
    rw [hplaced.offset, Function.update_of_ne hu]
  have hat' : ∀ u ≠ var, st'.at u = st.at u := fun u hu => by
    rw [State.at, hoffset' u hu, State.at]
  have hne : ∀ u ∈ st.alloclist, u ≠ var := fun u hu => ne_of_mem_of_not_mem hu hnotMem
  have hmem : ∀ u, u ∈ st'.alloclist ↔ u = var ∨ u ∈ st.alloclist := fun u =>
    hplaced.perm.mem_iff.trans List.mem_cons
  have hclash : ∀ u ∈ st.alloclist, testbitmap s var u = true →
      ¬ (Reserved s var ∧ Reserved s u) → Apart s st' var u := fun u hu htest hres => by
    have hvar' : ¬ Reserved s var := fun hvar =>
      hres ⟨hvar, h.first var List.mem_cons_self hvar u hu⟩
    rw [Apart, hat, hat' u (hne u hu)]
    exact (hapart hvar' u hu htest).symm
  refine ⟨?_, fun u hu => ?_, fun u hu => ?_, h.reserved_nonneg,
    fun u hu => h.todo_vars u (List.mem_cons_of_mem _ hu), fun u hu => ?_, hplaced.sorted,
    fun u hu => ?_, fun u hu => ?_, fun u hu => ?_, fun u hu => ?_,
    fun u hu hres => ?_, fun u hu hres => ?_, fun u hu v hv huv htest hres => ?_,
    (List.pairwise_cons.mp h.todo_first).2, fun v hv hres u hu => ?_⟩
  · exact ((hplaced.perm.append_right todo).trans List.perm_middle.symm).nodup_iff.mpr h.nodup
  · rcases (hmem u).mp hu with rfl | hu
    · exact hvar
    · exact h.allocated u hu
  · rcases (hmem u).mp hu with rfl | hu
    · exact hat ▸ hbase
    · exact hat' u (hne u hu) ▸ h.nonneg u hu
  · rcases h.complete u hu with hu | hu
    · exact Or.inl ((hmem u).mpr (Or.inr hu))
    · exact (List.mem_cons.mp hu).imp_left fun heq => (hmem u).mpr (Or.inl heq)
  · rw [hplaced.wssize]
    rcases (hmem u).mp hu with rfl | hu
    · exact hat ▸ le_max_right _ _
    · exact hat' u (hne u hu) ▸ (h.inside u hu).trans (le_max_left _ _)
  · rcases (hmem u).mp hu with rfl | hu
    · rw [hoffset, hat]
    · rw [hoffset' u (hne u hu), hat' u (hne u hu), h.set u hu]
  · obtain ⟨hu, hu'⟩ := not_or.mp (mt (hmem u).mpr hu)
    rw [hoffset' u hu, h.fresh u hu']
  · by_cases heq : u = var
    · subst heq
      rw [hoffset, hfixed hu]
    · rw [hoffset' u heq, h.fixed u hu]
  · rcases (hmem u).mp hu with rfl | hu
    · rw [hat, haligned hres]
    · rw [hat' u (hne u hu), h.aligned u hu hres]
  · rcases (hmem u).mp hu with rfl | hu
    · rw [hat, hoverlay hres]
    · rw [hat' u (hne u hu), hplaced.overlay u (hne u hu), h.overlaid u hu hres]
  · rcases (hmem u).mp hu with rfl | hu <;> rcases (hmem v).mp hv with rfl | hv
    · exact absurd rfl huv
    · exact hclash v hv htest hres
    · exact (hclash u hu (by rw [← htest, testbitmap, testbitmap, testPair_comm])
        (fun h => hres h.symm)).symm
    · rw [Apart, hat' u (hne u hu), hat' v (hne v hv)]
      exact h.apart u hu v hv huv htest hres
  · rcases (hmem u).mp hu with rfl | hu
    · exact (List.pairwise_cons.mp h.todo_first).1 v hv hres
    · exact h.first v (List.mem_cons_of_mem _ hv) hres u hu

/-- **Allocating a variable** keeps the invariant. -/
theorem Allocating.allocate (h : Allocating s st (var :: todo)) (hvar : Allocated s var)
    (heq : allocate s st var = some st') : Allocating s st' todo := by
  by_cases hres : Reserved s var
  · obtain ⟨hplaced, -⟩ := allocate_of_some heq (h.fixed var hres) h.sorted
    exact h.placed hvar hplaced (h.reserved_nonneg var hvar hres) (fun _ => rfl)
      (fun hnot => absurd hres hnot) (fun hnot => absurd hres hnot) fun hnot => absurd hres hnot
  · have hnone : st.offset var = none := by
      rw [h.fresh var h.notMem]
      exact if_neg hres
    obtain ⟨base, hplaced, hbase, hoverlay, haligned, hapart⟩ := allocate_of_none heq hnone
      h.notMem (fun u hu => (h.allocated u hu).slots_pos) h.nonneg h.sorted
    exact h.placed hvar hplaced hbase (fun h => absurd h hres) (fun _ => hoverlay)
      (fun _ => haligned) fun _ => hapart

end Step

section Run

variable {todo : List ℕ} (q : Qsort)

/-- The variables in the order of their allocation, as far as it is not changed on the way. -/
def sortedVar (s : Setup) (q : Qsort) : List ℕ :=
  q.sort (if s.byScope then compareScope s else compareUse s) (vars s)

/-- Every variable is listed once. -/
theorem nodup_vars (s : Setup) : (vars s).Nodup :=
  List.nodup_range.sublist (List.drop_sublist _ _)

theorem reservedFirst_sortedVar (s : Setup) (q : Qsort) : ReservedFirst s (sortedVar s q) := by
  unfold sortedVar
  split_ifs
  · exact reservedFirst_sort_scope q _
  · exact reservedFirst_sort_use q _

theorem sortedVar_perm (s : Setup) (q : Qsort) : (sortedVar s q).Perm (vars s) := q.perm _ _

/-- No reserved area starts below the workspace. -/
def ReservedInside (s : Setup) : Prop :=
  ∀ u, Allocated s u → Reserved s u → 0 ≤ (s.varList u).fixed

/-- The invariant holds at the start, -/
theorem allocating_initialState (q : Qsort) (h : ReservedInside s) :
    Allocating s (initialState s) (sortedVar s q) where
  nodup := (sortedVar_perm s q).nodup_iff.mpr (nodup_vars s)
  allocated _ hu := absurd hu List.not_mem_nil
  nonneg _ hu := absurd hu List.not_mem_nil
  reserved_nonneg := h
  todo_vars _ hu := (sortedVar_perm s q).mem_iff.mp hu
  complete _ hu := Or.inr ((sortedVar_perm s q).mem_iff.mpr hu.1)
  sorted := List.Pairwise.nil
  inside _ hu := absurd hu List.not_mem_nil
  set _ hu := absurd hu List.not_mem_nil
  fresh _ _ := rfl
  fixed _ hu := if_pos hu
  aligned _ hu := absurd hu List.not_mem_nil
  overlaid _ hu := absurd hu List.not_mem_nil
  apart _ hu := absurd hu List.not_mem_nil
  todo_first := reservedFirst_sortedVar s q
  first _ _ _ _ hu := absurd hu List.not_mem_nil

/-- **The invariant holds after any number of variables.** -/
theorem Allocating.allocateAll (left : ℕ) (reSorted : Bool) (h : Allocating s st todo)
    (heq : allocateAll s q st reSorted left todo = some st') :
    ∃ rest, Allocating s st' rest ∧ rest.length = todo.length - left := by
  induction left generalizing st todo reSorted with
  | zero =>
    rw [Occ21.allocateAll, Option.some_inj] at heq
    exact ⟨todo, heq ▸ h, rfl⟩
  | succ left ih =>
    cases todo with
    | nil =>
      rw [Occ21.allocateAll, Option.some_inj] at heq
      exacts [⟨[], heq ▸ h, (Nat.zero_sub _).symm⟩, nofun]
    | cons var todo =>
      rw [Occ21.allocateAll] at heq
      rw [List.length_cons, Nat.add_sub_add_right]
      split_ifs at heq with hnot hmapped hscope
      · exact ih _ (h.skip fun hvar => hvar.2.1 hnot) heq
      · exact ih _ ((h.skip fun hvar => hvar.2.2 hmapped).map _) heq
      all_goals
        obtain ⟨st₁, hst₁, heq⟩ := Option.bind_eq_some_iff.mp heq
        have hallocate := h.allocate ⟨h.todo_vars var List.mem_cons_self, hnot, hmapped⟩ hst₁
        split_ifs at heq
      · exact ih _ hallocate heq
      · exact ih _ hallocate heq
      · have hperm := q.perm (compareScope s) todo
        obtain ⟨rest, hrest, hlen⟩ :=
          ih true (hallocate.resort hperm (reservedFirst_sort_scope q todo)) heq
        exact ⟨rest, hrest, hlen.trans (by rw [hperm.length_eq])⟩
      · exact ih _ hallocate heq

/-- and at the end, with nothing left. -/
theorem allocating_allocateVars {q : Qsort} (h : ReservedInside s)
    (heq : allocateVars s q = some st) : Allocating s st [] := by
  obtain ⟨rest, hrest, hlen⟩ :=
    (allocating_initialState q h).allocateAll q (sortedVar s q).length false heq
  rw [Nat.sub_self] at hlen
  exact List.length_eq_zero_iff.mp hlen ▸ hrest

/-- What a variable adds to the workspace at most. -/
def demand (s : Setup) (var : ℕ) : ℤ :=
  slots s var + 1 + if Reserved s var then max 0 (s.varList var).fixed else 0

theorem demand_nonneg (s : Setup) (var : ℕ) : 0 ≤ demand s var := by
  unfold demand
  split_ifs <;> omega

/-- **A variable is allocated** where its demand does not overflow. -/
theorem Allocating.exists_allocate (h : Allocating s st (var :: todo))
    (hnonneg : 0 ≤ st.wssize) (hroom : st.wssize + demand s var < 2 ^ 31) :
    ∃ st', Occ21.allocate s st var = some st' ∧ 0 ≤ st'.wssize ∧
      st'.wssize ≤ st.wssize + demand s var := by
  have hend : ∀ base : ℤ, base + slots s var ≤ st.wssize + demand s var →
      sum32 (base + slots s var) = some (base + slots s var) := fun base hle =>
    if_pos (hle.trans_lt hroom)
  have hmax : ∀ base : ℤ, base + slots s var ≤ st.wssize + demand s var →
      max st.wssize (base + slots s var) ≤ st.wssize + demand s var := fun base hle =>
    max_le (le_add_of_nonneg_right (demand_nonneg s var)) hle
  unfold Occ21.allocate
  by_cases hres : Reserved s var
  · have hle : (s.varList var).fixed + slots s var ≤ st.wssize + demand s var := by
      rw [demand, if_pos hres]
      omega
    rw [h.fixed var hres]
    dsimp only
    rw [hend _ hle]
    exact ⟨_, rfl, le_max_of_le_left hnonneg, hmax _ hle⟩
  · have hnone : st.offset var = none := by
      rw [h.fresh var h.notMem]
      exact if_neg hres
    have hslot := lookForSlot_le [] le_rfl
      (show quad s (slots s var) 0 ≤ st.wssize + 1 by simp only [quad]; split_ifs <;> omega)
      h.inside
    have hle : (lookForSlot s st var 0 [] st.alloclist).1 + slots s var ≤
        st.wssize + demand s var := by
      rw [demand, if_neg hres]
      omega
    rw [hnone]
    dsimp only
    rw [hend _ hle]
    exact ⟨_, rfl, le_max_of_le_left hnonneg, hmax _ hle⟩

/-- **All the variables are allocated** where their demands do not overflow. -/
theorem Allocating.exists_allocateAll (left : ℕ) (reSorted : Bool) (h : Allocating s st todo)
    (hnonneg : 0 ≤ st.wssize) (hroom : st.wssize + (todo.map (demand s)).sum < 2 ^ 31) :
    ∃ st', Occ21.allocateAll s q st reSorted left todo = some st' ∧
      st'.wssize ≤ st.wssize + (todo.map (demand s)).sum := by
  have hsum : ∀ l : List ℕ, 0 ≤ (l.map (demand s)).sum := fun l => List.sum_nonneg fun d hd => by
    obtain ⟨u, -, rfl⟩ := List.mem_map.mp hd
    exact demand_nonneg s u
  induction left generalizing st todo reSorted with
  | zero => exact ⟨st, by rw [Occ21.allocateAll], le_add_of_nonneg_right (hsum todo)⟩
  | succ left ih =>
    cases todo with
    | nil =>
      refine ⟨st, ?_, le_add_of_nonneg_right (hsum [])⟩
      rw [Occ21.allocateAll]
      nofun
    | cons var todo =>
      have hdemand := demand_nonneg s var
      rw [List.map_cons, List.sum_cons] at hroom ⊢
      rw [Occ21.allocateAll]
      split_ifs with hnot hmapped hscope
      · obtain ⟨st', heq, hle⟩ :=
          ih reSorted (h.skip fun hvar => hvar.2.1 hnot) hnonneg (by omega)
        exact ⟨st', heq, by omega⟩
      · obtain ⟨st', heq, hle⟩ :=
          ih reSorted ((h.skip fun hvar => hvar.2.2 hmapped).map (var :: st.varsMappedOntoVsptr))
            hnonneg (by dsimp only; omega)
        dsimp only at hle
        exact ⟨st', heq, by omega⟩
      all_goals
        have hvar : Allocated s var := ⟨h.todo_vars var List.mem_cons_self, hnot, hmapped⟩
        have htodo := hsum todo
        obtain ⟨st₁, hst₁, hnonneg₁, hle₁⟩ := h.exists_allocate hnonneg (by omega)
        have hallocate := h.allocate hvar hst₁
        rw [hst₁, Option.bind_some]
        split_ifs
      · obtain ⟨st', heq, hle⟩ := ih true hallocate hnonneg₁ (by omega)
        exact ⟨st', heq, by omega⟩
      · obtain ⟨st', heq, hle⟩ := ih reSorted hallocate hnonneg₁ (by omega)
        exact ⟨st', heq, by omega⟩
      · have hperm := q.perm (compareScope s) todo
        have hsort := (hperm.map (demand s)).sum_eq
        obtain ⟨st', heq, hle⟩ := ih true
          (hallocate.resort hperm (reservedFirst_sort_scope q todo)) hnonneg₁ (by omega)
        exact ⟨st', heq, by omega⟩
      · obtain ⟨st', heq, hle⟩ := ih reSorted hallocate hnonneg₁ (by omega)
        exact ⟨st', heq, by omega⟩

theorem exists_allocateVars (q : Qsort) (h : ReservedInside s)
    (hroom : ((vars s).map (demand s)).sum < 2 ^ 31) :
    ∃ st, allocateVars s q = some st ∧ st.wssize ≤ ((vars s).map (demand s)).sum := by
  have hsort := ((sortedVar_perm s q).map (demand s)).sum_eq
  obtain ⟨st, heq, hle⟩ := (allocating_initialState q h).exists_allocateAll q
    (sortedVar s q).length false le_rfl (show 0 + _ < _ by omega)
  exact ⟨st, heq, hle.trans (show 0 + _ ≤ _ by omega)⟩

/-- In the end the list has all that gets slots. -/
theorem Allocating.mem_iff (h : Allocating s st []) : u ∈ st.alloclist ↔ Allocated s u :=
  ⟨h.allocated u, fun hu => (h.complete u hu).resolve_right List.not_mem_nil⟩

end Run

end Occ21

end Kroc
