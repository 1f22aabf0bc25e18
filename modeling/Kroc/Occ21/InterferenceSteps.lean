import Kroc.Occ21.InterferenceRun

/-!
# Occ21/InterferenceSteps — one call of the mapper

Each call that is in order keeps the invariant, and sets the bits of those pairs that interfere
after it and no others.
-/

open Triangle

namespace Kroc

namespace Occ21

variable {s s' : Vars} {t t' : Mapper} {nptr n i j : ℕ} {lives : Set ℕ}

/-! ## Live variables -/

section Kept

variable {row row' : ℕ → BitVec (2 ^ 5)} {bases : List ℕ} {num base u : ℕ}

/-- **One more** is live, if the bits say that and it has been marked with the others of
its range. -/
theorem Vars.Kept.insert (h : s.Kept lives row bases num) (hbase : base ∈ bases)
    (hu : (s.node u).varNum = some n) (hn : n < num) (hb : base ≤ n)
    (hlist : s.varList n = u ∨ (s.node (s.varList n)).tag.isTemp = true)
    (halone : ∀ v ∈ lives, (s.node v).varNum = some n → v = u)
    (hrow : ∀ m, testbit row' m = true ↔ m = n ∨ testbit row m = true)
    (hmark : ∀ k, base ≤ k → testbit row k = true → k ≠ n → testPair s.varMap k n = true) :
    s.Kept (insert u lives) row' bases num := by
  have hpair : ∀ v ∈ lives, ∀ k, (s.node v).varNum = some k → k ≠ n → SameRange bases k n →
      testPair s.varMap k n = true := fun v hv k hk hne hr =>
    hmark k ((hr base hbase).mpr hb) ((h.live_iff k).mpr ⟨v, hv, hk⟩) hne
  refine ⟨?_, ?_, fun m => ?_, ?_⟩
  · rintro v (rfl | hv)
    · exact ⟨n, hn, hu, hlist⟩
    · exact h.numbered v hv
  · rintro v (rfl | hv) w (rfl | hw) heq
    · rfl
    · exact (halone w hw (heq ▸ hu)).symm
    · exact halone v hv (heq ▸ hu)
    · exact h.alone v hv w hw heq
  · rw [hrow, h.live_iff]
    constructor
    · rintro (rfl | ⟨v, hv, hnum⟩)
      · exact ⟨u, Or.inl rfl, hu⟩
      · exact ⟨v, Or.inr hv, hnum⟩
    · rintro ⟨v, rfl | hv, hnum⟩
      · exact Or.inl (Option.some.inj (hnum.symm.trans hu))
      · exact Or.inr ⟨v, hv, hnum⟩
  · rintro v (rfl | hv) w (rfl | hw) i j hi hj hne hr
    · exact absurd (Option.some.inj (hi.symm.trans hj)) hne
    · obtain rfl := Option.some.inj (hi.symm.trans hu)
      rw [testPair_comm]
      exact hpair w hw j hj hne.symm fun b hb => (hr b hb).symm
    · obtain rfl := Option.some.inj (hj.symm.trans hu)
      exact hpair v hv i hi hne hr
    · exact h.marked v hv w hw i j hi hj hne hr

/-- **One less** is live. -/
theorem Vars.Kept.erase (h : s.Kept lives row bases num) (hu : u ∈ lives)
    (hn : (s.node u).varNum = some n) :
    s.Kept (lives \ {u}) (clearbit row n) bases num := by
  refine ⟨fun v hv => h.numbered v hv.1, fun v hv w hw => h.alone v hv.1 w hw.1, fun m => ?_,
    fun v hv w hw => h.marked v hv.1 w hw.1⟩
  rw [testbit_clearbit, Bool.and_eq_true, Bool.not_eq_true', decide_eq_false_iff_not, h.live_iff]
  constructor
  · rintro ⟨hne, v, hv, hm⟩
    refine ⟨v, ⟨hv, ?_⟩, hm⟩
    rintro rfl
    exact hne (Option.some.inj (hm.symm.trans hn))
  · rintro ⟨v, ⟨hv, hvu⟩, hm⟩
    refine ⟨?_, v, hv, hm⟩
    rintro rfl
    exact hvu (h.alone v hv u hu (hm.trans hn.symm))

/-- Another row with the same bits. -/
theorem Vars.Kept.congr_row (h : s.Kept lives row bases num)
    (hrow : ∀ m, testbit row' m = testbit row m) : s.Kept lives row' bases num :=
  ⟨h.numbered, h.alone, fun m => by rw [hrow, h.live_iff], h.marked⟩

/-- A range more. -/
theorem Vars.Kept.cons (h : s.Kept lives row bases num) (base : ℕ) :
    s.Kept lives row (base :: bases) num :=
  ⟨h.numbered, h.alone, h.live_iff, fun u hu v hv i j hi hj hne hr =>
    h.marked u hu v hv i j hi hj hne fun b hb => hr b (List.mem_cons_of_mem base hb)⟩

/-- The range is left with variables that are below it only. -/
theorem Vars.Kept.leave (h : s.Kept lives row (base :: bases) num)
    (hlow : ∀ u ∈ lives, ∀ n, (s.node u).varNum = some n → n < base) :
    s.Kept lives row bases base := by
  refine ⟨fun u hu => ?_, h.alone, h.live_iff, fun u hu v hv i j hi hj hne hr => ?_⟩
  · obtain ⟨n, -, hn, hor⟩ := h.numbered u hu
    exact ⟨n, hlow u hu n hn, hn, hor⟩
  · refine h.marked u hu v hv i j hi hj hne fun b hb => ?_
    rcases List.mem_cons.mp hb with rfl | hb
    · exact iff_of_false (not_le.mpr (hlow u hu i hi)) (not_le.mpr (hlow v hv j hj))
    · exact hr b hb

end Kept

theorem rangesOf_le : ∀ {frames : List Frame} {base num : ℕ}, s.FramesKept base num frames →
    ∀ b ∈ rangesOf frames, b ≤ base
  | [], _, _, _, _, hb => absurd hb (List.not_mem_nil)
  | .scope .. :: _, _, _, h, b, hb => rangesOf_le h.2.2 b hb
  | .range _ :: _, _, _, h, b, hb => by
    rcases List.mem_cons.mp hb with rfl | hb
    · exact h.1
    · exact (rangesOf_le h.2 b hb).trans h.1

/-- **Live variables of the current range are marked** with each other. -/
theorem Mapper.Inv.together (h : t.Inv) (hne : i ≠ j) (hij : t.Together i j) :
    testPair t.vars.varMap i j = true := by
  obtain ⟨u, hu, v, hv, hi, hj, hri, hrj⟩ := hij
  rw [Vars.inRange, decide_eq_true_iff] at hri hrj
  refine h.kept.marked u hu v hv i j hi hj hne fun b hb => ?_
  have hle : b ≤ t.vars.varBase := by
    rcases List.mem_cons.mp hb with rfl | hb
    · exact le_rfl
    · exact rangesOf_le h.frames b hb
  exact iff_of_true (hle.trans hri.1) (hle.trans hrj.1)

/-! ## Steps -/

/-- A call keeps the invariant and sets the bits that it should, and no others. -/
structure VarCall.Sound (c : VarCall) (t t' : Mapper) : Prop where
  inv : t'.Inv
  old : ∀ i j, testPair t.vars.varMap i j = true → testPair t'.vars.varMap i j = true
  immortal : ∀ i j, c.Immortal t i j → testPair t'.vars.varMap i j = true
  new : ∀ i j, i ≠ j → testPair t'.vars.varMap i j = true →
    testPair t.vars.varMap i j = true ∨ t'.Together i j ∨ c.Immortal t i j

/-- The map is as it was. -/
theorem VarCall.sound_of_map {c : VarCall} (h : t'.Inv) (hmap : t'.vars.varMap = t.vars.varMap)
    (hc : ∀ i j, ¬ c.Immortal t i j) : c.Sound t t' :=
  ⟨h, fun _ _ hij => hmap ▸ hij, fun i j hij => absurd hij (hc i j), fun _ _ _ hij =>
    Or.inl (hmap ▸ hij)⟩

theorem Vars.Created.extends {live : Bool} {marks : ℕ → Prop} (h : s.Created s' nptr live marks)
    (hnone : (s.node nptr).varNum = none) : Vars.Extends s.numVar s s' := by
  refine ⟨h.varrow, fun u n _ hu => ?_, fun n hn => ?_, fun n _ ht => ?_, fun i j hij => ?_⟩
  · rw [h.varNum, if_neg fun heq => ?_]
    · exact hu
    · rw [heq, hnone] at hu
      cases hu
  · rw [h.varList, Function.update_of_ne hn.ne]
  · rw [h.tag]
    exact ht
  · exact (h.map _).mpr (Or.inl hij)

theorem Vars.Revived.extends (h : s.Revived s' n) (num : ℕ) : Vars.Extends num s s' :=
  ⟨h.varrow.ge, fun u n _ hu => h.node ▸ hu, fun n _ => by rw [h.varList], fun n _ ht =>
    h.node ▸ ht, fun _ _ hij => (h.map _).mpr (Or.inl hij)⟩

/-- A pair of marks is at its place only. -/
theorem Vars.Created.pair {live : Bool} {marks : ℕ → Prop} (h : s.Created s' nptr live marks)
    (i j : ℕ) : testPair s'.varMap i j = true ↔ testPair s.varMap i j = true ∨
      (j = s.numVar ∧ s.varBase ≤ i ∧ i ≤ s.numVar ∧ marks i) ∨
        (i = s.numVar ∧ s.varBase ≤ j ∧ j ≤ s.numVar ∧ marks j) := by
  rw [testPair, testPair, h.map]
  refine or_congr Iff.rfl ⟨?_, ?_⟩
  · rintro ⟨k, hb, hk, hm, heq⟩
    rcases index_eq_iff.mp heq with ⟨rfl, rfl⟩ | ⟨rfl, rfl⟩
    · exact Or.inl ⟨rfl, hb, hk, hm⟩
    · exact Or.inr ⟨rfl, hb, hk, hm⟩
  · rintro (⟨rfl, hb, hk, hm⟩ | ⟨rfl, hb, hk, hm⟩)
    · exact ⟨i, hb, hk, hm, rfl⟩
    · exact ⟨j, hb, hk, hm, index_comm _ _⟩

section Created

variable {live : Bool} {marks : ℕ → Prop} (h : t.Inv) (hs : t.vars.Created s' nptr live marks)
  (hnone : (t.vars.node nptr).varNum = none)

include h hs

theorem Mapper.Inv.fixed_created : ∀ f ∈ s'.fixedwsList, (s'.node f).tag = .reservedws ∧
    ∀ n, (s'.node f).varNum = some n → n < s'.numVar ∧ s'.varList n = f := by
  intro f hf
  rw [hs.fixedwsList] at hf
  obtain ⟨htag, hnum⟩ := h.fixed f hf
  refine ⟨by rw [hs.tag, htag], fun n hn => ?_⟩
  rw [hs.varNum] at hn
  rw [hs.varList, hs.numVar]
  split_ifs at hn with hfn
  · obtain rfl := Option.some.inj hn
    exact ⟨Nat.lt_succ_self _, by rw [Function.update_self, hfn]⟩
  · obtain ⟨hlt, heq⟩ := hnum n hn
    exact ⟨hlt.trans (Nat.lt_succ_self _), by rw [Function.update_of_ne hlt.ne, heq]⟩

include hnone

theorem Mapper.Inv.listed_created : ∀ n < s'.numVar, (s'.node (s'.varList n)).varNum = some n := by
  intro n hn
  rw [hs.numVar] at hn
  rw [hs.varList, hs.varNum]
  rcases Nat.lt_succ_iff_lt_or_eq.mp hn with hlt | rfl
  · rw [Function.update_of_ne hlt.ne, if_neg fun heq => ?_]
    · exact h.listed n hlt
    · have := h.listed n hlt
      rw [heq, hnone] at this
      cases this
  · rw [Function.update_self, if_pos rfl]

theorem Mapper.Inv.frames_created : s'.FramesKept s'.varBase s'.numVar t.frames := by
  rw [hs.varBase, hs.numVar]
  exact h.frames.extends h.sized.base_le (hs.extends hnone) (Nat.le_succ _)

/-- What was live is still so, and has none of the new number. -/
theorem Mapper.Inv.kept_created : s'.Kept t.lives t.vars.liveVar
    (t.vars.varBase :: rangesOf t.frames) t.vars.numVar :=
  h.kept.extends (hs.extends hnone)

end Created

/-- A variable is created and live, in a state with the invariant. -/
theorem Mapper.Inv.sound_created (h : t.Inv) (hnone : (t.vars.node nptr).varNum = none)
    (heq : createVar nptr t.vars = some s') (c : VarCall) (hc : ∀ i j, ¬ c.Immortal t i j) :
    c.Sound t { t with vars := s', lives := insert nptr t.lives } := by
  have hs := createVar_spec h.sized heq
  have hbase := h.sized.base_le
  have hkept := h.kept_created hs hnone
  have hlist : s'.varList t.vars.numVar = nptr := by
    rw [hs.varList, Function.update_self]
  have hnum : (s'.node nptr).varNum = some t.vars.numVar := by
    rw [hs.varNum, if_pos rfl]
  refine ⟨⟨hs.sized, h.listed_created hs hnone, h.fixed_created hs, ?_,
    h.frames_created hs hnone⟩, fun i j hij => ?_, fun i j hij => absurd hij (hc i j),
    fun i j hne hij => ?_⟩
  · rw [hs.varBase, hs.numVar]
    refine (hkept.mono (Nat.le_succ _)).insert List.mem_cons_self hnum (Nat.lt_succ_self _) hbase
      (Or.inl hlist) (fun v hv hvn => ?_) (fun m => ?_) fun k hk hlive hne => ?_
    · obtain ⟨m, hm, hvm, -⟩ := hkept.numbered v hv
      exact absurd (Option.some.inj (hvm.symm.trans hvn)) hm.ne
    · rw [hs.live]
      simp
    · obtain ⟨v, hv, hvk⟩ := (hkept.live_iff k).mp hlive
      obtain ⟨m, hm, hvm, -⟩ := hkept.numbered v hv
      obtain rfl := Option.some.inj (hvk.symm.trans hvm)
      exact (hs.pair _ _).mpr (Or.inr (Or.inl ⟨rfl, hk, hm.le, Or.inr hlive⟩))
  · exact (hs.pair i j).mpr (Or.inl hij)
  · have hpair : ∀ k, k ≠ t.vars.numVar → t.vars.varBase ≤ k → k ≤ t.vars.numVar →
        (k = t.vars.numVar ∨ testbit t.vars.liveVar k = true) →
        ∃ v ∈ t.lives, (s'.node v).varNum = some k := fun k hk _ _ hor =>
      (hkept.live_iff k).mp (hor.resolve_left hk)
    have hin : ∀ k, t.vars.varBase ≤ k → k ≤ t.vars.numVar →
        s'.inRange k = true := fun k hb hk => by
      rw [Vars.inRange, decide_eq_true_iff, hs.varBase, hs.numVar]
      exact ⟨hb, Nat.lt_succ_of_le hk⟩
    rcases (hs.pair i j).mp hij with hij | ⟨rfl, hb, hk, hm⟩ | ⟨rfl, hb, hk, hm⟩
    · exact Or.inl hij
    · obtain ⟨v, hv, hvi⟩ := hpair i hne hb hk hm
      exact Or.inr (Or.inl ⟨v, Or.inr hv, nptr, Or.inl rfl, hvi, hnum, hin i hb hk,
        hin _ hbase le_rfl⟩)
    · obtain ⟨v, hv, hvj⟩ := hpair j hne.symm hb hk hm
      exact Or.inr (Or.inl ⟨nptr, Or.inl rfl, v, Or.inr hv, hnum, hvj, hin _ hbase le_rfl,
        hin j hb hk⟩)

theorem Mapper.Inv.sound_createImmortalvar (h : t.Inv) (hnone : (t.vars.node nptr).varNum = none)
    (heq : Occ21.createImmortalvar nptr t.vars = some s') :
    (VarCall.createImmortalvar nptr).Sound t { t with vars := s' } := by
  have hs := createImmortalvar_spec h.sized heq
  have hkept := h.kept_created hs hnone
  refine ⟨⟨hs.sized, h.listed_created hs hnone, h.fixed_created hs, ?_,
    h.frames_created hs hnone⟩, fun i j hij => ?_, fun i j hij => ?_, fun i j hne hij => ?_⟩
  · rw [hs.varBase, hs.numVar]
    refine (hkept.mono (Nat.le_succ _)).congr_row fun m => ?_
    rw [Bool.eq_iff_iff, hs.live]
    simp
  · exact (hs.pair i j).mpr (Or.inl hij)
  · refine (hs.pair i j).mpr (Or.inr ?_)
    rcases hij with ⟨rfl, hj⟩ | ⟨rfl, hi⟩
    · rw [Vars.inRange, decide_eq_true_iff] at hj
      exact Or.inr ⟨rfl, hj.1, hj.2.le, trivial⟩
    · rw [Vars.inRange, decide_eq_true_iff] at hi
      exact Or.inl ⟨rfl, hi.1, hi.2.le, trivial⟩
  · rcases (hs.pair i j).mp hij with hij | ⟨rfl, hb, hk, -⟩ | ⟨rfl, hb, hk, -⟩
    · exact Or.inl hij
    · refine Or.inr (Or.inr (Or.inr ⟨rfl, ?_⟩))
      rw [Vars.inRange, decide_eq_true_iff]
      exact ⟨hb, lt_of_le_of_ne hk hne⟩
    · refine Or.inr (Or.inr (Or.inl ⟨rfl, ?_⟩))
      rw [Vars.inRange, decide_eq_true_iff]
      exact ⟨hb, lt_of_le_of_ne hk hne.symm⟩

/-- The variable `n` is resurrected for `u`, which is the only live one that may have it. -/
theorem Mapper.Inv.sound_revived {u : ℕ} (h : t.Inv) (hs : t.vars.Revived s' n)
    (hu : (t.vars.node u).varNum = some n) (hr : t.vars.inRange n = true)
    (hlist : t.vars.varList n = u ∨ (t.vars.node (t.vars.varList n)).tag.isTemp = true)
    (halone : ∀ v ∈ t.lives, (t.vars.node v).varNum = some n → v = u) (c : VarCall)
    (hc : ∀ i j, ¬ c.Immortal t i j) :
    c.Sound t { t with vars := s', lives := insert u t.lives } := by
  have hr' := hr
  rw [Vars.inRange, decide_eq_true_iff] at hr'
  obtain ⟨hb, hn⟩ := hr'
  have hext := hs.extends t.vars.numVar
  have hkept := h.kept.extends hext
  have hin : ∀ k, t.vars.varBase ≤ k → k < t.vars.numVar → t.vars.inRange k = true :=
    fun k hk hlt => by
      rw [Vars.inRange, decide_eq_true_iff]
      exact ⟨hk, hlt⟩
  have hin' : ∀ k, s'.inRange k = t.vars.inRange k := fun k => by
    rw [Vars.inRange, Vars.inRange, hs.varBase, hs.numVar]
  have hbelow : ∀ k, testbit t.vars.liveVar k = true → ∃ v ∈ t.lives,
      (t.vars.node v).varNum = some k ∧ k < t.vars.numVar := fun k hk => by
    obtain ⟨v, hv, hvk⟩ := (h.kept.live_iff k).mp hk
    obtain ⟨m, hm, hvm, -⟩ := h.kept.numbered v hv
    obtain rfl := Option.some.inj (hvk.symm.trans hvm)
    exact ⟨v, hv, hvk, hm⟩
  refine ⟨⟨hs.sized, ?_, ?_, ?_, ?_⟩, fun i j hij => (hs.map _).mpr (Or.inl hij),
    fun i j hij => absurd hij (hc i j), fun i j hne hij => ?_⟩
  · rw [hs.numVar, hs.node, hs.varList]
    exact h.listed
  · rw [hs.numVar, hs.node, hs.varList, hs.fixedwsList]
    exact h.fixed
  · rw [hs.varBase, hs.numVar]
    refine hkept.insert List.mem_cons_self (hs.node ▸ hu) hn hb (hs.node ▸ hs.varList ▸ hlist)
      (hs.node ▸ halone) hs.live fun k hk hlive hne => ?_
    obtain ⟨v, hv, hvk, hlt⟩ := hbelow k hlive
    rcases hbit : testbit t.vars.liveVar n
    · exact (hs.map _).mpr (Or.inr ⟨hbit, k, hk, hlt, Or.inr hlive, rfl⟩)
    · obtain ⟨w, hw, hwn, -⟩ := hbelow n hbit
      have hold : testPair t.vars.varMap k n = true :=
        h.together hne ⟨v, hv, w, hw, hvk, hwn, hin k hk hlt, hr⟩
      exact (hs.map _).mpr (Or.inl hold)
  · rw [hs.varBase, hs.numVar]
    exact h.frames.extends h.sized.base_le hext le_rfl
  · rcases (hs.map _).mp hij with hij | ⟨-, k, hk, hlt, hor, heq⟩
    · exact Or.inl hij
    · have hpair : k ≠ n → ∃ v ∈ t.lives, (s'.node v).varNum = some k := fun hkn => by
        obtain ⟨v, hv, hvk, -⟩ := hbelow k (hor.resolve_left hkn)
        exact ⟨v, hv, hs.node ▸ hvk⟩
      have hu' : (s'.node u).varNum = some n := hs.node ▸ hu
      have hrk : s'.inRange k = true := (hin' k).trans (hin k hk hlt)
      have hrn : s'.inRange n = true := (hin' n).trans hr
      rcases index_eq_iff.mp heq with ⟨rfl, rfl⟩ | ⟨rfl, rfl⟩
      · obtain ⟨v, hv, hvk⟩ := hpair hne
        exact Or.inr (Or.inl ⟨v, Or.inr hv, u, Or.inl rfl, hvk, hu', hrk, hrn⟩)
      · obtain ⟨v, hv, hvk⟩ := hpair hne.symm
        exact Or.inr (Or.inl ⟨u, Or.inl rfl, v, Or.inr hv, hu', hvk, hrn, hrk⟩)

/-- Nodes may change, if those with a number keep it and their tags. -/
theorem Mapper.Inv.renode (h : t.Inv) (node' : ℕ → VarNode) (fixedwsList' : List ℕ)
    (hnum : ∀ u n, (t.vars.node u).varNum = some n →
      (node' u).varNum = some n ∧ (node' u).tag = (t.vars.node u).tag)
    (hfixed : ∀ f ∈ fixedwsList', (node' f).tag = .reservedws ∧ ∀ n, (node' f).varNum = some n →
      (t.vars.node f).varNum = some n ∧ f ∈ t.vars.fixedwsList) :
    ({ t with
      vars := { t.vars with node := node', fixedwsList := fixedwsList' } } : Mapper).Inv := by
  have hext : Vars.Extends t.vars.numVar t.vars
      { t.vars with node := node', fixedwsList := fixedwsList' } :=
    ⟨le_rfl, fun u n _ hu => (hnum u n hu).1, fun _ _ => rfl, fun n hn ht => by
      show (node' _).tag.isTemp = true
      rw [(hnum _ n (h.listed n hn)).2, ht], fun _ _ hij => hij⟩
  refine ⟨⟨h.sized.maxvar_pow, h.sized.maxvar_eq, h.sized.base_le, h.sized.num_le,
    h.sized.live_behind, h.sized.map_behind⟩, fun n hn => (hnum _ n (h.listed n hn)).1,
    fun f hf => ⟨(hfixed f hf).1, fun n hn => ?_⟩, h.kept.extends hext,
    h.frames.extends h.sized.base_le hext le_rfl⟩
  obtain ⟨hfn, hmem⟩ := (hfixed f hf).2 n hn
  exact (h.fixed f hmem).2 n hfn

theorem VarCall.Sound.of_map {c : VarCall} {t₁ : Mapper} (h : c.Sound t₁ t')
    (hmap : t₁.vars.varMap = t.vars.varMap) (hc : ∀ t i j, ¬ c.Immortal t i j) : c.Sound t t' := by
  refine ⟨h.inv, fun i j hij => h.old i j (hmap ▸ hij), fun i j hij => absurd hij (hc t i j),
    fun i j hne hij => ?_⟩
  rcases h.new i j hne hij with hold | htog | him
  · exact Or.inl (hmap ▸ hold)
  · exact Or.inr (Or.inl htog)
  · exact absurd him (hc t₁ i j)

/-- An offset of a node is entered afterwards. -/
theorem VarCall.Sound.offset {c : VarCall} (h : c.Sound t t') (u : ℕ) (offset : Option ℤ) :
    c.Sound t { t' with
      vars := { t'.vars with
        node := Function.update t'.vars.node u { t'.vars.node u with offset := offset } } } := by
  let node' := Function.update t'.vars.node u { t'.vars.node u with offset := offset }
  have hnode : ∀ v, (node' v).varNum = (t'.vars.node v).varNum ∧
      (node' v).tag = (t'.vars.node v).tag := fun v => by
    dsimp only [node']
    rw [Function.update_apply]
    split_ifs with hv
    · rw [hv]
      exact ⟨rfl, rfl⟩
    · exact ⟨rfl, rfl⟩
  refine ⟨h.inv.renode _ _ (fun v n hn => ⟨(hnode v).1.trans hn, (hnode v).2⟩) fun f hf =>
    ⟨(hnode f).2.trans (h.inv.fixed f hf).1, fun n hn => ⟨(hnode f).1.symm.trans hn, hf⟩⟩, h.old,
    h.immortal, fun i j hne hij => ?_⟩
  refine (h.new i j hne hij).imp_right (Or.imp_left ?_)
  rintro ⟨v, hv, w, hw, hvi, hwj, hr⟩
  exact ⟨v, hv, w, hw, (hnode v).1.trans hvi, (hnode w).1.trans hwj, hr⟩

theorem Mapper.Inv.sound_killVar {u : ℕ} (h : t.Inv) (hu : u ∈ t.lives)
    (heq : (VarCall.killVar u).apply t = some t') : (VarCall.killVar u).Sound t t' := by
  obtain ⟨n, hn, hun, -⟩ := h.kept.numbered u hu
  rw [VarCall.apply, Occ21.killVar, hun, Option.map_some, Option.map_some, Option.some_inj] at heq
  subst heq
  refine VarCall.sound_of_map ⟨⟨h.sized.maxvar_pow, h.sized.maxvar_eq, h.sized.base_le,
    h.sized.num_le, fun m hm => ?_, h.sized.map_behind⟩, h.listed, h.fixed, ?_, ?_⟩ rfl
    fun _ _ h => h
  · rw [testbit_clearbit, h.sized.live_behind m hm, Bool.and_false]
  · have herase := h.kept.erase hu hun
    exact ⟨herase.numbered, herase.alone, herase.live_iff, herase.marked⟩
  · exact h.frames.extends h.sized.base_le
      ⟨le_rfl, fun _ _ _ hv => hv, fun _ _ => rfl, fun _ _ ht => ht, fun _ _ hij => hij⟩ le_rfl

theorem Mapper.Inv.sound_resurrectVar {u : ℕ} (h : t.Inv)
    (hc : (VarCall.resurrectVar u).Orderly t) (heq : (VarCall.resurrectVar u).apply t = some t') :
    (VarCall.resurrectVar u).Sound t t' := by
  obtain ⟨n, hn, hr, hlist, halone⟩ := hc
  have hlt : n < t.vars.numVar := by
    rw [Vars.inRange, decide_eq_true_iff] at hr
    exact hr.2
  obtain ⟨s', hs, hrev⟩ := resurrectVar_spec h.sized hn hlt
  rw [VarCall.apply, hs, Option.map_some, Option.some_inj] at heq
  subst heq
  exact h.sound_revived hrev hn hr (Or.inl hlist) halone _ fun _ _ h => h

theorem Mapper.Inv.sound_alloctemp {u : ℕ} (h : t.Inv) (hc : t.vars.New u)
    (heq : (VarCall.alloctemp u).apply t = some t') : (VarCall.alloctemp u).Sound t t' := by
  obtain ⟨hnone, hnfix⟩ := hc
  rw [VarCall.apply, Occ21.alloctemp] at heq
  cases hfind : (List.range' t.vars.varBase (t.vars.numVar - t.vars.varBase)).find? fun i =>
      (t.vars.node (t.vars.varList i)).tag.isTemp && !testbit t.vars.liveVar i &&
        decide ((t.vars.node u).numslots = (t.vars.node (t.vars.varList i)).numslots) with
  | none =>
    simp only [hfind] at heq
    obtain ⟨s', hs, rfl⟩ := Option.map_eq_some_iff.mp heq
    exact h.sound_created hnone hs _ fun _ _ h => h
  | some i =>
    have hmem := List.mem_of_find?_eq_some hfind
    have hprop := List.find?_some hfind
    rw [List.mem_range'_1] at hmem
    simp only [Bool.and_eq_true, Bool.not_eq_true', decide_eq_true_iff] at hprop
    obtain ⟨⟨htemp, hclear⟩, -⟩ := hprop
    have hlt : i < t.vars.numVar := by omega
    have hi := h.listed i hlt
    have hne : t.vars.varList i ≠ u := fun hu => by
      rw [hu, hnone] at hi
      cases hi
    -- the name gets the number of the temporary that is used again
    let node' := Function.update t.vars.node u
      { t.vars.node u with
        varNum := (t.vars.node (t.vars.varList i)).varNum
        offset := some 0 }
    have hnode : ∀ v, v ≠ u → node' v = t.vars.node v := fun v hv => Function.update_of_ne hv _ _
    have hfixed : ∀ f ∈ t.vars.fixedwsList, f ≠ u := fun f hf hfu => hnfix (hfu ▸ hf)
    have hinv := h.renode node' t.vars.fixedwsList (fun v n hv => by
        have hvu : v ≠ u := by
          rintro rfl
          rw [hnone] at hv
          cases hv
        rw [hnode v hvu]
        exact ⟨hv, rfl⟩)
      (fun f hf => by
        rw [hnode f (hfixed f hf)]
        exact ⟨(h.fixed f hf).1, fun n hn => ⟨hn, hf⟩⟩)
    obtain ⟨s', hs, hrev⟩ := resurrectVar_spec hinv.sized (hinv.listed i hlt) hlt
    simp only [hfind] at heq
    dsimp only at hs
    rw [hs, Option.map_some, Option.some_inj] at heq
    subst heq
    refine VarCall.Sound.of_map (hinv.sound_revived hrev (u := u) ?_ ?_ (Or.inr ?_) ?_ _
      fun _ _ h => h) rfl fun _ _ _ h => h
    · exact (congrArg VarNode.varNum (Function.update_self u _ t.vars.node)).trans hi
    · show decide _ = true
      rw [decide_eq_true_iff]
      exact ⟨hmem.1, hlt⟩
    · show (node' (t.vars.varList i)).tag.isTemp = true
      rw [hnode _ hne, htemp]
    · intro v hv hvi
      have hlive := (hinv.kept.live_iff i).mpr ⟨v, hv, hvi⟩
      dsimp only at hlive
      rw [hclear] at hlive
      cases hlive

/-- A live variable with the number of a fixed area is that area. -/
theorem Mapper.Inv.eq_fixed {f u : ℕ} (h : t.Inv) (hf : f ∈ t.vars.fixedwsList)
    (hn : (t.vars.node f).varNum = some n) (hu : u ∈ t.lives)
    (hun : (t.vars.node u).varNum = some n) : u = f := by
  obtain ⟨htag, hnum⟩ := h.fixed f hf
  obtain ⟨-, hlist⟩ := hnum n hn
  obtain ⟨m, -, hum, hor⟩ := h.kept.numbered u hu
  obtain rfl := Option.some.inj (hun.symm.trans hum)
  rw [hlist] at hor
  rcases hor with heq | htemp
  · exact heq.symm
  · rw [htag] at htemp
    cases htemp

theorem Mapper.Inv.sound_allocFixedws {slot size : ℤ} {new : ℕ} (h : t.Inv) (hc : t.vars.New new)
    (heq : (VarCall.allocFixedws slot size new).apply t = some t') :
    (VarCall.allocFixedws slot size new).Sound t t' := by
  obtain ⟨hnone, -⟩ := hc
  rw [VarCall.apply, Occ21.allocFixedws] at heq
  cases hfind : t.vars.fixedwsList.find? (t.vars.fits slot size) with
  | none =>
    simp only [hfind, Option.map_map] at heq
    obtain ⟨s', hs, rfl⟩ := Option.map_eq_some_iff.mp heq
    let node' := Function.update t.vars.node new ⟨.reservedws, size, size, none, none⟩
    have hnew : node' new = ⟨.reservedws, size, size, none, none⟩ := Function.update_self new _ _
    have hinv := h.renode node' (new :: t.vars.fixedwsList)
      (fun u n hu => by
        have hne : u ≠ new := by
          rintro rfl
          rw [hnone] at hu
          cases hu
        rw [show node' u = t.vars.node u from Function.update_of_ne hne _ _]
        exact ⟨hu, rfl⟩)
      (fun f hf => by
        by_cases hfn : f = new
        · rw [hfn, hnew]
          exact ⟨rfl, fun n hn => by cases hn⟩
        · rw [show node' f = t.vars.node f from Function.update_of_ne hfn _ _]
          have hmem := (List.mem_cons.mp hf).resolve_left hfn
          exact ⟨(h.fixed f hmem).1, fun n hn => ⟨hn, hmem⟩⟩)
    have hsound := hinv.sound_created (congrArg VarNode.varNum hnew) hs
      (.allocFixedws slot size new) fun _ _ h => h
    exact (hsound.of_map (t := t) rfl fun _ _ _ h => h).offset new (some slot)
  | some f =>
    have hmem := List.mem_of_find?_eq_some hfind
    have hprop := List.find?_some hfind
    simp only [hfind] at heq
    cases hf : (t.vars.node f).varNum with
    | none =>
      simp only [hf, Option.map_map] at heq
      obtain ⟨s', hs, rfl⟩ := Option.map_eq_some_iff.mp heq
      exact (h.sound_created hf hs (.allocFixedws slot size new) fun _ _ h => h).offset f
        (some slot)
    | some n =>
      have hr : t.vars.inRange n = true := by
        rw [Vars.fits, hf, Bool.and_eq_true] at hprop
        exact hprop.2
      obtain ⟨hlt, hlist⟩ := (h.fixed f hmem).2 n hf
      obtain ⟨s', hs, hrev⟩ := resurrectVar_spec h.sized hf hlt
      simp only [hf, hs, Option.map_some, Option.some_inj] at heq
      subst heq
      have hsound := h.sound_revived hrev hf hr (Or.inl hlist)
        (fun v hv hvn => h.eq_fixed hmem hf hv hvn) (.allocFixedws slot size new) fun _ _ h => h
      exact hsound.offset f (some slot)

/-! ## Scopes and ranges -/

/-- A row that comes back has all its bits, also if there is more room now. -/
theorem testbit_restoreScope {varrow : ℕ} {row : ℕ → BitVec (2 ^ 5)} (h : s.Sized)
    (hrow : ∀ n ≥ 32 * varrow, testbit row n = false) (n : ℕ) :
    testbit (restoreScope varrow row s).liveVar n = testbit row n := by
  have hmax := h.maxvar_eq
  rw [testbit_eq, restoreScope]
  dsimp only
  split_ifs with hlow hmid
  · rw [testbit_eq]
  · rw [hrow n (by omega)]
    exact BitVec.getLsbD_zero
  · rw [hrow n (by omega), ← testbit_eq, h.live_behind n (by omega)]

theorem Mapper.Inv.sound_restoreScope (h : t.Inv)
    (heq : VarCall.restoreScope.apply t = some t') : VarCall.restoreScope.Sound t t' := by
  rw [VarCall.apply] at heq
  split at heq
  case h_2 => cases heq
  case h_1 varrow row lives frames hframes =>
    rw [Option.some_inj] at heq
    subst heq
    have hkept := h.frames
    have hcur := h.kept
    rw [hframes] at hkept
    obtain ⟨⟨hle, hbehind⟩, hlives, hrest⟩ := hkept
    have hrow := testbit_restoreScope h.sized hbehind
    have hext : Vars.Extends t.vars.numVar t.vars (Occ21.restoreScope varrow row t.vars) :=
      ⟨le_rfl, fun _ _ _ hv => hv, fun _ _ => rfl, fun _ _ ht => ht, fun _ _ hij => hij⟩
    refine VarCall.sound_of_map ⟨⟨h.sized.maxvar_pow, h.sized.maxvar_eq, h.sized.base_le,
      h.sized.num_le, fun n hn => ?_, h.sized.map_behind⟩, h.listed, h.fixed,
      (hlives.extends hext).congr_row hrow, hrest.extends h.sized.base_le hext le_rfl⟩ rfl
      fun _ _ h => h
    have hmax := h.sized.maxvar_eq
    have hn' : t.vars.maxvar ≤ n := hn
    rw [hmax] at hn'
    exact (hrow n).trans (hbehind n (by omega))

theorem Mapper.Inv.sound_saveScope (h : t.Inv) (heq : VarCall.saveScope.apply t = some t') :
    VarCall.saveScope.Sound t t' := by
  rw [VarCall.apply, Option.some_inj] at heq
  subst heq
  refine VarCall.sound_of_map ⟨h.sized, h.listed, h.fixed, h.kept, ⟨le_rfl, fun n hn => ?_⟩,
    h.kept, h.frames⟩ rfl fun _ _ h => h
  rw [← h.sized.maxvar_eq] at hn
  exact h.sized.live_behind n hn

theorem Mapper.Inv.sound_enterRange (h : t.Inv) (heq : VarCall.enterRange.apply t = some t') :
    VarCall.enterRange.Sound t t' := by
  rw [VarCall.apply, Option.some_inj] at heq
  subst heq
  have hext : Vars.Extends t.vars.numVar t.vars { t.vars with varBase := t.vars.numVar } :=
    ⟨le_rfl, fun _ _ _ hv => hv, fun _ _ => rfl, fun _ _ ht => ht, fun _ _ hij => hij⟩
  exact VarCall.sound_of_map ⟨⟨h.sized.maxvar_pow, h.sized.maxvar_eq, le_rfl, h.sized.num_le,
    h.sized.live_behind, h.sized.map_behind⟩, h.listed, h.fixed,
    (h.kept.extends hext).cons t.vars.numVar, h.sized.base_le,
    h.frames.extends h.sized.base_le hext le_rfl⟩ rfl fun _ _ h => h

theorem Mapper.Inv.sound_leaveRange (h : t.Inv) (hc : VarCall.leaveRange.Orderly t)
    (heq : VarCall.leaveRange.apply t = some t') : VarCall.leaveRange.Sound t t' := by
  rw [VarCall.apply] at heq
  split at heq
  case h_2 => cases heq
  case h_1 base frames hframes =>
    rw [Option.some_inj] at heq
    subst heq
    obtain ⟨node', hfree, hnode'⟩ := freeFixedwslist_spec t.vars
    have hframe := h.frames
    have hkept := h.kept
    rw [hframes] at hframe hkept
    obtain ⟨hbase, hrest⟩ := hframe
    have hbn := h.sized.base_le
    -- a name with a number below the range has not been freed
    have hlow : ∀ u n, n < t.vars.varBase → (t.vars.node u).varNum = some n →
        node' u = t.vars.node u := by
      intro u n hn hun
      rw [hnode', if_neg fun hmem => ?_]
      obtain ⟨i, hi, rfl⟩ := List.mem_map.mp hmem
      rw [List.mem_range'_1] at hi
      have := Option.some.inj ((h.listed i (by omega)).symm.trans hun)
      omega
    have htag : ∀ u, (node' u).tag = (t.vars.node u).tag := by
      intro u
      rw [hnode', VarNode.released]
      split_ifs <;> rfl
    have hext : Vars.Extends t.vars.varBase t.vars
        { freeFixedwslist t.vars with numVar := t.vars.varBase, varBase := base } := by
      rw [hfree]
      refine ⟨le_rfl, fun u n hn hun => ?_, fun _ _ => rfl, fun n _ ht => ?_, fun _ _ hij => hij⟩
      · show (node' u).varNum = some n
        rw [hlow u n hn hun, hun]
      · show (node' _).tag.isTemp = true
        rw [htag, ht]
    have hfree' : freeFixedwslist t.vars = { t.vars with node := node' } := hfree
    have hkept' := (hkept.leave hc.2).extends hext
    have hframes' := hrest.extends hbase hext le_rfl
    rw [hfree'] at hkept' hframes' ⊢
    refine VarCall.sound_of_map ⟨⟨h.sized.maxvar_pow, h.sized.maxvar_eq, hbase,
      hbn.trans h.sized.num_le, h.sized.live_behind, h.sized.map_behind⟩, fun n hn => ?_,
      fun f hf => ⟨(htag f).trans (h.fixed f hf).1, fun n hn => ?_⟩, hkept', hframes'⟩ rfl
      fun _ _ h => h
    · have hn' : n < t.vars.varBase := hn
      have hlisted := h.listed n (hn'.trans_le hbn)
      show (node' _).varNum = some n
      rw [hlow _ n hn' hlisted, hlisted]
    · obtain ⟨hftag, hnum⟩ := h.fixed f hf
      have hn' : (node' f).varNum = some n := hn
      by_cases hmem : f ∈ (List.range' t.vars.varBase (t.vars.numVar - t.vars.varBase)).map
          t.vars.varList
      · rw [hnode', if_pos hmem, VarNode.released, if_pos hftag] at hn'
        cases hn'
      · rw [hnode', if_neg hmem] at hn'
        obtain ⟨hlt, hlist⟩ := hnum n hn'
        refine ⟨?_, hlist⟩
        by_contra hge
        have hge' : t.vars.varBase ≤ n := not_lt.mp hge
        refine hmem (List.mem_map.mpr ⟨n, ?_, hlist⟩)
        rw [List.mem_range'_1]
        omega

/-- **A call that is in order** keeps the invariant and sets the bits that it should. -/
theorem Mapper.Inv.sound {c : VarCall} (h : t.Inv) (hc : c.Orderly t) (heq : c.apply t = some t') :
    c.Sound t t' := by
  cases c with
  | createVar u =>
    obtain ⟨s', hs, rfl⟩ := Option.map_eq_some_iff.mp heq
    exact h.sound_created hc.1 hs _ fun _ _ h => h
  | killVar u => exact h.sound_killVar hc heq
  | resurrectVar u => exact h.sound_resurrectVar hc heq
  | createImmortalvar u =>
    obtain ⟨s', hs, rfl⟩ := Option.map_eq_some_iff.mp heq
    exact h.sound_createImmortalvar hc.1 hs
  | saveScope => exact h.sound_saveScope heq
  | restoreScope => exact h.sound_restoreScope heq
  | allocFixedws slot size new => exact h.sound_allocFixedws hc heq
  | alloctemp u => exact h.sound_alloctemp hc heq
  | enterRange => exact h.sound_enterRange heq
  | leaveRange => exact h.sound_leaveRange hc heq

end Occ21

end Kroc
