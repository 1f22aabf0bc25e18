import Kroc.Ccsp.BarrierComplete

/-!
# Ccsp/BarrierCalls — the calls of a full barrier

`bar_sync`, `bar_enroll` and `bar_resign` from a barrier in order to a barrier in order.
-/

namespace Kroc

namespace Ccsp

open Function (update)

open Run (HasLayout withSched Untouched)

/-! ## The state word -/

section StateWord

variable {c d tag x : Word}

theorem Word.or_zero (x : Word) : x ||| 0 = x := BitVec.or_zero

theorem barState_toNat (hc : c.toNat < 2 ^ 29) (ht : tag.toNat < 4) :
    (barState c tag 0).toNat = tag.toNat * 2 ^ 29 + c.toNat := by
  have hshift : (tag <<< 29).toNat = tag.toNat <<< 29 := by
    rw [BitVec.toNat_shiftLeft, Nat.mod_eq_of_lt]
    rw [Nat.shiftLeft_eq]
    omega
  rw [barState, Word.or_zero, BitVec.toNat_or, hshift, Nat.or_comm,
    ← Nat.shiftLeft_add_eq_or_of_lt hc, Nat.shiftLeft_eq]

theorem barState_syncing_toNat (hc : c.toNat < 2 ^ 29) (ht : tag.toNat < 4) :
    (barState c tag barSyncing).toNat = 2 ^ 31 + (tag.toNat * 2 ^ 29 + c.toNat) := by
  have hor : barState c tag barSyncing = barState c tag 0 ||| barSyncing := by
    rw [barState, barState, Word.or_zero]
  have hlt : tag.toNat * 2 ^ 29 + c.toNat < 2 ^ 31 := by omega
  rw [hor, BitVec.toNat_or, barState_toNat hc ht, Nat.or_comm,
    show barSyncing.toNat = 1 <<< 31 from rfl, ← Nat.shiftLeft_add_eq_or_of_lt hlt]
  rfl

theorem barCount_toNat (x : Word) : (barCount x).toNat = x.toNat % 2 ^ 29 := by
  rw [barCount, BitVec.toNat_and, show barCountMask.toNat = 2 ^ 29 - 1 from rfl,
    Nat.and_two_pow_sub_one_eq_mod]

theorem barTag_toNat (x : Word) : (barTag x).toNat = x.toNat / 2 ^ 29 % 4 := by
  rw [barTag, BitVec.toNat_and, BitVec.toNat_ushiftRight, Nat.shiftRight_eq_div_pow,
    show (3 : Word).toNat = 2 ^ 2 - 1 from rfl, Nat.and_two_pow_sub_one_eq_mod]

theorem barNextTag_lt (tag : Word) : (barNextTag tag).toNat < 4 := by
  rw [barNextTag, BitVec.toNat_and, show (3 : Word).toNat = 2 ^ 2 - 1 from rfl,
    Nat.and_two_pow_sub_one_eq_mod]
  exact Nat.mod_lt _ (by decide)

theorem barCount_barState (hc : c.toNat < 2 ^ 29) (ht : tag.toNat < 4) :
    barCount (barState c tag 0) = c := by
  apply BitVec.eq_of_toNat_eq
  rw [barCount_toNat, barState_toNat hc ht]
  omega

theorem barTag_barState (hc : c.toNat < 2 ^ 29) (ht : tag.toNat < 4) :
    barTag (barState c tag 0) = tag := by
  apply BitVec.eq_of_toNat_eq
  rw [barTag_toNat, barState_toNat hc ht]
  omega

/-- Outside completion the syncing bit is not set. -/
theorem barState_and_syncing (hc : c.toNat < 2 ^ 29) (ht : tag.toNat < 4) :
    barState c tag 0 &&& barSyncing = 0 := by
  have hlt : (barState c tag 0).toNat < 2 ^ 31 := by
    rw [barState_toNat hc ht]
    omega
  have hbit : (barState c tag 0).getLsbD 31 = false := Nat.testBit_lt_two_pow hlt
  rw [show barSyncing = BitVec.twoPow 32 31 by decide, BitVec.and_twoPow, hbit]
  rfl

/-- **What is left of the state word without its tag** is the count. -/
theorem barState_and_not_tag (hc : c.toNat < 2 ^ 29) (ht : tag.toNat < 4) :
    barState c tag 0 &&& ~~~barTagMask = c := by
  rw [show ~~~barTagMask = barCountMask ||| barSyncing by decide, BitVec.and_or_distrib_left,
    barState_and_syncing hc ht, Word.or_zero]
  exact barCount_barState hc ht

theorem barState_add (hc : c.toNat + d.toNat < 2 ^ 29) (ht : tag.toNat < 4) :
    barState c tag 0 + d = barState (c + d) tag 0 := by
  have hsum : (c + d).toNat = c.toNat + d.toNat := by
    rw [BitVec.toNat_add, Nat.mod_eq_of_lt (by omega)]
  apply BitVec.eq_of_toNat_eq
  rw [BitVec.toNat_add, barState_toNat (by omega) ht, barState_toNat (by omega) ht, hsum]
  omega

/-- **The count while completing** is one too many. -/
theorem barCount_completed (hc : c.toNat + 1 < 2 ^ 29) (ht : tag.toNat < 4) :
    barCount (barState 1 tag barSyncing + c) - 1 = c := by
  have hone : (1 : Word).toNat = 1 := rfl
  have hcount : (barCount (barState 1 tag barSyncing + c)).toNat = c.toNat + 1 := by
    rw [barCount_toNat, BitVec.toNat_add, barState_syncing_toNat (by rw [hone]; decide) ht, hone]
    omega
  apply BitVec.eq_of_toNat_eq
  rw [BitVec.toNat_sub, hcount, hone]
  omega

end StateWord

/-! ## Completion -/

variable {r : Run} {L : Layout} {m m' : BarMem} {head : BatchPtr} {q : List BatchPtr}
  {procs : BatchPtr → List Wptr} {W : List Wptr} {w : Wptr} {n : ℕ} {tag : Word}

/-- **The processes `W` wait**: nobody and no head, or a head that holds them. -/
inductive Waits (r : Run) (m : BarMem) : List Wptr → Prop
  | nobody {L : Layout} : (r.withSched m.sched).HasLayout L → m.bar.heads = 0 →
      m.bar.head m.index = .null → Waits r m []
  | held {L : Layout} {head : BatchPtr} {tag : Word} {q : List BatchPtr}
      {procs : BatchPtr → List Wptr} {W : List Wptr} : HeadInv r L m head q procs W → q ≠ [] →
      m.bar.heads = m.sched.id → m.bar.head m.index = ⟨head, tag⟩ →
      (m.barHead head).count = BitVec.ofNat 32 W.length → Waits r m W

/-- The scheduler of the run does not count. -/
theorem HeadInv.withSched (hi : HeadInv r L m head q procs W) (s : Sched) :
    HeadInv (r.withSched s) L m head q procs W :=
  ⟨{ hi.hanging with layout := hi.hanging.layout }, hi.indexed⟩

theorem Waits.withSched (h : Waits r m W) (s : Sched) : Waits (r.withSched s) m W := by
  cases h with
  | nobody hL hheads hword => exact .nobody hL hheads hword
  | held hi hq hheads hword hcount => exact .held (hi.withSched s) hq hheads hword hcount

/-- The state word of the barrier does not count. -/
theorem Waits.setState (h : Waits r m W) (state : Word) : Waits r (m.setState state) W := by
  cases h with
  | nobody hL hheads hword => exact .nobody hL hheads hword
  | held hi hq hheads hword hcount =>
    exact .held ⟨hi.hanging, hi.indexed⟩ hq hheads hword hcount

/-- What a call leaves alone. -/
structure Called (m m' : BarMem) : Prop where
  index : m'.index = m.index
  id : m'.sched.id = m.sched.id
  pure : (∀ p ∈ m.pushed, p.Pure) → ∀ p ∈ m'.pushed, p.Pure

theorem Called.trans {m'' : BarMem} (h : Called m m') (h' : Called m' m'') : Called m m'' :=
  ⟨h'.index.trans h.index, h'.id.trans h.id, fun hp => h'.pure (h.pure hp)⟩

/-- **`bar_complete`** releases the processes of the head, and they are what the state counts. -/
theorem HeadInv.barComplete (hi : HeadInv r L m head q procs W) (hq : q ≠ [])
    (hheads : m.bar.heads = m.sched.id) (hid : m.sched.id ≠ 0)
    (hword : (m.bar.head m.index).ptr = head)
    (hcount : (m.barHead head).count = BitVec.ofNat 32 W.length)
    (hstate : m.bar.state = barState 1 tag barSyncing) (ht : tag.toNat < 4)
    (hW : W.length + 1 < 2 ^ 29) (hst : r.stale = false) :
    ∃ m', (∀ fuel n, W.length ≤ fuel → m.barComplete fuel (n + 1) tag = some m') ∧ Called m m' ∧
      m'.bar.state = barState (BitVec.ofNat 32 W.length) tag 0 ∧
      Waits (r.released m'.sched W) m' [] := by
  have hlen : (BitVec.ofNat 32 W.length).toNat = W.length := by
    rw [BitVec.toNat_ofNat]
    omega
  have hown : HeadInv r L { m with bar := { m.bar with heads := 0 } } head q procs W :=
    ⟨hi.hanging, hi.indexed⟩
  obtain ⟨m₁, hm₁, hdone, L', hL'⟩ := hown.barCompleteHead hq hst
  have hbar : m₁.bar = { m.bar with
      state := barState 1 tag barSyncing + BitVec.ofNat 32 W.length
      heads := 0 } := by
    rw [hdone.bar, ← hstate, ← hcount]
    rfl
  have hself : m.bar.heads &&& m.sched.id ≠ 0 := by rwa [hheads, BitVec.and_self]
  have hothers : m.bar.heads &&& ~~~m.sched.id = 0 := by
    rw [hheads]
    simp
  refine ⟨(m₁.setHeadWord .null).setState (barState (barCount m₁.bar.state - 1) tag 0),
    fun fuel n hf => ?_, ⟨hdone.index, hdone.id, hdone.pure⟩, ?_, .nobody hL' ?_ ?_⟩
  · rw [BarMem.barComplete]
    dsimp only
    rw [if_pos hself, if_neg (not_not.mpr hothers), hword, hm₁ fuel hf, Option.map_some,
      Option.bind_some,
      if_neg fun h => h.2 (by simp [BarMem.setHeadWord, hbar])]
    rfl
  · show barState (barCount m₁.bar.state - 1) tag 0 = _
    rw [hbar, barCount_completed (by rwa [hlen]) ht]
  · simp [BarMem.setState, BarMem.setHeadWord, hbar]
  · simp [BarMem.setState, BarMem.setHeadWord]

/-! ## Between calls -/

/-- **The barrier in order**, with `e` enrolled processes, of which `W` wait. -/
structure InOrder (r : Run) (m : BarMem) (e : ℕ) (W : List Wptr) : Prop where
  waits : Waits r m W
  state : ∃ tag : Word, tag.toNat < 4 ∧
    m.bar.state = barState (BitVec.ofNat 32 (e - W.length)) tag 0
  lt : e + 1 < 2 ^ 29
  lt_or_nil : W = [] ∨ W.length < e
  id : m.sched.id ≠ 0

/-- The barrier after a call, which released the processes `W` if they are all. -/
def Settled (r : Run) (m : BarMem) (e : ℕ) (W : List Wptr) : Prop :=
  if W.length = e then InOrder (r.released m.sched W) m e []
    else InOrder (r.withSched m.sched) m e W

variable {e : ℕ}

theorem toNat_ofNat_of_lt {n : ℕ} (hn : n < 2 ^ 29) : (BitVec.ofNat 32 n).toNat = n := by
  rw [BitVec.toNat_ofNat]
  omega

theorem InOrder.length_le (h : InOrder r m e W) : W.length ≤ e := by
  rcases h.lt_or_nil with rfl | hlt
  · exact Nat.zero_le e
  · exact Nat.le_of_lt hlt

/-- **All have arrived**: the call of `bar_complete`, from a state word with the tag `t`. -/
theorem HeadInv.complete (hi : HeadInv r L m head q procs W) (hq : q ≠ [])
    (hheads : m.bar.heads = m.sched.id) (hid : m.sched.id ≠ 0)
    (hword : m.bar.head m.index = ⟨head, tag⟩)
    (hcount : (m.barHead head).count = BitVec.ofNat 32 W.length) (hW : W.length + 1 < 2 ^ 29)
    (t : Word) (hst : r.stale = false) :
    ∃ m', (∀ fuel, W.length ≤ fuel → (m.setState (barState 1 (barNextTag t) barSyncing)).barComplete
        (fuel + 1) (fuel + 1) (barNextTag t) = some m') ∧ Called m m' ∧
      InOrder (r.released m'.sched W) m' W.length [] := by
  have hown : HeadInv r L (m.setState (barState 1 (barNextTag t) barSyncing)) head q procs W :=
    ⟨hi.hanging, hi.indexed⟩
  obtain ⟨m', hm', hcalled, hstate', hwaits⟩ := hown.barComplete hq
    hheads hid (by simp [BarMem.setState, hword]) hcount rfl (barNextTag_lt t) hW hst
  exact ⟨m', fun fuel hf => hm' _ _ (Nat.le_succ_of_le hf),
    ⟨hcalled.index, hcalled.id, hcalled.pure⟩, hwaits,
    ⟨barNextTag t, barNextTag_lt t, hstate'⟩, hW, .inl rfl, by rwa [hcalled.id]⟩

/-- The end of `bar_sync`. -/
theorem HeadInv.barArrive (hi : HeadInv r L m head q procs W) (hq : q ≠ [])
    (hheads : m.bar.heads = m.sched.id) (hid : m.sched.id ≠ 0)
    (hword : m.bar.head m.index = ⟨head, tag⟩)
    (hcount : (m.barHead head).count = BitVec.ofNat 32 W.length) (hle : W.length ≤ e)
    (he : e + 1 < 2 ^ 29) {t : Word} (ht : t.toNat < 4)
    (hstate : m.bar.state = barState (BitVec.ofNat 32 (e - W.length + 1)) t 0)
    (hst : r.stale = false) :
    ∃ m', (∀ fuel, W.length ≤ fuel → m.barArrive (fuel + 1) = some m') ∧ Called m m' ∧
      Settled r m' e W := by
  have hW : W ≠ [] := fun hnil => by
    have := hi.hanging.length_le.1
    rw [hnil] at this
    exact hq (List.eq_nil_of_length_eq_zero (Nat.le_zero.mp this))
  have hpos := List.length_pos_iff.mpr hW
  have hc : (BitVec.ofNat 32 (e - W.length + 1)).toNat < 2 ^ 29 := by
    rw [toNat_ofNat_of_lt (by omega)]
    omega
  unfold BarMem.barArrive
  dsimp only
  rw [hstate, barState_and_not_tag hc ht, barTag_barState hc ht, barCount_barState hc ht,
    barState_and_syncing hc ht]
  by_cases hlast : W.length = e
  · have hone : BitVec.ofNat 32 (e - W.length + 1) = 1 := by
      rw [hlast, Nat.sub_self]
      rfl
    simp only [if_pos hone]
    obtain ⟨m', hm', hcalled, horder⟩ := hi.complete hq hheads hid hword hcount (by omega) t hst
    refine ⟨m', hm', hcalled, ?_⟩
    rw [Settled, if_pos hlast, ← hlast]
    exact horder
  · have hne : BitVec.ofNat 32 (e - W.length + 1) ≠ 1 := fun h => by
      have := congrArg BitVec.toNat h
      rw [toNat_ofNat_of_lt (by omega)] at this
      have hone : (1 : Word).toNat = 1 := rfl
      omega
    have hless : BitVec.ofNat 32 (e - W.length + 1) - 1 = BitVec.ofNat 32 (e - W.length) := by
      rw [BitVec.ofNat_add]
      exact BitVec.add_sub_cancel _ _
    simp only [if_neg hne, hless]
    refine ⟨_, fun _ _ => rfl, ⟨rfl, rfl, fun h => h⟩, ?_⟩
    rw [Settled, if_neg hlast]
    have hwaits : Waits r m W := .held hi hq hheads hword hcount
    exact ⟨(hwaits.setState _).withSched _, ⟨t, ht, rfl⟩, he, .inr (lt_of_le_of_ne hle hlast), hid⟩

/-- **`bar_enroll`** -/
theorem InOrder.barEnroll (h : InOrder r m e W) (hn : e + n + 1 < 2 ^ 29) :
    InOrder r (m.barEnroll (BitVec.ofNat 32 n)) (e + n) W := by
  obtain ⟨t, ht, hstate⟩ := h.state
  have hle : W.length ≤ e := h.length_le
  have hlt := h.lt
  refine ⟨h.waits.setState _, ⟨t, ht, ?_⟩, hn, h.lt_or_nil.imp_right fun hlt => by omega, h.id⟩
  have hsum : e + n - W.length = e - W.length + n := by omega
  show m.bar.state + BitVec.ofNat 32 n = _
  rw [hstate, barState_add _ ht, hsum, BitVec.ofNat_add]
  rw [toNat_ofNat_of_lt (by omega), toNat_ofNat_of_lt (by omega)]
  omega

/-- **`bar_resign`** -/
theorem InOrder.barResign (h : InOrder r m e W) (hn : n ≤ e - W.length) (hst : r.stale = false) :
    ∃ m', (∀ fuel, W.length ≤ fuel → m.barResign (fuel + 1) (BitVec.ofNat 32 n) = some m') ∧
      Called m m' ∧ Settled r m' (e - n) W := by
  obtain ⟨t, ht, hstate⟩ := h.state
  have hle : W.length ≤ e := h.length_le
  have hlt := h.lt
  have hc : (BitVec.ofNat 32 (e - W.length)).toNat < 2 ^ 29 := by
    rw [toNat_ofNat_of_lt (by omega)]
    omega
  unfold BarMem.barResign
  dsimp only
  rw [hstate, barState_and_not_tag hc ht, barTag_barState hc ht, barCount_barState hc ht,
    barState_and_syncing hc ht]
  by_cases hlast : n = e - W.length
  · have hall : BitVec.ofNat 32 (e - W.length) = BitVec.ofNat 32 n := by rw [hlast]
    simp only [if_pos hall]
    have heq : W.length = e - n := by omega
    rw [← heq]
    rcases h.waits with ⟨hL, hheads, hword⟩ | ⟨hi, hq, hheads, hword, hcount⟩
    · simp only [if_neg (not_not.mpr hheads)]
      refine ⟨_, fun _ _ => rfl, ⟨rfl, rfl, fun h => h⟩, ?_⟩
      rw [Settled, if_pos rfl, Run.released_nil]
      exact ⟨.nobody hL hheads hword, ⟨t, ht, rfl⟩, by decide, .inl rfl, h.id⟩
    · have hsome : m.bar.heads ≠ 0 := by
        rw [hheads]
        exact h.id
      simp only [if_pos hsome]
      obtain ⟨m', hm', hcalled, horder⟩ := hi.complete hq hheads h.id hword hcount (by omega) t hst
      refine ⟨m', hm', hcalled, ?_⟩
      rw [Settled, if_pos rfl]
      exact horder
  · have hne : BitVec.ofNat 32 (e - W.length) ≠ BitVec.ofNat 32 n := fun heq => by
      have := congrArg BitVec.toNat heq
      rw [toNat_ofNat_of_lt (by omega), toNat_ofNat_of_lt (by omega)] at this
      omega
    have hless : BitVec.ofNat 32 (e - W.length) - BitVec.ofNat 32 n =
        BitVec.ofNat 32 (e - n - W.length) := by
      have hsum : e - W.length = e - n - W.length + n := by omega
      rw [hsum, BitVec.ofNat_add]
      exact BitVec.add_sub_cancel _ _
    simp only [if_neg hne, hless]
    refine ⟨_, fun _ _ => rfl, ⟨rfl, rfl, fun h => h⟩, ?_⟩
    rw [Settled, if_neg (by omega)]
    exact ⟨(h.waits.setState _).withSched _, ⟨t, ht, rfl⟩, by omega, .inr (by omega), h.id⟩

/-! ## `bar_sync` -/

/-- The priofinity of a process that is nowhere is saved, whatever hangs from the head. -/
theorem HeadInv.savePriofinity (hi : HeadInv r L m head q procs W) (hw : w ∉ W)
    (haway : L.place w = .away) : HeadInv r L (m.savePriofinity w) head q procs W := by
  have hne : ∀ v ∈ W, v ≠ w := fun v hv e => hw (e ▸ hv)
  have hwrites : Writes (insert head q.toFinset) (insert w W.toFinset) m.sched
      (m.savePriofinity w).sched := {
    same := rfl
    batch := fun _ _ => rfl
    next := fun _ _ => rfl
    state := fun _ _ => rfl
    link := fun _ _ => rfl
    prio := fun v hv => Function.update_of_ne (fun e => hv (by simp [e])) .. }
  have hout : Outside (insert head q.toFinset) (insert w W.toFinset) m.sched L := by
    refine ⟨hi.hanging.outside.lt, hi.hanging.outside.unused, fun v hv => ?_⟩
    rcases Finset.mem_insert.mp hv with rfl | hv
    · exact haway
    · exact hi.hanging.outside.away v hv
  obtain ⟨hlayout, hout'⟩ := hwrites.hasLayout hi.hanging.layout hout
  have hprio : ∀ v ∈ W, (m.savePriofinity w).sched.prio v = m.sched.prio v := fun v hv =>
    Function.update_of_ne (hne v hv) ..
  refine ⟨{ hi.hanging with
    layout := hlayout
    outside := hout'.mono (Finset.Subset.refl _) (Finset.subset_insert _ _)
    sorted := fun x hx => ?_
    runnable := fun v hv => ?_ }, hi.indexed⟩
  · refine (hi.hanging.sorted x hx).imp_left fun ⟨hc, hp⟩ => ⟨hc, fun v hv => ?_⟩
    rw [hprio v (hi.hanging.mem hx hv)]
    exact hp v hv
  · rw [hprio v hv]
    exact hi.hanging.runnable v hv

/-- **A head is allocated**, with nothing on it. -/
theorem allocateBarHead_headInv (h : (r.withSched m.sched).HasLayout L) (t : Word) :
    ∃ L', HeadInv r L' (m.allocateBarHead t).2 (m.allocateBarHead t).1 [] (fun _ => []) [] := by
  obtain ⟨L', hlayout, hout, -, hpos, -, -, -⟩ :=
    Run.HasLayout.allocate_outside h (K := ∅) (W := ∅) ⟨by simp, by simp, by simp⟩
  have hempty : insert (m.allocateBarHead t).1 (∅ : Finset BatchPtr) =
    insert (m.allocateBarHead t).1 [].toFinset := by simp
  refine ⟨L', ⟨{
    layout := hlayout
    outside := hempty ▸ hout
    pos := hpos
    notMem := List.not_mem_nil
    chain := ?_
    holds := by simp
    nonempty := by simp
    sorted := by simp
    perm := .refl _
    nodup := .nil
    workspace := by simp
    runnable := by simp }, ?_⟩⟩
  · refine ⟨?_, by simp⟩
    simp [BarMem.allocateBarHead, BarMem.setHead, BarMem.setHeadWord, BarHead.init, Linked]
  · refine ⟨.inl ?_, .inl ?_, fun c => .inl ?_, by simp⟩ <;>
      simp [BarMem.allocateBarHead, BarMem.setHead, BarMem.setHeadWord, BarHead.init]

/-- What the start of `bar_sync` finds: a head, with `W` on it. -/
structure Found (r : Run) (m m' : BarMem) (head : BatchPtr) (hdata : Bool) (w : Wptr)
    (W : List Wptr) : Prop where
  inv : ∃ L q procs, HeadInv r L m' head q procs W ∧ (hdata = true ↔ q ≠ []) ∧ Arriving m' L w W
  heads : m'.bar.heads = m'.sched.id
  word : ∃ tag, m'.bar.head m'.index = ⟨head, tag⟩
  count : (m'.barHead head).count = BitVec.ofNat 32 W.length
  state : m'.bar.state = m.bar.state
  called : Called m m'

theorem InOrder.barFindHead (h : InOrder r m e W) (hws : IsWorkspace w)
    (hnew : r.enqueued w = false) (hw : w ∉ W) (hrun : Runnable m.sched.id m.sched.priofinity) :
    ∃ head hdata m', (∀ fuel, (m.savePriofinity w).barFindHead fuel = some (head, hdata, m')) ∧
      Found r m m' head hdata w W := by
  obtain ⟨t, ht, hstate⟩ := h.state
  have hlt := h.lt
  have hsync : m.bar.state &&& barSyncing = 0 := by
    rw [hstate]
    refine barState_and_syncing ?_ ht
    rw [toNat_ofNat_of_lt (by omega)]
    omega
  have hfind : ∀ fuel, (m.savePriofinity w).barFindHead fuel =
      if m.bar.head m.index = .null then
        some (((m.savePriofinity w).allocateBarHead m.bar.state).1, false,
          ((m.savePriofinity w).allocateBarHead m.bar.state).2)
      else some ((m.bar.head m.index).ptr, true, m.savePriofinity w) := fun fuel => by
    unfold BarMem.barFindHead
    dsimp only
    rw [show (m.savePriofinity w).bar.state = m.bar.state from rfl,
      if_neg (not_not.mpr hsync)]
    rfl
  rcases h.waits with ⟨hL, hheads, hword⟩ | ⟨hi, hq, hheads, hword, hcount⟩
  · simp only [hfind, if_pos hword]
    have hwrites : Writes ∅ {w} m.sched (m.savePriofinity w).sched := {
      same := rfl
      batch := fun _ _ => rfl
      next := fun _ _ => rfl
      state := fun _ _ => rfl
      link := fun _ _ => rfl
      prio := fun v hv => Function.update_of_ne (fun e => hv (by simp [e])) .. }
    have haway := hL.away (w := w) hnew
    obtain ⟨hlayout, -⟩ := hwrites.hasLayout hL ⟨by simp, by simp, by simpa using haway⟩
    obtain ⟨L', hi⟩ := allocateBarHead_headInv hlayout m.bar.state
    obtain ⟨-, -, -, -, -, hsame⟩ := hlayout.inv.allocateBatch
    have hsame : SameSched (m.savePriofinity w).sched (m.savePriofinity w).allocateBatch.2.sched :=
      hsame
    refine ⟨_, _, _, fun _ => rfl,
      ⟨L', [], _, hi, by simp, hws, hw, hi.hanging.layout.away hnew, ?_, ?_⟩, ?_,
      ⟨barTag m.bar.state, ?_⟩, ?_, rfl, ⟨rfl, hsame.id, fun h => h⟩⟩
    · show (m.savePriofinity w).allocateBatch.2.sched.prio w =
        (m.savePriofinity w).allocateBatch.2.sched.priofinity
      rw [hsame.prio, hsame.priofinity]
      exact Function.update_self ..
    · show Runnable (m.savePriofinity w).allocateBatch.2.sched.id
        (m.savePriofinity w).allocateBatch.2.sched.priofinity
      rw [hsame.id, hsame.priofinity]
      exact hrun
    · show m.bar.heads ||| _ = _
      rw [hheads]
      exact BitVec.zero_or
    · exact Function.update_self ..
    · simp [BarMem.allocateBarHead, BarMem.setHead, BarMem.setHeadWord, BarHead.init]
  · rename_i L head tag q procs
    have hnull : m.bar.head m.index ≠ .null := fun e => hi.hanging.pos (by
      rw [hword] at e
      exact congrArg HeadWord.ptr e)
    have haway := hi.hanging.layout.away (w := w) hnew
    simp only [hfind, if_neg hnull]
    rw [hword]
    exact ⟨head, true, _, fun _ => rfl,
      ⟨L, q, procs, hi.savePriofinity hw haway, by simpa using hq, hws, hw, haway,
        Function.update_self .., hrun⟩,
      hheads, ⟨tag, hword⟩, hcount, rfl, rfl, rfl, fun h => h⟩

/-- **`bar_sync`** -/
theorem InOrder.barSync (h : InOrder r m e W) (hst : r.stale = false) (hws : IsWorkspace w)
    (hnew : r.enqueued w = false) (hw : w ∉ W) (hlt : W.length < e)
    (hrun : Runnable m.sched.id m.sched.priofinity) :
    ∃ m', (∀ fuel, W.length + 1 ≤ fuel → m.barSync (fuel + 1) w = some m') ∧ Called m m' ∧
      Settled r m' e (w :: W) := by
  obtain ⟨t, ht, hstate⟩ := h.state
  obtain ⟨head, hdata, m₁, hfind, ⟨L, q, procs, hi, hdata_iff, harr⟩, hheads, ⟨tag, hword⟩, hcount,
    hst₁, hcalled₁⟩ := h.barFindHead hws hnew hw hrun
  have hone : HeadInv r L (m₁.setHead head
      { m₁.barHead head with count := (m₁.barHead head).count + 1 }) head q procs W :=
    hi.setHead rfl rfl ⟨hi.indexed.affine, hi.indexed.current, hi.indexed.prio, hi.indexed.entry⟩
  unfold BarMem.barSync
  simp only [hfind, Option.bind_some]
  generalize ((barCount (m.savePriofinity w).bar.state + (m₁.barHead head).count) >>> 3) |||
    ((barCount (m.savePriofinity w).bar.state + (m₁.barHead head).count) &&& 0xf) = bsize
  obtain ⟨hkept, L', q', procs', hq', hi'⟩ := hone.barPlace bsize
    ⟨harr.workspace, harr.new, harr.away, harr.saved, harr.runnable⟩ hdata_iff
  have hsum : BitVec.ofNat 32 W.length + 1 = BitVec.ofNat 32 (w :: W).length := by
    rw [List.length_cons, BitVec.ofNat_add]
    rfl
  have hleft : e - W.length = e - (w :: W).length + 1 := by
    rw [List.length_cons]
    omega
  obtain ⟨m', hm', hcalled, hsettled⟩ := hi'.barArrive (e := e) hq'
    (by rw [hkept.bar, hkept.id]; exact hheads)
    (by rw [hkept.id]; exact hcalled₁.id ▸ h.id)
    (by rw [hkept.bar, hkept.index]; exact hword)
    (by rw [hkept.count, ← hsum, ← hcount]; simp [BarMem.setHead])
    (by simpa using hlt) h.lt ht
    (by rw [hkept.bar, ← hleft, ← hstate]; exact hst₁) hst
  exact ⟨m', hm', hcalled₁.trans ⟨hcalled.index.trans hkept.index, hcalled.id.trans hkept.id,
    fun hp => hcalled.pure (by rw [hkept.pushed]; exact hp)⟩, hsettled⟩

end Ccsp

end Kroc
