import Kroc.Ccsp.AltLedger

/-!
# Ccsp/AltSteps — every operation of an ALT keeps the count

One lemma for each operation of the ALTer, in the order of the kernel calls, and one for each
operation of a party.  Most operations of the ALTer touch neither guards nor state word
(`Sys.Inv.same`); the others are named by what they do to the set of the guards that refer to it.
-/

open FlaggedCount

namespace Kroc

namespace Ccsp

namespace Alt

variable {s : Sys} {O V : Finset Guard} {n v : ℕ} {f : Word} {c : ℕ}

/-! ## Enabling -/

theorem busy_enabling : Pc.enabling.Busy := ⟨trivial, Pc.noConfusion⟩

theorem busy_disabling : Pc.disabling.Busy := ⟨trivial, Pc.noConfusion⟩

/-- **The start of an ALT**: no guard refers to the ALTer, which counts itself. -/
theorem inv_alt (h : s.Inv) (hpc : s.pc = .idle) : s.alt.Inv := by
  obtain ⟨O, V, f, c, hR, hC⟩ := h
  refine ⟨O, V, altEnabling ||| altNotReady, 1, hR.move rfl rfl rfl (by rw [hpc]; rfl) trivial, ?_⟩
  have hO := hC.idle hpc
  have hwakes := hC.wakes
  have hstage := hC.stage
  rw [hpc] at hwakes
  refine ⟨fun _ => rfl, fun _ => by rw [hO]; rfl, by decide, fun _ => .inl rfl, fun hi => ?_,
    fun _ _ => hO, hwakes, ?_⟩
  · exact Pc.noConfusion hi
  · rw [Sys.stage_of_running (by rw [hpc]; trivial)] at hstage
    exact hstage

/-- With timeouts nothing is on the timer queue yet. -/
theorem inv_talt (h : s.Inv) (hpc : s.pc = .idle) : s.talt.Inv := by
  have h' := inv_alt h hpc
  exact h'.same ⟨rfl, rfl, rfl, rfl, rfl, rfl, rfl⟩ busy_enabling busy_enabling rfl rfl trivial
    fun _ _ _ _ hC => hC.flags Pc.noConfusion

/-- A guard that is ready has changed nothing yet. -/
theorem inv_ready (h : s.Inv) (hs : s.pc.Busy) (hown : s.pc.own = 1)
    (hrestoring : s.pc.restoring = none)
    (hflags : ∀ f, s.pc.Flags s.state f → Pc.enabling.Flags s.state f) (form : Form) :
    (s.ready form).Inv := by
  cases form <;>
    exact h.same ⟨rfl, rfl, rfl, rfl, rfl, rfl, rfl⟩ hs ⟨trivial, Pc.noConfusion⟩ hown.symm
      hrestoring.symm trivial fun _ _ _ _ hC => hflags _ (hC.flags hs.2)

theorem inv_ready_of_enabling (h : s.Inv) (hpc : s.pc = .enabling) (form : Form) :
    (s.ready form).Inv :=
  inv_ready h (hpc ▸ busy_enabling) (by rw [hpc]; rfl) (by rw [hpc]; rfl)
    (fun f hf => by rwa [hpc] at hf) form

/-- A look at the flags: an alternative that is ready already goes on. -/
theorem inv_readyLoad (h : s.Inv) {form : Form} (hpc : s.pc = .readyLoad form) :
    (s.readyLoad form).Inv := by
  have hs : s.pc.Busy := hpc ▸ ⟨trivial, Pc.noConfusion⟩
  have hflags : ∀ n v f c, Counts s n v f c → Pc.enabling.Flags s.state f := by
    intro n v f c hC
    have := hC.flags hs.2
    rwa [hpc] at this
  unfold Sys.readyLoad
  split_ifs
  · exact h.same ⟨rfl, rfl, rfl, rfl, rfl, rfl, rfl⟩ hs ⟨trivial, Pc.noConfusion⟩
      (by rw [hpc]; rfl) (by rw [hpc]; rfl) trivial hflags
  · exact h.same ⟨rfl, rfl, rfl, rfl, rfl, rfl, rfl⟩ hs busy_enabling
      (by rw [hpc]; rfl) (by rw [hpc]; rfl) trivial hflags

/-- Clearing the flags of a word that still enables leaves none. -/
theorem clear_enabling {state : Word} (hf : Pc.enabling.Flags state f) :
    f &&& ~~~(altNotReady ||| altEnabling) = 0 := by
  rcases hf with rfl | rfl | rfl <;> decide

/-- **`atw_and` of both flags**, on the way to `pc`. -/
theorem inv_clear (h : s.Inv) (hs : s.pc.Busy) (hown : s.pc.own = 1)
    (hrestoring : s.pc.restoring = none)
    (hflags : ∀ f, s.pc.Flags s.state f → Pc.enabling.Flags s.state f) {t : Sys}
    (hst : { s with state := s.state &&& ~~~(altNotReady ||| altEnabling) }.Same t)
    (ht : t.pc = .enabling ∨ t.pc = .disabling) : t.Inv := by
  obtain ⟨O, V, f, c, hR, hC⟩ := h
  have hb : t.pc.Busy := by rcases ht with ht | ht <;> rw [ht] <;> exact ⟨trivial, Pc.noConfusion⟩
  have htown : t.pc.own = 1 := by rcases ht with ht | ht <;> rw [ht] <;> rfl
  refine ⟨O, V, 0, c, hR.move hst.word hst.party hst.nextNode ?_ ?_,
    hC.move hs hb hst.log hst.queued ?_ ?_ hC.bound ?_ ?_⟩
  · rw [hrestoring]
    rcases ht with ht | ht <;> rw [ht] <;> rfl
  · rcases ht with ht | ht <;> rw [ht] <;> trivial
  · rw [hst.state]
    change s.state &&& _ = _
    rw [hC.state_and_not hs.2 (high_altNotReady.or high_altEnabling),
      clear_enabling (hflags f (hC.flags hs.2))]
  · rw [htown, ← hown]
    exact hC.count hs.2
  · rcases ht with ht | ht <;> rw [ht]
    · exact .inr (.inr rfl)
    · exact rfl
  · intro hf
    exact absurd hf (by decide)

/-- The flags are cleared atomically, at most one form goes on to disable. -/
theorem inv_readyAnd (h : s.Inv) {form : Form} (hpc : s.pc = .readyAnd form) :
    (s.readyAnd form).Inv := by
  have hs : s.pc.Busy := hpc ▸ ⟨trivial, Pc.noConfusion⟩
  have hclear := @inv_clear s h hs (by rw [hpc]; rfl) (by rw [hpc]; rfl)
    (fun f hf => by rwa [hpc] at hf)
  cases form with
  | plain => exact hclear ⟨rfl, rfl, rfl, rfl, rfl, rfl, rfl⟩ (.inl rfl)
  | jump => exact hclear ⟨rfl, rfl, rfl, rfl, rfl, rfl, rfl⟩ (.inr rfl)
  | setAddress id => exact hclear ⟨rfl, rfl, rfl, rfl, rfl, rfl, rfl⟩ (.inl rfl)

/-- The load of the channel word. -/
theorem inv_enbc (h : s.Inv) (hpc : s.pc = .enabling) (c : ℕ) (form : Form) :
    (s.enbc c form).Inv := by
  have hs : s.pc.Busy := hpc ▸ busy_enabling
  have hflags : ∀ n v f c, Counts s n v f c → Pc.enabling.Flags s.state f := by
    intro n v f c hC
    have := hC.flags hs.2
    rwa [hpc] at this
  unfold Sys.enbc
  split
  case h_1 hw =>
    refine h.same ⟨rfl, rfl, rfl, rfl, rfl, rfl, rfl⟩ hs ⟨trivial, Pc.noConfusion⟩
      (by rw [hpc]; rfl) (by rw [hpc]; rfl) ⟨?_, ?_⟩ hflags
    · simp [hw]
    · simp [hw]
  case h_2 =>
    refine h.same ⟨rfl, rfl, rfl, rfl, rfl, rfl, rfl⟩ hs hs rfl rfl (by rw [hpc]; trivial) ?_
    intro n v f c hC
    rw [hpc]
    exact hflags _ _ _ _ hC
  case h_3 => exact inv_ready_of_enabling h hpc form

/-- **A guard comes to refer to the ALTer.** -/
theorem Refs.publish {t : Sys} (h : Refs s O V) {g : Guard}
    (hword : t.word = Function.update s.word g .alter) (hparty : t.party = s.party)
    (hfree : s.word g ≠ .alter) (hflight : ¬ (s.party g).InFlight)
    (hs : s.pc.restoring = none) (ht : t.pc.restoring = none) (hplace : t.pc.Place t)
    (hnode : s.nextNode ≤ t.nextNode) (hg : ∀ k, g = .node k → k < t.nextNode) :
    g ∉ O ∧ Refs t (insert g O) V := by
  refine ⟨fun hgO => ?_, ?_⟩
  · rcases (h.refers g).mp hgO with hw | hp
    · exact hfree hw.1
    · exact hflight hp
  · refine ⟨fun g' => ?_, fun g' => ?_, fun g' => ?_, fun g' => ?_, fun k => ?_, fun k hk => ?_,
      hplace⟩
    · have := h.refers g'
      simp only [Sys.Refers, hword, hparty, hs, ht, Function.update_apply,
        Finset.mem_insert] at this ⊢
      grind
    · rw [h.wakers g', hparty]
    · have := h.flight g'
      rw [hword, hparty, Function.update_apply]
      grind
    · have := h.early g'
      rw [hword, hparty, Function.update_apply]
      grind
    · have := h.nodes k
      rw [hword, Function.update_apply]
      grind
    · have := h.fresh k (hnode.trans hk)
      have := hg k
      rw [hword, hparty, Function.update_apply]
      grind

/-- **The swap that enables a channel** leaves the guard there, whatever was there before. -/
theorem inv_enbcSwap (h : s.Inv) {c : ℕ} {form : Form} (hpc : s.pc = .enbcSwap c form) :
    (s.enbcSwap c form).Inv := by
  obtain ⟨O, V, f, count, hR, hC⟩ := h
  have hs : s.pc.Busy := hpc ▸ ⟨trivial, Pc.noConfusion⟩
  have hrestoring : s.pc.restoring = none := by rw [hpc]; rfl
  have hcount := hC.count hs.2
  have hflags := hC.flags hs.2
  have hplace := hR.place
  rw [hpc] at hcount hflags hplace
  obtain ⟨halter, hother⟩ := hplace
  unfold Sys.enbcSwap
  split
  case h_1 hw =>
    -- the guard refers to the ALTer before it is counted
    have hflight : ¬ (s.party (.chan c)).InFlight := fun hp => by
      have := hR.flight _ hp
      rw [hw] at this
      exact GuardWord.noConfusion this
    obtain ⟨hg, hR'⟩ := hR.publish (t := { s.setWord (.chan c) .alter with
      pc := .enbcInc c, published := s.published + 1 }) rfl rfl halter hflight hrestoring rfl
      trivial le_rfl (fun k hk => Guard.noConfusion hk)
    refine ⟨_, V, f, count, hR', hC.move hs ⟨trivial, Pc.noConfusion⟩ rfl rfl
      (hC.state hs.2) ?_ hC.bound hflags fun hf => ?_⟩
    · rw [hcount, Finset.card_insert_of_notMem hg]
      rfl
    · rw [Finset.card_insert_of_notMem hg, hC.published hs.2 hf]
  case h_2 =>
    have hw : s.word (.chan c) = .other := by
      cases hw : s.word (.chan c) with
      | notProcess => simp_all
      | alter => exact (halter hw).elim
      | other => rfl
    have hparked := hother hw
    rw [hw]
    refine ⟨O, V, f, count, ⟨fun g => ?_, hR.wakers, fun g => ?_, fun g => ?_, fun k => ?_,
      fun k => ?_, ⟨rfl, by simp [Sys.setWord], hparked⟩⟩, hC.quiet hs ⟨trivial, Pc.noConfusion⟩
      rfl rfl rfl rfl (by rw [hpc]; rfl) hflags⟩
    · have := hR.refers g
      simp only [Sys.Refers, hpc, Sys.setWord, Function.update_apply, Pc.restoring] at this ⊢
      grind [Party.InFlight]
    · have := hR.flight g
      simp only [Sys.setWord, Function.update_apply]
      grind [Party.InFlight]
    · have := hR.early g
      simp only [Sys.setWord, Function.update_apply]
      grind
    · have := hR.nodes k
      simpa [Sys.setWord] using this
    · have := hR.fresh k
      simpa [Sys.setWord] using this

/-- What the swap has found of another's is put back. -/
theorem inv_enbcRestore (h : s.Inv) {c : ℕ} {form : Form} {temp : GuardWord}
    (hpc : s.pc = .enbcRestore c form temp) : (s.enbcRestore c form temp).Inv := by
  obtain ⟨O, V, f, count, hR, hC⟩ := h
  have hs : s.pc.Busy := hpc ▸ ⟨trivial, Pc.noConfusion⟩
  have hplace := hR.place
  have hflags := hC.flags hs.2
  rw [hpc] at hplace hflags
  obtain ⟨rfl, halter, hparked⟩ := hplace
  -- the ALTer has put the outputter back and stands before `ready`
  have hback : ({ s.setWord (.chan c) .other with pc := .enabling } : Sys).Inv := by
    refine ⟨O, V, f, count, ⟨fun g => ?_, hR.wakers, fun g => ?_, fun g => ?_, fun k => ?_,
      fun k => ?_, trivial⟩, hC.quiet hs busy_enabling rfl rfl rfl rfl (by rw [hpc]; rfl) hflags⟩
    · have := hR.refers g
      simp only [Sys.Refers, hpc, Sys.setWord, Function.update_apply, Pc.restoring] at this ⊢
      grind [Party.InFlight]
    · have := hR.flight g
      simp only [Sys.setWord, Function.update_apply]
      grind [Party.InFlight]
    · have := hR.early g
      simp only [Sys.setWord, Function.update_apply]
      grind
    · have := hR.nodes k
      simpa [Sys.setWord] using this
    · have := hR.fresh k
      simpa [Sys.setWord] using this
  have := inv_ready_of_enabling hback rfl form
  cases form <;> exact this

/-- A guard that is visible is counted, if the count has room. -/
theorem inv_enbcInc (h : s.Inv) {c : ℕ} (hpc : s.pc = .enbcInc c)
    (hroom : s.state &&& countMask ≠ countMask) : s.enbcInc.Inv := by
  obtain ⟨O, V, f, count, hR, hC⟩ := h
  have hs : s.pc.Busy := hpc ▸ ⟨trivial, Pc.noConfusion⟩
  have hcount := hC.count hs.2
  have hflags := hC.flags hs.2
  rw [hpc] at hcount hflags
  refine ⟨O, V, f, count + 1, hR.move rfl rfl rfl (by rw [hpc]; rfl) trivial,
    hC.move hs busy_enabling rfl rfl ?_ (by rw [hcount]; rfl) (hC.room hs.2 hroom) hflags
      fun hf => hC.published hs.2 hf⟩
  change s.state + 1#32 = _
  rw [hC.state hs.2, pack_add_one]

/-- A timeout is remembered, or is ready at once. -/
theorem inv_enbt (h : s.Inv) (hpc : s.pc = .enabling) (form : Form) (timeout now : Word) :
    (s.enbt form timeout now).Inv := by
  have hs : s.pc.Busy := hpc ▸ busy_enabling
  have hplace : ∀ t : Sys, s.pc.Place t := fun t => by rw [hpc]; trivial
  unfold Sys.enbt
  split_ifs
  · have hset : ({ s with tlink := .timeSet, time := now } : Sys).Inv :=
      h.same ⟨rfl, rfl, rfl, rfl, rfl, rfl, rfl⟩ hs hs rfl rfl (hplace _)
        fun _ _ _ _ hC => hC.flags hs.2
    exact inv_ready_of_enabling hset hpc form
  all_goals
    exact h.same ⟨rfl, rfl, rfl, rfl, rfl, rfl, rfl⟩ hs hs rfl rfl (hplace _)
      fun _ _ _ _ hC => hC.flags hs.2

/-! ## Waiting -/

/-- The flags under which the state word still has `ALT_NOT_READY`. -/
theorem challenged_of_notReady (hC : Counts s n v f c) (hpc : s.pc = .enabling)
    (hne : s.state &&& altNotReady ≠ 0) : Challenged s.state s.state f := by
  have hidle : s.pc ≠ .idle := by rw [hpc]; exact Pc.noConfusion
  have hflags := hC.flags hidle
  rw [hpc] at hflags
  refine ⟨hne, ?_⟩
  rw [hC.state_and hidle high_altNotReady] at hne
  rcases hflags with rfl | rfl | rfl
  · exact .inl ⟨rfl, rfl⟩
  · exact .inr rfl
  · exact (hne (by decide)).elim

/-- Once `ALT_NOT_READY` has gone, only `ALT_ENABLING` is left of the flags. -/
theorem clearing_of_ready (hC : Counts s n v f c) (hpc : s.pc = .enabling)
    (heq : s.state &&& altNotReady = 0) : f = altEnabling ∨ f = 0 := by
  have hidle : s.pc ≠ .idle := by rw [hpc]; exact Pc.noConfusion
  have hflags := hC.flags hidle
  rw [hpc] at hflags
  rw [hC.state_and hidle high_altNotReady] at heq
  rcases hflags with rfl | rfl | rfl
  · exact absurd heq (by decide)
  · exact .inl rfl
  · exact .inr rfl

/-- The load of the state word. -/
theorem inv_altwt (h : s.Inv) (hpc : s.pc = .enabling) : s.altwt.Inv := by
  have hs : s.pc.Busy := hpc ▸ busy_enabling
  unfold Sys.altwt
  dsimp only
  split_ifs with hready
  · exact h.same ⟨rfl, rfl, rfl, rfl, rfl, rfl, rfl⟩ hs ⟨trivial, Pc.noConfusion⟩
      (by rw [hpc]; rfl) (by rw [hpc]; rfl) trivial
      fun _ _ _ _ hC => challenged_of_notReady hC hpc hready
  · exact h.same ⟨rfl, rfl, rfl, rfl, rfl, rfl, rfl⟩ hs ⟨trivial, Pc.noConfusion⟩
      (by rw [hpc]; rfl) (by rw [hpc]; rfl) trivial
      fun _ _ _ _ hC => clearing_of_ready hC hpc (not_not.mp hready)

/-- Where the compare-and-swap of a wait succeeds nobody has triggered. -/
theorem Challenged.of_eq {state : Word} (hC : Counts s n v f c) (hidle : s.pc ≠ .idle)
    (h : Challenged state s.state f) (heq : s.state = state) :
    f = altEnabling ||| altNotReady := by
  obtain ⟨hne, ⟨hf, -⟩ | rfl⟩ := h
  · exact hf
  · rw [← heq, hC.state_and hidle high_altNotReady] at hne
    exact (hne (by decide)).elim

/-- Where it fails, a guard has been triggered meanwhile. -/
theorem Challenged.of_ne {state : Word} (h : Challenged state s.state f) (hne : s.state ≠ state) :
    f = altEnabling := by
  obtain ⟨-, ⟨-, heq⟩ | hf⟩ := h
  · exact (hne heq.symm).elim
  · exact hf

/-- **The ALTer waits**: from here on the flag says that nobody has triggered. -/
theorem Counts.wait (t : Sys) (h : Counts s n v (altEnabling ||| altNotReady) c)
    (hs : s.pc.Busy) (ht : t.pc = .waiting) (hlog : t.log = .park :: s.log)
    (hqueued : t.queued = s.queued) (hpub : t.published = s.published) {c' : ℕ}
    (hstate : t.state = pack altWaiting c') (hcount : c' = n + 1)
    (hbound : c' < 2 ^ countBits) : Counts t n v altWaiting c' := by
  obtain ⟨hq, hv⟩ := h.unqueued hs
  have hstage := h.stage
  rw [Sys.stage_of_running hs.1] at hstage
  refine ⟨fun _ => hstate, fun _ => by rw [ht]; exact hcount, hbound, fun _ => by
    rw [ht]; exact .inl rfl, fun hi => ?_, fun _ _ => ?_, ?_, ?_⟩
  · rw [ht] at hi
    exact Pc.noConfusion hi
  · rw [hpub]
    exact h.published hs.2 (.inl rfl)
  · rw [ht, hqueued, hq, hv]
    rfl
  · rw [hlog]
    simp only [Stage.after, hstage, Sys.stage, ht, hqueued, hq, if_true]

/-- **The compare-and-swap of a wait** puts the ALTer to sleep, or finds it triggered. -/
theorem inv_altwtCas (h : s.Inv) {state : Word} (hpc : s.pc = .altwtCas state) :
    (s.altwtCas state).Inv := by
  obtain ⟨O, V, f, count, hR, hC⟩ := h
  have hs : s.pc.Busy := hpc ▸ ⟨trivial, Pc.noConfusion⟩
  have hcount := hC.count hs.2
  have hflags := hC.flags hs.2
  rw [hpc] at hcount hflags
  unfold Sys.altwtCas
  split_ifs with heq
  · obtain rfl := hflags.of_eq hC hs.2 heq
    refine ⟨O, V, altWaiting, count, hR.move rfl rfl rfl (by rw [hpc]; rfl) trivial,
      Counts.wait (Sys.park { s with state := Sys.waitState state } .waiting) hC hs rfl rfl rfl rfl
        ?_ hcount hC.bound⟩
    change Sys.waitState state = _
    rw [← heq, hC.state hs.2, waitState_pack (hC.high hs.2) hC.bound]
    rfl
  · exact ⟨O, V, f, count, hR.move rfl rfl rfl (by rw [hpc]; rfl) trivial,
      hC.quiet hs ⟨trivial, Pc.noConfusion⟩ rfl rfl rfl rfl (by rw [hpc]; rfl)
        (.inl (hflags.of_ne heq))⟩

/-- Who does not sleep clears the flags and disables its guards. -/
theorem inv_altwtClear (h : s.Inv) (hpc : s.pc = .altwtClear) : s.altwtClear.Inv := by
  obtain ⟨O, V, f, count, hR, hC⟩ := h
  have hs : s.pc.Busy := hpc ▸ ⟨trivial, Pc.noConfusion⟩
  have hcount := hC.count hs.2
  have hflags := hC.flags hs.2
  rw [hpc] at hcount hflags
  have hclear : f &&& ~~~altEnabling = 0 := by rcases hflags with rfl | rfl <;> decide
  refine ⟨O, V, 0, count, hR.move rfl rfl rfl (by rw [hpc]; rfl) trivial,
    hC.move hs busy_disabling rfl rfl ?_ hcount hC.bound rfl fun hf => absurd hf (by decide)⟩
  change s.state &&& _ = _
  rw [hC.state_and_not hs.2 high_altEnabling, hclear]

/-- **A guard is taken back from.** -/
theorem Refs.withdraw {t : Sys} (h : Refs s O V) {g : Guard}
    (hword : t.word = Function.update s.word g .notProcess) (hparty : t.party = s.party)
    (halter : s.word g = .alter) (hs : s.pc.restoring = none) (ht : t.pc.restoring = none)
    (hplace : t.pc.Place t) (hnode : t.nextNode = s.nextNode) :
    g ∈ O ∧ Refs t (O.erase g) V := by
  have hflight : ¬ (s.party g).InFlight := fun hp => by
    have := h.flight g hp
    rw [halter] at this
    cases g <;> exact GuardWord.noConfusion this
  refine ⟨(h.refers g).mpr (.inl ⟨halter, by rw [hs]; simp⟩), ?_⟩
  refine ⟨fun g' => ?_, fun g' => ?_, fun g' => ?_, fun g' => ?_, fun k => ?_, fun k hk => ?_,
    hplace⟩
  · have := h.refers g'
    simp only [Sys.Refers, hword, hparty, hs, ht, Function.update_apply,
      Finset.mem_erase] at this ⊢
    grind
  · rw [h.wakers g', hparty]
  · have := h.flight g'
    rw [hword, hparty, Function.update_apply]
    grind
  · have := h.early g'
    rw [hword, hparty, Function.update_apply]
    grind
  · have := h.nodes k
    rw [hword, Function.update_apply]
    grind
  · have := h.fresh k (hnode ▸ hk)
    rw [hword, hparty, Function.update_apply]
    grind

/-- A time that is not past is put on the timer queue before the compare-and-swap. -/
theorem inv_taltwt (h : s.Inv) (hpc : s.pc = .enabling) (now : Word) : (s.taltwt now).Inv := by
  have hs : s.pc.Busy := hpc ▸ busy_enabling
  have hquiet : ∀ t : Sys, s.Same t → t.pc = .taltwtAnd now → t.Inv := by
    intro t hst ht
    refine h.same hst hs (ht ▸ ⟨trivial, Pc.noConfusion⟩) (by rw [ht, hpc]; rfl)
      (by rw [ht, hpc]; rfl) (by rw [ht]; trivial) fun n v f c hC => ?_
    have := hC.flags hs.2
    rw [hpc] at this
    rw [ht]
    exact this
  unfold Sys.taltwt
  dsimp only
  split_ifs with hready hset hpast
  · -- the node refers to the ALTer; only the compare-and-swap will count it
    obtain ⟨O, V, f, count, hR, hC⟩ := h
    have hcount := hC.count hs.2
    rw [hpc] at hcount
    obtain ⟨hword, hparty⟩ := hR.fresh s.nextNode le_rfl
    obtain ⟨hg, hR'⟩ := hR.publish (g := .node s.nextNode)
      (t := { ({ s with temp := noneSelected } : Sys).addToTimerQueue s.time with
        pc := .taltwtCas s.state (some s.nextNode) now })
      rfl rfl (by rw [hword]; exact GuardWord.noConfusion) (by rw [hparty]; exact id)
      (by rw [hpc]; rfl) rfl
      ⟨by simp [Sys.addToTimerQueue, Sys.setWord], hparty, Nat.lt_succ_self _⟩
      (Nat.le_succ _) (fun k hk => Guard.node.inj hk ▸ Nat.lt_succ_self _)
    refine ⟨_, V, f, count, hR', hC.move hs ⟨trivial, Pc.noConfusion⟩ rfl rfl (hC.state hs.2) ?_
      hC.bound (challenged_of_notReady hC hpc hready) fun hf => ?_⟩
    · rw [hcount, Finset.card_insert_of_notMem hg]
      rfl
    · rw [Finset.card_insert_of_notMem hg, hC.published hs.2 hf]
      rfl
  · exact hquiet _ ⟨rfl, rfl, rfl, rfl, rfl, rfl, rfl⟩ rfl
  · exact h.same ⟨rfl, rfl, rfl, rfl, rfl, rfl, rfl⟩ hs ⟨trivial, Pc.noConfusion⟩
      (by rw [hpc]; rfl) (by rw [hpc]; rfl) trivial
      fun _ _ _ _ hC => challenged_of_notReady hC hpc hready
  · exact hquiet _ ⟨rfl, rfl, rfl, rfl, rfl, rfl, rfl⟩ rfl

/-- Without a timeout the ALTer sleeps as in `altwt`. -/
theorem inv_taltwtCas_none (h : s.Inv) {state now : Word}
    (hpc : s.pc = .taltwtCas state none now) : (s.taltwtCas state none now).Inv := by
  obtain ⟨O, V, f, count, hR, hC⟩ := h
  have hs : s.pc.Busy := hpc ▸ ⟨trivial, Pc.noConfusion⟩
  have hcount := hC.count hs.2
  have hflags := hC.flags hs.2
  rw [hpc] at hcount hflags
  unfold Sys.taltwtCas
  split_ifs with heq
  · obtain rfl := hflags.of_eq hC hs.2 heq
    refine ⟨O, V, altWaiting, count, hR.move rfl rfl rfl (by rw [hpc]; rfl) trivial,
      Counts.wait (Sys.park { s with state := Sys.waitState state } .waiting) hC hs rfl rfl rfl rfl
        ?_ hcount hC.bound⟩
    change Sys.waitState state = _
    rw [← heq, hC.state hs.2, waitState_pack (hC.high hs.2) hC.bound]
    rfl
  · exact ⟨O, V, f, count, hR.move rfl rfl rfl (by rw [hpc]; rfl) trivial,
      hC.quiet hs ⟨trivial, Pc.noConfusion⟩ rfl rfl rfl rfl (by rw [hpc]; rfl)
        (.inr (.inl (hflags.of_ne heq)))⟩

/-- **The node on the timer queue** is one more guard, which the compare-and-swap counts. -/
theorem inv_taltwtCas_some (h : s.Inv) {state now : Word} {k : ℕ}
    (hpc : s.pc = .taltwtCas state (some k) now)
    (hroom : s.state = state → s.state &&& countMask ≠ countMask) :
    (s.taltwtCas state (some k) now).Inv := by
  obtain ⟨O, V, f, count, hR, hC⟩ := h
  have hs : s.pc.Busy := hpc ▸ ⟨trivial, Pc.noConfusion⟩
  have hcount := hC.count hs.2
  have hflags := hC.flags hs.2
  have hplace := hR.place
  rw [hpc] at hcount hflags hplace
  obtain ⟨halter, -, -⟩ := hplace
  unfold Sys.taltwtCas
  split_ifs with heq
  · obtain rfl := hflags.of_eq hC hs.2 heq
    refine ⟨O, V, altWaiting, count + 1, hR.move rfl rfl rfl (by rw [hpc]; rfl) trivial,
      Counts.wait (Sys.park { s with state := Sys.waitState state + 1 } .waiting) hC hs rfl rfl rfl
        rfl ?_ (by rw [hcount]; rfl) (hC.room hs.2 (hroom heq))⟩
    change Sys.waitState state + 1#32 = _
    rw [← heq, hC.state hs.2, waitState_pack (hC.high hs.2) hC.bound, pack_add_one]
    rfl
  · -- a trigger came first: the node goes again
    obtain rfl := hflags.of_ne heq
    obtain ⟨hg, hR'⟩ := hR.withdraw (t := { s.setWord (.node k) .notProcess with
      tlink := .timeSet, pc := .taltwtAnd now }) rfl rfl halter (by rw [hpc]; rfl) rfl trivial rfl
    refine ⟨_, V, altEnabling, count, hR', hC.move hs ⟨trivial, Pc.noConfusion⟩ rfl rfl
      (hC.state hs.2) ?_ hC.bound (.inr (.inl rfl)) fun hf => absurd hf (by decide)⟩
    have := Finset.card_erase_add_one hg
    rw [hcount]
    change O.card + 0 = (O.erase _).card + 1
    omega

/-- Who does not sleep reads the clock, clears the flags and disables its guards. -/
theorem inv_taltwtAnd (h : s.Inv) {now : Word} (hpc : s.pc = .taltwtAnd now) :
    (s.taltwtAnd now).Inv := by
  have hs : s.pc.Busy := hpc ▸ ⟨trivial, Pc.noConfusion⟩
  exact inv_clear h hs (by rw [hpc]; rfl) (by rw [hpc]; rfl) (fun f hf => by rwa [hpc] at hf)
    ⟨rfl, rfl, rfl, rfl, rfl, rfl, rfl⟩ (.inr rfl)

/-! ## Disabling -/

/-- A step within the disabling sequence that touches neither guards nor state word. -/
theorem inv_quiet_disabling (h : s.Inv) {t : Sys} (hst : s.Same t) (hs : s.pc.Busy)
    (hown : s.pc.own = 1) (hrestoring : s.pc.restoring = none)
    (hflags : ∀ f, s.pc.Flags s.state f → f = 0) (ht : t.pc = .disabling) : t.Inv :=
  h.same hst hs (ht ▸ busy_disabling) (by rw [ht, hown]; rfl) (by rw [ht, hrestoring]; rfl)
    (by rw [ht]; trivial) fun _ _ _ _ hC => by
      rw [ht]
      exact hflags _ (hC.flags hs.2)

/-- To select a guard is of no concern to the others. -/
theorem fire_same (s : Sys) (address : Word) (always : Bool) : s.Same (s.fire address always) := by
  unfold Sys.fire
  split_ifs <;> exact ⟨rfl, rfl, rfl, rfl, rfl, rfl, rfl⟩

@[simp] theorem fire_pc (s : Sys) (address : Word) (always : Bool) :
    (s.fire address always).pc = .disabling := by
  unfold Sys.fire
  split_ifs <;> rfl

/-- Nor is to select a timeout that has fired. -/
theorem distFired_same (s : Sys) (k : ℕ) (timeout address : Word) (always : Bool) :
    s.Same (s.distFired k timeout address always) := by
  unfold Sys.distFired Sys.fire
  dsimp only
  split_ifs <;> exact ⟨rfl, rfl, rfl, rfl, rfl, rfl, rfl⟩

@[simp] theorem distFired_pc (s : Sys) (k : ℕ) (timeout address : Word) (always : Bool) :
    (s.distFired k timeout address always).pc = .disabling := by
  unfold Sys.distFired
  dsimp only
  split_ifs
  · rfl
  · exact fire_pc _ _ _

/-- **A reference is taken back**, and is still to be taken off the count. -/
theorem inv_withdraw (h : s.Inv) (hs : s.pc.Busy) (hown : s.pc.own = 1)
    (hrestoring : s.pc.restoring = none) (hflags : ∀ f, s.pc.Flags s.state f → f = 0)
    {g : Guard} (halter : s.word g = .alter) :
    ({ s.setWord g .notProcess with pc := .altDec } : Sys).Inv := by
  obtain ⟨O, V, f, count, hR, hC⟩ := h
  have hcount := hC.count hs.2
  obtain rfl := hflags f (hC.flags hs.2)
  obtain ⟨hg, hR'⟩ := hR.withdraw (t := { s.setWord g .notProcess with pc := .altDec }) rfl rfl
    halter hrestoring rfl trivial rfl
  refine ⟨_, V, 0, count, hR', hC.move hs ⟨trivial, Pc.noConfusion⟩ rfl rfl (hC.state hs.2) ?_
    hC.bound rfl fun hf => absurd hf (by decide)⟩
  have := Finset.card_erase_add_one hg
  rw [hcount, hown]
  change O.card + 1 = (O.erase g).card + 2
  omega

/-- While guards are disabled no flag is set. -/
theorem flags_disabling (hpc : s.pc = .disabling) {f : Word} (hf : s.pc.Flags s.state f) :
    f = 0 := by
  rw [hpc] at hf
  exact hf

/-- The load of the channel word. -/
theorem inv_disc (h : s.Inv) (hpc : s.pc = .disabling) (c : ℕ) (address : Word) (always : Bool) :
    (s.disc c address always).Inv := by
  have hs : s.pc.Busy := hpc ▸ busy_disabling
  have hquiet {t : Sys} (hst : s.Same t) (ht : t.pc = .disabling) : t.Inv :=
    inv_quiet_disabling h hst hs (by rw [hpc]; rfl) (by rw [hpc]; rfl)
      (fun _ => flags_disabling hpc) ht
  unfold Sys.disc
  split
  · exact h.same ⟨rfl, rfl, rfl, rfl, rfl, rfl, rfl⟩ hs ⟨trivial, Pc.noConfusion⟩
      (by rw [hpc]; rfl) (by rw [hpc]; rfl) trivial
      fun _ _ _ _ hC => flags_disabling hpc (hC.flags hs.2)
  · exact hquiet ⟨rfl, rfl, rfl, rfl, rfl, rfl, rfl⟩ hpc
  · exact hquiet (fire_same s address always) (fire_pc s address always)

/-- **The compare-and-swap that disables a channel** takes the guard back, or finds it triggered. -/
theorem inv_discCas (h : s.Inv) {c : ℕ} {address : Word} {always : Bool}
    (hpc : s.pc = .discCas c address always) : (s.discCas c address always).Inv := by
  have hs : s.pc.Busy := hpc ▸ ⟨trivial, Pc.noConfusion⟩
  have hflags : ∀ f, s.pc.Flags s.state f → f = 0 := fun f hf => by
    rw [hpc] at hf
    exact hf
  unfold Sys.discCas
  split_ifs with halter
  · exact inv_withdraw h hs (by rw [hpc]; rfl) (by rw [hpc]; rfl) hflags halter
  · exact inv_quiet_disabling h (fire_same s address always) hs (by rw [hpc]; rfl)
      (by rw [hpc]; rfl) hflags (fire_pc s address always)

/-- **The reference comes off the count.** -/
theorem inv_altDec (h : s.Inv) (hpc : s.pc = .altDec) : s.altDec.Inv := by
  obtain ⟨O, V, f, count, hR, hC⟩ := h
  have hs : s.pc.Busy := hpc ▸ ⟨trivial, Pc.noConfusion⟩
  have hcount := hC.count hs.2
  have hflags := hC.flags hs.2
  have hbound := hC.bound
  rw [hpc] at hcount hflags
  obtain rfl : f = 0 := hflags
  obtain rfl : count = O.card + 1 + 1 := hcount
  refine ⟨O, V, 0, O.card + 1, hR.move rfl rfl rfl (by rw [hpc]; rfl) trivial,
    hC.move hs busy_disabling rfl rfl ?_ rfl (by omega) rfl fun hf => absurd hf (by decide)⟩
  change s.state - 1#32 = _
  rw [hC.state hs.2, pack_succ_sub_one]

/-- A skip guard has no word of its own. -/
theorem inv_diss (h : s.Inv) (hpc : s.pc = .disabling) (address : Word) (always : Bool) :
    (s.diss address always).Inv := by
  have hs : s.pc.Busy := hpc ▸ busy_disabling
  unfold Sys.diss
  split_ifs <;>
    exact inv_quiet_disabling h ⟨rfl, rfl, rfl, rfl, rfl, rfl, rfl⟩ hs (by rw [hpc]; rfl)
      (by rw [hpc]; rfl) (fun _ => flags_disabling hpc) hpc

/-- The word of a node is the ALTer's pointer or empty. -/
theorem alter_of_node (h : s.Inv) {k : ℕ} (hne : s.word (.node k) ≠ .notProcess) :
    s.word (.node k) = .alter := by
  obtain ⟨O, V, f, count, hR, -⟩ := h
  have := hR.nodes k
  cases hw : s.word (.node k) with
  | alter => rfl
  | notProcess => exact (hne hw).elim
  | other => exact (this hw).elim

/-- A timeout on the queue of the same scheduler is taken back at once. -/
theorem inv_dist (h : s.Inv) (hpc : s.pc = .disabling) (timeout address : Word)
    (always remote : Bool) : (s.dist timeout address always remote).Inv := by
  have hs : s.pc.Busy := hpc ▸ busy_disabling
  have hquiet {t : Sys} (hst : s.Same t) (ht : t.pc = .disabling) : t.Inv :=
    inv_quiet_disabling h hst hs (by rw [hpc]; rfl) (by rw [hpc]; rfl)
      (fun _ => flags_disabling hpc) ht
  unfold Sys.dist
  split
  · split_ifs
    · exact hquiet ⟨rfl, rfl, rfl, rfl, rfl, rfl, rfl⟩ hpc
    · exact hquiet (fire_same s address always) (fire_pc s address always)
  · exact hquiet ⟨rfl, rfl, rfl, rfl, rfl, rfl, rfl⟩ hpc
  · rename_i k htlink
    have hcleared : ({ s with tlink := .timeNotSet } : Sys).Inv :=
      hquiet ⟨rfl, rfl, rfl, rfl, rfl, rfl, rfl⟩ hpc
    dsimp only
    split_ifs with hfired hremote
    · have hsame := distFired_same { s with tlink := .timeNotSet } k timeout address always
      exact hquiet ⟨hsame.1, hsame.2, hsame.3, hsame.4, hsame.5, hsame.6, hsame.7⟩
        (distFired_pc _ _ _ _ _)
    · exact h.same ⟨rfl, rfl, rfl, rfl, rfl, rfl, rfl⟩ hs ⟨trivial, Pc.noConfusion⟩
        (by rw [hpc]; rfl) (by rw [hpc]; rfl) trivial
        fun _ _ _ _ hC => flags_disabling hpc (hC.flags hs.2)
    · exact inv_withdraw hcleared hs (by rw [hpc]; rfl) (by rw [hpc]; rfl)
        (fun _ => flags_disabling hpc) (alter_of_node h hfired)

/-- On the queue of another scheduler it is taken back by the swap, or has fired. -/
theorem inv_distSwap (h : s.Inv) {k : ℕ} {timeout address : Word} {always : Bool}
    (hpc : s.pc = .distSwap k timeout address always) :
    (s.distSwap k timeout address always).Inv := by
  have hs : s.pc.Busy := hpc ▸ ⟨trivial, Pc.noConfusion⟩
  have hflags : ∀ f, s.pc.Flags s.state f → f = 0 := fun f hf => by
    rw [hpc] at hf
    exact hf
  unfold Sys.distSwap
  split_ifs with hfired
  · exact inv_quiet_disabling h (distFired_same s k timeout address always) hs (by rw [hpc]; rfl)
      (by rw [hpc]; rfl) hflags (distFired_pc _ _ _ _ _)
  · exact inv_withdraw h hs (by rw [hpc]; rfl) (by rw [hpc]; rfl) hflags
      (alter_of_node h hfired)

/-- An ALTer that has left its ALT: no guard refers to it. -/
theorem inv_idle (hR : Refs s O V) (hstage : Stage.after s.log = some .running)
    (hqueued : s.queued = 0) (hV : V.card = 0) (hO : O.card = 0) (hpc : s.pc = .idle) :
    s.Inv :=
  ⟨O, V, 0, 0, hR, fun h => (h hpc).elim, fun h => (h hpc).elim, by decide,
    fun h => (h hpc).elim, fun _ => hO, fun h => (h hpc).elim, by rw [hqueued, hV, hpc]; rfl, by
      rw [hstage, Sys.stage_of_running (by rw [hpc]; trivial)]⟩

/-- The load of the state word. -/
theorem inv_altend (h : s.Inv) (hpc : s.pc = .disabling) : s.altend.Inv := by
  have hs : s.pc.Busy := hpc ▸ busy_disabling
  unfold Sys.altend
  split_ifs with hone
  · obtain ⟨O, V, f, count, hR, hC⟩ := h
    have hcount := hC.count hs.2
    obtain ⟨hq, hv⟩ := hC.unqueued hs
    rw [hpc] at hcount
    rw [hC.state hs.2, pack_eq_one_iff (hC.high hs.2) hC.bound] at hone
    have hO : O.card = 0 := Nat.succ.inj (hcount.symm.trans hone.2)
    exact inv_idle (hR.move rfl rfl rfl (by rw [hpc]; rfl) trivial)
      (hC.stage.trans (congrArg some (Sys.stage_of_running hs.1))) hq hv hO rfl
  · exact h.same ⟨rfl, rfl, rfl, rfl, rfl, rfl, rfl⟩ hs ⟨trivial, Pc.noConfusion⟩
      (by rw [hpc]; rfl) (by rw [hpc]; rfl) trivial
      fun _ _ _ _ hC => flags_disabling hpc (hC.flags hs.2)

/-- **The ALTer stops counting itself**, and waits for the guards that are still triggered. -/
theorem inv_altendDec (h : s.Inv) (hpc : s.pc = .altendDec) : s.altendDec.Inv := by
  obtain ⟨O, V, f, count, hR, hC⟩ := h
  have hs : s.pc.Busy := hpc ▸ ⟨trivial, Pc.noConfusion⟩
  have hcount := hC.count hs.2
  have hflags := hC.flags hs.2
  have hbound := hC.bound
  have hstage := hC.stage.trans (congrArg some (Sys.stage_of_running hs.1))
  obtain ⟨hq, hv⟩ := hC.unqueued hs
  rw [hpc] at hcount hflags
  obtain rfl : f = 0 := hflags
  obtain rfl : count = O.card + 1 := hcount
  have hstate : s.state - 1 = pack 0 O.card := by
    change s.state - 1#32 = _
    rw [hC.state hs.2, pack_succ_sub_one]
  have hzero := pack_eq_zero_iff high_zero (by omega : O.card < 2 ^ countBits)
  unfold Sys.altendDec
  dsimp only
  rw [hstate]
  split_ifs with hnone
  · exact inv_idle (hR.move rfl rfl rfl (by rw [hpc]; rfl) trivial) hstage hq hv
      (hzero.mp hnone).2 rfl
  · -- parked with references outstanding: the last trigger finds the count at one
    have hO : O.card ≠ 0 := fun h => hnone (hzero.mpr ⟨rfl, h⟩)
    refine ⟨O, V, 0, O.card, hR.move rfl rfl rfl (by rw [hpc]; rfl) trivial, fun _ => rfl,
      fun _ => rfl, by omega, fun _ => rfl, fun hi => Pc.noConfusion hi,
      fun _ hf => absurd hf (by decide), ?_, ?_⟩
    · change s.queued + V.card = if O.card = 0 then 1 else 0
      rw [if_neg hO, hq, hv]
    · change Stage.after (.park :: s.log) = some (if s.queued = 0 then .parked else .queued)
      simp only [Stage.after, hstage, hq, if_true]

end Alt

end Ccsp

end Kroc
