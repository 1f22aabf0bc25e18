import Kroc.Ccsp.AltSteps

/-!
# Ccsp/AltTriggers — every operation of a party keeps the count

The outputters and the walks of the timer queues.  A party that has swapped the pointer to the
ALTer out of its guard keeps the reference until its compare-and-swap takes it off the state word;
`due_trigger` says that it then wakes the ALTer exactly when that makes the ALTer due.
-/

open FlaggedCount

namespace Kroc

namespace Ccsp

namespace Alt

variable {s : Sys} {O V : Finset Guard} {n v : ℕ} {f : Word} {c : ℕ}

/-! ## Arriving at a guard -/

/-- What the ALTer knows of the guard it is working on survives a step of the party of `g`. -/
theorem Pc.Place.update {pc : Pc} {t : Sys} {g : Guard} {w : GuardWord} {p : Party}
    (h : pc.Place s) (hword : t.word = Function.update s.word g w)
    (hparty : t.party = Function.update s.party g p) (hnode : t.nextNode = s.nextNode)
    (hswap : ∀ c form, pc = .enbcSwap c form → g = .chan c →
      w ≠ .alter ∧ (w = .other → p = .parked))
    (hparked : s.party g ≠ .parked)
    (harm : ∀ state k now, pc = .taltwtCas state (some k) now → g ≠ .node k) :
    pc.Place t := by
  cases pc
  case enbcSwap c form =>
    obtain ⟨halter, hother⟩ := h
    by_cases hg : g = .chan c
    · have := hswap c form rfl hg
      subst hg
      simpa [Pc.Place, hword, hparty] using this
    · have hg' : Guard.chan c ≠ g := fun he => hg he.symm
      simp only [Pc.Place, hword, hparty, Function.update_of_ne hg']
      exact ⟨halter, hother⟩
  case enbcRestore c form temp =>
    obtain ⟨htemp, halter, hp⟩ := h
    have hg : Guard.chan c ≠ g := fun he => hparked (he ▸ hp)
    simp only [Pc.Place, hword, hparty, Function.update_of_ne hg]
    exact ⟨htemp, halter, hp⟩
  case taltwtCas state tn now =>
    cases tn with
    | none => trivial
    | some k =>
      have hg : Guard.node k ≠ g := fun he => harm state k now rfl he.symm
      simp only [Pc.Place, hword, hparty, hnode, Function.update_of_ne hg]
      exact h
  all_goals trivial

/-- **A step of the party of `g`**: its word becomes `w`, the party goes on to `p`. -/
theorem Refs.update {t : Sys} {g : Guard} {w : GuardWord} {p : Party} {O' V' : Finset Guard}
    (h : Refs s O V) (hword : t.word = Function.update s.word g w)
    (hparty : t.party = Function.update s.party g p) (hpc : t.pc = s.pc)
    (hnode : t.nextNode = s.nextNode)
    (hO : ∀ g', g' ∈ O' ↔
      if g' = g then (w = .alter ∧ s.pc.restoring ≠ some g) ∨ p.InFlight else g' ∈ O)
    (hV : ∀ g', g' ∈ V' ↔ if g' = g then p = .enqueue else g' ∈ V)
    (hflight : p.InFlight → w = g.left) (hearly : p = .idle ∨ p = .loaded → w ≠ .other)
    (hnodes : ∀ k, g = .node k → w ≠ .other ∧ k < s.nextNode) (hplace : s.pc.Place t) :
    Refs t O' V' where
  refers g' := by
    rw [hO g']
    split_ifs with hg
    · subst hg
      simp [Sys.Refers, hword, hparty, hpc]
    · rw [h.refers g']
      simp [Sys.Refers, hword, hparty, hpc, Function.update_of_ne hg]
  wakers g' := by
    rw [hV g']
    split_ifs with hg
    · subst hg
      simp [hparty]
    · rw [h.wakers g', hparty, Function.update_of_ne hg]
  flight g' := by
    have := h.flight g'
    rw [hword, hparty, Function.update_apply, Function.update_apply]
    split_ifs with hg
    · exact hg ▸ hflight
    · exact this
  early g' := by
    have := h.early g'
    rw [hword, hparty, Function.update_apply, Function.update_apply]
    split_ifs with hg
    · exact hearly
    · exact this
  nodes k := by
    have := h.nodes k
    rw [hword, Function.update_apply]
    split_ifs with hg
    · exact (hnodes k hg.symm).1
    · exact this
  fresh k hk := by
    have hg : Guard.node k ≠ g := fun he => absurd (hnodes k he.symm).2 (by omega)
    rw [hword, hparty, Function.update_of_ne hg, Function.update_of_ne hg]
    exact h.fresh k (hnode ▸ hk)
  place := hpc ▸ hplace

/-- The state word and the run queues are as before. -/
theorem Counts.unchanged {t : Sys} (h : Counts s n v f c) (hstate : t.state = s.state)
    (hpc : t.pc = s.pc) (hpub : t.published = s.published) (hqueued : t.queued = s.queued)
    (hlog : t.log = s.log) : Counts t n v f c where
  state hi := hstate.trans (h.state (hpc ▸ hi))
  count hi := (hpc ▸ h.count (hpc ▸ hi))
  bound := h.bound
  flags hi := by
    rw [hstate, hpc]
    exact h.flags (hpc ▸ hi)
  idle hi := h.idle (hpc ▸ hi)
  published hi hf := (h.published (hpc ▸ hi) hf).trans hpub.symm
  wakes := by rw [hqueued, hpc, h.wakes]
  stage := by rw [hlog, h.stage, Sys.stage, Sys.stage, hpc, hqueued]

/-- A node whose party is under way has been armed. -/
theorem Refs.node_lt (h : Refs s O V) {k : ℕ} (hp : s.party (.node k) ≠ .idle) :
    k < s.nextNode := by
  by_contra hk
  exact hp (h.fresh k (by omega)).2

theorem inv_load (h : s.Inv) {g : Guard} {now : Word} {t : Sys} (hp : s.party g = .idle)
    (harm : ¬ s.Arming g) (hload : s.load g now = some t) : t.Inv := by
  obtain ⟨O, V, f, count, hR, hC⟩ := h
  have hother := hR.early g (.inl hp)
  have ht : t.word = Function.update s.word g (s.word g) ∧
      t.party = Function.update s.party g .loaded ∧ t.pc = s.pc ∧ t.nextNode = s.nextNode ∧
      t.state = s.state ∧ t.published = s.published ∧ t.queued = s.queued ∧ t.log = s.log ∧
      ∀ k, g = .node k → s.word g = .alter := by
    unfold Sys.load at hload
    rw [Function.update_eq_self]
    cases g with
    | chan c =>
      dsimp only at hload
      rw [if_neg hother] at hload
      cases hload
      exact ⟨rfl, rfl, rfl, rfl, rfl, rfl, rfl, rfl, fun k hk => Guard.noConfusion hk⟩
    | node k =>
      dsimp only at hload
      split_ifs at hload with hexpired
      cases hload
      exact ⟨rfl, rfl, rfl, rfl, rfl, rfl, rfl, rfl, fun _ _ => hexpired.1⟩
  obtain ⟨hword, hparty, hpc, hnode, hstate, hpub, hqueued, hlog, halter⟩ := ht
  refine ⟨O, V, f, count, hR.update hword hparty hpc hnode (fun g' => ?_) (fun g' => ?_)
    (fun hf => hf.elim) (fun _ => hother) (fun k hk => ⟨hother, ?_⟩) ?_,
    hC.unchanged hstate hpc hpub hqueued hlog⟩
  · split_ifs with hg
    · rw [hR.refers g', Sys.Refers, hg, hp]
      rfl
    · rfl
  · split_ifs with hg
    · rw [hR.wakers g', hg, hp]
      simp
    · rfl
  · by_contra hlt
    subst hk
    have := (hR.fresh k (by omega)).1
    rw [halter k rfl] at this
    exact GuardWord.noConfusion this
  · refine hR.place.update hword hparty hnode (fun c form hswap hg => ?_)
      (by rw [hp]; exact Party.noConfusion) (fun state k now' hcas hg => ?_)
    · have hplace := hR.place
      rw [hswap] at hplace
      exact ⟨hg ▸ hplace.1, fun ho => (hother ho).elim⟩
    · refine harm ?_
      rw [Sys.Arming, hcas]
      exact hg

theorem Guard.left_ne_alter (g : Guard) : g.left ≠ .alter := by
  cases g <;> exact GuardWord.noConfusion

/-- While the party of a guard is about to swap, the ALTer is not putting its word back. -/
theorem Refs.not_restoring (h : Refs s O V) {g : Guard} (hp : s.party g ≠ .parked) :
    s.pc.restoring ≠ some g := by
  intro hg
  have hplace := h.place
  cases hpc : s.pc <;> rw [hpc] at hg hplace <;> simp only [Pc.restoring] at hg <;> cases hg
  exact hp hplace.2.2

theorem inv_swap (h : s.Inv) {g : Guard} (hp : s.party g = .loaded) (harm : ¬ s.Arming g) :
    (s.swap g).Inv := by
  obtain ⟨O, V, f, count, hR, hC⟩ := h
  have hparked : s.party g ≠ .parked := by rw [hp]; exact Party.noConfusion
  have hrestoring := hR.not_restoring hparked
  refine ⟨O, V, f, count, hR.update (w := g.left)
    (p := if s.word g = .alter then .trigger else .parked) rfl rfl rfl rfl
    (fun g' => ?_) (fun g' => ?_) (fun _ => rfl) (fun hi => ?_) (fun k hk => ?_) ?_,
    hC.unchanged rfl rfl rfl rfl rfl⟩
  · split_ifs with hg halter
    · rw [hR.refers g', Sys.Refers, hg]
      exact ⟨fun _ => .inr trivial, fun _ => .inl ⟨halter, hrestoring⟩⟩
    · rw [hR.refers g', Sys.Refers, hg, hp]
      simp [halter, g.left_ne_alter, Party.InFlight]
    · rfl
  · split_ifs with hg
    · rw [hR.wakers g', hg, hp]
      simp
    · rw [hR.wakers g', hg, hp]
      simp
    · rfl
  · split_ifs at hi <;> simp at hi
  · subst hk
    exact ⟨GuardWord.noConfusion, hR.node_lt (by rw [hp]; exact Party.noConfusion)⟩
  · refine hR.place.update rfl rfl rfl (fun c form hswap hg => ?_) hparked
      (fun state k now' hcas hg => ?_)
    · have hplace := hR.place
      rw [hswap] at hplace
      exact ⟨g.left_ne_alter, fun _ => if_neg (hg ▸ hplace.1)⟩
    · refine harm ?_
      rw [Sys.Arming, hcas]
      exact hg

/-- A party in `trigger_alt_guard` goes on in it: the reference is still outstanding. -/
theorem Refs.inFlight {t : Sys} (h : Refs s O V) {g : Guard} {p : Party}
    (hp : (s.party g).InFlight) (hp' : p.InFlight) (hword : t.word = s.word)
    (hparty : t.party = Function.update s.party g p) (hpc : t.pc = s.pc)
    (hnode : t.nextNode = s.nextNode) : Refs t O V := by
  have hleft := h.flight g hp
  have hparked : s.party g ≠ .parked := fun he => by simp [he, Party.InFlight] at hp
  have hidle : s.party g ≠ .idle := fun he => by simp [he, Party.InFlight] at hp
  have hword' : t.word = Function.update s.word g (s.word g) := by
    rw [Function.update_eq_self, hword]
  refine h.update hword' hparty hpc hnode (fun g' => ?_) (fun g' => ?_) (fun _ => hleft)
    (fun hi => ?_) (fun k hk => ⟨hk ▸ h.nodes k, h.node_lt (hk ▸ hidle)⟩) ?_
  · split_ifs with hg
    · rw [h.refers g', hg]
      exact ⟨fun _ => .inr hp', fun _ => .inr hp⟩
    · rfl
  · split_ifs with hg
    · rw [h.wakers g', hg]
      exact ⟨fun he => by simp [he, Party.InFlight] at hp,
        fun he => by simp [he, Party.InFlight] at hp'⟩
    · rfl
  · rcases hi with rfl | rfl <;> exact hp'.elim
  · refine h.place.update hword' hparty hnode (fun c form hswap hg => ?_) hparked
      (fun state k now hcas hg => ?_)
    · have hplace := h.place
      rw [hswap] at hplace
      subst hg
      exact (hparked (hplace.2 hleft)).elim
    · have hplace := h.place
      rw [hcas] at hplace
      exact hidle (hg ▸ hplace.2.1)

theorem inv_trigger (h : s.Inv) {g : Guard} (hp : s.party g = .trigger) :
    (s.setParty g (.triggerCas s.state)).Inv := by
  obtain ⟨O, V, f, count, hR, hC⟩ := h
  exact ⟨O, V, f, count, hR.inFlight (p := .triggerCas s.state) (by rw [hp]; trivial) trivial
    rfl rfl rfl rfl,
    hC.unchanged rfl rfl rfl rfl rfl⟩

/-! ## The compare-and-swap of a trigger -/

/-- A trigger leaves flags that may be set where the ALTer is. -/
theorem Pc.Flags.trigger {p : Pc} {state state' : Word} (h : p.Flags state f) :
    p.Flags state' (f &&& ~~~(altNotReady ||| altWaiting)) := by
  cases p <;> simp only [Pc.Flags, Challenged] at h ⊢
  case altwtCas | taltwtCas =>
    obtain ⟨hne, ⟨rfl, -⟩ | rfl⟩ := h <;> exact ⟨hne, .inr (by decide)⟩
  case altwtClear | waiting => rcases h with rfl | rfl <;> decide
  case enabling | enbcSwap | enbcRestore | enbcInc | readyLoad | readyAnd | taltwtAnd =>
    rcases h with rfl | rfl | rfl <;> decide
  all_goals
    rw [h]
    decide

/-- In flags and count: the ALTer waits, or the last reference goes and no flag is left. -/
theorem wakes_pack_iff {p : Pc} {state : Word} (hf : p.Flags state f)
    (hc : c + 1 < 2 ^ countBits) :
    Sys.Wakes (pack f (c + 1)) ↔ f = altWaiting ∨ f = 0 ∧ c = 0 := by
  rw [Sys.Wakes, pack_and hf.high high_altWaiting hc, triggerState_pack hf.high hc,
    pack_eq_zero_iff (hf.high.and _) (by omega)]
  rcases hf.cases with rfl | rfl | rfl | rfl <;> simp +decide

/-- **A trigger wakes an ALTer exactly when it makes it due.** -/
theorem due_trigger (hC : Counts s n v f (c + 1)) (hpos : 0 < n)
    (hmeets : ∀ c, s.pc = .enbcInc c → s.state ≠ 1) :
    s.pc.due (f &&& ~~~(altNotReady ||| altWaiting)) c =
      s.pc.due f (c + 1) + if Sys.Wakes s.state then 1 else 0 := by
  have hidle : s.pc ≠ .idle := fun hi => by
    have := hC.idle hi
    omega
  have hflags := hC.flags hidle
  have hcount := hC.count hidle
  have hwakes := wakes_pack_iff hflags hC.bound
  rw [← hC.state hidle] at hwakes
  cases hpc : s.pc <;> rw [hpc] at hflags hcount <;>
    simp only [Pc.Flags, Challenged, Pc.own] at hflags hcount
  case waiting =>
    have hc : c ≠ 0 := by omega
    rcases hflags with rfl | rfl
    · rw [if_pos (hwakes.mpr (.inl rfl))]
      rfl
    · rw [if_neg (fun hw => by rcases hwakes.mp hw with hw | hw <;> simp_all +decide)]
      rfl
  case ending =>
    subst hflags
    simp only [Pc.due, Nat.add_one_ne_zero, if_false, zero_add]
    by_cases hc : c = 0
    · rw [if_pos hc, if_pos (hwakes.mpr (.inr ⟨rfl, hc⟩))]
    · rw [if_neg hc, if_neg (fun hw => by
        rcases hwakes.mp hw with hw | hw <;> simp_all +decide)]
  case idle => exact (hidle hpc).elim
  case enbcInc d =>
    -- the only place on the ALTer's processor where the count may be one
    have hnot : ¬ Sys.Wakes s.state := fun hw => by
      rcases hwakes.mp hw with rfl | ⟨rfl, rfl⟩
      · exact absurd hflags (by decide)
      · exact hmeets d hpc (hC.state hidle)
    rw [if_neg hnot]
    rfl
  case taltwtCas state tn now =>
    have hnot : ¬ Sys.Wakes s.state := fun hw => by
      rcases hwakes.mp hw with rfl | ⟨rfl, -⟩ <;> exact absurd hflags.2 (by simp +decide)
    rw [if_neg hnot]
    rfl
  all_goals
    have hc : c ≠ 0 := by omega
    have hnot : ¬ Sys.Wakes s.state := fun hw => by
      rcases hwakes.mp hw with rfl | hw
      · exact absurd hflags (by simp +decide)
      · exact hc hw.2
    rw [if_neg hnot]
    rfl

/-- The compare-and-swap takes the reference of `g` off the count. -/
theorem Counts.trigger {t : Sys} (hC : Counts s n v f (c + 1)) (hpos : 0 < n)
    (hmeets : ∀ c, s.pc = .enbcInc c → s.state ≠ 1)
    (hstate : t.state = Sys.triggerState s.state) (hpc : t.pc = s.pc)
    (hqueued : t.queued = s.queued) (hlog : t.log = s.log) :
    Counts t (n - 1) (v + if Sys.Wakes s.state then 1 else 0)
      (f &&& ~~~(altNotReady ||| altWaiting)) c where
  state hi := by
    rw [hstate, hC.state (hpc ▸ hi)]
    exact triggerState_pack (hC.high (hpc ▸ hi)) hC.bound
  count hi := by
    have := hC.count (hpc ▸ hi)
    rw [hpc]
    omega
  bound := by
    have := hC.bound
    omega
  flags hi := by
    rw [hpc]
    exact (hC.flags (hpc ▸ hi)).trigger
  idle hi := by
    have := hC.idle (hpc ▸ hi)
    omega
  published hi hf := by
    rcases (hC.flags (hpc ▸ hi)).cases with rfl | rfl | rfl | rfl <;>
      exact absurd hf (by decide)
  wakes := by
    rw [hqueued, hpc, due_trigger hC hpos hmeets, ← hC.wakes]
    omega
  stage := by rw [hlog, hC.stage, Sys.stage, Sys.stage, hpc, hqueued]

theorem inv_triggerCas (h : s.Inv) {g : Guard} {state : Word} (hp : s.party g = .triggerCas state)
    (hmeets : s.state = state → ∀ c, s.pc = .enbcInc c → s.state ≠ 1) :
    (s.triggerCas g state).Inv := by
  obtain ⟨O, V, f, count, hR, hC⟩ := h
  have hflying : (s.party g).InFlight := by rw [hp]; trivial
  unfold Sys.triggerCas
  by_cases heq : s.state = state
  swap
  · rw [if_neg heq]
    exact ⟨O, V, f, count, hR.inFlight (p := .trigger) hflying trivial rfl rfl rfl rfl,
      hC.unchanged rfl rfl rfl rfl rfl⟩
  rw [if_pos heq]
  have hg : g ∈ O := (hR.refers g).mpr (.inr hflying)
  have hpos : 0 < O.card := Finset.card_pos.mpr ⟨g, hg⟩
  have hidle : s.pc ≠ .idle := fun hi => by
    have := hC.idle hi
    omega
  obtain ⟨c, rfl⟩ : ∃ c, count = c + 1 := by
    have := hC.count hidle
    cases hpc : s.pc <;> rw [hpc] at this <;> simp only [Pc.own] at this <;>
      exact ⟨count - 1, by omega⟩
  have hC' := hC.trigger hpos (hmeets heq)
    (t := ({ s with state := Sys.triggerState state }.setParty g
      (if Sys.Wakes state then .enqueue else .parked)))
    (heq ▸ rfl) rfl rfl rfl
  have hleft := hR.flight g hflying
  have hparked : s.party g ≠ .parked := by rw [hp]; exact Party.noConfusion
  have hgV : g ∉ V := fun hm => by
    have := (hR.wakers g).mp hm
    rw [hp] at this
    exact Party.noConfusion this
  rw [← Finset.card_erase_of_mem hg] at hC'
  refine ⟨O.erase g, if Sys.Wakes state then insert g V else V,
    f &&& ~~~(altNotReady ||| altWaiting), c, ?_, ?_⟩
  · refine hR.update (w := s.word g) (p := if Sys.Wakes state then .enqueue else .parked)
      (by rw [Function.update_eq_self]; rfl) rfl rfl rfl (fun g' => ?_) (fun g' => ?_)
      (fun hf => ?_) (fun hi => ?_) (fun k hk => ⟨hk ▸ hR.nodes k, ?_⟩) ?_
    · rw [Finset.mem_erase]
      split_ifs with hg' <;> simp [hg', hleft, g.left_ne_alter, Party.InFlight]
    · split_ifs with hw hg' hg' <;> simp_all
    · split_ifs at hf <;> exact hf.elim
    · split_ifs at hi <;> simp at hi
    · exact hR.node_lt (by rw [← hk, hp]; exact Party.noConfusion)
    · refine hR.place.update (w := s.word g) (by rw [Function.update_eq_self]; rfl) rfl rfl
        (fun c form hswap hg => ?_) hparked (fun state k now hcas hg => ?_)
      · have hplace := hR.place
        rw [hswap] at hplace
        subst hg
        exact (hparked (hplace.2 hleft)).elim
      · have hplace := hR.place
        rw [hcas] at hplace
        have := hplace.2.1
        rw [← hg, hp] at this
        exact Party.noConfusion this
  · rw [heq] at hC'
    split_ifs with hw
    · simp only [if_pos hw] at hC'
      rw [Finset.card_insert_of_notMem hgV]
      exact hC'
    · simp only [if_neg hw] at hC'
      exact hC'

/-! ## Enqueueing and resuming -/

/-- The ALTer is due at most once, and only where it is parked. -/
theorem Pc.due_le (p : Pc) (f : Word) (c : ℕ) : p.due f c ≤ 1 ∧ (0 < p.due f c → ¬ p.Running) := by
  cases p
  case waiting | ending =>
    simp only [Pc.due, Pc.Running]
    split_ifs <;> simp
  all_goals exact ⟨Nat.zero_le _, fun h => absurd h (lt_irrefl 0)⟩

theorem inv_enqueue (h : s.Inv) {g : Guard} (hp : s.party g = .enqueue) : (s.enqueue g).Inv := by
  obtain ⟨O, V, f, count, hR, hC⟩ := h
  have hg : g ∈ V := (hR.wakers g).mpr hp
  have hcard := Finset.card_erase_add_one hg
  obtain ⟨hdue, hrunning⟩ := s.pc.due_le f count
  have hwakes := hC.wakes
  have hnot : ¬ s.pc.Running := hrunning (by omega)
  have hzero : s.queued = 0 := by omega
  have hparked : s.party g ≠ .parked := by rw [hp]; exact Party.noConfusion
  have hidle : s.party g ≠ .idle := by rw [hp]; exact Party.noConfusion
  refine ⟨O, V.erase g, f, count, ?_, ?_⟩
  · refine hR.update (w := s.word g) (p := .parked) (by rw [Function.update_eq_self]; rfl) rfl rfl
      rfl (fun g' => ?_) (fun g' => ?_) (fun hf => hf.elim) (fun hi => by simp at hi)
      (fun k hk => ⟨hk ▸ hR.nodes k, hR.node_lt (hk ▸ hidle)⟩) ?_
    · split_ifs with hg'
      · rw [hR.refers g', Sys.Refers, hg', hp]
        rfl
      · rfl
    · rw [Finset.mem_erase]
      split_ifs with hg' <;> simp [hg']
    · cases hpc : s.pc <;> first | trivial | (rw [hpc] at hnot; exact (hnot trivial).elim)
  · refine ⟨hC.state, hC.count, hC.bound, hC.flags, hC.idle, hC.published, ?_, ?_⟩
    · change s.queued + 1 + (V.erase g).card = s.pc.due f count
      omega
    · have hstage := hC.stage
      change Stage.after (.enqueue :: s.log) = _
      cases hpc : s.pc <;> rw [hpc] at hnot <;>
        simp_all [Pc.Running, Sys.stage, Stage.after, Sys.enqueue, Sys.setParty]

theorem inv_resume (h : s.Inv) {t : Sys} (hresume : s.resume = some t) : t.Inv := by
  obtain ⟨O, V, f, count, hR, hC⟩ := h
  obtain ⟨hdue, -⟩ := s.pc.due_le f count
  have hwakes := hC.wakes
  have hcount := hC.count
  have hflags := hC.flags
  have hstage := hC.stage
  unfold Sys.resume at hresume
  split_ifs at hresume with hzero
  have hone : s.queued = 1 := by omega
  have hV : V.card = 0 := by omega
  have hfull : s.pc.due f count = 1 := by omega
  dsimp only at hresume
  split at hresume
  · rename_i hpc
    cases hresume
    have hidle : s.pc ≠ .idle := by rw [hpc]; exact Pc.noConfusion
    have hcount := hC.count hidle
    rw [hpc] at hfull hcount
    simp only [Pc.due, ite_eq_left_iff, zero_ne_one, imp_false, not_not] at hfull
    subst hfull
    refine ⟨O, V, 0, count, hR.move rfl rfl rfl (by rw [hpc]; rfl) trivial, fun _ =>
      hC.state hidle, fun _ => hcount, hC.bound, fun _ => rfl, fun hi => Pc.noConfusion hi,
      fun _ hf => absurd hf (by decide), ?_, ?_⟩
    · change s.queued - 1 + V.card = 0
      omega
    · change Stage.after (.resume :: s.log) = some .running
      simp_all [Sys.stage, Stage.after]
  · rename_i hpc
    cases hresume
    have hidle : s.pc ≠ .idle := by rw [hpc]; exact Pc.noConfusion
    have hcount := hC.count hidle
    rw [hpc] at hfull hcount
    simp only [Pc.due, ite_eq_left_iff, zero_ne_one, imp_false, not_not] at hfull
    refine inv_idle (hR.move rfl rfl rfl (by rw [hpc]; rfl) trivial) ?_ ?_ hV ?_ rfl
    · change Stage.after (.resume :: s.log) = some .running
      simp_all [Sys.stage, Stage.after]
    · change s.queued - 1 = 0
      omega
    · change count = O.card + 0 at hcount
      omega
  · cases hresume

theorem inv_consume (h : s.Inv) {c : ℕ} {t : Sys} (hconsume : s.consume c = some t) : t.Inv := by
  obtain ⟨O, V, f, count, hR, hC⟩ := h
  unfold Sys.consume at hconsume
  split_ifs at hconsume with hready
  obtain ⟨hpc, hword, hp⟩ := hready
  cases hconsume
  refine ⟨O, V, f, count, hR.update (w := .notProcess) (p := .idle) rfl rfl rfl rfl (fun g' => ?_)
    (fun g' => ?_) (fun hf => hf.elim) (fun _ => GuardWord.noConfusion)
    (fun k hk => Guard.noConfusion hk) (by rw [hpc]; trivial), hC.unchanged rfl rfl rfl rfl rfl⟩
  · split_ifs with hg
    · rw [hR.refers g', Sys.Refers, hg, hword, hp]
      simp [Party.InFlight]
    · rfl
  · split_ifs with hg
    · rw [hR.wakers g', hg, hp]
      simp
    · rfl

end Alt

end Ccsp

end Kroc
