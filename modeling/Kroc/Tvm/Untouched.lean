import Kroc.Tvm.Places

/-!
# Tvm/Untouched — what scheduling does not touch

The run queue and the timer queue are made of the words `WS_LINK`, `WS_TLINK`, `WS_TIME` and
`WS_IPTR`, and of `WS_STATE` when somebody expires: the channel words, the process counts and the
words 0 of the workspaces are left alone by all of `scheduler.c`, whatever the lists look like.
-/

namespace Kroc

namespace Tvm

open Ectx

/-- The scheduler's own words are all that differs, and who is ready stays ready. -/
structure Untouched (s t : Ectx) : Prop where
  chan : t.chan = s.chan
  top : ∀ w (k : Slot), k = .count ∨ k = .temp → t.mem w k = s.mem w k
  state : ∀ w, t.mem w .state = s.mem w .state ∨ t.mem w .state = ready

namespace Untouched

variable {s t u : Ectx}

theorem refl (s : Ectx) : Untouched s s := ⟨rfl, fun _ _ _ => rfl, fun _ => Or.inl rfl⟩

/-- One call after the other. -/
theorem trans (h : Untouched s t) (h' : Untouched t u) : Untouched s u := by
  refine ⟨h'.chan.trans h.chan, fun w k hk => (h'.top w k hk).trans (h.top w k hk), fun w => ?_⟩
  rcases h'.state w with e | e
  · exact (h.state w).imp e.trans e.trans
  · exact Or.inr e

/-- The registers do not matter. -/
theorem regs (h : Untouched s t) {u : Ectx} (hmem : u.mem = t.mem) (hchan : u.chan = t.chan) :
    Untouched s u :=
  ⟨hchan.trans h.chan, by rw [hmem]; exact h.top, by rw [hmem]; exact h.state⟩

/-- A word of the scheduler. -/
theorem set (h : Untouched s t) (ws v : Word) {k : Slot}
    (hk : k ≠ .count ∧ k ≠ .temp ∧ (k = .state → v = ready)) : Untouched s (t.set ws k v) := by
  refine h.trans ⟨rfl, fun w k' hk' => ?_, fun w => ?_⟩
  · rw [mem_set, if_neg]
    rintro ⟨-, rfl⟩
    exact hk'.elim hk.1 hk.2.1
  · rw [mem_set]
    split_ifs with e
    · exact Or.inr (hk.2.2 e.2.symm)
    · exact Or.inl rfl

/-- Enqueueing writes links only. -/
theorem addToQueue (s : Ectx) (ws : Word) : Untouched s (s.addToQueue ws) := by
  by_cases h : s.fptr = notProcess
  · rw [addToQueue_of_empty h]
    exact ((refl s).set ws notProcess (by decide)).regs rfl rfl
  · rw [addToQueue_of_ne h]
    exact (((refl s).set ws notProcess (by decide)).set s.bptr ws (by simp)).regs rfl rfl

theorem addToQueueIptr (s : Ectx) (ws ip : Word) : Untouched s (s.addToQueueIptr ws ip) :=
  ((refl s).set ws ip (k := .iptr) (by simp)).trans (addToQueue _ ws)

theorem insertLoop {ws reschedule : Word} {fuel : ℕ} {this next : Word}
    (h : Ectx.insertLoop ws reschedule fuel s this next = some t) : Untouched s t := by
  induction fuel generalizing this next with
  | zero => cases h
  | succ fuel ih =>
    rw [Ectx.insertLoop] at h
    split_ifs at h
    · cases h
      exact ((refl s).set _ _ (by simp)).set _ _ (by decide)
    · cases h
      exact ((refl s).set _ _ (by simp)).set _ _ (by simp)
    · exact ih h

theorem timerQueueInsert {ws reschedule : Word}
    (h : s.timerQueueInsert ws reschedule = some t) : Untouched s t := by
  rw [Ectx.timerQueueInsert] at h
  split_ifs at h
  · cases h
    exact ((((refl s).regs rfl rfl).set _ _ (by simp)).set _ _ (by decide)).regs rfl rfl
  · cases h
    exact ((refl s).set _ _ (by simp)).regs rfl rfl
  · exact insertLoop h

theorem removeLoop {ws : Word} {fuel : ℕ} {previous current : Word}
    (h : Ectx.removeLoop ws fuel s previous current = some t) : Untouched s t := by
  induction fuel generalizing previous current with
  | zero => cases h
  | succ fuel ih =>
    rw [Ectx.removeLoop] at h
    split_ifs at h
    · cases h
      exact refl s
    · cases h
      exact (refl s).set _ _ (by simp)
    · exact ih h

theorem timerQueueRemove {ws : Word} (h : s.timerQueueRemove ws = some t) : Untouched s t := by
  rw [Ectx.timerQueueRemove] at h
  dsimp only at h
  split_ifs at h
  · cases h
    refine Untouched.set ?_ _ _ (by decide)
    exact (refl s).regs rfl rfl
  · cases h
    refine Untouched.set ?_ _ _ (by decide)
    exact (refl s).regs rfl rfl
  · obtain ⟨u, hu, rfl⟩ := Option.map_eq_some_iff.mp h
    exact (removeLoop hu).set _ _ (by decide)
  · cases h
    exact (refl s).set _ _ (by decide)

theorem expire (s : Ectx) (now ws : Word) : Untouched s (s.expire now ws) := by
  have h : Untouched s ((s.set ws .tlink timeSet).set ws .time now) :=
    ((refl s).set _ _ (by decide)).set _ _ (by simp)
  unfold Ectx.expire
  dsimp only
  split_ifs
  · exact (h.set _ _ (by decide)).trans (addToQueue _ _)
  · exact h

theorem walkLoop {now : Word} {fuel : ℕ} {tptr : Word}
    (h : Ectx.walkLoop now fuel s tptr = some t) : Untouched s t := by
  induction fuel generalizing s tptr with
  | zero => cases h
  | succ fuel ih =>
    rw [Ectx.walkLoop] at h
    dsimp only at h
    have hexpire := expire s now tptr
    split_ifs at h
    · cases h
      exact hexpire.regs rfl rfl
    · cases h
      exact hexpire.regs rfl rfl
    · exact hexpire.trans (ih h)

theorem walkTimerQueue {now : Word} (h : s.walkTimerQueue now = some t) : Untouched s t := by
  rw [Ectx.walkTimerQueue] at h
  split_ifs at h
  · cases h
    exact refl s
  · exact walkLoop h

theorem takeNext (s : Ectx) : Untouched s s.takeNext.2 := by
  unfold Ectx.takeNext
  dsimp only
  split_ifs <;> exact (refl s).regs rfl rfl

/-- **Running the next process** touches its own words only. -/
theorem runNextOnQueue {now : Word} {r : Ret × Ectx} (h : s.runNextOnQueue now = some r) :
    Untouched s r.2 := by
  rw [Ectx.runNextOnQueue] at h
  split_ifs at h
  · obtain ⟨r', hr', rfl⟩ := Option.map_eq_some_iff.mp h
    have hsync : Untouched s r'.2 := by
      rw [synchronise] at hr'
      split_ifs at hr'
      · cases hr'
        exact refl s
      · obtain ⟨u, hu, rfl⟩ := Option.map_eq_some_iff.mp hr'
        dsimp only
        split_ifs
        · exact (walkTimerQueue hu).regs rfl rfl
        · exact walkTimerQueue hu
    split_ifs
    · exact hsync.trans (takeNext _)
    · exact hsync.regs rfl rfl
  · cases h
    exact takeNext s

end Untouched

/-! ## The instructions -/

section Instructions

variable {s t : Ectx} {now wake : Word}

/-- The words at the top of a workspace that an instruction of the process at `wptr` writes. -/
def Ins.WritesTop (wptr : Word) : Ins → Word → Slot → Prop
  | .stl0 _, w, k => w = wptr ∧ k = .temp
  | .stl1 _, w, k => w = wptr ∧ k = .count
  | .endp parent, w, k => w = parent ∧ k = .count
  | .outbyte .., w, k | .outword .., w, k | .altwt, w, k | .taltwt, w, k | .disc .., w, k
  | .diss .., w, k | .dist .., w, k => w = wptr ∧ k = .temp
  | _, _, _ => False

/-- Who had a guard on a channel has it still, or is ready. -/
def Tagged (s t : Ectx) (v chan : Word) : Prop :=
  s.chan chan = v ||| 1 → t.chan chan = v ||| 1 ∨ t.mem v .state = ready

/-- What follows leaves the channel words alone. -/
theorem Tagged.trans {u : Ectx} {v chan : Word} (h : Tagged s t v chan) (h' : Untouched t u) :
    Tagged s u v chan := by
  intro e
  rcases h e with e' | e'
  · exact Or.inl (by rw [h'.chan, e'])
  · exact Or.inr ((h'.state v).elim (fun e'' => e''.trans e') id)

theorem Untouched.requeueOrNext {requeue : Word} {r : Ret × Ectx}
    (h : s.requeueOrNext requeue wake = some r) : Untouched s r.2 := by
  rw [Ectx.requeueOrNext] at h
  split_ifs at h
  · rw [loadProcess] at h
    split_ifs at h
    cases h
    exact (Untouched.refl s).regs rfl rfl
  · exact Untouched.runNextOnQueue h

theorem Untouched.descheduleCurrent (s : Ectx) : Untouched s s.descheduleCurrent :=
  (Untouched.addToQueueIptr s s.wptr s.iptr).regs rfl rfl

/-- What is saved in a channel word are words of the current process. -/
theorem mem_saveInChan (s : Ectx) (chan data len requeue : Word) {w : Word} {k : Slot}
    (hk : w ≠ s.wptr ∨ k = .count ∨ k = .temp) : (s.saveInChan chan data len requeue).2.2.mem w k =
      s.mem w k := by
  rcases hk with hk | rfl | rfl
  · simp [saveInChan, setChan, hk]
  · simp [saveInChan, setChan]
  · simp [saveInChan, setChan]

/-- **A standard channel instruction** leaves the tops of the workspaces alone, and makes ready who
has a guard on the channel. -/
theorem chanStdIo_effect {dir : Dir} {chan data len : Word} {r : Ret × Ectx}
    (h : s.chanStdIo dir chan data len wake = some r) :
    (∀ w (k : Slot), k = .count ∨ k = .temp → r.2.mem w k = s.mem w k) ∧
      ∀ v k, IsWorkspace v → v ≠ s.wptr → Tagged s r.2 v k := by
  have hother : ∀ {u : Ectx} {v k : Word}, k ≠ chan →
      (∀ k', k' ≠ chan → u.chan k' = s.chan k') → Tagged s u v k :=
    fun hk hu e => Or.inl (by rw [hu _ hk, e])
  rw [chanStdIo, chanIo] at h
  dsimp only at h
  by_cases hempty : s.chan chan = notProcess
  · rw [if_pos hempty] at h
    have hrest := Untouched.requeueOrNext h
    refine ⟨fun w k hk => (hrest.top w k hk).trans
      (mem_saveInChan s chan data len notProcess (Or.inr hk)),
      fun v k hv hne => Tagged.trans (fun e => ?_) hrest⟩
    by_cases hk : k = chan
    · rw [hk, hempty] at e
      have := tagged_ne_zero (w := v)
      rw [← e] at this
      exact absurd rfl this
    · exact hother hk (fun k' hk' => by simp [setChan, hk']) e
  · rw [if_neg hempty] at h
    by_cases hplain : s.chan chan &&& 1 = 0
    · rw [if_pos hplain] at h
      dsimp only at h
      rw [if_pos hempty] at h
      have hrest := (Untouched.descheduleCurrent _).trans (Untouched.requeueOrNext h)
      refine ⟨fun w k hk => (hrest.top w k hk).trans (by cases dir <;> rfl),
        fun v k hv hne => Tagged.trans (fun e => ?_) hrest⟩
      by_cases hk : k = chan
      · rw [hk] at e
        rw [e] at hplain
        exact absurd hplain tagged_ne_zero
      · exact hother hk (fun k' hk' => by cases dir <;> simp [channelMove, memcpy, setChan, hk']) e
    · rw [if_neg hplain] at h
      by_cases hnull : s.chan chan &&& ~~~1 = notProcess
      · rw [if_neg (not_not.mpr hnull)] at h
        dsimp only at h
        rw [if_pos hempty] at h
        have hrest := (Untouched.descheduleCurrent _).trans (Untouched.requeueOrNext h)
        refine ⟨fun w k hk => (hrest.top w k hk).trans (by cases dir <;> rfl),
          fun v k hv hne => Tagged.trans (fun e => Or.inl ?_) hrest⟩
        rw [← e]
        cases dir <;> rfl
      · rw [if_pos hnull] at h
        -- whoever is there with a guard is, or becomes, ready
        have hsaved : ∀ u : Ectx, u.wptr = s.wptr → u.chan = s.chan →
            (∀ w (k : Slot), k = .count ∨ k = .temp → u.mem w k = s.mem w k) →
            u.mem (s.chan chan &&& ~~~1) .state = ready →
            ∀ requeue, (u.saveInChan chan data len requeue).2.2.requeueOrNext requeue wake =
              some r →
            (∀ w (k : Slot), k = .count ∨ k = .temp → r.2.mem w k = s.mem w k) ∧
              ∀ v k, IsWorkspace v → v ≠ s.wptr → Tagged s r.2 v k := by
          intro u hwptr hchan htop hready requeue hr
          have hrest := Untouched.requeueOrNext hr
          refine ⟨fun w k hk => ((hrest.top w k hk).trans
            (mem_saveInChan u chan data len requeue (Or.inr hk))).trans (htop w k hk),
            fun v k hv hne => Tagged.trans (fun e => ?_) hrest⟩
          by_cases hk : k = chan
          · right
            rw [hk] at e
            rw [e, hv.untag] at hready
            rw [mem_saveInChan u chan data len requeue (Or.inl (hwptr ▸ hne)), hready]
          · refine hother hk (fun k' hk' => ?_) e
            simp [saveInChan, setChan, hk', hchan]
        by_cases hset : s.mem (s.chan chan &&& ~~~1) .state = waiting ∨
            s.mem (s.chan chan &&& ~~~1) .state = enabling
        · rw [if_pos hset] at h
          refine hsaved (s.set (s.chan chan &&& ~~~1) .state ready) rfl rfl (fun w k hk => ?_)
            (by simp) _ h
          rw [mem_set, if_neg]
          rintro ⟨-, rfl⟩
          exact hk.elim (by decide) (by decide)
        · rw [if_neg hset] at h
          by_cases hready : s.mem (s.chan chan &&& ~~~1) .state = ready
          · rw [if_pos hready] at h
            exact hsaved s rfl rfl (fun _ _ _ => rfl) hready _ h
          · rw [if_neg hready] at h
            cases h
            exact ⟨fun _ _ _ => rfl, fun _ _ _ _ e => Or.inl e⟩

/-- What an instruction may do to the channel words, the tops of the workspaces and the states, the
process at `w` executing it. -/
structure Effect (s t : Ectx) (w : Word) (writes : Word → Slot → Prop) : Prop where
  top : ∀ v (k : Slot), k = .count ∨ k = .temp → ¬ writes v k → t.mem v k = s.mem v k
  tag : ∀ v k, IsWorkspace v → v ≠ w → Tagged s t v k

variable {w : Word} {writes : Word → Slot → Prop}

theorem Effect.refl (s : Ectx) : Effect s s w writes :=
  ⟨fun _ _ _ _ => rfl, fun _ _ _ _ e => Or.inl e⟩

/-- The scheduler goes on. -/
theorem Effect.then {u : Ectx} (h : Effect s t w writes) (h' : Untouched t u) :
    Effect s u w writes :=
  ⟨fun v k hk hnot => (h'.top v k hk).trans (h.top v k hk hnot),
    fun v k hv hne => (h.tag v k hv hne).trans h'⟩

/-- One more word of the current process. -/
theorem Effect.set (h : Effect s t w writes) (slot : Slot) (value : Word)
    (hslot : slot ≠ .count ∧ slot ≠ .temp ∨ writes w slot) :
    Effect s (t.set w slot value) w writes := by
  refine ⟨fun v k hk hnot => ?_, fun v k hv hne e => ?_⟩
  · rw [mem_set, if_neg, h.top v k hk hnot]
    rintro ⟨rfl, rfl⟩
    exact hslot.elim (fun e => hk.elim e.1 e.2) hnot
  · rw [mem_set, if_neg fun e => hne e.1]
    exact h.tag v k hv hne e

/-- The registers and the bytes do not matter. -/
theorem Effect.regs {u : Ectx} (h : Effect s t w writes) (hmem : u.mem = t.mem)
    (hchan : u.chan = t.chan) : Effect s u w writes :=
  h.then ((Untouched.refl t).regs hmem hchan)

/-- A channel word that no other has a guard on. -/
theorem Effect.setChan (h : Effect s t w writes) (chan value : Word)
    (hnot : ∀ v, IsWorkspace v → v ≠ w → s.chan chan ≠ v ||| 1) :
    Effect s (t.setChan chan value) w writes := by
  refine ⟨h.top, fun v k hv hne e => ?_⟩
  by_cases hk : k = chan
  · exact absurd (hk ▸ e) (hnot v hv hne)
  · rcases h.tag v k hv hne e with e' | e'
    · exact Or.inl (by simp [Ectx.setChan, hk, e'])
    · exact Or.inr e'

theorem IsWorkspace.tag_inj {v : Word} (hv : IsWorkspace v) (hw : IsWorkspace w)
    (h : w ||| 1 = v ||| 1) : w = v := by
  rw [← hw.untag, h, hv.untag]

theorem IsWorkspace.tag_ne {v : Word} : notProcess ≠ v ||| 1 := by
  intro e
  have := tagged_ne_zero (w := v)
  rw [← e] at this
  exact this rfl

theorem Effect.select (h : Effect s t w writes) (hwptr : t.wptr = w) (process : Word)
    (hwrites : writes w .temp) : Effect s (t.select process).2 w writes := by
  unfold Ectx.select
  split_ifs
  · rw [hwptr]
    exact h.set _ _ (Or.inr hwrites)
  · exact h

theorem wptr_insertLoop {ws reschedule : Word} {fuel : ℕ} {this next : Word}
    (h : Ectx.insertLoop ws reschedule fuel s this next = some t) : t.wptr = s.wptr := by
  induction fuel generalizing this next with
  | zero => cases h
  | succ fuel ih =>
    rw [Ectx.insertLoop] at h
    split_ifs at h
    · cases h
      rfl
    · cases h
      rfl
    · exact ih h

/-- An insertion leaves the current process current. -/
theorem wptr_timerQueueInsert {ws reschedule : Word}
    (h : s.timerQueueInsert ws reschedule = some t) : t.wptr = s.wptr := by
  rw [Ectx.timerQueueInsert] at h
  split_ifs at h
  · cases h
    rfl
  · cases h
    rfl
  · exact wptr_insertLoop h

/-- Waiting in an alternative. -/
theorem Effect.altWait (h : Effect s t w writes) (hwptr : t.wptr = w) {r : Ret × Ectx}
    (hr : t.altWait wake = some r) : Effect s r.2 w writes := by
  rw [Ectx.altWait, hwptr] at hr
  exact (((h.set _ _ (Or.inl (by decide))).set _ _ (Or.inl (by decide))).set _ _
    (Or.inl (by decide))).then (Untouched.runNextOnQueue hr)

/-- A join counts in the workspace of its parent. -/
theorem effect_insEndp {parent : Word} {r : Ret × Ectx} (h : s.insEndp parent wake = some r) :
    Effect s r.2 s.wptr fun v k => v = parent ∧ k = .count := by
  have hset : ∀ value, Effect s (s.set parent .count value) s.wptr
      (fun v k => v = parent ∧ k = .count) := fun value =>
    ⟨fun _ _ _ hnot => if_neg hnot, fun _ _ _ _ e => Or.inl e⟩
  rw [insEndp] at h
  split_ifs at h
  · cases h
    exact (hset _).regs rfl rfl
  · exact (hset _).then (Untouched.runNextOnQueue h)

theorem effect_insTin {time now wake : Word} {r : Ret × Ectx}
    (h : s.insTin time now wake = some r) : Effect s r.2 s.wptr writes := by
  rw [insTin] at h
  split_ifs at h
  · cases h
    exact Effect.refl s
  · obtain ⟨u, hu, hr⟩ := Option.bind_eq_some_iff.mp h
    have hset : Effect s ((s.set s.wptr .time time).set s.wptr .iptr s.iptr) s.wptr writes :=
      ((Effect.refl s).set .time time (Or.inl (by decide))).set .iptr s.iptr (Or.inl (by decide))
    have hwptr : u.wptr = s.wptr := by
      rw [wptr_timerQueueInsert hu]
      rfl
    rw [hwptr] at hr
    exact ((hset.then (Untouched.timerQueueInsert hu)).set _ _ (Or.inl (by decide))).then
      (Untouched.runNextOnQueue hr)

/-- Enabling puts a guard on an empty channel word only. -/
theorem effect_insEnbc (guard chan : Word) :
    Effect s (s.insEnbc guard chan) s.wptr writes := by
  unfold insEnbc
  dsimp only
  split_ifs with hguard hempty hthis
  · refine (Effect.refl s).setChan _ _ fun v _ _ e => ?_
    rw [hempty] at e
    exact IsWorkspace.tag_ne e
  · exact (Effect.refl s).set _ _ (Or.inl (by decide))
  · exact Effect.refl s
  · exact Effect.refl s

theorem effect_insEnbs (guard : Word) : Effect s (s.insEnbs guard) s.wptr writes := by
  unfold insEnbs
  split_ifs
  · exact (Effect.refl s).set _ _ (Or.inl (by decide))
  · exact Effect.refl s

theorem effect_insEnbt (guard timeout : Word) :
    Effect s (s.insEnbt guard timeout) s.wptr writes := by
  unfold insEnbt
  split_ifs
  · exact ((Effect.refl s).set _ _ (Or.inl (by decide))).set _ _ (Or.inl (by decide))
  · exact (Effect.refl s).set _ _ (Or.inl (by decide))
  · exact Effect.refl s
  · exact Effect.refl s

theorem effect_insAltwt {r : Ret × Ectx} (h : s.insAltwt wake = some r)
    (hwrites : writes s.wptr .temp) : Effect s r.2 s.wptr writes := by
  have htemp := (Effect.refl s).set .temp noneSelected (Or.inr hwrites)
  rw [insAltwt] at h
  split_ifs at h
  · cases h
    exact htemp
  · exact htemp.altWait rfl h

theorem effect_insTaltwt {now wake : Word} {r : Ret × Ectx}
    (h : s.insTaltwt now wake = some r) (hwrites : writes s.wptr .temp) :
    Effect s r.2 s.wptr writes := by
  have htemp := (Effect.refl s).set .temp noneSelected (Or.inr hwrites)
  rw [insTaltwt] at h
  dsimp only at h
  split_ifs at h
  · cases h
    exact htemp.set _ _ (Or.inl (by decide))
  · cases h
    exact (htemp.set _ _ (Or.inl (by decide))).set _ _ (Or.inl (by decide))
  · obtain ⟨u, hu, hr⟩ := Option.bind_eq_some_iff.mp h
    have hwptr : u.wptr = s.wptr := by
      rw [wptr_timerQueueInsert hu]
      rfl
    have htime := htemp.set .time
      ((s.set s.wptr .temp noneSelected).mem s.wptr .time + 1) (Or.inl (by decide))
    exact (htime.then (Untouched.timerQueueInsert hu)).altWait hwptr hr
  · exact htemp.altWait rfl h

/-- Disabling takes the own guard away only. -/
theorem effect_insDisc (process guard chan : Word) (hw : IsWorkspace s.wptr)
    (hwrites : writes s.wptr .temp) :
    Effect s (s.insDisc process guard chan).2 s.wptr writes := by
  unfold insDisc
  split_ifs with hguard hthis
  · refine (Effect.refl s).setChan _ _ fun v hv hne e => hne ?_
    exact (hv.tag_inj hw (hthis.symm.trans e)).symm
  · exact (Effect.refl s).select rfl process hwrites
  · exact Effect.refl s
  · exact Effect.refl s

theorem effect_insDiss (process guard : Word) (hwrites : writes s.wptr .temp) :
    Effect s (s.insDiss process guard).2 s.wptr writes := by
  unfold insDiss
  split_ifs
  · exact (Effect.refl s).select rfl process hwrites
  · exact Effect.refl s

theorem effect_insDist {process guard timeout : Word} {r : Word × Ectx}
    (h : s.insDist process guard timeout = some r) (hwrites : writes s.wptr .temp) :
    Effect s r.2 s.wptr writes := by
  rw [insDist] at h
  split_ifs at h
  · cases h
    exact Effect.refl s
  · cases h
    exact (Effect.refl s).select rfl process hwrites
  · obtain ⟨u, hu, rfl⟩ := Option.map_eq_some_iff.mp h
    exact (Effect.refl s).then (Untouched.timerQueueRemove hu)
  · cases h
    exact Effect.refl s
  · cases h
    exact Effect.refl s

/-- **The effect of an instruction.** -/
theorem exec_effect {ins : Ins} (h : ins.exec s now wake = some t) (hw : IsWorkspace s.wptr) :
    Effect s t s.wptr (ins.WritesTop s.wptr) := by
  have hrefl : ∀ writes, Effect s s s.wptr writes := fun writes => Effect.refl s
  cases ins with
  | run =>
    obtain ⟨r, hr, rfl⟩ := Option.map_eq_some_iff.mp h
    exact (hrefl _).then (Untouched.runNextOnQueue hr)
  | «local» =>
    cases h
    exact hrefl _
  | stl0 value =>
    cases h
    exact (hrefl _).set _ _ (Or.inr ⟨rfl, rfl⟩)
  | stl1 value =>
    cases h
    exact (hrefl _).set _ _ (Or.inr ⟨rfl, rfl⟩)
  | store address value =>
    cases h
    exact (hrefl _).regs rfl rfl
  | ajw offset =>
    cases h
    exact (hrefl _).regs rfl rfl
  | startp ws offset =>
    cases h
    exact (hrefl _).then (Untouched.addToQueueIptr s ws _)
  | endp parent =>
    obtain ⟨r, hr, rfl⟩ := Option.map_eq_some_iff.mp h
    exact effect_insEndp hr
  | stopp =>
    obtain ⟨r, hr, rfl⟩ := Option.map_eq_some_iff.mp h
    exact ((hrefl _).set _ _ (Or.inl (by decide))).then (Untouched.runNextOnQueue hr)
  | input bytes chan data =>
    obtain ⟨r, hr, rfl⟩ := Option.map_eq_some_iff.mp h
    obtain ⟨htop, htag⟩ := chanStdIo_effect hr
    exact ⟨fun v k hk _ => htop v k hk, htag⟩
  | output bytes chan data =>
    obtain ⟨r, hr, rfl⟩ := Option.map_eq_some_iff.mp h
    obtain ⟨htop, htag⟩ := chanStdIo_effect hr
    exact ⟨fun v k hk _ => htop v k hk, htag⟩
  | outbyte data chan =>
    obtain ⟨r, hr, rfl⟩ := Option.map_eq_some_iff.mp h
    obtain ⟨htop, htag⟩ := chanStdIo_effect hr
    refine ⟨fun v k hk hnot => (htop v k hk).trans ?_, htag⟩
    exact if_neg hnot
  | outword data chan =>
    obtain ⟨r, hr, rfl⟩ := Option.map_eq_some_iff.mp h
    obtain ⟨htop, htag⟩ := chanStdIo_effect hr
    refine ⟨fun v k hk hnot => (htop v k hk).trans ?_, htag⟩
    exact if_neg hnot
  | tin time =>
    obtain ⟨r, hr, rfl⟩ := Option.map_eq_some_iff.mp h
    exact effect_insTin hr
  | alt =>
    cases h
    exact (hrefl _).set _ _ (Or.inl (by decide))
  | talt =>
    cases h
    exact ((hrefl _).set _ _ (Or.inl (by decide))).set _ _ (Or.inl (by decide))
  | enbc guard chan =>
    cases h
    exact effect_insEnbc guard chan
  | enbs guard =>
    cases h
    exact effect_insEnbs guard
  | enbt guard timeout =>
    cases h
    exact effect_insEnbt guard timeout
  | altwt =>
    obtain ⟨r, hr, rfl⟩ := Option.map_eq_some_iff.mp h
    exact effect_insAltwt hr ⟨rfl, rfl⟩
  | taltwt =>
    obtain ⟨r, hr, rfl⟩ := Option.map_eq_some_iff.mp h
    exact effect_insTaltwt hr ⟨rfl, rfl⟩
  | disc process guard chan =>
    cases h
    exact effect_insDisc process guard chan hw ⟨rfl, rfl⟩
  | diss process guard =>
    cases h
    exact effect_insDiss process guard ⟨rfl, rfl⟩
  | dist process guard timeout =>
    obtain ⟨r, hr, rfl⟩ := Option.map_eq_some_iff.mp h
    exact effect_insDist hr ⟨rfl, rfl⟩
  | altend =>
    cases h
    unfold insAltend
    split_ifs
    · exact (hrefl _).regs rfl rfl
    · exact hrefl _

end Instructions

end Tvm

end Kroc
