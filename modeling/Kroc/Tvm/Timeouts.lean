import Kroc.Tvm.PlacesSteps

/-!
# Tvm/Timeouts — when a timeout has passed

`tin` goes on at once only after its time, and so does `taltwt`; the walk of the timer queue and
`dist` take a time that is equal as passed.  Beside the machine of `Tvm/Machine` stands
the reading of the clock at which the alternative of each process became ready.
-/

namespace Kroc

namespace Tvm

open Ectx

/-- The alternative of a process has waited, and its time is recorded. -/
def Sys.isSet (sys : Sys) (w : Word) : Bool :=
  match sys.pos w with
  | some (.disabling true _) => sys.ectx.mem w .tlink = timeSet
  | _ => false

/-- **The reading at which an alternative became ready**: that of `taltwt` if it goes on, and that
of the walk if it is taken off the timer queue. -/
def recordedNext (sys sys' : Sys) (act : Act) (recorded : Word → Word) (w : Word) : Word :=
  if sys'.isSet w ∧ sys.isSet w = false then
    if w = sys.ectx.wptr ∧ goesOn sys.ectx act.now = true then act.now else act.wake
  else recorded w

/-- **A step**, and what it records. -/
def clockStep (r : Sys × (Word → Word)) (act : Act) : Option (Sys × (Word → Word)) :=
  (step r.1 act).map fun sys' => (sys', recordedNext r.1 sys' act r.2)

/-- The steps of a well-formed program, whatever the clock says. -/
def ClockOk (r : Sys × (Word → Word)) (act : Act) : Prop := StepOk r.1 act

/-- On the timer queue. -/
def OnTimerQueue (s : Ectx) (w : Word) : Prop := ∃ c, Linked notProcess s.tlinks s.tptr c ∧ w ∈ c

/-- `dist` selects its guard. -/
def Fires (s : Ectx) (process guard timeout : Word) : Prop :=
  ∃ s', s.insDist process guard timeout = some (1, s')

/-- **What is said of the timeouts in a step**, `passed reading time` being what it takes for a time
to have passed: a process that executes `tin` goes on at once only strictly after its time, and else
waits on the timer queue, from which the walk takes it when its time has passed; and `dist` selects
a guard only if its timeout had passed when the alternative became ready. -/
structure TimeoutsKept (passed : Word → Word → Prop) (r : Sys × (Word → Word)) (act : Act)
    (sys' : Sys) : Prop where
  tin : ∀ time, act.ins = .tin time → timeAfter act.now time = true ∨
    OnTimerQueue sys'.ectx r.1.ectx.wptr ∨
      (sys'.ectx.mem r.1.ectx.wptr .tlink = timeSet ∧ passed act.wake time)
  walk : ∀ w time, r.1.pos w = some (.timer time) → OnTimerQueue r.1.ectx w →
    ¬ OnTimerQueue sys'.ectx w → passed act.wake time
  dist : ∀ process guard timeout, act.ins = .dist process guard timeout →
    Fires r.1.ectx process guard timeout → passed (r.2 r.1.ectx.wptr) timeout

/-- **What is said of the timeouts in every run**, from a state in which nothing waits. -/
def Timeouts (passed : Word → Word → Prop) : Prop :=
  ∀ (sys₀ : Sys) (recorded₀ : Word → Word) (r : Sys × (Word → Word)) (act : Act) (sys' : Sys),
    Starts sys₀ → Transition.Reach clockStep ClockOk (sys₀, recorded₀) r → StepOk r.1 act →
    step r.1 act = some sys' → TimeoutsKept passed r act sys'

section Clock

variable {sys sys' : Sys} {act : Act} {q q' c c' : List Word} {w : Word}

/-- Only the process itself gets to disabling, and stays there while others execute. -/
theorem move_disabling {s : Ectx} {pos : Word → Option Pos} {v : Word} {ins : Ins}
    {timed : Bool} {guards : List Guard}
    (h : ins.move s pos v w = some (.disabling timed guards)) (hw : w ≠ v) :
    pos w = some (.disabling timed guards) := by
  have hself : ∀ x, Function.update pos v x w = pos w := fun x => Function.update_of_ne hw ..
  have hother : ∀ (f : Word → Option Pos) ws,
      Function.update f ws (some .plain) w = some (.disabling timed guards) →
        f w = some (.disabling timed guards) := fun f ws e => by
    by_cases hws : w = ws
    · rw [hws, Function.update_self] at e
      cases e
    · rwa [Function.update_of_ne hws] at e
  cases ins with
  | run => exact h
  | ajw offset => exact (hself none).symm.trans (hother _ _ h)
  | startp ws offset => exact hother _ _ h
  | endp parent =>
    rw [Ins.move] at h
    split_ifs at h
    · exact (hself none).symm.trans (hother _ _ h)
    · exact (hself none).symm.trans h
  | _ => exact (hself _).symm.trans h

theorem isSet_iff : sys.isSet w = true ↔
    (∃ guards, sys.pos w = some (.disabling true guards)) ∧ sys.ectx.mem w .tlink = timeSet := by
  unfold Sys.isSet
  split
  · rename_i guards hpos
    simp [hpos]
  · rename_i hpos
    simp only [Bool.false_eq_true, false_iff, not_and]
    rintro ⟨guards, e⟩
    exact absurd e (hpos guards)

/-- On the timer queue is in its list. -/
theorem onTimerQueue_iff {s : Ectx} (h : Pending s c) : OnTimerQueue s w ↔ w ∈ c :=
  ⟨fun ⟨_, hc, hw⟩ => (h.linked.unique hc) ▸ hw, fun hw => ⟨c, h.linked, hw⟩⟩

/-- What is recorded is the word `WS_TIME`. -/
def Recorded (sys : Sys) (recorded : Word → Word) : Prop :=
  ∀ w, sys.isSet w = true → sys.ectx.mem w .time = recorded w

/-- **Another process' record** is kept by a step. -/
theorem recorded_other {recorded : Word → Word} (h : Recorded sys recorded)
    (hplaced : Placed sys.ectx sys.pos q c) (hplaced' : Placed sys'.ectx sys'.pos q' c')
    (hpos : ∀ timed guards, sys'.pos w = some (.disabling timed guards) →
      sys.pos w = some (.disabling timed guards))
    (hpass : Passes sys.ectx sys'.ectx c c' act.wake w)
    (hgoes : ¬ (w = sys.ectx.wptr ∧ goesOn sys.ectx act.now = true))
    (hset : sys'.isSet w = true) :
    sys'.ectx.mem w .time = recordedNext sys sys' act recorded w := by
  obtain ⟨⟨guards, hpos'⟩, htlink'⟩ := isSet_iff.mp hset
  rcases hpass with ⟨htime, htlink, hc, -⟩ | ⟨hin, -, -, -, htime, -⟩
  · have hout : w ∉ c := fun e => (hplaced'.tlink_ne (hc.mpr e)).1 htlink'
    have hbefore : sys.isSet w = true :=
      isSet_iff.mpr ⟨⟨guards, hpos true guards hpos'⟩, (htlink hout) ▸ htlink'⟩
    rw [recordedNext, if_neg (by simp [hbefore]), htime, h w hbefore]
  · have hbefore : sys.isSet w = false := by
      by_contra e
      exact (hplaced.tlink_ne hin).1 (isSet_iff.mp (by simpa using e)).2
    rw [recordedNext, if_pos ⟨hset, hbefore⟩, if_neg hgoes, htime]

/-- The instructions after which a process is disabling: it has waited, or it goes on disabling, and
its time and whether it is set are as before or its time is not set. -/
theorem exec_disabling {s t : Ectx} {pos : Word → Option Pos} {p : Pos} {ins : Ins}
    {now wake : Word}
    {guards : List Guard} (h : Current s pos q c p) (hok : ins.Allowed ⟨s, pos⟩ p)
    (hexec : ins.exec s now wake = some t)
    (hmove : ins.move s pos s.wptr s.wptr = some (.disabling true guards)) :
    (ins = .taltwt ∧ ∃ guards, p = .enabling true guards) ∨ t.mem s.wptr .tlink = timeNotSet ∨
      (∃ guards', p = .disabling true guards') ∧
        t.mem s.wptr .time = s.mem s.wptr .time ∧ t.mem s.wptr .tlink = s.mem s.wptr .tlink := by
  have hself : ∀ x, Function.update pos s.wptr x s.wptr = x := fun x => Function.update_self ..
  have hnext : ∀ x : Pos → Pos, Function.update pos s.wptr ((pos s.wptr).map x) s.wptr =
      some (.disabling true guards) → x p = .disabling true guards := fun x hx => by
    rw [hself, h.pos] at hx
    exact Option.some.inj hx
  -- where a workspace is taken over, its process is at the start of a program
  have htaken : ∀ (f : Word → Option Pos) ws, (s.wptr ≠ ws → f s.wptr = none) →
      Function.update f ws (some .plain) s.wptr ≠ some (.disabling true guards) := by
    intro f ws hf e
    by_cases hws : s.wptr = ws
    · rw [hws, Function.update_self] at e
      cases e
    · rw [Function.update_of_ne hws, hf hws] at e
      cases e
  cases ins with
  | run => exact hok.elim
  | «local» =>
    cases hexec
    exact Or.inr (Or.inr ⟨⟨_, hnext _ hmove⟩, rfl, rfl⟩)
  | stl0 value =>
    cases hexec
    exact Or.inr (Or.inr ⟨⟨_, hnext _ hmove⟩, by simp, by simp⟩)
  | stl1 value =>
    cases hexec
    exact Or.inr (Or.inr ⟨⟨_, hnext _ hmove⟩, by simp, by simp⟩)
  | store address value =>
    cases hexec
    exact Or.inr (Or.inr ⟨⟨_, hnext _ hmove⟩, rfl, rfl⟩)
  | ajw offset => exact absurd hmove (htaken _ _ fun _ => hself none)
  | startp ws offset =>
    by_cases hws : s.wptr = ws
    · exact absurd hmove (htaken _ _ fun e => absurd hws e)
    · have hpos : some p = some (.disabling true guards) := by
        rw [← h.pos, ← hmove]
        exact (Function.update_of_ne hws ..).symm
      cases hpos
      exact hok.1.elim
  | endp parent =>
    rw [Ins.move] at hmove
    split_ifs at hmove
    · exact absurd hmove (htaken _ _ fun _ => hself none)
    · rw [hself] at hmove
      cases hmove
  | stopp => cases hnext _ hmove
  | input bytes chan data => cases hnext _ hmove
  | output bytes chan data => cases hnext _ hmove
  | outbyte data chan => cases hnext _ hmove
  | outword data chan => cases hnext _ hmove
  | tin time => cases hnext _ hmove
  | alt => cases hnext _ hmove
  | talt => cases hnext _ hmove
  | enbc guard chan =>
    obtain ⟨⟨timed, guards, rfl⟩, -⟩ := hok
    cases hnext _ hmove
  | enbs guard =>
    obtain ⟨timed, guards, rfl⟩ := hok
    cases hnext _ hmove
  | enbt guard timeout =>
    obtain ⟨guards, rfl⟩ := hok
    cases hnext _ hmove
  | altwt => cases hnext _ hmove
  | taltwt => exact Or.inl ⟨rfl, hok⟩
  | disc process guard chan =>
    obtain ⟨timed, guards', rfl, -⟩ := hok
    have hp := hnext _ hmove
    cases hp
    cases hexec
    exact Or.inr (Or.inr ⟨⟨_, rfl⟩, mem_insDisc process guard chan (Or.inr (by decide)),
      mem_insDisc process guard chan (Or.inr (by decide))⟩)
  | diss process guard =>
    obtain ⟨timed, guards', rfl, -⟩ := hok
    have hp := hnext _ hmove
    cases hp
    cases hexec
    exact Or.inr (Or.inr ⟨⟨_, rfl⟩, mem_insDiss process guard (Or.inr (by decide)),
      mem_insDiss process guard (Or.inr (by decide))⟩)
  | dist process guard timeout =>
    obtain ⟨guards', rfl, -⟩ := hok
    obtain ⟨r, hr, rfl⟩ := Option.map_eq_some_iff.mp hexec
    rw [insDist] at hr
    split_ifs at hr
    · cases hr
      exact Or.inr (Or.inr ⟨⟨_, rfl⟩, rfl, rfl⟩)
    · cases hr
      exact Or.inr (Or.inr ⟨⟨_, rfl⟩, mem_select process (Or.inr (by decide)),
        mem_select process (Or.inr (by decide))⟩)
    · obtain ⟨u, hu, rfl⟩ := Option.map_eq_some_iff.mp hr
      obtain ⟨u', hu', -, -, htlink⟩ := timerQueueRemove_spec h.placed.pending h.ne
      obtain rfl := Option.some.inj (hu.symm.trans hu')
      exact Or.inr (Or.inl htlink)
    · cases hr
      exact Or.inr (Or.inr ⟨⟨_, rfl⟩, rfl, rfl⟩)
    · cases hr
      exact Or.inr (Or.inr ⟨⟨_, rfl⟩, rfl, rfl⟩)
  | altend => cases hnext _ hmove

/-- **What a wait records**: the reading of `taltwt` if it goes on, and else that of the walk. -/
theorem insTaltwt_recorded {s : Ectx} {pos : Word → Option Pos} {now wake : Word}
    {guards : List Guard} {r : Ret × Ectx} (h : Current s pos q c (.enabling true guards))
    (hr : s.insTaltwt now wake = some r) (hset : r.2.mem s.wptr .tlink = timeSet) :
    r.2.mem s.wptr .time = if goesOn s now = true then now else wake := by
  rcases h.insTaltwt_lands rfl with
    ⟨hgoes, t, ht, htime, -⟩ | ⟨hgoes, t, c₁, ht, htlink, -, -, hparked⟩
  · obtain rfl := Option.some.inj (hr.symm.trans ht)
    rw [if_pos hgoes]
    exact htime
  · rw [hgoes, if_neg (by decide)]
    obtain ⟨r', q', c', gone, hr', hresch, hplaced'⟩ := hparked.next wake
    obtain rfl := Option.some.inj (hr.symm.trans (ht.trans hr'))
    rcases hresch.passes hparked.pending.nodup s.wptr with ⟨-, htlink', hc, -⟩ | ⟨-, -, -, -, htime,
      -⟩
    · by_cases hin : s.wptr ∈ c₁
      · exact absurd hset (hplaced'.tlink_ne (hc.mpr hin)).1
      · rw [htlink' hin, htlink.resolve_left hin] at hset
        exact absurd hset (by decide)
    · exact htime

/-- **The current process' own record** is kept by a step. -/
theorem recorded_own {recorded : Word → Word} (h : Recorded sys recorded)
    (hplaced : Placed sys.ectx sys.pos q c) (hok : StepOk sys act)
    (hne : sys.ectx.wptr ≠ notProcess) (hstep : step sys act = some sys')
    (hset : sys'.isSet sys.ectx.wptr = true) :
    sys'.ectx.mem sys.ectx.wptr .time =
      recordedNext sys sys' act recorded sys.ectx.wptr := by
  obtain ⟨p, hcur, hallowed⟩ := hok.current hplaced hne
  obtain ⟨t, ht, rfl⟩ := Option.map_eq_some_iff.mp hstep
  obtain ⟨⟨guards, hmove⟩, htlink⟩ := isSet_iff.mp hset
  have hpos : sys.pos sys.ectx.wptr = some p := hcur.pos
  rcases exec_disabling hcur hallowed ht hmove with
    ⟨hins, guards', rfl⟩ | hnotset | ⟨⟨guards', rfl⟩, htime, hsame⟩
  · have hbefore : sys.isSet sys.ectx.wptr = false := by
      by_contra e
      obtain ⟨⟨guards, hp⟩, -⟩ := isSet_iff.mp (by simpa using e)
      rw [hpos] at hp
      cases hp
    rw [hins] at ht
    obtain ⟨r, hr, rfl⟩ := Option.map_eq_some_iff.mp ht
    rw [recordedNext, if_pos ⟨hset, hbefore⟩]
    have hrec := insTaltwt_recorded hcur hr htlink
    by_cases hgoes : goesOn sys.ectx act.now = true
    · rw [if_pos ⟨rfl, hgoes⟩]
      exact hrec.trans (if_pos hgoes)
    · rw [if_neg fun e => hgoes e.2]
      exact hrec.trans (if_neg hgoes)
  · exact absurd (hnotset.symm.trans htlink) (by decide)
  · have hbefore : sys.isSet sys.ectx.wptr = true :=
      isSet_iff.mpr ⟨⟨guards', hpos⟩, hsame.symm.trans htlink⟩
    rw [recordedNext, if_neg (by simp [hbefore])]
    exact htime.trans (h _ hbefore)

/-- **A step keeps the records.** -/
theorem Recorded.step {recorded : Word → Word} (h : Recorded sys recorded)
    (hplaced : Placed sys.ectx sys.pos q c) (hok : StepOk sys act)
    (hstep : step sys act = some sys') : Recorded sys' (recordedNext sys sys' act recorded) := by
  obtain ⟨sys'', q', c', hstep', hplaced', hpass⟩ := step_placed hplaced hok
  obtain rfl := Option.some.inj (hstep.symm.trans hstep')
  intro w hset
  have hw : w ≠ notProcess := fun e => by
    obtain ⟨⟨guards, hp⟩, -⟩ := isSet_iff.mp hset
    exact (hplaced'.workspace w (by rw [hp]; simp)).1 e
  by_cases hown : w = sys.ectx.wptr
  · subst hown
    exact recorded_own h hplaced hok hw hstep hset
  · refine recorded_other h hplaced hplaced' (fun timed guards hpos => ?_) (hpass w (Or.inl hown))
      (fun e => hown e.1) hset
    obtain ⟨t, -, rfl⟩ := Option.map_eq_some_iff.mp hstep
    exact move_disabling hpos hown

/-- The invariant of the runs with a clock. -/
theorem clock_invariant {sys₀ : Sys} {recorded₀ : Word → Word} {r : Sys × (Word → Word)}
    (h₀ : Starts sys₀) (h : Transition.Reach clockStep ClockOk (sys₀, recorded₀) r) :
    InPlace r.1.ectx r.1.pos ∧ Recorded r.1 r.2 := by
  refine h.invariant (I := fun r => InPlace r.1.ectx r.1.pos ∧ Recorded r.1 r.2)
    ⟨⟨[], [], h₀.placed⟩, fun w hset => ?_⟩ ?_
  · obtain ⟨⟨guards, hp⟩, -⟩ := isSet_iff.mp hset
    rw [h₀.pos] at hp
    by_cases e : w = sys₀.ectx.wptr
    · rw [e, Function.update_self] at hp
      cases hp
    · rw [Function.update_of_ne e] at hp
      cases hp
  · rintro ⟨sys, recorded⟩ r' act ⟨⟨q, c, hplaced⟩, hrec⟩ hok hstep
    obtain ⟨sys', hsys', rfl⟩ := Option.map_eq_some_iff.mp hstep
    obtain ⟨sys'', q', c', hstep', hplaced', -⟩ := step_placed hplaced hok
    obtain rfl := Option.some.inj (hsys'.symm.trans hstep')
    exact ⟨⟨q', c', hplaced'⟩, hrec.step hplaced hok hsys'⟩

/-- **Timer input**: strictly after its time, or by the timer queue. -/
theorem tin_kept {time : Word} (hplaced : Placed sys.ectx sys.pos q c) (hok : StepOk sys act)
    (hstep : step sys act = some sys') (hins : act.ins = .tin time) :
    timeAfter act.now time = true ∨ OnTimerQueue sys'.ectx sys.ectx.wptr ∨
      (sys'.ectx.mem sys.ectx.wptr .tlink = timeSet ∧ timeAfter time act.wake = false) := by
  by_cases hlate : timeAfter act.now time = true
  · exact Or.inl hlate
  · right
    have hne : sys.ectx.wptr ≠ notProcess := fun e => by
      rw [StepOk, if_pos e, hins] at hok
      cases hok
    obtain ⟨p, hcur, hallowed⟩ := hok.current hplaced hne
    rw [hins] at hallowed
    obtain ⟨t, c₁, ht, hin, htime, -, -, hparked⟩ :=
      hcur.insTin_waits hallowed act.wake (by simpa using hlate : timeAfter act.now time = false)
    obtain ⟨r, q', c', gone, hr, hresch, hplaced'⟩ := hparked.next act.wake
    obtain ⟨u, hu, rfl⟩ := Option.map_eq_some_iff.mp hstep
    rw [hins, Ins.exec, ht, hr] at hu
    cases hu
    have hin' : sys.ectx.wptr ∈ c₁ := hin
    rcases hresch.passes hparked.pending.nodup sys.ectx.wptr with
      ⟨-, -, hc, -⟩ | ⟨-, -, hdue, hset, -⟩
    · exact Or.inl ((onTimerQueue_iff hplaced'.pending).mpr (hc.mpr hin'))
    · exact Or.inr ⟨hset, (show t.mem sys.ectx.wptr .time = time from htime) ▸ hdue⟩

/-- **The walk of the timer queue** takes off it whose time is not after its reading. -/
theorem walk_kept {time : Word} (hplaced : Placed sys.ectx sys.pos q c) (hok : StepOk sys act)
    (hstep : step sys act = some sys') (hw : sys.pos w = some (.timer time))
    (hon : OnTimerQueue sys.ectx w) (hoff : ¬ OnTimerQueue sys'.ectx w) :
    timeAfter time act.wake = false := by
  obtain ⟨sys'', q', c', hstep', hplaced', hpass⟩ := step_placed hplaced hok
  obtain rfl := Option.some.inj (hstep.symm.trans hstep')
  rw [onTimerQueue_iff hplaced.pending] at hon
  rw [onTimerQueue_iff hplaced'.pending] at hoff
  have hsits := hplaced.sits w
  rw [hw] at hsits
  obtain ⟨-, hout⟩ | ⟨hready, -, -, htime⟩ := hsits
  · exact absurd hon hout
  · have hne : w ≠ sys.ectx.wptr ∨ sys.ectx.wptr = notProcess := by
      by_contra e
      obtain ⟨h₁, h₂⟩ := not_or.mp e
      exact hready (Or.inr ⟨not_not.mp h₁, (not_not.mp h₁).symm ▸ h₂⟩)
    rcases hpass w hne with ⟨-, -, hc, -⟩ | ⟨-, -, hdue, -⟩
    · exact absurd (hc.mpr hon) hoff
    · exact htime ▸ hdue

/-- **A timer guard that is selected** has a timeout that is not after the reading at which the
alternative became ready. -/
theorem dist_kept {recorded : Word → Word} {process guard timeout : Word}
    (hrec : Recorded sys recorded) (hplaced : Placed sys.ectx sys.pos q c) (hok : StepOk sys act)
    (hins : act.ins = .dist process guard timeout) (hfires : Fires sys.ectx process guard timeout) :
    timeAfter timeout (recorded sys.ectx.wptr) = false := by
  have hne : sys.ectx.wptr ≠ notProcess := fun e => by
    rw [StepOk, if_pos e, hins] at hok
    cases hok
  obtain ⟨p, hcur, hallowed⟩ := hok.current hplaced hne
  rw [hins] at hallowed
  obtain ⟨guards, rfl, -⟩ := hallowed
  obtain ⟨s', hs'⟩ := hfires
  rw [insDist] at hs'
  split_ifs at hs' with hguard hset hafter
  · cases hs'
  · have hisSet : sys.isSet sys.ectx.wptr = true := isSet_iff.mpr ⟨⟨guards, hcur.pos⟩, hset⟩
    rw [← hrec _ hisSet]
    simpa using hafter
  · obtain ⟨u, -, hu⟩ := Option.map_eq_some_iff.mp hs'
    cases hu
  · cases hs'
  · cases hs'

/-- **Timeouts have passed** in every run: a process that executes `tin` goes on at once only after
its time, and from the timer queue when its time is not after the reading of the clock; and a timer
guard is selected only if its timeout is not after the reading at which its alternative became
ready. -/
theorem timeouts_not_after : Timeouts fun reading time => timeAfter time reading = false := by
  intro sys₀ recorded₀ r act sys' h₀ hreach hok hstep
  obtain ⟨⟨q, c, hplaced⟩, hrec⟩ := clock_invariant h₀ hreach
  exact ⟨fun time hins => tin_kept hplaced hok hstep hins,
    fun w time hw hon hoff => walk_kept hplaced hok hstep hw hon hoff,
    fun process guard timeout hins hfires => dist_kept hrec hplaced hok hins hfires⟩

/-- The process 8, and nobody else. -/
def oneProcess : Sys where
  ectx :=
    { mem := fun _ _ => 0
      chan := fun _ => 0
      bytes := fun _ => 0
      self := 4
      wptr := 8
      iptr := 0
      fptr := notProcess
      bptr := notProcess
      tptr := notProcess
      tnext := 0
      timers := false
      interrupt := false }
  pos := Function.update (fun _ => none) 8 (some .plain)

/-- **Timeouts are not strict**: at time 6 the timeout 5 makes the alternative ready, and the guard
with timeout 6 is selected. -/
theorem timeouts_not_strict : ¬ Timeouts fun reading time => timeAfter reading time = true := by
  intro h
  have hstart : Starts oneProcess := ⟨⟨by decide, by decide⟩, rfl, rfl, rfl, fun _ => rfl⟩
  have hok : ∀ (act : Act) {sys : Sys} (pos : Pos), sys.ectx.wptr = 8 → sys.pos 8 = some pos →
      act.ins.Allowed sys pos → StepOk sys act := fun act _ pos hw hp ha => by
    rw [StepOk, hw, if_neg (by decide)]
    exact ⟨pos, hp, ha⟩
  have h₀ : Transition.Reach clockStep ClockOk (oneProcess, fun _ => 0) _ := .start
  have h₁ := h₀.next (hok ⟨.talt, 0, 0, 0⟩ .plain rfl rfl trivial) rfl
  have h₂ := h₁.next (hok ⟨.enbt 1 5, 0, 0, 0⟩ (.enabling true []) rfl rfl ⟨[], rfl⟩) rfl
  have h₃ := h₂.next
    (hok ⟨.enbt 1 6, 0, 0, 0⟩ (.enabling true [.timer 5]) rfl rfl ⟨_, rfl⟩) rfl
  have h₄ := h₃.next
    (hok ⟨.taltwt, 0, 6, 0⟩ (.enabling true [.timer 6, .timer 5]) rfl rfl ⟨_, rfl⟩) rfl
  have hkept := h _ _ _ _ _ hstart h₄
    (hok ⟨.dist 0 1 6, 0, 0, 0⟩ (.disabling true [.timer 6, .timer 5]) rfl rfl
      ⟨_, rfl, fun _ => List.mem_cons_self⟩) rfl
  exact absurd (hkept.dist 0 1 6 rfl ⟨_, rfl⟩) (by decide)

end Clock

end Tvm

end Kroc
