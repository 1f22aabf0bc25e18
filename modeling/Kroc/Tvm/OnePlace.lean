import Kroc.Tvm.Timeouts

/-!
# Tvm/OnePlace — no process is lost, and none is in two places

    current | on the run queue | in a channel word | in an alternative | on the timer queue

What the scheduler is for: whatever well-formed programs execute, each process is in one of the
five places and in no second one, and nobody who has ended or stopped is in any.
-/

namespace Kroc

namespace Tvm

open Ectx

/-- The places of the scheduler. -/
inductive Place
  | current
  | runQueue
  | channel (chan : Word)
  | alternative
  | timerQueue
  deriving DecidableEq

/-- A process is in the place, with the run queue `q` and the timer queue `c`.  A timed alternative
may be on the timer queue too: its place is the alternative. -/
def Place.Has (sys : Sys) (q c : List Word) (w : Word) : Place → Prop
  | .current => sys.ectx.wptr = w
  | .runQueue => w ∈ q
  | .channel chan => sys.ectx.chan chan = w
  | .alternative =>
    (∃ timed guards, sys.pos w = some (.disabling timed guards)) ∧
      sys.ectx.mem w .state = waiting
  | .timerQueue => w ∈ c ∧ ∃ time, sys.pos w = some (.timer time)

/-- A process that has begun and has not ended or stopped. -/
def Sys.Live (sys : Sys) (w : Word) : Prop := sys.pos w ≠ none ∧ sys.pos w ≠ some .stopped

/-- Where a process waits after what it did last, when it does. -/
def Pos.waitsIn : Pos → Option Place
  | .chanIn chan => some (.channel chan)
  | .chanOut chan => some (.channel chan)
  | .timer _ => some .timerQueue
  | .disabling .. => some .alternative
  | _ => none

/-- A step that is no timer input. -/
def UntimedOk (sys : Sys) (act : Act) : Prop := StepOk sys act ∧ ∀ time, act.ins ≠ .tin time

/-- Running, or on the run queue. -/
def Sys.Runs (sys : Sys) (w : Word) : Prop :=
  sys.ectx.wptr = w ∨ ∃ q, sys.ectx.RunQueue q ∧ w ∈ q

/-- The channel of a communication. -/
def Ins.uses : Ins → Option Word
  | .input _ chan _ => some chan
  | .output _ chan _ => some chan
  | .outbyte _ chan => some chan
  | .outword _ chan => some chan
  | _ => none

/-- A guard of the alternative of `w` becomes ready: somebody comes to its channel, or the walk
takes `w` off the timer queue. -/
def Sys.Fires (sys : Sys) (act : Act) (sys' : Sys) (w : Word) : Prop :=
  (∃ chan, act.ins.uses = some chan ∧ sys.ectx.chan chan = w ||| 1) ∨
    (OnTimerQueue sys.ectx w ∧ ¬ OnTimerQueue sys'.ectx w)

/-- A state and, of the steps that led to it, how many made a guard of `w` ready and how many put
`w` back to running or on the run queue. -/
structure Watch where
  sys : Sys
  fired : ℕ
  put : ℕ

open Classical in
/-- A step, counted. -/
noncomputable def watch (w : Word) (r : Watch) (act : Act) : Option Watch :=
  (step r.sys act).map fun sys' =>
    ⟨sys', if r.sys.Fires act sys' w then r.fired + 1 else r.fired,
      if ¬ r.sys.Runs w ∧ sys'.Runs w then r.put + 1 else r.put⟩

/-- A step of somebody else. -/
def WatchOk (w : Word) (r : Watch) (act : Act) : Prop := StepOk r.sys act ∧ r.sys.ectx.wptr ≠ w

section OnePlace

variable {sys : Sys} {q c : List Word} {w : Word} {p : Place}

/-- Who can run is current or on the run queue. -/
theorem Ready.has (h : Ready sys.ectx q w) : ∃ p : Place, p.Has sys q c w := by
  rcases h with h | h
  · exact ⟨.runQueue, h⟩
  · exact ⟨.current, h.1.symm⟩

/-- **Nobody is lost.** -/
theorem Placed.has (h : Placed sys.ectx sys.pos q c) (hw : sys.Live w) :
    ∃ p : Place, p.Has sys q c w := by
  have hsits := h.sits w
  cases hpos : sys.pos w with
  | none => exact absurd hpos hw.1
  | some pos =>
    rw [hpos] at hsits
    cases pos with
    | stopped => exact absurd hpos hw.2
    | plain => exact hsits.1.has
    | enabling timed guards => exact hsits.1.has
    | chanIn chan =>
      rcases hsits.1 with hat | hat
      · exact hat.1.has
      · exact ⟨.channel chan, hat.2.1⟩
    | chanOut chan =>
      rcases hsits.1 with hat | hat
      · exact hat.1.has
      · exact ⟨.channel chan, hat.2.1⟩
    | timer time =>
      rcases hsits with hat | hat
      · exact hat.1.has
      · exact ⟨.timerQueue, hat.2.1, time, hpos⟩
    | disabling timed guards =>
      rcases hsits.1 with hat | hat
      · exact hat.1.has
      · exact ⟨.alternative, ⟨timed, guards, hpos⟩, hat.2.1⟩

/-- Who is in a channel word is blocked on the channel. -/
theorem Placed.pos_of_chan (h : Placed sys.ectx sys.pos q c) (hw : IsWorkspace w) {chan : Word}
    (hchan : sys.ectx.chan chan = w) :
    sys.pos w = some (.chanIn chan) ∨ sys.pos w = some (.chanOut chan) := by
  rcases h.held chan with hk | hk | ⟨v, -, hk, -⟩
  · exact absurd (hchan.symm.trans hk) hw.1
  · exact hchan ▸ hk
  · exact absurd (hchan.symm.trans hk) hw.ne_tagged

/-- Who is current or on the run queue can run. -/
theorem Place.Has.ready (h : p.Has sys q c w) (hw : IsWorkspace w)
    (hp : p = .current ∨ p = .runQueue) : Ready sys.ectx q w := by
  rcases hp with rfl | rfl
  · exact Or.inr ⟨h.symm, hw.1⟩
  · exact Or.inl h

/-- **Who is anywhere else waits there**, and cannot run. -/
theorem Placed.waits (h : Placed sys.ectx sys.pos q c) (hw : IsWorkspace w)
    (hp : p.Has sys q c w) (hcur : p ≠ .current) (hrun : p ≠ .runQueue) :
    ¬ Ready sys.ectx q w ∧ ∃ pos, sys.pos w = some pos ∧ pos.waitsIn = some p := by
  have hsits := h.sits w
  cases p with
  | current => exact absurd rfl hcur
  | runQueue => exact absurd rfl hrun
  | channel chan =>
    refine ⟨fun hready => h.chan_ne hready hw hp, ?_⟩
    rcases h.pos_of_chan hw hp with hpos | hpos
    · exact ⟨_, hpos, rfl⟩
    · exact ⟨_, hpos, rfl⟩
  | alternative =>
    obtain ⟨⟨timed, guards, hpos⟩, hstate⟩ := hp
    rw [hpos] at hsits
    refine ⟨fun hready => ?_, _, hpos, rfl⟩
    rcases hsits.1 with hat | hat
    · rw [hstate] at hat
      exact absurd hat.2 (by decide)
    · exact hat.1 hready
  | timerQueue =>
    obtain ⟨hc, time, hpos⟩ := hp
    rw [hpos] at hsits
    refine ⟨fun hready => ?_, _, hpos, rfl⟩
    rcases hsits with hat | hat
    · exact hat.2 hc
    · exact hat.1 hready

/-- Nobody is both current and on the run queue. -/
theorem Placed.ready_unique (h : Placed sys.ectx sys.pos q c) {p p' : Place}
    (hp : p.Has sys q c w) (hp' : p'.Has sys q c w) (hrun : p = .current ∨ p = .runQueue)
    (hrun' : p' = .current ∨ p' = .runQueue) : p = p' := by
  rcases hrun with rfl | rfl <;> rcases hrun' with rfl | rfl
  · rfl
  · exact absurd (hp ▸ hp') h.current
  · exact absurd (hp' ▸ hp) h.current
  · rfl

/-- **Nobody is in two places.** -/
theorem Placed.has_unique (h : Placed sys.ectx sys.pos q c) (hw : IsWorkspace w) {p p' : Place}
    (hp : p.Has sys q c w) (hp' : p'.Has sys q c w) : p = p' := by
  by_cases hrun : p = .current ∨ p = .runQueue
  · by_cases hrun' : p' = .current ∨ p' = .runQueue
    · exact h.ready_unique hp hp' hrun hrun'
    · rw [not_or] at hrun'
      exact absurd (hp.ready hw hrun) (h.waits hw hp' hrun'.1 hrun'.2).1
  · rw [not_or] at hrun
    obtain ⟨hblocked, pos, hpos, hwaits⟩ := h.waits hw hp hrun.1 hrun.2
    by_cases hrun' : p' = .current ∨ p' = .runQueue
    · exact absurd (hp'.ready hw hrun') hblocked
    · rw [not_or] at hrun'
      obtain ⟨-, pos', hpos', hwaits'⟩ := h.waits hw hp' hrun'.1 hrun'.2
      obtain rfl := Option.some.inj (hpos.symm.trans hpos')
      exact Option.some.inj (hwaits.symm.trans hwaits')

/-- **Only a live process is in a place.** -/
theorem Placed.live (h : Placed sys.ectx sys.pos q c) (hw : IsWorkspace w)
    (hp : p.Has sys q c w) : sys.Live w := by
  by_cases hrun : p = .current ∨ p = .runQueue
  · have hready := hp.ready hw hrun
    have hsits := h.sits w
    refine ⟨fun hpos => ?_, fun hpos => ?_⟩
    all_goals
      rw [hpos] at hsits
      exact hsits.1 hready
  · rw [not_or] at hrun
    obtain ⟨-, pos, hpos, hwaits⟩ := h.waits hw hp hrun.1 hrun.2
    refine ⟨fun e => ?_, fun e => ?_⟩
    · rw [hpos] at e
      cases e
    · rw [hpos] at e
      obtain rfl := Option.some.inj e
      cases hwaits

/-- Only live processes are on the timer queue. -/
theorem Placed.timer_live (h : Placed sys.ectx sys.pos q c) (hc : w ∈ c) : sys.Live w := by
  have hsits := h.sits w
  refine ⟨fun hpos => ?_, fun hpos => ?_⟩
  all_goals
    rw [hpos] at hsits
    exact hsits.2 hc

/-- Where anybody is after a step that is no timer input is no timer. -/
theorem move_timer {s : Ectx} {pos : Word → Option Pos} {v time : Word} {ins : Ins}
    (hins : ∀ time, ins ≠ .tin time) (h : ins.move s pos v w = some (.timer time)) :
    pos w = some (.timer time) := by
  have hgone : ∀ f : Word → Option Pos, Function.update f v none w = some (.timer time) →
      f w = some (.timer time) := fun f e => by
    by_cases hv : w = v
    · rw [hv, Function.update_self] at e
      cases e
    · rwa [Function.update_of_ne hv] at e
  have hplain : ∀ (f : Word → Option Pos) ws,
      Function.update f ws (some .plain) w = some (.timer time) → f w = some (.timer time) :=
    fun f ws e => by
      by_cases hws : w = ws
      · rw [hws, Function.update_self] at e
        cases e
      · rwa [Function.update_of_ne hws] at e
  have hself : Function.update pos v ((pos v).map ins.next) w = some (.timer time) →
      (∀ p, ins.next p = .timer time → p = .timer time) → pos w = some (.timer time) :=
    fun e hnext => by
      by_cases hv : w = v
      · rw [hv, Function.update_self] at e
        obtain ⟨p, hp, hp'⟩ := Option.map_eq_some_iff.mp e
        rw [hv, hp, hnext p hp']
      · rwa [Function.update_of_ne hv] at e
  cases ins with
  | run => exact h
  | ajw offset => exact hgone _ (hplain _ _ h)
  | startp ws offset => exact hplain _ _ h
  | endp parent =>
    rw [Ins.move] at h
    split_ifs at h
    · exact hgone _ (hplain _ _ h)
    · exact hgone _ h
  | tin t => exact absurd rfl (hins t)
  | _ =>
    refine hself h fun p hp => ?_
    cases p <;> first | exact hp | cases hp

/-- Without timer input, nobody waits for a time alone. -/
theorem untimed {sys₀ : Sys} (h₀ : Starts sys₀) (h : Transition.Reach step UntimedOk sys₀ sys) :
    ∀ w time, sys.pos w ≠ some (.timer time) := by
  refine h.invariant (I := fun sys => ∀ w time, sys.pos w ≠ some (.timer time)) ?_ ?_
  · intro w time e
    rw [h₀.pos, Function.update_apply] at e
    split_ifs at e
    cases e
  · rintro sys sys' act ih ⟨-, hins⟩ hstep w time e
    obtain ⟨t, -, rfl⟩ := Option.map_eq_some_iff.mp hstep
    exact ih w time (move_timer hins e)

/-! ## The wake-ups of an alternative -/

theorem Placed.runs_iff (h : Placed sys.ectx sys.pos q c) (hw : IsWorkspace w) :
    sys.Runs w ↔ Ready sys.ectx q w := by
  refine ⟨fun hruns => ?_, fun hready => ?_⟩
  · rcases hruns with e | ⟨q', hq', hmem⟩
    · exact Or.inr ⟨e.symm, hw.1⟩
    · exact Or.inl (hq'.unique h.run ▸ hmem)
  · rcases hready with hmem | e
    · exact Or.inr ⟨q, h.run, hmem⟩
    · exact Or.inl e.1.symm

/-- A process stays where it is in its program while others execute. -/
theorem pos_step {sys' : Sys} {act : Act} {at₀ : Pos} (hok : StepOk sys act)
    (hstep : step sys act = some sys') (hw : sys.ectx.wptr ≠ w) (hpos : sys.pos w = some at₀) :
    sys'.pos w = some at₀ := by
  obtain ⟨t, -, rfl⟩ := Option.map_eq_some_iff.mp hstep
  have hself : ∀ x, Function.update sys.pos sys.ectx.wptr x w = some at₀ :=
    fun x => (Function.update_of_ne hw.symm ..).trans hpos
  have hother : ∀ (f : Word → Option Pos) ws, f w = some at₀ →
      ws = sys.ectx.wptr ∨ sys.pos ws = none →
        Function.update f ws (some .plain) w = some at₀ := fun f ws hf hws => by
    refine (Function.update_of_ne (fun e => ?_) ..).trans hf
    rcases hws with hws | hws
    · exact hw (e.trans hws).symm
    · rw [← e, hpos] at hws
      cases hws
  show act.ins.move { sys.ectx with iptr := act.iptr } sys.pos sys.ectx.wptr w = some at₀
  rw [StepOk] at hok
  by_cases hidle : sys.ectx.wptr = notProcess
  · rw [if_pos hidle] at hok
    rw [hok]
    exact hpos
  · rw [if_neg hidle] at hok
    obtain ⟨p, -, hallowed⟩ := hok
    cases hins : act.ins with
    | run => exact hpos
    | ajw offset =>
      rw [hins] at hallowed
      exact hother _ _ (hself _) (Or.inr hallowed.2.2)
    | startp ws offset =>
      rw [hins] at hallowed
      exact hother _ _ hpos (Or.inr hallowed.2.2)
    | endp parent =>
      rw [hins] at hallowed
      rw [Ins.move]
      split_ifs
      · exact hother _ _ (hself _) hallowed.2.2
      · exact hself _
    | _ => exact hself _

/-- **Who comes to the channel of a guard** of a waiting alternative makes it run. -/
theorem chanStdIo_waiting {s : Ectx} {dir : Dir} {chan data len wake : Word} {r : Ret × Ectx}
    (hws : IsWorkspace w) (hchan : s.chan chan = w ||| 1) (hstate : s.mem w .state = waiting)
    (hr : s.chanStdIo dir chan data len wake = some r) : r.2.wptr = w := by
  have hvalue : w ||| 1 ≠ notProcess := fun e => tagged_ne_zero (w := w) (by rw [e]; rfl)
  rw [chanStdIo, chanIo, hchan, if_neg hvalue, if_neg tagged_ne_zero, hws.untag,
    if_pos hws.1] at hr
  dsimp only at hr
  rw [hstate, if_pos (Or.inl rfl), if_neg (not_not.mpr rfl)] at hr
  dsimp only [saveInChan] at hr
  rw [requeueOrNext, hws.untag, if_pos hws.1, loadProcess] at hr
  split_ifs at hr
  cases hr
  rfl

theorem exec_waiting {s t : Ectx} {ins : Ins} {chan now wake : Word} (hws : IsWorkspace w)
    (hins : ins.uses = some chan) (hchan : s.chan chan = w ||| 1)
    (hstate : s.mem w .state = waiting) (h : ins.exec s now wake = some t) : t.wptr = w := by
  cases ins with
  | input bytes chan data =>
    cases hins
    obtain ⟨r, hr, rfl⟩ := Option.map_eq_some_iff.mp h
    exact chanStdIo_waiting hws hchan hstate hr
  | output bytes chan data =>
    cases hins
    obtain ⟨r, hr, rfl⟩ := Option.map_eq_some_iff.mp h
    exact chanStdIo_waiting hws hchan hstate hr
  | outbyte data chan =>
    cases hins
    obtain ⟨r, hr, rfl⟩ := Option.map_eq_some_iff.mp h
    refine chanStdIo_waiting (s := s.writeTopByte (data.setWidth 8)) hws hchan ?_ hr
    rw [← hstate]
    exact if_neg fun e => by cases e.2
  | outword data chan =>
    cases hins
    obtain ⟨r, hr, rfl⟩ := Option.map_eq_some_iff.mp h
    refine chanStdIo_waiting (s := s.writeTopWord data) hws hchan ?_ hr
    rw [← hstate]
    exact if_neg fun e => by cases e.2
  | _ => cases hins

/-- **A step of somebody else**: who has enabled an alternative and runs goes on to, and a guard
that becomes ready makes it run. -/
theorem runs_step {sys' : Sys} {act : Act} {timed : Bool} {guards : List Guard}
    (h : Placed sys.ectx sys.pos q c) (hok : StepOk sys act) (hstep : step sys act = some sys')
    (hw : sys.ectx.wptr ≠ w) (hpos : sys.pos w = some (.disabling timed guards))
    (hruns : sys.Runs w ∨ sys.Fires act sys' w) : sys'.Runs w := by
  have hws : IsWorkspace w := h.workspace w (by rw [hpos]; simp)
  obtain ⟨sys'', q', c', hstep', hplaced', hpasses⟩ := step_placed h hok
  obtain rfl := Option.some.inj (hstep.symm.trans hstep')
  have hsits := h.sits w
  have hsits' := hplaced'.sits w
  rw [hpos] at hsits
  rw [pos_step hok hstep hw hpos] at hsits'
  -- who is ready runs
  have hready : sys'.ectx.mem w .state = ready → sys'.Runs w := fun e => by
    rw [hplaced'.runs_iff hws]
    rcases hsits'.1 with hat | hat
    · exact hat.1
    · rw [e] at hat
      exact absurd hat.2.1 (by decide)
  have hpass := hpasses w (Or.inl hw.symm)
  rcases hsits.1 with ⟨-, hstate⟩ | ⟨hblocked, hstate, -⟩
  · refine hready ?_
    rcases hpass with ⟨-, -, -, e | e⟩ | ⟨-, -, -, -, -, e⟩
    · exact e.trans hstate
    · exact e
    · exact e
  · rcases hruns with hruns | ⟨chan, huses, hchan⟩ | ⟨hon, hoff⟩
    · exact absurd ((h.runs_iff hws).mp hruns) hblocked
    · obtain ⟨t, ht, rfl⟩ := Option.map_eq_some_iff.mp hstep
      exact Or.inl (exec_waiting (s := { sys.ectx with iptr := act.iptr }) hws huses hchan hstate
        ht)
    · rw [onTimerQueue_iff h.pending] at hon
      rw [onTimerQueue_iff hplaced'.pending] at hoff
      rcases hpass with ⟨-, -, hc, -⟩ | ⟨-, -, -, -, -, e⟩
      · exact absurd (hc.mpr hon) hoff
      · exact hready e

/-- What the counts of the steps of the others since `sys` say. -/
structure Watched (w : Word) (sys : Sys) (r : Watch) : Prop where
  placed : InPlace r.sys.ectx r.sys.pos
  pos : ∃ timed guards, r.sys.pos w = some (.disabling timed guards)
  runs : r.sys.Runs w ↔ sys.Runs w ∨ r.put = 1
  put : r.put ≤ 1
  ran : sys.Runs w → r.put = 0
  fired : 0 < r.fired → r.sys.Runs w

theorem Watched.step {r r' : Watch} {act : Act} (h : Watched w sys r) (hok : WatchOk w r act)
    (hstep : watch w r act = some r') : Watched w sys r' := by
  obtain ⟨hstepok, hw⟩ := hok
  obtain ⟨sys', hsys', rfl⟩ := Option.map_eq_some_iff.mp hstep
  obtain ⟨q, c, hplaced⟩ := h.placed
  obtain ⟨timed, guards, hpos⟩ := h.pos
  have hruns := runs_step hplaced hstepok hsys' hw hpos
  obtain ⟨sys'', q', c', hstep', hplaced', -⟩ := step_placed hplaced hstepok
  obtain rfl := Option.some.inj (hsys'.symm.trans hstep')
  refine ⟨⟨q', c', hplaced'⟩, ⟨timed, guards, pos_step hstepok hsys' hw hpos⟩, ?_, ?_, ?_, ?_⟩
  all_goals dsimp only
  · by_cases hbefore : r.sys.Runs w
    · rw [if_neg fun e => e.1 hbefore]
      exact iff_of_true (hruns (Or.inl hbefore)) (h.runs.mp hbefore)
    · obtain ⟨hnot, hput⟩ := not_or.mp (mt h.runs.mpr hbefore)
      have hzero : r.put = 0 := by
        have := h.put
        omega
      by_cases hafter : sys'.Runs w
      · rw [if_pos ⟨hbefore, hafter⟩, hzero]
        exact iff_of_true hafter (Or.inr rfl)
      · rw [if_neg fun e => hafter e.2]
        exact iff_of_false hafter (not_or.mpr ⟨hnot, hput⟩)
  · split_ifs with hput
    · have := mt h.runs.mpr hput.1
      have := h.put
      omega
    · exact h.put
  · intro hran
    rw [if_neg fun e => e.1 (h.runs.mpr (Or.inl hran))]
    exact h.ran hran
  · intro hfired
    by_cases hfires : r.sys.Fires act sys' w
    · exact hruns (Or.inr hfires)
    · rw [if_neg hfires] at hfired
      exact hruns (Or.inl (h.fired hfired))

/-- **However many guards become ready**, who waits in an alternative is put back once. -/
theorem put_once {timed : Bool} {guards : List Guard} (h : InPlace sys.ectx sys.pos)
    (hpos : sys.pos w = some (.disabling timed guards)) {r : Watch}
    (hrun : Transition.Reach (watch w) (WatchOk w) ⟨sys, 0, 0⟩ r) : Watched w sys r := by
  refine hrun.invariant ⟨h, ⟨timed, guards, hpos⟩, ?_, Nat.zero_le 1, fun _ => rfl,
    fun hfired => absurd hfired (Nat.lt_irrefl 0)⟩ fun h hok hstep => h.step hok hstep
  exact ⟨Or.inl, fun e => e.resolve_right fun e => by cases e⟩

/-- **No process is lost or duplicated.**  In every run what a process may execute is executed, the
two queues are lists without repetitions, who has begun and has not ended or stopped is in exactly
one place, which is the timer queue only after a timer input, and nobody else is in any.  While
others execute, who has finished enabling an alternative and goes on is not put back, and who waits
in it is put back once when it has been put back at all, which it has if any guard became ready. -/
theorem scheduling_sound {sys₀ sys : Sys} (h₀ : Starts sys₀)
    (h : Transition.Reach step StepOk sys₀ sys) :
    (∀ act, StepOk sys act → ∃ sys', step sys act = some sys') ∧
    (∃ q c, sys.ectx.RunQueue q ∧ Pending sys.ectx c ∧ q.Nodup ∧ c.Nodup ∧
      (∀ w, sys.Live w → ∃! p : Place, p.Has sys q c w) ∧
      (∀ w, IsWorkspace w → ¬ sys.Live w → w ∉ c ∧ ∀ p : Place, ¬ p.Has sys q c w) ∧
      (Transition.Reach step UntimedOk sys₀ sys → ∀ w, ¬ Place.timerQueue.Has sys q c w)) ∧
    ∀ w timed guards, sys.pos w = some (.disabling timed guards) → ∀ r,
      Transition.Reach (watch w) (WatchOk w) ⟨sys, 0, 0⟩ r →
        (sys.Runs w → r.sys.Runs w ∧ r.put = 0) ∧
        (¬ sys.Runs w → r.put ≤ 1 ∧ (r.put = 1 ↔ r.sys.Runs w) ∧ (0 < r.fired → r.put = 1)) := by
  obtain ⟨q, c, hplaced⟩ := reach_placed h₀ h
  refine ⟨fun act hok => ?_, ⟨q, c, hplaced.run, hplaced.pending, hplaced.run.1.nodup,
    hplaced.pending.nodup, fun w hlive => ?_, fun w hw hdead => ⟨fun hc => ?_, fun p hp => ?_⟩,
    fun huntimed w hw => ?_⟩, fun w timed guards hpos r hrun => ?_⟩
  · obtain ⟨sys', -, -, hstep, -⟩ := step_placed hplaced hok
    exact ⟨sys', hstep⟩
  · obtain ⟨p, hp⟩ := hplaced.has hlive
    exact ⟨p, hp, fun p' hp' => hplaced.has_unique (hplaced.workspace w hlive.1) hp' hp⟩
  · exact hdead (hplaced.timer_live hc)
  · exact hdead (hplaced.live hw hp)
  · obtain ⟨-, time, hpos⟩ := hw
    exact untimed h₀ huntimed w time hpos
  · have hwatched := put_once ⟨q, c, hplaced⟩ hpos hrun
    refine ⟨fun hran => ⟨hwatched.runs.mpr (Or.inl hran), hwatched.ran hran⟩, fun hnot => ?_⟩
    have hput : r.sys.Runs w ↔ r.put = 1 :=
      hwatched.runs.trans ⟨fun e => e.resolve_left hnot, Or.inr⟩
    exact ⟨hwatched.put, hput.symm, fun hfired => hput.mp (hwatched.fired hfired)⟩

/-- An alternative that waits for a channel is put back once, when somebody outputs. -/
theorem scheduling_sound_output : ∃ sys r, Transition.Reach step StepOk oneProcess sys ∧
    Transition.Reach (watch 8) (WatchOk 8) ⟨sys, 0, 0⟩ r ∧ ¬ sys.Runs 8 ∧ r.sys.Runs 8 ∧
      r.put = 1 := by
  have hstart : Starts oneProcess := ⟨⟨by decide, by decide⟩, rfl, rfl, rfl, fun _ => rfl⟩
  have hok : ∀ (act : Act) {sys : Sys} (pos : Pos), sys.ectx.wptr = 8 → sys.pos 8 = some pos →
      act.ins.Allowed sys pos → StepOk sys act := fun act _ pos hw hp ha => by
    rw [StepOk, hw, if_neg (by decide)]
    exact ⟨pos, hp, ha⟩
  have hfree : ∀ {sys : Sys}, sys.pos = Function.update (Function.update (Function.update
      (fun _ => none) 8 (some .plain)) 24 (some .plain)) 8 (some (.enabling false [])) →
      sys.InputFree 48 := fun {sys} hpos w _ hin => by
    have hguards : sys.pos w = none ∨ ∃ p : Pos, sys.pos w = some p ∧ p ≠ .chanIn 48 ∧
        p.guards = [] := by
      rw [hpos, Function.update_apply, Function.update_apply, Function.update_apply]
      split_ifs
      · exact Or.inr ⟨_, rfl, by decide, rfl⟩
      · exact Or.inr ⟨_, rfl, by decide, rfl⟩
      · exact Or.inl rfl
    rcases hin with ⟨hin, -⟩ | ⟨p, hp, hin⟩
    · rcases hguards with e | ⟨p, hp, hne, -⟩
      · rw [e] at hin
        cases hin
      · exact hne (Option.some.inj (hp.symm.trans hin))
    · rcases hguards with e | ⟨p', hp', -, hnil⟩
      · rw [e] at hp
        cases hp
      · obtain rfl := Option.some.inj (hp.symm.trans hp')
        rw [hnil] at hin
        cases hin
  obtain ⟨sys, hreach, hwptr, hpos, hplain, hfptr, hchan, hnine⟩ : ∃ sys,
      Transition.Reach step StepOk oneProcess sys ∧ sys.ectx.wptr = 24 ∧
        sys.pos 8 = some (.disabling false [.chan 48]) ∧ sys.pos 24 = some .plain ∧
        sys.ectx.fptr = notProcess ∧ sys.ectx.chan 48 = 8 ||| 1 ∧ sys.pos (8 ||| 1) = none := by
    have h₀ : Transition.Reach step StepOk oneProcess oneProcess := .start
    have h₁ := h₀.next (hok ⟨.startp 24 60, 40, 0, 0⟩ .plain rfl rfl
      ⟨trivial, ⟨by decide, by decide⟩, rfl⟩) rfl
    have h₂ := h₁.next (hok ⟨.alt, 41, 0, 0⟩ .plain rfl rfl trivial) rfl
    have h₃ := h₂.next (hok ⟨.enbc 1 48, 42, 0, 0⟩ (.enabling false []) rfl rfl
      ⟨⟨false, [], rfl⟩, fun _ => hfree rfl⟩) rfl
    have h₄ := h₃.next (hok ⟨.altwt, 43, 0, 0⟩ (.enabling false [.chan 48]) rfl rfl ⟨_, rfl⟩) rfl
    exact ⟨_, h₄, rfl, rfl, rfl, rfl, rfl, rfl⟩
  have hnot : ¬ sys.Runs 8 := by
    rintro (e | ⟨q, hq, hmem⟩)
    · rw [hwptr] at e
      exact absurd e (by decide)
    · rw [hq.null_iff.mp hfptr] at hmem
      cases hmem
  have hout : StepOk sys ⟨.outword 7 48, 50, 0, 0⟩ := by
    rw [StepOk, hwptr, if_neg (by decide)]
    refine ⟨.plain, hplain, trivial, ?_⟩
    rintro w - ⟨hin, rfl⟩
    rw [hchan, hnine] at hin
    cases hin
  obtain ⟨hexec, -, halt⟩ := scheduling_sound hstart hreach
  obtain ⟨sys', hsys'⟩ := hexec _ hout
  have hrun : Transition.Reach (watch 8) (WatchOk 8) ⟨sys, 0, 0⟩ _ :=
    Transition.Reach.start.next (a := ⟨.outword 7 48, 50, 0, 0⟩) ⟨hout, hwptr ▸ by decide⟩
      (by rw [watch, hsys']; rfl)
  obtain ⟨-, hruns, hput⟩ := (halt 8 false [.chan 48] hpos _ hrun).2 hnot
  have hfires : sys.Fires ⟨.outword 7 48, 50, 0, 0⟩ sys' 8 := Or.inl ⟨48, rfl, hchan⟩
  have hone := hput (by
    dsimp only
    rw [if_pos hfires]
    exact Nat.one_pos)
  exact ⟨sys, _, hreach, hrun, hnot, hruns.mp hone, hone⟩

end OnePlace

end Tvm

end Kroc
