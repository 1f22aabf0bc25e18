import Kroc.Lib.Chain
import Mathlib.Logic.Function.Basic

/-!
# Tvm/Sched — the run queue and the timer queue of an execution context

`runtime/libtvm/scheduler.c`, with the words of the workspaces in `transputer.h` and `TIME_AFTER` of
`tvm_time.h`.  Words have 32 bits and wrap around.  The words a workspace has for the scheduler are
functions of the workspace pointer, so that those of different workspaces are different words.  A
loop over a list gives up after `2 ^ 32` nodes, which only one without an end has.
-/

namespace Kroc

namespace Tvm

/-- `WORD`, and `WORDPTR`. -/
abbrev Word := BitVec 32

/-- `TIME_AFTER` -/
def timeAfter (t₁ t₂ : Word) : Bool := 0 < (t₁ - t₂).toInt

/-! ## Workspaces -/

/-- The words of a workspace: the process count of a parallel above it, and the slots below, `link`
also for `WS_PENDING`, `state` also for `WS_POINTER` and `WS_LENGTH`. -/
inductive Slot
  | count | temp | iptr | link | ectx | state | tlink | time
  deriving DecidableEq

/-- `NOT_PROCESS_P` -/
def notProcess : Word := 0

/-- `ENABLING_P` -/
def enabling : Word := 0x80000001#32

/-- `WAITING_P` -/
def waiting : Word := 0x80000002#32

/-- `DISABLING_P` and `READY_P` -/
def ready : Word := 0x80000003#32

/-- `TIME_SET_P` -/
def timeSet : Word := 0x80000001#32

/-- `TIME_NOT_SET_P` -/
def timeNotSet : Word := 0x80000002#32

/-- `NONE_SELECTED_O` -/
def noneSelected : Word := -1

/-- An execution context, at `self`, and the memory of its processes: their workspaces, the channel
words and the bytes.  `timers` and `interrupt` are the flags `SFLAG_TQ` and `SFLAG_INTR`. -/
structure Ectx where
  mem : Word → Slot → Word
  chan : Word → Word
  bytes : Word → BitVec 8
  self : Word
  wptr : Word
  iptr : Word
  fptr : Word
  bptr : Word
  tptr : Word
  tnext : Word
  timers : Bool
  interrupt : Bool

namespace Ectx

variable (s : Ectx)

/-- `WORKSPACE_SET` -/
def set (ws : Word) (slot : Slot) (value : Word) : Ectx :=
  { s with mem := fun w k => if w = ws ∧ k = slot then value else s.mem w k }

@[simp] theorem mem_set (ws : Word) (slot : Slot) (value w : Word) (k : Slot) :
    (s.set ws slot value).mem w k = if w = ws ∧ k = slot then value else s.mem w k := rfl

@[simp] theorem chan_set (ws : Word) (slot : Slot) (value : Word) :
    (s.set ws slot value).chan = s.chan := rfl

@[simp] theorem bytes_set (ws : Word) (slot : Slot) (value : Word) :
    (s.set ws slot value).bytes = s.bytes := rfl

@[simp] theorem self_set (ws : Word) (slot : Slot) (value : Word) :
    (s.set ws slot value).self = s.self := rfl

@[simp] theorem wptr_set (ws : Word) (slot : Slot) (value : Word) :
    (s.set ws slot value).wptr = s.wptr := rfl

@[simp] theorem iptr_set (ws : Word) (slot : Slot) (value : Word) :
    (s.set ws slot value).iptr = s.iptr := rfl

@[simp] theorem fptr_set (ws : Word) (slot : Slot) (value : Word) :
    (s.set ws slot value).fptr = s.fptr := rfl

@[simp] theorem bptr_set (ws : Word) (slot : Slot) (value : Word) :
    (s.set ws slot value).bptr = s.bptr := rfl

@[simp] theorem tptr_set (ws : Word) (slot : Slot) (value : Word) :
    (s.set ws slot value).tptr = s.tptr := rfl

@[simp] theorem tnext_set (ws : Word) (slot : Slot) (value : Word) :
    (s.set ws slot value).tnext = s.tnext := rfl

/-! ## The run queue -/

/-- `add_to_queue` -/
def addToQueue (ws : Word) : Ectx :=
  let s := s.set ws .link notProcess
  if s.fptr = notProcess then { s with fptr := ws, bptr := ws }
  else { s.set s.bptr .link ws with bptr := ws }

/-! ## The timer queue -/

/-- `busy_wait_set_alarm` -/
def setAlarm : Ectx := { s with timers := true }

/-- The loop of `timer_queue_insert`. -/
def insertLoop (ws reschedule : Word) : ℕ → Ectx → Word → Word → Option Ectx
  | 0, _, _, _ => none
  | fuel + 1, s, this, next =>
    if next = notProcess then some ((s.set this .tlink ws).set ws .tlink notProcess)
    else if timeAfter (s.mem next .time) reschedule then
      some ((s.set ws .tlink next).set this .tlink ws)
    else insertLoop ws reschedule fuel s next (s.mem next .tlink)

/-- `timer_queue_insert` -/
def timerQueueInsert (ws reschedule : Word) : Option Ectx :=
  if s.tptr = notProcess then
    some (setAlarm ((({ s with tptr := ws, tnext := reschedule }).set ws .iptr s.iptr).set
      ws .tlink notProcess))
  else if timeAfter s.tnext reschedule then
    some (setAlarm { s.set ws .tlink s.tptr with tptr := ws, tnext := reschedule })
  else insertLoop ws reschedule (2 ^ 32) s s.tptr (s.mem s.tptr .tlink)

/-- The loop of `timer_queue_remove`. -/
def removeLoop (ws : Word) : ℕ → Ectx → Word → Word → Option Ectx
  | 0, _, _, _ => none
  | fuel + 1, s, previous, current =>
    if current = notProcess then some s
    else if current = ws then some (s.set previous .tlink (s.mem ws .tlink))
    else removeLoop ws fuel s current (s.mem current .tlink)

/-- `timer_queue_remove` -/
def timerQueueRemove (ws : Word) : Option Ectx :=
  if s.tptr = ws then
    let s := { s with tptr := s.mem s.tptr .tlink }
    let s := if s.tptr ≠ notProcess then setAlarm { s with tnext := s.mem s.tptr .time } else s
    some (s.set ws .tlink timeNotSet)
  else if s.tptr ≠ notProcess then
    (removeLoop ws (2 ^ 32) s s.tptr (s.mem s.tptr .tlink)).map fun s => s.set ws .tlink timeNotSet
  else some (s.set ws .tlink timeNotSet)

/-- What `walk_timer_queue` does with a process that has expired. -/
def expire (now ws : Word) : Ectx :=
  let s := (s.set ws .tlink timeSet).set ws .time now
  if s.mem ws .state ≠ ready then (s.set ws .state ready).addToQueue ws else s

/-- The loop of `walk_timer_queue`. -/
def walkLoop (now : Word) : ℕ → Ectx → Word → Option Ectx
  | 0, _, _ => none
  | fuel + 1, s, tptr =>
    let next := s.mem tptr .tlink
    let s := s.expire now tptr
    if next = notProcess then some { s with tptr := notProcess }
    else
      let tnext := s.mem next .time
      if timeAfter tnext now then some (setAlarm { s with tptr := next, tnext := tnext })
      else walkLoop now fuel s next

/-- `walk_timer_queue` -/
def walkTimerQueue (now : Word) : Option Ectx :=
  if s.tptr = notProcess ∨ timeAfter s.tnext now then some s
  else walkLoop now (2 ^ 32) s s.tptr

/-! ## The next process -/

/-- What an instruction returns. -/
inductive Ret
  | cont | preempt | interrupt | sleep | empty | error
  deriving DecidableEq

/-- `busy_wait_synchronise`, `now` what the clock says if it is asked. -/
def synchronise (now : Word) : Option (Ret × Ectx) :=
  if s.interrupt then some (.interrupt, s)
  else (s.walkTimerQueue now).map fun s =>
    (.cont, if s.tptr = notProcess then { s with timers := false } else s)

/-- `run_next_on_queue` after it has synchronised. -/
def takeNext : Ret × Ectx :=
  if s.fptr ≠ notProcess then
    let s := { s with wptr := s.fptr }
    let s :=
      if s.fptr = s.bptr then { s with fptr := notProcess, bptr := notProcess }
      else { s with fptr := s.mem s.fptr .link }
    (.cont, { s with iptr := s.mem s.wptr .iptr })
  else
    let s := { s with wptr := notProcess }
    (if s.tptr ≠ notProcess then .sleep else .empty, s)

/-- `run_next_on_queue` -/
def runNextOnQueue (now : Word) : Option (Ret × Ectx) :=
  if s.timers ∨ s.interrupt then
    (s.synchronise now).map fun r =>
      if r.1 = .cont then r.2.takeNext else (r.1, { r.2 with wptr := notProcess })
  else some s.takeNext

/-! ## What the run queue holds -/

/-- `WS_LINK` of a workspace. -/
def links (w : Word) : Word := s.mem w .link

/-- The run queue: the chain from `FPTR` to `BPTR`. -/
def RunQueue (q : List Word) : Prop := Fifo notProcess s.links s.fptr s.bptr q

variable {s} {ws : Word} {q : List Word}

theorem addToQueue_of_empty (h : s.fptr = notProcess) (ws : Word) :
    s.addToQueue ws = { s.set ws .link notProcess with fptr := ws, bptr := ws } := if_pos h

theorem addToQueue_of_ne (h : s.fptr ≠ notProcess) (ws : Word) :
    s.addToQueue ws =
      { (s.set ws .link notProcess).set s.bptr .link ws with bptr := ws } := if_neg h

theorem mem_addToQueue {k : Slot} (hk : k ≠ .link) (ws w : Word) :
    (s.addToQueue ws).mem w k = s.mem w k := by
  by_cases h : s.fptr = notProcess
  · rw [addToQueue_of_empty h]
    simp [hk]
  · rw [addToQueue_of_ne h]
    simp [hk]

/-- Adding to the run queue changes it and nothing else. -/
theorem regs_addToQueue (s : Ectx) (ws : Word) : s.addToQueue ws = { s with
    mem := (s.addToQueue ws).mem, fptr := (s.addToQueue ws).fptr,
    bptr := (s.addToQueue ws).bptr } := by
  by_cases h : s.fptr = notProcess
  · rw [addToQueue_of_empty h]
    rfl
  · rw [addToQueue_of_ne h]
    rfl

/-- **Adding to the run queue.** -/
theorem RunQueue.add (h : s.RunQueue q) (hws : ws ≠ notProcess) (hfresh : ws ∉ q) :
    (s.addToQueue ws).RunQueue (q ++ [ws]) := by
  have hback : q ≠ [] → s.bptr ≠ ws := fun hq e => hfresh (e ▸ h.back_mem hq)
  by_cases hempty : s.fptr = notProcess
  · have hq : q = [] := h.null_iff.mp hempty
    subst hq
    rw [RunQueue, addToQueue_of_empty hempty]
    exact Fifo.singleton hws (by simp [links])
  · have hq : q ≠ [] := fun e => hempty (h.null_iff.mpr e)
    rw [RunQueue, addToQueue_of_ne hempty]
    refine Fifo.push h hws ?_ (fun _ => ?_) (fun x hx hxb => ?_) (fun e => absurd e hempty)
      fun _ => rfl
    · simp [links, Ne.symm (hback hq)]
    · simp [links]
    · have hxw : x ≠ ws := fun e => hfresh (e ▸ hx)
      simp [links, hxw, hxb]

/-- **Taking the next process** from the front of the run queue. -/
theorem takeNext_spec (h : s.RunQueue q) :
    (q = [] ∧ s.takeNext.2 = { s with wptr := notProcess } ∧ s.takeNext.1 ≠ .cont) ∨
      ∃ w rest, q = w :: rest ∧ w ≠ notProcess ∧ s.takeNext.1 = .cont ∧
        s.takeNext.2 = { s with
          wptr := w, iptr := s.mem w .iptr, fptr := s.takeNext.2.fptr,
          bptr := s.takeNext.2.bptr } ∧ s.takeNext.2.RunQueue rest := by
  by_cases hempty : s.fptr = notProcess
  · left
    unfold takeNext
    rw [if_neg (not_not.mpr hempty)]
    refine ⟨h.null_iff.mp hempty, rfl, ?_⟩
    dsimp only
    split_ifs <;> decide
  · right
    obtain ⟨rest, rfl, hrest⟩ := h.exists_pop hempty
    refine ⟨s.fptr, rest, rfl, hempty, ?_⟩
    unfold takeNext
    rw [if_pos hempty]
    by_cases hlast : s.fptr = s.bptr
    · have hnil : rest = [] := by
        by_contra hne
        have hmem := hrest.back_mem hne
        exact (List.nodup_cons.mp h.1.nodup).1 (hlast ▸ hmem)
      subst hnil
      simp only [hlast, if_true]
      exact ⟨trivial, trivial, Fifo.nil rfl⟩
    · simp only [hlast, if_false]
      exact ⟨trivial, trivial, hrest⟩

end Ectx

end Tvm

end Kroc
