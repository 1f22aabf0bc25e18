import Mathlib
import Kroc.Ccsp.Sched
import Kroc.Lib.Transition

/-!
# Ccsp/Alt — ALTing, one atomic word operation at a time

`runtime/ccsp/kernel/sched.c`: `kernel_X_alt` to `kernel_dist`, `trigger_alt_guard`, the ALT branch
of `walk_timer_queue`, and the arrival of an outputter in `kernel_chan_io`.  One process ALTs over
and over; what refers to it from outside is a `Guard`, the word of a channel or a node of a timer
queue, and each guard has one party that may trigger it, the outputter of the channel or the
scheduler that walks the queue.  Each step holds at most one atomic operation on a word that others
see; the steps of one kernel call are the program counters from `Pc.enbcSwap` on.

A timer node is a fresh number each time one is armed.  The scheduler that walks a queue never runs
between two operations of an ALTer that runs on that scheduler.
-/

namespace Kroc

namespace Ccsp

namespace Alt

/-! ## Constants -/

def altEnabling : Word := 1#32 <<< 30

def altWaiting : Word := 1#32 <<< 29

def altNotReady : Word := 1#32 <<< 28

/-- `NoneSelected_o`, `MostNeg`. -/
def noneSelected : Word := 0x80000000#32

/-- `Time_AFTER` -/
def timeAfter (t₁ t₂ : Word) : Prop := (t₂ - t₁).msb = true

instance (t₁ t₂ : Word) : Decidable (timeAfter t₁ t₂) := inferInstanceAs (Decidable (_ = _))

/-! ## Data -/

/-- What may hold a pointer to the ALTer. -/
inductive Guard
  | chan (c : ℕ)
  | node (k : ℕ)
  deriving DecidableEq

/-- The word of a guard: `NotProcess_p`, the pointer to the ALTer with its low bit set, or the
pointer of the outputter. -/
inductive GuardWord
  | notProcess
  | alter
  | other
  deriving DecidableEq

/-- What a party swaps into the word of its guard. -/
def Guard.left : Guard → GuardWord
  | .chan _ => .other
  | .node _ => .notProcess

/-- `Wptr[TLink]` -/
inductive TLink
  | timeNotSet
  | timeSet
  | node (k : ℕ)
  deriving DecidableEq

/-- Where the party of a guard is: before it looks at the word; about to swap its own pointer, or
`NotProcess_p`, into it; in `trigger_alt_guard` before the load and before the compare-and-swap of
the state word; about to enqueue the ALTer; descheduled, or done with the node. -/
inductive Party
  | idle
  | loaded
  | trigger
  | triggerCas (state : Word)
  | enqueue
  | parked
  deriving DecidableEq

/-- What an enable does when its guard is ready: nothing (`enbc`, `enbs`, `enbt`), jump to the
disabling sequence (`enbc2`, `enbc3` and so on), or leave the identifier in `Temp` (`cenbc`). -/
inductive Form
  | plain
  | jump
  | setAddress (id : Word)
  deriving DecidableEq

/-- The ALTer: outside an ALT, between the kernel calls of one, descheduled in `altwt` or in
`altend`, or before the next atomic operation of the call it is in. -/
inductive Pc
  | idle
  | enabling
  | disabling
  | waiting
  | ending
  | enbcSwap (c : ℕ) (form : Form)
  | enbcRestore (c : ℕ) (form : Form) (temp : GuardWord)
  | enbcInc (c : ℕ)
  | readyLoad (form : Form)
  | readyAnd (form : Form)
  | altwtCas (state : Word)
  | altwtClear
  | taltwtCas (state : Word) (tn : Option ℕ) (now : Word)
  | taltwtAnd (now : Word)
  | discCas (c : ℕ) (address : Word) (always : Bool)
  | distSwap (k : ℕ) (timeout address : Word) (always : Bool)
  | altDec
  | altendDec
  deriving DecidableEq

/-- What happens to the ALTer: it is descheduled, put on a run queue, taken off it. -/
inductive Event
  | park
  | enqueue
  | resume
  deriving DecidableEq

/-- The slots of the ALTer's workspace, the guards and their parties, and the run queues' copies of
the ALTer.  `fired` is the result of the last kernel call; `published` counts the guards made to
refer to the ALTer in this ALT, and `log` holds the events, last first. -/
structure Sys where
  state : Word
  temp : Word
  tlink : TLink
  time : Word
  word : Guard → GuardWord
  party : Guard → Party
  nodeTime : ℕ → Word
  nextNode : ℕ
  pc : Pc
  fired : Bool
  queued : ℕ
  published : ℕ
  log : List Event

namespace Sys

variable (s : Sys)

def setWord (g : Guard) (w : GuardWord) : Sys := { s with word := Function.update s.word g w }

def setParty (g : Guard) (p : Party) : Sys := { s with party := Function.update s.party g p }

/-! ## Enabling -/

/-- `kernel_X_alt` -/
def alt : Sys :=
  { s with state := altEnabling ||| altNotReady ||| 1, pc := .enabling, published := 0 }

/-- `kernel_X_talt` -/
def talt : Sys := { s.alt with tlink := .timeNotSet }

/-- A ready guard: the jump clears the flags at once, the other forms look at them first. -/
def ready : Form → Sys
  | .jump => { s with pc := .readyAnd .jump }
  | form => { s with pc := .readyLoad form }

def readyLoad (form : Form) : Sys :=
  if s.state &&& altNotReady ≠ 0 then { s with pc := .readyAnd form }
  else { s with pc := .enabling, fired := true }

def readyAnd (form : Form) : Sys :=
  let s := { s with state := s.state &&& ~~~(altNotReady ||| altEnabling), fired := true }
  match form with
  | .plain => { s with pc := .enabling }
  | .jump => { s with pc := .disabling }
  | .setAddress id => { s with temp := id, pc := .enabling }

/-- `kernel_enbc`, up to the load of the channel word. -/
def enbc (c : ℕ) (form : Form) : Sys :=
  match s.word (.chan c) with
  | .notProcess => { s with pc := .enbcSwap c form }
  | .alter => { s with fired := false }
  | .other => s.ready form

def enbcSwap (c : ℕ) (form : Form) : Sys :=
  match s.word (.chan c) with
  | .notProcess =>
    { s.setWord (.chan c) .alter with pc := .enbcInc c, published := s.published + 1 }
  | temp => { s.setWord (.chan c) .alter with pc := .enbcRestore c form temp }

def enbcRestore (c : ℕ) (form : Form) (temp : GuardWord) : Sys :=
  (s.setWord (.chan c) temp).ready form

def enbcInc : Sys := { s with state := s.state + 1, pc := .enabling, fired := false }

/-- `kernel_enbs` -/
def enbs (form : Form) : Sys := s.ready form

/-- `kernel_enbt`; only `enbt` itself does not look at the clock. -/
def enbt (form : Form) (timeout now : Word) : Sys :=
  if form ≠ .plain ∧ ¬ timeAfter timeout now then
    { s with tlink := .timeSet, time := now }.ready form
  else if s.tlink = .timeNotSet then
    { s with time := timeout, tlink := .timeSet, fired := false }
  else if timeAfter s.time timeout then
    { s with time := timeout, fired := false }
  else
    { s with fired := false }

/-! ## Waiting -/

/-- `nstate` of `altwt` and `taltwt`. -/
def waitState (state : Word) : Word :=
  (state ||| altWaiting) &&& ~~~(altEnabling ||| altNotReady)

/-- The ALTer gives its processor away. -/
def park (pc : Pc) : Sys := { s with pc := pc, log := .park :: s.log }

/-- `kernel_Y_altwt`, up to the load of the state word. -/
def altwt : Sys :=
  let s := { s with temp := noneSelected }
  if s.state &&& altNotReady ≠ 0 then { s with pc := .altwtCas s.state }
  else { s with pc := .altwtClear }

def altwtCas (state : Word) : Sys :=
  if s.state = state then { s with state := waitState state }.park .waiting
  else { s with pc := .altwtClear }

def altwtClear : Sys := { s with state := s.state &&& ~~~altEnabling, pc := .disabling }

/-- `add_to_timer_queue`, a node of the queue of this scheduler. -/
def addToTimerQueue (time : Word) : Sys :=
  { s.setWord (.node s.nextNode) .alter with
    nodeTime := Function.update s.nodeTime s.nextNode time
    tlink := .node s.nextNode
    nextNode := s.nextNode + 1
    published := s.published + 1 }

/-- `kernel_Y_taltwt`, up to the compare-and-swap of the state word. -/
def taltwt (now : Word) : Sys :=
  let s := { s with temp := noneSelected }
  if s.state &&& altNotReady ≠ 0 then
    if s.tlink = .timeSet then
      if ¬ timeAfter s.time now then { s with pc := .taltwtAnd now }
      else { s.addToTimerQueue s.time with pc := .taltwtCas s.state (some s.nextNode) now }
    else { s with pc := .taltwtCas s.state none now }
  else { s with pc := .taltwtAnd now }

def taltwtCas (state : Word) (tn : Option ℕ) (now : Word) : Sys :=
  if s.state = state then
    match tn with
    | some _ => { s with state := waitState state + 1 }.park .waiting
    | none => { s with state := waitState state }.park .waiting
  else
    match tn with
    | some k =>
      { s.setWord (.node k) .notProcess with tlink := .timeSet, pc := .taltwtAnd now }
    | none => { s with pc := .taltwtAnd now }

def taltwtAnd (now : Word) : Sys :=
  { s with
    time := now
    state := s.state &&& ~~~(altNotReady ||| altEnabling)
    pc := .disabling }

/-! ## Disabling -/

/-- A guard fires: the `n` forms always set the address, the others unless one is selected. -/
def fire (address : Word) (always : Bool) : Sys :=
  if always ∨ s.temp = noneSelected then { s with temp := address, fired := true, pc := .disabling }
  else { s with fired := true, pc := .disabling }

/-- `kernel_disc`, up to the load of the channel word. -/
def disc (c : ℕ) (address : Word) (always : Bool) : Sys :=
  match s.word (.chan c) with
  | .alter => { s with pc := .discCas c address always }
  | .notProcess => { s with fired := false }
  | .other => s.fire address always

def discCas (c : ℕ) (address : Word) (always : Bool) : Sys :=
  if s.word (.chan c) = .alter then { s.setWord (.chan c) .notProcess with pc := .altDec }
  else s.fire address always

def altDec : Sys := { s with state := s.state - 1, fired := false, pc := .disabling }

/-- `kernel_X_diss`, `kernel_X_ndiss` -/
def diss (address : Word) (always : Bool) : Sys :=
  if always ∨ s.temp = noneSelected then { s with temp := address, fired := true }
  else { s with fired := false }

/-- `kernel_dist` where the node has fired. -/
def distFired (k : ℕ) (timeout address : Word) (always : Bool) : Sys :=
  let s := { s with time := s.nodeTime k, pc := .disabling }
  if timeAfter timeout s.time then { s with tlink := .timeSet, fired := false }
  else s.fire address always

/-- `kernel_dist`, up to the load of the pointer in the node.  A node of this scheduler's own queue
is unlinked at once. -/
def dist (timeout address : Word) (always remote : Bool) : Sys :=
  match s.tlink with
  | .timeSet =>
    if ¬ timeAfter timeout s.time then s.fire address always else { s with fired := false }
  | .timeNotSet => { s with fired := false }
  | .node k =>
    let s := { s with tlink := .timeNotSet }
    if s.word (.node k) = .notProcess then s.distFired k timeout address always
    else if remote then { s with pc := .distSwap k timeout address always }
    else { s.setWord (.node k) .notProcess with pc := .altDec }

def distSwap (k : ℕ) (timeout address : Word) (always : Bool) : Sys :=
  if s.word (.node k) = .notProcess then s.distFired k timeout address always
  else { s.setWord (.node k) .notProcess with pc := .altDec }

/-- `kernel_altend`, up to the load of the state word. -/
def altend : Sys :=
  if s.state = 1 then { s with pc := .idle } else { s with pc := .altendDec }

def altendDec : Sys :=
  let s := { s with state := s.state - 1 }
  if s.state = 0 then { s with pc := .idle } else s.park .ending

/-! ## The parties -/

/-- `nstate` of `trigger_alt_guard`. -/
def triggerState (state : Word) : Word := (state - 1) &&& ~~~(altNotReady ||| altWaiting)

/-- What makes `trigger_alt_guard` enqueue the ALTer, in the word it has found. -/
def Wakes (state : Word) : Prop := state &&& altWaiting ≠ 0 ∨ triggerState state = 0

instance (state : Word) : Decidable (Wakes state) := inferInstanceAs (Decidable (_ ∨ _))

/-- The load of the guard's word: an outputter goes on unless another process waits there, the walk
of a timer queue takes on an expired node that refers to an ALTer. -/
def load (g : Guard) (now : Word) : Option Sys :=
  match g with
  | .chan _ => if s.word g = .other then none else some (s.setParty g .loaded)
  | .node k =>
    if s.word g = .alter ∧ ¬ timeAfter (s.nodeTime k) now then
      some { s.setParty g .loaded with nodeTime := Function.update s.nodeTime k now }
    else none

def swap (g : Guard) : Sys :=
  (s.setWord g g.left).setParty g (if s.word g = .alter then .trigger else .parked)

def triggerCas (g : Guard) (state : Word) : Sys :=
  if s.state = state then
    { s with state := triggerState state }.setParty g
      (if Wakes state then .enqueue else .parked)
  else s.setParty g .trigger

/-- `enqueue_process` -/
def enqueue (g : Guard) : Sys :=
  { s.setParty g .parked with queued := s.queued + 1, log := .enqueue :: s.log }

/-- The next operation of the party of `g`. -/
def partyStep (g : Guard) (now : Word) : Option Sys :=
  match s.party g with
  | .idle => s.load g now
  | .loaded => some (s.swap g)
  | .trigger => some (s.setParty g (.triggerCas s.state))
  | .triggerCas state => some (s.triggerCas g state)
  | .enqueue => some (s.enqueue g)
  | .parked => none

end Sys

/-! ## Steps -/

/-- A kernel call of the ALTer.  One whose guard is false returns without doing anything and is no
step. -/
inductive Call
  | alt
  | talt
  | enbc (c : ℕ) (form : Form)
  | enbs (form : Form)
  | enbt (form : Form) (timeout now : Word)
  | altwt
  | taltwt (now : Word)
  | disc (c : ℕ) (address : Word) (always : Bool)
  | diss (address : Word) (always : Bool)
  | dist (timeout address : Word) (always remote : Bool)
  | altend
  deriving DecidableEq

/-- Where in an ALT the call belongs. -/
def Call.pc : Call → Pc
  | .alt | .talt => .idle
  | .enbc .. | .enbs _ | .enbt .. | .altwt | .taltwt _ => .enabling
  | .disc .. | .diss .. | .dist .. | .altend => .disabling

inductive Act
  | call (f : Call)
  | tick
  | party (g : Guard) (now : Word)
  | resume
  | consume (c : ℕ)

namespace Sys

def call (s : Sys) : Call → Sys
  | .alt => s.alt
  | .talt => s.talt
  | .enbc c form => s.enbc c form
  | .enbs form => s.enbs form
  | .enbt form timeout now => s.enbt form timeout now
  | .altwt => s.altwt
  | .taltwt now => s.taltwt now
  | .disc c address always => s.disc c address always
  | .diss address always => s.diss address always
  | .dist timeout address always remote => s.dist timeout address always remote
  | .altend => s.altend

/-- The walk of this scheduler's queue is over: a node on it is not between two operations of the
walk. -/
def Settled (s : Sys) (f : Call) : Prop :=
  match f, s.tlink with
  | .dist _ _ _ false, .node k => s.party (.node k) = .idle ∨ s.party (.node k) = .parked
  | _, _ => True

instance (s : Sys) (f : Call) : Decidable (s.Settled f) := by
  unfold Settled; split <;> infer_instance

/-- The next atomic operation of the call the ALTer is in. -/
def tick (s : Sys) : Option Sys :=
  match s.pc with
  | .enbcSwap c form => some (s.enbcSwap c form)
  | .enbcRestore c form temp => some (s.enbcRestore c form temp)
  | .enbcInc _ => some s.enbcInc
  | .readyLoad form => some (s.readyLoad form)
  | .readyAnd form => some (s.readyAnd form)
  | .altwtCas state => some (s.altwtCas state)
  | .altwtClear => some s.altwtClear
  | .taltwtCas state tn now => some (s.taltwtCas state tn now)
  | .taltwtAnd now => some (s.taltwtAnd now)
  | .discCas c address always => some (s.discCas c address always)
  | .distSwap k timeout address always => some (s.distSwap k timeout address always)
  | .altDec => some s.altDec
  | .altendDec => some s.altendDec
  | .idle | .enabling | .disabling | .waiting | .ending => none

/-- A node that `taltwt` has just put on this scheduler's queue is not walked before `taltwt` is
over. -/
def Arming (s : Sys) (g : Guard) : Prop :=
  match s.pc with
  | .taltwtCas _ (some k) _ => g = .node k
  | _ => False

instance (s : Sys) (g : Guard) : Decidable (s.Arming g) := by
  unfold Arming; split <;> infer_instance

/-- A scheduler takes the ALTer off its run queue. -/
def resume (s : Sys) : Option Sys :=
  if s.queued = 0 then none
  else
    let t := { s with queued := s.queued - 1, log := .resume :: s.log }
    match s.pc with
    | .waiting => some { t with pc := .disabling }
    | .ending => some { t with pc := .idle }
    | _ => none

/-- Between two ALTs the ALTer inputs from an outputter that waits: `kernel_chan_io`. -/
def consume (s : Sys) (c : ℕ) : Option Sys :=
  if s.pc = .idle ∧ s.word (.chan c) = .other ∧ s.party (.chan c) = .parked then
    some ((s.setWord (.chan c) .notProcess).setParty (.chan c) .idle)
  else none

/-- **One step of the system.** -/
def step (s : Sys) : Act → Option Sys
  | .call f => if s.pc = f.pc ∧ s.Settled f then some (s.call f) else none
  | .tick => s.tick
  | .party g now => if s.Arming g then none else s.partyStep g now
  | .resume => s.resume
  | .consume c => s.consume c

/-- Nothing refers to the ALTer, nobody has arrived. -/
def init : Sys where
  state := 0
  temp := 0
  tlink := .timeNotSet
  time := 0
  word _ := .notProcess
  party _ := .idle
  nodeTime _ := 0
  nextNode := 0
  pc := .idle
  fired := false
  queued := 0
  published := 0
  log := []

end Sys

/-! ## What is promised -/

/-- Where the events leave the ALTer. -/
inductive Stage
  | running
  | parked
  | queued
  deriving DecidableEq

/-- Descheduled, enqueued, resumed, over and over: anything else leads nowhere. -/
def Stage.after : List Event → Option Stage
  | [] => some .running
  | e :: log =>
    match Stage.after log, e with
    | some .running, .park => some .parked
    | some .parked, .enqueue => some .queued
    | some .queued, .resume => some .running
    | _, _ => none

def Pc.Running : Pc → Prop
  | .waiting | .ending => False
  | _ => True

/-- The word that `enbc` has swapped its pointer into by mistake and is about to put back. -/
def Pc.restoring : Pc → Option Guard
  | .enbcRestore c _ _ => some (.chan c)
  | _ => none

/-- The party has taken the pointer out of the guard and is in `trigger_alt_guard`. -/
def Party.InFlight : Party → Prop
  | .trigger | .triggerCas _ => True
  | _ => False

/-- **The guard refers to the ALTer**: its word does, or its party has still to trigger. -/
def Sys.Refers (s : Sys) (g : Guard) : Prop :=
  (s.word g = .alter ∧ s.pc.restoring ≠ some g) ∨ (s.party g).InFlight

/-- **The ALTer wakes exactly once.** -/
structure Sys.Sound (s : Sys) : Prop where
  /-- It is descheduled, enqueued once, resumed, and so on. -/
  once : ∃ stage, Stage.after s.log = some stage ∧
    (stage = .running ↔ s.pc.Running) ∧ (stage = .queued ↔ s.queued = 1)
  /-- Its copies on run queues. -/
  queued : s.queued ≤ 1
  /-- While it runs it is on no run queue and nobody is about to put it there. -/
  running : s.pc.Running → s.queued = 0 ∧ ∀ g, s.party g ≠ .enqueue
  /-- After `altend` it is put on a run queue only once no guard refers to it. -/
  ended : s.pc = .ending → (s.queued = 1 ∨ ∃ g, s.party g = .enqueue) → ∀ g, ¬ s.Refers g
  /-- Once no guard refers to it, it is on a run queue or the last trigger is about to put it
  there. -/
  woken : ¬ s.pc.Running → (s.pc = .waiting → 0 < s.published) → (∀ g, ¬ s.Refers g) →
    s.queued = 1 ∨ ∃ g, s.party g = .enqueue

end Alt

end Ccsp

end Kroc
