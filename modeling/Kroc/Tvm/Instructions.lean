import Kroc.Tvm.Sched

/-!
# Tvm/Instructions — the instructions that schedule, communicate and wait

`ins_startp`, `ins_endp`, `ins_stopp` of `runtime/libtvm/ins_sec.c`, the standard channels of
`ins_chan.c`, `ins_alt.c`, and `ins_tin` of `ins_timer.c`.  The registers an instruction reads are
its arguments, and so are the readings of the clock: `now` the instruction's own, `wake` the one
`run_next_on_queue` may make.  There is one execution context, and no external channel bundle.
-/

namespace Kroc

namespace Tvm

namespace Ectx

variable (s : Ectx)

/-! ## Macros of the scheduler -/

/-- `ADD_TO_QUEUE_IPTR` -/
def addToQueueIptr (ws ip : Word) : Ectx := (s.set ws .iptr ip).addToQueue ws

/-- `DESCHEDULE_CURRENT` -/
def descheduleCurrent : Ectx := { s.addToQueueIptr s.wptr s.iptr with wptr := notProcess }

/-- `LOAD_PROCESS_RET`, `none` where the process is of another context. -/
def loadProcess (ws : Word) : Option (Ret × Ectx) :=
  if s.mem ws .ectx ≠ s.self then none
  else some (.cont, { s with wptr := ws, iptr := s.mem ws .iptr })

/-! ## Processes -/

/-- `ins_startp` -/
def insStartp (ws offset : Word) : Option (Ret × Ectx) :=
  some (.cont, s.addToQueueIptr ws (s.iptr + offset))

/-- `ins_endp` -/
def insEndp (parent wake : Word) : Option (Ret × Ectx) :=
  if s.mem parent .count = 1 then
    let s := s.set parent .count 0
    some (.cont, { s with iptr := s.mem parent .temp, wptr := parent })
  else (s.set parent .count (s.mem parent .count - 1)).runNextOnQueue wake

/-- `ins_stopp` -/
def insStopp (wake : Word) : Option (Ret × Ectx) := (s.set s.wptr .iptr s.iptr).runNextOnQueue wake

/-! ## Channels -/

/-- `write_word` of a channel word. -/
def setChan (chan value : Word) : Ectx :=
  { s with chan := fun k => if k = chan then value else s.chan k }

/-- `tvm_memcpy` -/
def memcpy (dst src : Word) (len : ℕ) : Ectx :=
  { s with bytes := fun a => if (a - dst).toNat < len then
    s.bytes (src + (a - dst)) else s.bytes a }

/-- Which way the data goes. -/
inductive Dir
  | input | output
  deriving DecidableEq

/-- `channel_input` and `channel_output` -/
def channelMove : Dir → Word → Word → Word → Ectx
  | .input, data, len, other => s.memcpy data (s.mem other .state) len.toNat
  | .output, data, len, other => s.memcpy (s.mem other .state) data (-len).toNat

/-- `channel_dc_input` and `channel_dc_nop` -/
def channelDc : Dir → Word → Word → Ectx
  | .input, data, len =>
    { s with bytes := fun a => if (a - data).toNat < len.toNat then 0 else s.bytes a }
  | .output, _, _ => s

/-- What `chan_io` returns. -/
inductive IoRet
  | cont | deschedule | error
  deriving DecidableEq

/-- The end of `chan_io`: this process is saved in the channel word. -/
def saveInChan (chan data len requeue : Word) : IoRet × Word × Ectx :=
  (.deschedule, requeue,
    ((((s.set s.wptr .state data).set s.wptr .ectx s.self).set s.wptr .link len).set
      s.wptr .iptr s.iptr).setChan chan s.wptr)

/-- `chan_io`, which returns the process to requeue as well. -/
def chanIo (dir : Dir) (chan data len : Word) : IoRet × Word × Ectx :=
  let value := s.chan chan
  let other := value &&& ~~~1
  if value = notProcess then s.saveInChan chan data len value
  else if value &&& 1 = 0 then
    (.cont, value, (s.setChan chan notProcess).channelMove dir data len other)
  else if other ≠ notProcess then
    let altState := s.mem other .state
    let requeue := if altState ≠ waiting then notProcess else value
    if altState = waiting ∨ altState = enabling then
      (s.set other .state ready).saveInChan chan data len requeue
    else if altState = ready then s.saveInChan chan data len requeue
    else (.error, requeue, s)
  else (.cont, value, s.channelDc dir data len)

/-- The end of `chan_std_io`: the process to requeue is loaded, or the next one run. -/
def requeueOrNext (requeue wake : Word) : Option (Ret × Ectx) :=
  if requeue &&& ~~~1 ≠ notProcess then s.loadProcess (requeue &&& ~~~1) else s.runNextOnQueue wake

/-- `chan_std_io` -/
def chanStdIo (dir : Dir) (chan data len wake : Word) : Option (Ret × Ectx) :=
  match s.chanIo dir chan data len with
  | (.error, _, s) => some (.error, s)
  | (.cont, requeue, s) =>
    if requeue ≠ notProcess then s.descheduleCurrent.requeueOrNext requeue wake
    else s.requeueOrNext requeue wake
  | (.deschedule, requeue, s) => s.requeueOrNext requeue wake

/-- `ins_in` -/
def insIn (bytes chan data wake : Word) : Option (Ret × Ectx) :=
  s.chanStdIo .input chan data bytes wake

/-- `ins_out` -/
def insOut (bytes chan data wake : Word) : Option (Ret × Ectx) :=
  s.chanStdIo .output chan data (-bytes) wake

/-- `write_byte` at the top of the workspace. -/
def writeTopByte (data : BitVec 8) : Ectx :=
  let s := s.set s.wptr .temp (s.mem s.wptr .temp &&& ~~~0xff ||| data.setWidth 32)
  { s with bytes := fun a => if a = s.wptr then data else s.bytes a }

/-- `write_word` at the top of the workspace. -/
def writeTopWord (data : Word) : Ectx :=
  let s := s.set s.wptr .temp data
  { s with bytes := fun a =>
      if (a - s.wptr).toNat < 4 then (data >>> (8 * (a - s.wptr).toNat)).setWidth 8 else s.bytes a }

/-- `ins_outbyte` -/
def insOutbyte (data chan wake : Word) : Option (Ret × Ectx) :=
  (s.writeTopByte (data.setWidth 8)).insOut 1 chan s.wptr wake

/-- `ins_outword` -/
def insOutword (data chan wake : Word) : Option (Ret × Ectx) :=
  (s.writeTopWord data).insOut 4 chan s.wptr wake

/-! ## Timers -/

/-- `ins_tin` -/
def insTin (time now wake : Word) : Option (Ret × Ectx) :=
  if timeAfter now time then some (.cont, s)
  else
    (((s.set s.wptr .time time).set s.wptr .iptr s.iptr).timerQueueInsert s.wptr time).bind fun s =>
      (s.set s.wptr .state notProcess).runNextOnQueue wake

/-! ## Alternatives -/

/-- `ins_alt` -/
def insAlt : Ectx := s.set s.wptr .state enabling

/-- `ins_talt` -/
def insTalt : Ectx := (s.set s.wptr .state enabling).set s.wptr .tlink timeNotSet

/-- `ins_enbc` -/
def insEnbc (guard chan : Word) : Ectx :=
  if guard ≠ 0 then
    let value := s.chan chan
    let this := s.wptr ||| 1
    if value = notProcess then s.setChan chan this
    else if value ≠ this then s.set s.wptr .state ready
    else s
  else s

/-- `ins_enbs` -/
def insEnbs (guard : Word) : Ectx := if guard ≠ 0 then s.set s.wptr .state ready else s

/-- `ins_enbt` -/
def insEnbt (guard timeout : Word) : Ectx :=
  if guard ≠ 0 then
    if s.mem s.wptr .tlink = timeNotSet then
      (s.set s.wptr .tlink timeSet).set s.wptr .time timeout
    else if timeAfter (s.mem s.wptr .time) timeout then s.set s.wptr .time timeout
    else s
  else s

/-- The end of `ins_altwt` and `ins_taltwt`: the process waits. -/
def altWait (wake : Word) : Option (Ret × Ectx) :=
  (((s.set s.wptr .state waiting).set s.wptr .ectx s.self).set s.wptr .iptr s.iptr).runNextOnQueue
    wake

/-- `ins_altwt` -/
def insAltwt (wake : Word) : Option (Ret × Ectx) :=
  let s := s.set s.wptr .temp noneSelected
  if s.mem s.wptr .state = ready then some (.cont, s) else s.altWait wake

/-- `ins_taltwt` -/
def insTaltwt (now wake : Word) : Option (Ret × Ectx) :=
  let s := s.set s.wptr .temp noneSelected
  if s.mem s.wptr .state = ready then some (.cont, s.set s.wptr .time now)
  else if s.mem s.wptr .tlink ≠ timeNotSet then
    let timeout := s.mem s.wptr .time
    if timeAfter now timeout then
      some (.cont, (s.set s.wptr .state ready).set s.wptr .time now)
    else
      ((s.set s.wptr .time (timeout + 1)).timerQueueInsert s.wptr (timeout + 1)).bind fun s =>
        s.altWait wake
  else s.altWait wake

/-- A guard that is ready is selected unless another one has been; also the flag `fired`. -/
def select (process : Word) : Word × Ectx :=
  if s.mem s.wptr .temp = noneSelected then (1, s.set s.wptr .temp process) else (0, s)

/-- `ins_disc` -/
def insDisc (process guard chan : Word) : Word × Ectx :=
  if guard ≠ 0 then
    if s.chan chan = s.wptr ||| 1 then (0, s.setChan chan notProcess)
    else if s.chan chan ≠ notProcess then s.select process
    else (0, s)
  else (0, s)

/-- `ins_diss` -/
def insDiss (process guard : Word) : Word × Ectx := if guard ≠ 0 then s.select process else (0, s)

/-- `ins_dist` -/
def insDist (process guard timeout : Word) : Option (Word × Ectx) :=
  if guard ≠ 0 then
    if s.mem s.wptr .tlink = timeSet then
      if timeAfter timeout (s.mem s.wptr .time) then some (0, s) else some (s.select process)
    else if s.mem s.wptr .tlink ≠ timeNotSet then (s.timerQueueRemove s.wptr).map fun s => (0, s)
    else some (0, s)
  else some (0, s)

/-- `ins_altend` -/
def insAltend : Ret × Ectx :=
  if s.mem s.wptr .temp ≠ noneSelected then (.cont, { s with iptr := s.iptr + s.mem s.wptr .temp })
  else (.error, s)

end Ectx

end Tvm

end Kroc
