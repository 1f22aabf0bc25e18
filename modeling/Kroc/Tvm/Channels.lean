import Kroc.Tvm.MobileUpdate

/-!
# Tvm/Channels — channels between contexts, and of external bundles

`chan_io` and `chan_std_io` of `runtime/libtvm/ins_chan.c` as all inputs and outputs use them, with
the data handlers of `ins_in` and of the mobile inputs, and `ins_xable`, `ins_xin`, `ins_xend` and
`ins_mt_xin`, which are built on them.  A channel word is null, a process, a process with bit 0 set
that waits for any of several channels, 1 on a disconnected channel, or has bit 1 set and is the
address of an external bundle.
-/

namespace Kroc

namespace Tvm

open Ectx

/-- A function of `EXT_CB_INTERFACE`, of the bundle's data, the channel, and the data to move. -/
abbrev ExtOp := Word → Word → Word → Word → Contexts → Ret × Contexts

/-- `EXT_CB_INTERFACE`: what it says about inputs, where it says anything. -/
structure ExtInterface where
  input : Option ExtOp
  xable : Option (Word → Word → Contexts → Ret × Contexts)
  xin : Option ExtOp
  mtIn : Option ExtOp
  mtXin : Option ExtOp

/-- What `chan_io` returns: `ECTX_CONTINUE`, `_ECTX_DESCHEDULE`, `_ECTX_BYPASS`, or what a handler
or `set_error_flag` returned, which is positive. -/
inductive ChanRet
  | cont | deschedule | bypass
  | ret (r : Ret)
  deriving DecidableEq

/-- A handler's return. -/
def ChanRet.of (r : Ret) : ChanRet := if r = .cont then .cont else .ret r

/-- The handlers `chan_io` is called with: for a communication with a process, on a disconnected
channel, and on a channel of an external bundle. -/
structure ChanOps where
  data : Word → Word → Word → Contexts → Option (Ret × Contexts)
  dc : Word → Word → Contexts → Ret × Contexts
  ext : ExtInterface → ExtOp

/-- A handler that is there, or `EFLAG_EXTCHAN`. -/
def extOp (op : Option ExtOp) : ExtOp :=
  op.getD fun _ _ _ _ m => (.error, m)

namespace Contexts

variable (m : Contexts) (self : Word) (intf : Word → Option ExtInterface)

/-- `tvm_memcpy` -/
def memcpy (dst src : Word) (len : ℕ) : Contexts :=
  { m with bytes := fun a => if (a - dst).toNat < len then
    m.bytes (src + (a - dst)) else m.bytes a }

/-- `DESCHEDULE_CURRENT` -/
def descheduleCurrent : Contexts := m.put (m.ectx self).descheduleCurrent

/-- `LOAD_PROCESS_RET` -/
def loadProcess (ws now : Word) : Option (Ret × Contexts) :=
  let dst := m.mem ws .ectx
  if dst ≠ self then
    let r := m.addToQueueExternal dst self ws
    if r.1 ≠ .cont then some r else r.2.runNextOnQueue self now
  else some (.cont, m.put { m.ectx self with wptr := ws, iptr := m.mem ws .iptr })

/-- The end of `chan_io`: this process is saved in the channel word. -/
def saveInChan (chan data len : Word) : Contexts :=
  let wptr := (m.ctx self).wptr
  ((((m.set wptr .state data).set wptr .ectx self).set wptr .link len).set
    wptr .iptr (m.ctx self).iptr).write chan wptr

/-- `chan_io`, which returns the process to requeue as well. -/
def chanIo (ops : ChanOps) (chan data len : Word) : Option (ChanRet × Word × Contexts) :=
  let value := m.chan chan
  let other := value &&& ~~~1
  if value = notProcess then some (.deschedule, value, m.saveInChan self chan data len)
  else if value &&& 2 ≠ 0 then
    let cb := value &&& ~~~3
    match intf (m.chan cb) with
    | none => some (.ret .error, notProcess, m)
    | some i =>
      let r := ops.ext i (m.chan (cb + 4)) chan data len m
      some (if r.1 = .cont then .bypass else .ret r.1, notProcess, r.2)
  else if value &&& 1 = 0 then
    (ops.data data len other (m.write chan notProcess)).map fun r => (.of r.1, value, r.2)
  else if other ≠ notProcess then
    let altState := m.mem other .state
    let requeue := if altState ≠ waiting then notProcess else value
    if altState = waiting ∨ altState = enabling then
      some (.deschedule, requeue, (m.set other .state ready).saveInChan self chan data len)
    else if altState = ready then some (.deschedule, requeue, m.saveInChan self chan data len)
    else some (.ret .error, requeue, m)
  else
    let r := ops.dc data len m
    some (.of r.1, value, r.2)

/-- The end of `chan_std_io`: the process to requeue is loaded, or the next one run. -/
def requeueOrNext (requeue now : Word) : Option (Ret × Contexts) :=
  if requeue &&& ~~~1 ≠ notProcess then m.loadProcess self (requeue &&& ~~~1) now
  else m.runNextOnQueue self now

/-- `chan_std_io` -/
def chanStdIo (ops : ChanOps) (chan data len now : Word) : Option (Ret × Contexts) :=
  (m.chanIo self intf ops chan data len).bind fun (ret, requeue, m) =>
    match ret with
    | .ret r => some (r, m)
    | .bypass => some (.cont, m)
    | .cont =>
      if requeue ≠ notProcess then (m.descheduleCurrent self).requeueOrNext self requeue now
      else m.requeueOrNext self requeue now
    | .deschedule => m.requeueOrNext self requeue now

/-! ## Handlers -/

/-- `channel_input`, `channel_dc_input` and `channel_ext_input` or `channel_ext_xin`. -/
def inputOps (ext : ExtInterface → Option ExtOp) : ChanOps where
  data data len other m := some (.cont, m.memcpy data (m.mem other .state) len.toNat)
  dc data len m :=
    (.cont, { m with bytes := fun a => if (a - data).toNat < len.toNat then 0 else m.bytes a })
  ext i := extOp (ext i)

/-- `mt_chan_in`, `mt_chan_dc_in` and `mt_chan_ext_in` or `mt_chan_ext_xin`, with the address of the
variable of `mt_chan_io`. -/
def mtInputOps (fuel : ℕ) (ptr : Word) (ext : ExtInterface → Option ExtOp) : ChanOps where
  data dst _ other m := m.mtChanIo fuel ptr dst (m.mem other .state)
  dc dst _ m := (.cont, m.write dst notProcess)
  ext i := extOp (ext i)

/-- An input: of so many bytes, or of a mobile. -/
inductive Item
  | bytes (len : Word)
  | mobile (fuel : ℕ) (ptr : Word)

/-- The length that `chan_io` is called with. -/
def Item.len : Item → Word
  | .bytes len => len
  | .mobile _ _ => 0x80000000#32

/-- The handlers of `ins_in` and `ins_mt_in`. -/
def Item.ops : Item → ChanOps
  | .bytes _ => inputOps ExtInterface.input
  | .mobile fuel ptr => mtInputOps fuel ptr ExtInterface.mtIn

/-- The handlers of `ins_xin` and `ins_mt_xin`. -/
def Item.xops : Item → ChanOps
  | .bytes _ => inputOps ExtInterface.xin
  | .mobile fuel ptr => mtInputOps fuel ptr ExtInterface.mtXin

/-! ## Instructions -/

/-- `ins_in` and `ins_mt_in` -/
def insIn (item : Item) (chan data now : Word) : Option (Ret × Contexts) :=
  m.chanStdIo self intf item.ops chan data item.len now

/-- The part of `ins_xable` that waits for the channel alone. -/
def xableWait (chan : Word) : Contexts :=
  let wptr := (m.ctx self).wptr
  ((((m.set wptr .state waiting).set wptr .ectx self).set wptr .link chan).set
    wptr .iptr (m.ctx self).iptr).write chan (wptr ||| 1)

/-- `ins_xable` -/
def insXable (chan now : Word) : Option (Ret × Contexts) :=
  let value := m.chan chan
  if value &&& 2 ≠ 0 then
    let cb := value &&& ~~~3
    match intf (m.chan cb) with
    | none => some (.error, m)
    | some i =>
      match i.xable with
      | none => some (.error, m)
      | some xable => some (xable (m.chan (cb + 4)) chan m)
  else if value = notProcess then (m.xableWait self chan).runNextOnQueue self now
  else some (.cont, m)

/-- `ins_xin` and `ins_mt_xin` -/
def insXin (item : Item) (chan data now : Word) : Option (Ret × Contexts) :=
  (m.chanIo self intf item.xops chan data item.len).bind fun (ret, requeue, m) =>
    match ret with
    | .ret r => some (r, m)
    | .bypass => some (.error, m)
    | .deschedule => some (.error, m)
    | .cont =>
      if requeue = notProcess ||| 1 then (m.descheduleCurrent self).runNextOnQueue self now
      else some (.cont, m.write chan requeue)

/-- `ins_xend` -/
def insXend (chan : Word) : Ret × Contexts :=
  let value := m.chan chan
  if value ≠ notProcess ||| 1 then (m.write chan notProcess).addToQueueEctx self (value &&& ~~~1)
  else (.cont, m)

end Contexts

end Tvm

end Kroc
