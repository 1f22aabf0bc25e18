import Kroc.Tvm.Instructions

/-!
# Tvm/Machine — the processes of a context, and what they may execute

A step is an instruction of the current process, or, when there is none, `run_next_on_queue` of
`tvm_run`.  Beside the context stands where each process is in its program, which only the process
itself changes: enough to say that alternatives are well formed and channels have one user at
each end.
-/

namespace Kroc

namespace Tvm

open Ectx

/-- A guard of an alternative that has been enabled. -/
inductive Guard
  | chan (chan : Word)
  | skip
  | timer (time : Word)
  deriving DecidableEq

/-- Where a process is in its program: what it did last, or the guards it has yet to disable.
`timed` is an alternative that began with `talt`. -/
inductive Pos
  | plain
  | stopped
  | chanIn (chan : Word)
  | chanOut (chan : Word)
  | timer (time : Word)
  | enabling (timed : Bool) (guards : List Guard)
  | disabling (timed : Bool) (guards : List Guard)
  deriving DecidableEq

/-- Outside an alternative. -/
def Pos.Free : Pos → Prop
  | .enabling .. => False
  | .disabling .. => False
  | .stopped => False
  | _ => True

/-- The guards of an alternative. -/
def Pos.guards : Pos → List Guard
  | .enabling _ guards => guards
  | .disabling _ guards => guards
  | _ => []

/-- The instructions, with the registers they read. -/
inductive Ins
  | run
  | local
  | stl0 (value : Word)
  | stl1 (value : Word)
  | store (address : Word) (value : BitVec 8)
  | ajw (offset : Word)
  | startp (ws offset : Word)
  | endp (parent : Word)
  | stopp
  | input (bytes chan data : Word)
  | output (bytes chan data : Word)
  | outbyte (data chan : Word)
  | outword (data chan : Word)
  | tin (time : Word)
  | alt
  | talt
  | enbc (guard chan : Word)
  | enbs (guard : Word)
  | enbt (guard timeout : Word)
  | altwt
  | taltwt
  | disc (process guard chan : Word)
  | diss (process guard : Word)
  | dist (process guard timeout : Word)
  | altend

/-- A step: an instruction, the instruction pointer behind it, and the readings of the clock. -/
structure Act where
  ins : Ins
  iptr : Word
  now : Word
  wake : Word

/-- The effect of an instruction on the context. -/
def Ins.exec (s : Ectx) (now wake : Word) : Ins → Option Ectx
  | .run => (s.runNextOnQueue wake).map Prod.snd
  | .local => some s
  | .stl0 value => some (s.set s.wptr .temp value)
  | .stl1 value => some (s.set s.wptr .count value)
  | .store address value =>
    some { s with bytes := fun a => if a = address then value else s.bytes a }
  | .ajw offset => some { s with wptr := s.wptr + 4 * offset }
  | .startp ws offset => (s.insStartp ws offset).map Prod.snd
  | .endp parent => (s.insEndp parent wake).map Prod.snd
  | .stopp => (s.insStopp wake).map Prod.snd
  | .input bytes chan data => (s.insIn bytes chan data wake).map Prod.snd
  | .output bytes chan data => (s.insOut bytes chan data wake).map Prod.snd
  | .outbyte data chan => (s.insOutbyte data chan wake).map Prod.snd
  | .outword data chan => (s.insOutword data chan wake).map Prod.snd
  | .tin time => (s.insTin time now wake).map Prod.snd
  | .alt => some s.insAlt
  | .talt => some s.insTalt
  | .enbc guard chan => some (s.insEnbc guard chan)
  | .enbs guard => some (s.insEnbs guard)
  | .enbt guard timeout => some (s.insEnbt guard timeout)
  | .altwt => (s.insAltwt wake).map Prod.snd
  | .taltwt => (s.insTaltwt now wake).map Prod.snd
  | .disc process guard chan => some (s.insDisc process guard chan).2
  | .diss process guard => some (s.insDiss process guard).2
  | .dist process guard timeout => (s.insDist process guard timeout).map Prod.snd
  | .altend => some s.insAltend.2

/-- A context and where its processes are. -/
structure Sys where
  ectx : Ectx
  pos : Word → Option Pos

/-- A guard that is enabled or disabled: only one that holds counts. -/
def guarded (guard : Word) (g : Guard) : List Guard := if guard ≠ 0 then [g] else []

/-- Where a process is after an instruction that is not about other processes. -/
def Ins.next (pos : Pos) : Ins → Pos
  | .ajw _ => .plain
  | .stopp => .stopped
  | .input _ chan _ => .chanIn chan
  | .output _ chan _ => .chanOut chan
  | .outbyte _ chan => .chanOut chan
  | .outword _ chan => .chanOut chan
  | .tin time => .timer time
  | .alt => .enabling false []
  | .talt => .enabling true []
  | .enbc guard chan =>
    match pos with
    | .enabling timed guards => .enabling timed (guarded guard (.chan chan) ++ guards)
    | _ => pos
  | .enbs guard =>
    match pos with
    | .enabling timed guards => .enabling timed (guarded guard .skip ++ guards)
    | _ => pos
  | .enbt guard timeout =>
    match pos with
    | .enabling timed guards => .enabling timed (guarded guard (.timer timeout) ++ guards)
    | _ => pos
  | .altwt => .disabling false pos.guards
  | .taltwt => .disabling true pos.guards
  | .disc _ guard chan =>
    match pos with
    | .disabling timed guards => .disabling timed (guards.diff (guarded guard (.chan chan)))
    | _ => pos
  | .diss _ guard =>
    match pos with
    | .disabling timed guards => .disabling timed (guards.diff (guarded guard .skip))
    | _ => pos
  | .dist _ guard timeout =>
    match pos with
    | .disabling timed guards => .disabling timed (guards.diff (guarded guard (.timer timeout)))
    | _ => pos
  | .altend => .plain
  | _ => pos

/-- Where the processes are after an instruction of `w`. -/
def Ins.move (s : Ectx) (pos : Word → Option Pos) (w : Word) (ins : Ins) : Word → Option Pos :=
  match ins with
  | .run => pos
  | .ajw offset => Function.update (Function.update pos w none) (w + 4 * offset) (some .plain)
  | .startp ws _ => Function.update pos ws (some .plain)
  | .endp parent =>
    if s.mem parent .count = 1 then
      Function.update (Function.update pos w none) parent (some .plain)
    else Function.update pos w none
  | ins => Function.update pos w ((pos w).map ins.next)

/-- **A step.** -/
def step (sys : Sys) (act : Act) : Option Sys :=
  let s := { sys.ectx with iptr := act.iptr }
  (act.ins.exec s act.now act.wake).map fun s' => ⟨s', act.ins.move s sys.pos s.wptr⟩

/-! ## Well-formed programs -/

/-- A process that is using a channel for input: blocked, or with a guard on it. -/
def Sys.Inputs (sys : Sys) (w chan : Word) : Prop :=
  (sys.pos w = some (.chanIn chan) ∧ sys.ectx.chan chan = w) ∨
    ∃ pos, sys.pos w = some pos ∧ .chan chan ∈ pos.guards

/-- A process that is using a channel for output: blocked. -/
def Sys.Outputs (sys : Sys) (w chan : Word) : Prop :=
  sys.pos w = some (.chanOut chan) ∧ sys.ectx.chan chan = w

/-- Nobody else is using the channel for input. -/
def Sys.InputFree (sys : Sys) (chan : Word) : Prop :=
  ∀ w, w ≠ sys.ectx.wptr → ¬ sys.Inputs w chan

/-- Nobody else is using the channel for output. -/
def Sys.OutputFree (sys : Sys) (chan : Word) : Prop :=
  ∀ w, w ≠ sys.ectx.wptr → ¬ sys.Outputs w chan

/-- A workspace pointer: not null, and of a word. -/
def IsWorkspace (ws : Word) : Prop := ws ≠ notProcess ∧ ws &&& 3 = 0

/-- The process that is to disable a guard has it enabled. -/
def Guarded (guard : Word) (g : Guard) (guards : List Guard) : Prop := guard ≠ 0 → g ∈ guards

/-- **What a process may execute** where it is: alternatives are well formed, a channel has one user
at each end, and a workspace is one process's. -/
def Ins.Allowed (sys : Sys) (pos : Pos) : Ins → Prop
  | .run => False
  | .local | .stl0 _ | .stl1 _ | .store .. => True
  | .ajw offset =>
    pos.Free ∧ IsWorkspace (sys.ectx.wptr + 4 * offset) ∧
      sys.pos (sys.ectx.wptr + 4 * offset) = none
  | .startp ws _ => pos.Free ∧ IsWorkspace ws ∧ sys.pos ws = none
  | .endp parent =>
    pos.Free ∧ IsWorkspace parent ∧ (parent = sys.ectx.wptr ∨ sys.pos parent = none)
  | .stopp | .tin _ | .alt | .talt => pos.Free
  | .input _ chan _ => pos.Free ∧ sys.InputFree chan
  | .output _ chan _ | .outbyte _ chan | .outword _ chan => pos.Free ∧ sys.OutputFree chan
  | .enbc guard chan =>
    (∃ timed guards, pos = .enabling timed guards) ∧ (guard ≠ 0 → sys.InputFree chan)
  | .enbs _ => ∃ timed guards, pos = .enabling timed guards
  | .enbt .. => ∃ guards, pos = .enabling true guards
  | .altwt => ∃ guards, pos = .enabling false guards
  | .taltwt => ∃ guards, pos = .enabling true guards
  | .disc _ guard chan =>
    ∃ timed guards, pos = .disabling timed guards ∧ Guarded guard (.chan chan) guards
  | .diss _ guard => ∃ timed guards, pos = .disabling timed guards ∧ Guarded guard .skip guards
  | .dist _ guard timeout =>
    ∃ guards, pos = .disabling true guards ∧ Guarded guard (.timer timeout) guards
  | .altend => ∃ timed, pos = .disabling timed []

/-- **A step of a well-formed program.** -/
def StepOk (sys : Sys) (act : Act) : Prop :=
  if sys.ectx.wptr = notProcess then act.ins = .run
  else ∃ pos, sys.pos sys.ectx.wptr = some pos ∧ act.ins.Allowed sys pos

end Tvm

end Kroc
