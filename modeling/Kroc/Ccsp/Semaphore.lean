import Kroc.Ccsp.Layout
import Kroc.Lib.Joining
import Kroc.Lib.Transition

/-!
# Ccsp/Semaphore — the lock-free semaphore

`sem_init`, `sem_dequeue`, `sem_claim` and `sem_release` of `runtime/ccsp/kernel/sched.c`, with
every access to a shared word a step.  The back pointer has the lock in its low bit, which is set
while the semaphore is free.  A call is of a scheduler's thread; that of a process which waits goes
on after the process is on the queue, and may outlive its wait.
-/

open Transition

namespace Kroc

namespace Ccsp

namespace Sem

open Function (update)

/-! ## Words -/

/-- `val & (~1)` -/
def clearBit (val : ℕ) : ℕ := val - val % 2

/-- What `atw_set_bit` leaves of a word, for bit 0. -/
def setBit (val : ℕ) : ℕ := clearBit val + 1

/-- `ccsp_sem_t`, and the `Link` words of the workspaces. -/
structure Mem where
  fptr : ℕ
  bptr : ℕ
  link : Wptr → Wptr

/-- `sem_init` -/
def init (link : Wptr → Wptr) : Mem := ⟨0, 1, link⟩

/-- What `to_test` points to: the front pointer, or the `Link` of a workspace. -/
def Mem.word (m : Mem) : Option Wptr → ℕ
  | none => m.fptr
  | some f => m.link f

/-! ## The calls -/

/-- Where a call is: what it does next. -/
inductive Pc
  | idle
  -- `sem_claim`
  | load (wptr : Wptr)
  | fast (wptr : Wptr)
  | reload (wptr : Wptr)
  | save (wptr : Wptr) (val : ℕ)
  | tail (wptr : Wptr) (val : ℕ)
  | retail (wptr : Wptr)
  | join (wptr : Wptr) (val : ℕ)
  -- `sem_release`
  | releaseLoad
  | releaseCas
  -- `atw_test_clear_bit`, in `sem_claim` and in `sem_dequeue`
  | testClear
  -- `sem_dequeue`
  | front
  | back (fptr : Wptr)
  | link (fptr : Wptr) (bptr : ℕ)
  | clearFront (fptr : Wptr)
  | casBack (fptr : Wptr)
  | restore (fptr : Wptr)
  | setFront (fptr link : Wptr)
  | setBit (toTest : Option Wptr)
  | test (toTest : Option Wptr)
  -- `enqueue_process`
  | enqueue (ptr : Wptr)
  deriving DecidableEq

/-- One step of a call. -/
def advance (m : Mem) : Pc → Mem × Pc
  | .idle => (m, .idle)
  | .load wptr => (m, if m.bptr = 1 then .fast wptr else .save wptr m.bptr)
  | .fast wptr => if m.bptr = 1 then ({ m with bptr := 0 }, .idle) else (m, .reload wptr)
  | .reload wptr => (m, .save wptr m.bptr)
  | .save wptr val => ({ m with link := update m.link wptr 0 }, .tail wptr val)
  | .tail wptr val =>
    if m.bptr = val then ({ m with bptr := wptr }, .join wptr val) else (m, .retail wptr)
  | .retail wptr => (m, .tail wptr m.bptr)
  | .join wptr val =>
    (if clearBit val = 0 then { m with fptr := wptr }
      else { m with link := update m.link (clearBit val) wptr },
      if val % 2 = 1 then .front else .testClear)
  | .releaseLoad => (m, if m.bptr = 0 then .releaseCas else .front)
  | .releaseCas => if m.bptr = 0 then ({ m with bptr := 1 }, .idle) else (m, .front)
  | .testClear =>
    ({ m with bptr := clearBit m.bptr }, if m.bptr % 2 = 1 then .front else .idle)
  | .front => (m, if m.fptr ≠ 0 then .back m.fptr else .setBit none)
  | .back fptr => (m, .link fptr m.bptr)
  | .link fptr bptr =>
    let link := m.link fptr
    (m, if bptr = fptr then .clearFront fptr
      else if link ≠ 0 then .setFront fptr link
      else .setBit (some fptr))
  | .clearFront fptr => ({ m with fptr := 0 }, .casBack fptr)
  | .casBack fptr =>
    if m.bptr = fptr then ({ m with bptr := 0 }, .enqueue fptr) else (m, .restore fptr)
  | .restore fptr => ({ m with fptr := fptr }, .back fptr)
  | .setFront fptr link => ({ m with fptr := link }, .enqueue fptr)
  | .setBit toTest => ({ m with bptr := setBit m.bptr }, .test toTest)
  | .test toTest => (m, if m.word toTest ≠ 0 then .testClear else .idle)
  | .enqueue _ => (m, .idle)

/-! ## Runs -/

/-- The words, where the threads are, who holds the semaphore, and the processes in the order in
which they were queued and enqueued. -/
structure Sys (τ : Type*) where
  mem : Mem
  pc : τ → Pc
  holding : List Wptr
  queued : List Wptr
  enqueued : List Wptr

/-- A process calls on a thread, a thread takes a step, or `Link` words are written that are not the
semaphore's. -/
inductive Act (τ : Type*)
  | claim (t : τ) (wptr : Wptr)
  | release (t : τ) (wptr : Wptr)
  | advance (t : τ)
  | other (link : Wptr → Wptr)

variable {τ : Type*} [DecidableEq τ]

/-- A step of thread `t`: who holds the semaphore is whose claim returned, and who is enqueued. -/
def Sys.advance (s : Sys τ) (t : τ) : Sys τ :=
  let r := Sem.advance s.mem (s.pc t)
  { mem := r.1
    pc := update s.pc t r.2
    holding := match s.pc t, r.2 with
      | .fast wptr, .idle => s.holding ++ [wptr]
      | .enqueue ptr, _ => s.holding ++ [ptr]
      | _, _ => s.holding
    queued := match s.pc t, r.2 with
      | .tail _ _, .join wptr _ => s.queued ++ [wptr]
      | _, _ => s.queued
    enqueued := match s.pc t with
      | .enqueue ptr => s.enqueued ++ [ptr]
      | _ => s.enqueued }

/-- **A step.** -/
def Sys.step (s : Sys τ) : Act τ → Option (Sys τ)
  | .claim t wptr =>
    if s.pc t = .idle then some { s with pc := update s.pc t (.load wptr) } else none
  | .release t wptr =>
    if s.pc t = .idle then
      some { s with pc := update s.pc t .releaseLoad, holding := s.holding.erase wptr }
    else none
  | .advance t => some (s.advance t)
  | .other link => some { s with mem := { s.mem with link := link } }

/-- The processes that have been queued and not yet enqueued. -/
def Sys.waiting (s : Sys τ) : List Wptr := s.queued.drop s.enqueued.length

/-- A claim that has not queued its process. -/
def Pc.Claims (wptr : Wptr) : Pc → Prop
  | .load w | .fast w | .reload w | .save w _ | .tail w _ | .retail w => w = wptr
  | _ => False

/-- A claim that has cleared the `Link` of its process, and not queued it. -/
def Pc.Cleared (wptr : Wptr) : Pc → Prop
  | .tail w _ | .retail w => w = wptr
  | _ => False

/-- The process runs: it is not in a claim. -/
def Sys.Runs (s : Sys τ) (wptr : Wptr) : Prop :=
  wptr ∉ s.waiting ∧ ∀ t, ¬ (s.pc t).Claims wptr

/-- **Who may do what**: processes call while they run, only a holder releases, and nobody else
writes to the `Link` of a process in a claim. -/
def Sys.Allowed (s : Sys τ) : Act τ → Prop
  | .claim _ wptr => IsWorkspace wptr ∧ s.Runs wptr
  | .release _ wptr => wptr ∈ s.holding ∧ s.Runs wptr
  | .advance _ => True
  | .other link => ∀ wptr, (wptr ∈ s.waiting ∨ ∃ t, (s.pc t).Cleared wptr) →
      link wptr = s.mem.link wptr

/-- No call is in progress. -/
def Sys.Quiet (s : Sys τ) : Prop := ∀ t, s.pc t = .idle

/-- A semaphore after `sem_init`. -/
def start (τ : Type*) (link : Wptr → Wptr) : Sys τ := ⟨init link, fun _ => .idle, [], [], []⟩

/-! ## The invariant -/

/-- Who has the semaphore: nobody, a process, or a call that is to pass it on. -/
inductive Token (τ : Type*)
  | free
  | held (wptr : Wptr)
  | call (t : τ)

/-- The lock bit. -/
def Token.bit : Token τ → ℕ
  | .free => 1
  | _ => 0

def Token.holders : Token τ → List Wptr
  | .held wptr => [wptr]
  | _ => []

/-- The calls that have the semaphore. -/
def Pc.Owns : Pc → Prop
  | .join _ val => val % 2 = 1
  | .releaseLoad | .releaseCas | .front | .back _ | .link _ _ | .clearFront _ | .casBack _
  | .restore _ | .setFront _ _ | .setBit _ | .enqueue _ => True
  | _ => False

/-- The process that a call has taken off the queue. -/
def Pc.hand : Pc → List Wptr
  | .enqueue ptr => [ptr]
  | _ => []

/-- Where the call is that has the semaphore. -/
def Sys.own (s : Sys τ) : Token τ → Pc
  | .call t => s.pc t
  | _ => .idle

/-- The front pointer, which a call takes away for a while. -/
def Sys.frontView (s : Sys τ) (tok : Token τ) : Wptr :=
  match s.own tok with
  | .casBack fptr | .restore fptr => fptr
  | _ => s.mem.fptr

/-- Where the processes lead; null, as an anchor, to the front. -/
def Sys.view (s : Sys τ) (tok : Token τ) (x : Wptr) : Wptr :=
  if x = 0 then s.frontView tok else s.mem.link x

/-- A process that is still to be joined. -/
def Sys.Unjoined (s : Sys τ) (x : Wptr) : Prop := ∃ t val, s.pc t = .join x val

/-- What the call that has the semaphore has seen. -/
def Sys.Seen (s : Sys τ) (q : List Wptr) : Pc → Prop
  | .back f | .clearFront f => ∃ r, q = f :: r ∧ ¬ s.Unjoined f
  | .casBack f | .restore f => (∃ r, q = f :: r ∧ ¬ s.Unjoined f) ∧ s.mem.fptr = 0
  | .link f b => ∃ r, q = f :: r ∧ ¬ s.Unjoined f ∧ (b ≠ f → r ≠ [])
  | .setFront f l => ∃ r, q = f :: l :: r ∧ ¬ s.Unjoined f ∧ ¬ s.Unjoined l
  | .setBit (some f) => ∃ c r, q = f :: c :: r
  | _ => True

/-- A call that is going to try for the semaphore. -/
def Sys.Wakes (s : Sys τ) (q : List Wptr) : Pc → Prop
  | .join _ _ | .testClear => True
  | .test none => s.mem.fptr ≠ 0
  | .test (some f) => f ∈ q ∧ s.mem.link f ≠ 0
  | _ => False

/-- The queue: `q` is on it. -/
structure Sys.Queued (s : Sys τ) (q : List Wptr) (tok : Token τ) : Prop where
  log : s.queued = s.enqueued ++ (s.own tok).hand ++ q
  nodup : (0 :: ((s.own tok).hand ++ q)).Nodup
  even : ∀ x ∈ q, x % 2 = 0
  joining : Joining 0 (s.view tok) s.Unjoined 0 q
  back : s.mem.bptr = q.getLast?.getD 0 + tok.bit
  follows : ∀ {t w val}, s.pc t = .join w val → Follows (clearBit val) w 0 q
  joinOnce : ∀ {t t' w val val'}, s.pc t = .join w val → s.pc t' = .join w val' → t = t'

/-- The claims that have not queued their processes. -/
structure Sys.Claimers (s : Sys τ) (q : List Wptr) (tok : Token τ) : Prop where
  even : ∀ {t w}, (s.pc t).Claims w → w % 2 = 0
  away : ∀ {t w}, (s.pc t).Claims w → w ∉ 0 :: ((s.own tok).hand ++ q)
  once : ∀ {t t' w}, (s.pc t).Claims w → (s.pc t').Claims w → t = t'
  cleared : ∀ {t w}, (s.pc t).Cleared w → s.mem.link w = 0

/-- Who has the semaphore: while nobody has it, nobody waits, or a call is to try for it. -/
structure Sys.Tokens (s : Sys τ) (q : List Wptr) (tok : Token τ) : Prop where
  holding : s.holding = tok.holders
  owns : ∀ t, (s.pc t).Owns ↔ tok = .call t
  seen : s.Seen q (s.own tok)
  woken : tok = .free → q ≠ [] → ∃ t, s.Wakes q (s.pc t)

/-- The invariant. -/
structure Sys.Inv (s : Sys τ) (q : List Wptr) (tok : Token τ) : Prop where
  queue : s.Queued q tok
  claimers : s.Claimers q tok
  tokens : s.Tokens q tok

end Sem

end Ccsp

end Kroc
