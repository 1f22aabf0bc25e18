import Kroc.Ccsp.Sched
import Kroc.Lib.Joining
import Kroc.Lib.Transition

/-!
# Ccsp/Mail — the mail queues

`atomic_enqueue_to_runqueue` and `atomic_dequeue_from_runqueue` of `runtime/ccsp/kernel/sched.c`, by
which the other schedulers hand batches and processes to one.  Every access to a shared word is a
step; any number of threads enqueue, and the owner alone dequeues.  `workspace` says which word
of a node is its link, and `safety` is the build's `SAFETY`.
-/

open Transition

namespace Kroc

namespace Ccsp

namespace Mail

open Function (update)

/-! ## Words -/

/-- The queue, and the words of the nodes: `Link` of a workspace, `next` of a batch. -/
structure Mem where
  rq : RunQueue
  link : ℕ → ℕ
  next : ℕ → ℕ

variable (workspace safety : Bool)

/-- The link words of the nodes of a queue. -/
def Mem.node (m : Mem) : ℕ → ℕ := if workspace then m.link else m.next

def Mem.setNode (m : Mem) (ptr v : ℕ) : Mem :=
  if workspace then { m with link := update m.link ptr v }
  else { m with next := update m.next ptr v }

/-! ## The calls -/

/-- Where a call of `atomic_enqueue_to_runqueue` is: what it does next. -/
inductive Enq
  | idle
  | clear (ptr : ℕ)
  | swap (ptr : ℕ)
  | join (back ptr : ℕ)
  deriving DecidableEq

/-- `atomic_enqueue_to_runqueue` -/
def enqueue (m : Mem) : Enq → Option (Mem × Enq)
  | .idle => none
  | .clear ptr => some (m.setNode workspace ptr 0, .swap ptr)
  | .swap ptr => some ({ m with rq := { m.rq with bptr := ptr } }, .join m.rq.bptr ptr)
  | .join back ptr =>
    if back = 0 then some ({ m with rq := { m.rq with fptr := ptr } }, .idle)
    else some (m.setNode workspace back ptr, .idle)

/-- Where a call of `atomic_dequeue_from_runqueue` is: what it does next. -/
inductive Deq
  | front
  | back (ptr : ℕ)
  | casBack (ptr : ℕ)
  | casFront (ptr : ℕ)
  | next (ptr : ℕ)
  | setFront (ptr next : ℕ)
  | poison (ptr : ℕ)
  deriving DecidableEq

/-- `return ptr`, after what `SAFETY` adds. -/
def finish (ptr : ℕ) : Deq ⊕ ℕ := if safety then .inl (.poison ptr) else .inr ptr

/-- `atomic_dequeue_from_runqueue`: the next step, or what it returns, `0` for `NULL`. -/
def dequeue (m : Mem) : Deq → Mem × (Deq ⊕ ℕ)
  | .front => (m, if m.rq.fptr ≠ 0 then .inl (.back m.rq.fptr) else .inr 0)
  | .back ptr => (m, .inl (if ptr = m.rq.bptr then .casBack ptr else .next ptr))
  | .casBack ptr =>
    if m.rq.bptr = ptr then ({ m with rq := { m.rq with bptr := 0 } }, .inl (.casFront ptr))
    else (m, .inl (.next ptr))
  | .casFront ptr =>
    (if m.rq.fptr = ptr then { m with rq := { m.rq with fptr := 0 } } else m, finish safety ptr)
  | .next ptr =>
    let next := m.node workspace ptr
    (m, if next ≠ 0 then .inl (.setFront ptr next) else .inr 0)
  | .setFront ptr next => ({ m with rq := { m.rq with fptr := next } }, finish safety ptr)
  | .poison ptr => (m.setNode workspace ptr 0xffffffff, .inr ptr)

/-! ## Runs -/

/-- The words, where the threads are, the items in the order of their swaps, and the items returned.
The owner is at `Deq.front` between two calls. -/
structure Sys (τ : Type*) where
  mem : Mem
  enq : τ → Enq
  deq : Deq
  swapped : List ℕ
  returned : List ℕ

/-- A thread calls, a thread or the owner takes a step, or words are written that are not on the
queue. -/
inductive Act (τ : Type*)
  | call (t : τ) (ptr : ℕ)
  | enqueue (t : τ)
  | dequeue
  | other (link next : ℕ → ℕ)

variable {τ : Type*} [DecidableEq τ]

def Sys.enqueue (s : Sys τ) (t : τ) : Option (Sys τ) :=
  (Mail.enqueue workspace s.mem (s.enq t)).map fun r =>
    { s with
      mem := r.1
      enq := update s.enq t r.2
      swapped := match s.enq t with
        | .swap ptr => s.swapped ++ [ptr]
        | _ => s.swapped }

def Sys.dequeue (s : Sys τ) : Sys τ :=
  match Mail.dequeue workspace safety s.mem s.deq with
  | (m, .inl pc) => { s with mem := m, deq := pc }
  | (m, .inr ptr) => { s with
      mem := m
      deq := .front
      returned := if ptr = 0 then s.returned else s.returned ++ [ptr] }

/-- **A step.** -/
def Sys.step (s : Sys τ) : Act τ → Option (Sys τ)
  | .call t ptr =>
    if s.enq t = .idle then some { s with enq := update s.enq t (.clear ptr) } else none
  | .enqueue t => s.enqueue workspace t
  | .dequeue => some (s.dequeue workspace safety)
  | .other link next => some { s with mem := { s.mem with link := link, next := next } }

/-- The items that are to be returned. -/
def Sys.undelivered (s : Sys τ) : List ℕ := s.swapped.drop s.returned.length

/-- **Who may do what**: nobody enqueues an item that is on its way, and nobody else writes to the
link word of one. -/
def Sys.Allowed (s : Sys τ) : Act τ → Prop
  | .call _ ptr => ptr ≠ 0 ∧ ptr ∉ s.undelivered ∧ ∀ t, s.enq t ≠ .clear ptr ∧ s.enq t ≠ .swap ptr
  | .other link next => ∀ ptr, (ptr ∈ s.undelivered ∨ ∃ t, s.enq t = .swap ptr) →
      ({ s.mem with link := link, next := next } : Mem).node workspace ptr =
        s.mem.node workspace ptr
  | _ => True

/-- No enqueue is in progress. -/
def Sys.Quiet (s : Sys τ) : Prop := ∀ t, s.enq t = .idle

/-- One call by the owner, alone, returns `ptr`. -/
def Sys.Returns (s : Sys τ) (ptr : ℕ) : Prop :=
  ∃ k, 0 < k ∧ ((Sys.dequeue workspace safety)^[k] s).deq = .front ∧
    ((Sys.dequeue workspace safety)^[k] s).returned = s.returned ++ [ptr] ∧
    ∀ j, 0 < j → j < k → ((Sys.dequeue workspace safety)^[j] s).deq ≠ .front

/-- An empty queue. -/
def start (τ : Type*) (priofinity : Word) (pending : BatchPtr) (link next : ℕ → ℕ) : Sys τ :=
  ⟨⟨⟨0, 0, priofinity, pending⟩, link, next⟩, fun _ => .idle, .front, [], []⟩

/-! ## The invariant -/

/-- The item that a dequeue has taken off the queue and not returned. -/
def Deq.hand : Deq → List ℕ
  | .casFront ptr => [ptr]
  | .poison ptr => [ptr]
  | _ => []

/-- The item of an enqueue that has not swapped. -/
def Enq.Fresh (e : Enq) (ptr : ℕ) : Prop := e = .clear ptr ∨ e = .swap ptr

/-- The front pointer, which is stale while the item of the last node is taken. -/
def Sys.frontView (s : Sys τ) : ℕ :=
  match s.deq with
  | .casFront ptr => if s.mem.rq.fptr = ptr then 0 else s.mem.rq.fptr
  | _ => s.mem.rq.fptr

/-- Where the nodes lead; null, as an anchor, to the front. -/
def Sys.view (s : Sys τ) (x : ℕ) : ℕ := if x = 0 then s.frontView else s.mem.node workspace x

/-- A node that is still to be joined. -/
def Sys.Unjoined (s : Sys τ) (x : ℕ) : Prop := ∃ t a, s.enq t = .join a x

/-- What a dequeue has seen. -/
def Sys.Seen (s : Sys τ) (q : List ℕ) : Deq → Prop
  | .back ptr | .casBack ptr => ∃ r, q = ptr :: r ∧ ¬ s.Unjoined ptr
  | .next ptr => ∃ c r, q = ptr :: c :: r ∧ ¬ s.Unjoined ptr
  | .setFront ptr next => ∃ r, q = ptr :: next :: r ∧ ¬ s.Unjoined ptr ∧ ¬ s.Unjoined next
  | _ => True

/-- The invariant: `q` is on the queue. -/
structure Sys.Inv (s : Sys τ) (q : List ℕ) : Prop where
  log : s.swapped = s.returned ++ s.deq.hand ++ q
  nodup : (0 :: (s.deq.hand ++ q)).Nodup
  joining : Joining 0 (s.view workspace) s.Unjoined 0 q
  back : s.mem.rq.bptr = q.getLast?.getD 0
  follows : ∀ {t a b}, s.enq t = .join a b → Follows a b 0 q
  fresh : ∀ {t ptr}, (s.enq t).Fresh ptr → ptr ∉ 0 :: (s.deq.hand ++ q)
  once : ∀ {t t' ptr}, (s.enq t).Fresh ptr → (s.enq t').Fresh ptr → t = t'
  joinOnce : ∀ {t t' a a' b}, s.enq t = .join a b → s.enq t' = .join a' b → t = t'
  cleared : ∀ {t ptr}, s.enq t = .swap ptr → s.mem.node workspace ptr = 0
  seen : s.Seen q s.deq

end Mail

end Ccsp

end Kroc
