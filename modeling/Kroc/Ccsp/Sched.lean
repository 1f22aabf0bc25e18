import Kroc.Lib.FlaggedCount
import Mathlib.Logic.Function.Basic

/-!
# Ccsp/Sched — batches, run queues and the current batch of one scheduler

`runtime/ccsp/kernel/sched.c`, from `enqueue_to_batch` to `switch_priofinity`.  Workspace and batch
pointers are numbers with `0` for `NotProcess_p` and `NULL`; the fields of the batches in memory
are functions of the batch pointer, the slots of the workspaces functions of the workspace pointer.
The scheduler is the only one enabled, so that every compare-and-swap is against itself.
-/

namespace Kroc

namespace Ccsp

/-- `word`: 32 bits, unsigned. -/
abbrev Word := BitVec 32

/-- A workspace pointer, `word *`. -/
abbrev Wptr := ℕ

/-- A batch pointer, `batch_t *`. -/
abbrev BatchPtr := ℕ

/-- The priority levels, `0` the highest. -/
abbrev Prio := Fin 32

/-! ## Priofinity words -/

def affinityMask : Word := 0xffffffe0#32

def priorityMask : Word := 0x0000001f#32

def pHasAffinity (x : Word) : Prop := x &&& affinityMask ≠ 0

instance (x : Word) : Decidable (pHasAffinity x) := inferInstanceAs (Decidable (_ ≠ _))

def pAffinity (x : Word) : Word := (x &&& affinityMask) >>> 5

/-- `PPriority`, as an index of the run queues. -/
def pPriority (x : Word) : Prio := ⟨(x &&& priorityMask).toNat, by
  rw [BitVec.toNat_and]
  exact Nat.lt_of_le_of_lt Nat.and_le_right (by decide)⟩

def buildPriofinity (a p : Word) : Word := ((a <<< 5) &&& affinityMask) ||| (p &&& priorityMask)

/-! ## Data -/

/-- `batch_t`, the persistent state. -/
structure Batch where
  fptr : Wptr
  bptr : Wptr
  size : Word
  deriving DecidableEq

/-- The state word of a batch: the dirty bit and the migration window. -/
structure BatchState where
  dirty : Bool
  window : ℕ
  deriving DecidableEq

/-- `runqueue_t` -/
structure RunQueue where
  fptr : BatchPtr
  bptr : BatchPtr
  priofinity : Word
  pending : BatchPtr
  deriving DecidableEq

/-- `mwindow_t`: the head and the bit map of the state word, and the windows. -/
structure MWindow where
  head : ℕ
  bm : ℕ → Bool
  data : ℕ → BatchPtr

/-- `sched_t`, with the memory of batches and workspaces.  `dmem` is the first batch pointer that
the allocator has not handed out. -/
structure Sched where
  id : Word
  dispatches : ℤ
  priofinity : Word
  rqstate : Prio → Bool
  free : BatchPtr
  laundry : List BatchPtr
  curb : Batch
  rq : Prio → RunQueue
  mwstate : Prio → Bool
  mw : Prio → MWindow
  batch : BatchPtr → Batch
  next : BatchPtr → BatchPtr
  state : BatchPtr → BatchState
  dmem : BatchPtr
  link : Wptr → Wptr
  prio : Wptr → Word

def batchEmptied : Word := 0x40000000#32

/-- `init_batch_t` -/
def Batch.init : Batch := ⟨0, 0, 0⟩

/-- `reinit_batch_t` -/
def Batch.reinit (b : Batch) : Batch := { b with fptr := 0, size := 0 }

/-- `set_batch_clean` -/
def BatchState.clean : BatchState := ⟨false, 0⟩

/-- `set_batch_window` -/
def BatchState.inWindow (w : ℕ) : BatchState := ⟨true, w⟩

open Function (update)

/-! ## Processes of a batch -/

def enqueueToBatchWithHint (link : Wptr → Wptr) (batch : Batch) (wptr : Wptr) (front : Bool) :
    (Wptr → Wptr) × Batch :=
  let link := update link wptr 0
  if front then (link, { fptr := wptr, bptr := wptr, size := 1 })
  else (update link batch.bptr wptr, { batch with bptr := wptr, size := batch.size + 1 })

def enqueueToBatch (link : Wptr → Wptr) (batch : Batch) (wptr : Wptr) : (Wptr → Wptr) × Batch :=
  let link := update link wptr 0
  if batch.fptr = 0 then (link, { fptr := wptr, bptr := wptr, size := batch.size + 1 })
  else (update link batch.bptr wptr, { batch with bptr := wptr, size := batch.size + 1 })

def dequeueFromBatch (link : Wptr → Wptr) (batch : Batch) : Wptr × Batch :=
  let wptr := batch.fptr
  let size := batch.size
  (wptr, { batch with fptr := link wptr, size := ((size - 2) &&& batchEmptied) ||| (size - 1) })

namespace Sched

/-! ## The free list -/

def releaseCleanBatch (s : Sched) (batch : BatchPtr) : Sched :=
  { s with next := update s.next batch s.free, free := batch }

def releaseDirtyBatch (s : Sched) (batch : BatchPtr) : Sched :=
  { s with laundry := batch :: s.laundry }

/-- One round of `do_laundry`: a clean batch goes to the free list, a dirty one stays. -/
def launder (s : Sched) (b : BatchPtr) : Sched :=
  if (s.state b).dirty then { s with laundry := s.laundry ++ [b] }
  else releaseCleanBatch { s with batch := update s.batch b (s.batch b).reinit } b

def doLaundry (s : Sched) : Sched := s.laundry.foldl launder { s with laundry := [] }

def allocateToFreeList : ℕ → Sched → Sched
  | 0, s => s
  | count + 1, s =>
    let b := s.dmem
    let s := { s with
      dmem := b + 1
      batch := update s.batch b .init
      next := update s.next b 0
      state := update s.state b .clean }
    allocateToFreeList count (releaseCleanBatch s b)

def allocateBatch (s : Sched) : BatchPtr × Sched :=
  let s := if s.free = 0 then doLaundry (allocateToFreeList 16 s) else s
  (s.free, { s with free := s.next s.free })

/-! ## Run queues -/

/-- `rq->Fptr`, … of queue `n`. -/
def setRq (s : Sched) (n : Prio) (rq : RunQueue) : Sched := { s with rq := update s.rq n rq }

def addToLocalRunqueue (s : Sched) (n : Prio) (batch : BatchPtr) : Sched :=
  let rq := s.rq n
  let s := { s with next := update s.next batch 0 }
  if rq.fptr = 0 then s.setRq n { rq with fptr := batch, bptr := batch }
  else { s with next := update s.next rq.bptr batch }.setRq n { rq with bptr := batch }

def incrementMwindowHead (head : ℕ) : ℕ := ((head + 1) ||| ((head + 1) >>> 4)) &&& 15

def addToVisibleRunqueue (s : Sched) (n : Prio) (batch : BatchPtr) : Sched :=
  let mw := s.mw n
  let w := incrementMwindowHead mw.head
  let s := { s with state := update s.state batch (.inWindow w) }
  let old := mw.data w
  let s := if old ≠ 0 then { s with state := update s.state old .clean } else s
  let mw := { mw with head := w, bm := update mw.bm w true, data := update mw.data w batch }
  addToLocalRunqueue { s with mw := update s.mw n mw } n batch

def addAffineBatchToRunqueue (s : Sched) (n : Prio) (batch : BatchPtr) : Sched :=
  addToLocalRunqueue { s with state := update s.state batch .clean } n batch

def addToRunqueue (s : Sched) (priofinity : Word) (n : Prio) (batch : BatchPtr) : Sched :=
  if pHasAffinity priofinity then s.addAffineBatchToRunqueue n batch
  else { s.addToVisibleRunqueue n batch with mwstate := update s.mwstate n true }

def tryPullFromRunqueue (s : Sched) (n : Prio) : BatchPtr × Sched :=
  let rq := s.rq n
  let batch := rq.fptr
  if batch ≠ 0 then
    let s := s.setRq n { rq with fptr := s.next batch }
    let window := (s.state batch).window
    if window ≠ 0 then
      let mw := s.mw n
      if mw.data window = batch then
        let mw := { mw with data := update mw.data window 0, bm := update mw.bm window false }
        (batch, { s with mw := update s.mw n mw, state := update s.state batch .clean })
      else (0, s.releaseDirtyBatch batch)
    else (batch, s)
  else if rq.priofinity ≠ 0 then
    let s := s.setRq n { rq with priofinity := 0 }
    let (new, s) := s.allocateBatch
    (rq.pending, s.setRq n { s.rq n with pending := new })
  else (0, s)

/-! ## Scheduling a process -/

/-- `enqueue_to_batch (rq->pending, Wptr)` after `rq->priofinity = priofinity`, with what follows:
the bit of the queue, and the end of the current batch when the queue is of higher priority. -/
def enqueueToPending (s : Sched) (priofinity : Word) (n : Prio) (wptr : Wptr) : Sched :=
  let s := s.setRq n { s.rq n with priofinity := priofinity }
  let pending := (s.rq n).pending
  let (link, batch) := enqueueToBatch s.link (s.batch pending) wptr
  { s with
    link := link
    batch := update s.batch pending batch
    rqstate := update s.rqstate n true
    dispatches := if n < pPriority s.priofinity then 0 else s.dispatches }

/-- `enqueue_far_process`: `none` where `mail_process` finds no enabled scheduler in the affinity,
and the kernel exits. -/
def enqueueFarProcess (s : Sched) (priofinity : Word) (wptr : Wptr) : Option Sched :=
  let prio := pPriority priofinity
  let rq := s.rq prio
  if ¬ pHasAffinity priofinity then
    let s :=
      if pHasAffinity rq.priofinity then
        let s := s.addAffineBatchToRunqueue prio rq.pending
        let (new, s) := s.allocateBatch
        s.setRq prio { s.rq prio with pending := new }
      else s
    some (s.enqueueToPending (buildPriofinity 0 1) prio wptr)
  else if pAffinity priofinity &&& s.id ≠ 0 then
    let s :=
      if rq.priofinity ≠ 0 ∧ pAffinity rq.priofinity ≠ pAffinity priofinity then
        let s := s.addToRunqueue rq.priofinity prio rq.pending
        let (new, s) := s.allocateBatch
        s.setRq prio { s.rq prio with pending := new }
      else s
    some (s.enqueueToPending priofinity prio wptr)
  else none

/-- `enqueue_process_nopri` -/
def enqueueProcessNopri (s : Sched) (wptr : Wptr) : Sched :=
  let (link, curb) := enqueueToBatch s.link s.curb wptr
  { s with link := link, curb := curb }

def enqueueProcess (s : Sched) (wptr : Wptr) : Option Sched :=
  let priofinity := s.prio wptr
  if s.priofinity = priofinity then some (s.enqueueProcessNopri wptr)
  else s.enqueueFarProcess priofinity wptr

/-! ## The current batch -/

/-- `one_if_z (value, mask)` -/
def oneIfZ (value mask : Word) : Word := if value &&& mask = 0 then 1 else 0

def calculateDispatches (size : Word) : ℤ :=
  let size := size <<< 3
  let size := size ||| (oneIfZ size (~~~0x7f#32) - 1)
  (size &&& 0x7f#32).toNat

/-- `load_curb (sched, batch, false)` -/
def loadCurb (s : Sched) (batch : BatchPtr) : Sched :=
  let b := s.batch batch
  let size := b.size &&& ~~~batchEmptied
  releaseCleanBatch { s with
    curb := { fptr := b.fptr, bptr := b.bptr, size := size }
    dispatches := calculateDispatches size
    priofinity := s.prio b.fptr
    batch := update s.batch batch b.reinit } batch

def saveCurb (s : Sched) : BatchPtr × Sched :=
  let (batch, s) := s.allocateBatch
  let b := { s.curb with size := s.curb.size &&& ~~~batchEmptied }
  (batch, { s with batch := update s.batch batch b })

def dequeueFromCurb (s : Sched) : Wptr × Sched :=
  let (wptr, curb) := dequeueFromBatch s.link s.curb
  (wptr, { s with curb := curb })

/-- `pick_batch`, its endless loop bounded by `fuel`; `0` where it returns `NULL`. -/
def pickBatch : ℕ → Prio → Sched → Option (BatchPtr × Sched)
  | 0, _, _ => none
  | fuel + 1, n, s =>
    let (batch, s) := s.tryPullFromRunqueue n
    if batch ≠ 0 then some (batch, s)
    else if (s.rq n).fptr = 0 ∧ (s.rq n).priofinity = 0 then
      some (0, { s with rqstate := update s.rqstate n false, mwstate := update s.mwstate n false })
    else pickBatch fuel n s

def pushBatch (s : Sched) (priofinity : Word) (batch : BatchPtr) : Sched :=
  let n := pPriority priofinity
  let rq := s.rq n
  if rq.priofinity ≠ 0 then
    let s := s.setRq n { rq with
      priofinity := priofinity ||| buildPriofinity 0 1
      pending := batch }
    s.addToRunqueue rq.priofinity n rq.pending
  else
    let s := s.releaseCleanBatch rq.pending
    let s := s.setRq n { rq with
      priofinity := priofinity ||| buildPriofinity 0 1
      pending := batch }
    { s with rqstate := update s.rqstate n true }

def newCurb (s : Sched) : Sched :=
  { s with dispatches := 8, curb := { s.curb with fptr := 0, size := batchEmptied } }

/-- The split of `push_curb`: the front of the current batch is pushed as a batch of its own. -/
def splitCurb (s : Sched) : Sched :=
  let (batch, s) := s.allocateBatch
  let (wptr, s) := s.dequeueFromCurb
  let (link, b) := enqueueToBatchWithHint s.link (s.batch batch) wptr true
  pushBatch { s with link := link, batch := update s.batch batch b } s.priofinity batch

def pushCurb (s : Sched) : Sched :=
  let s := if s.dispatches ≤ 0 ∧ s.curb.size ^^^ batchEmptied > batchEmptied + 1 then s.splitCurb
    else s
  let (batch, s) := s.saveCurb
  s.pushBatch s.priofinity batch

def switchPriofinity (s : Sched) (priofinity : Word) : Sched :=
  if s.priofinity ≠ priofinity then
    let s := if s.curb.fptr ≠ 0 then s.pushCurb else s
    { s.newCurb with priofinity := priofinity }
  else s

/-- The branch of `kernel_scheduler` that goes on with the current batch, there being no other. -/
def resumeCurb (s : Sched) : Sched :=
  let size := s.curb.size &&& ~~~batchEmptied
  { s with dispatches := calculateDispatches size, curb := { s.curb with size := size } }

/-! ## Start -/

/-- `init_sched_t`, the bindings of `Y_rtthreadinit`, the free list, and an empty current batch. -/
def init (id : Word) : Sched where
  id := id
  dispatches := 0
  priofinity := buildPriofinity 0 (32 / 2)
  rqstate := fun _ => false
  free := 0
  laundry := []
  curb := .init
  rq := fun _ => ⟨0, 0, 0, 0⟩
  mwstate := fun _ => false
  mw := fun _ => ⟨0, fun _ => false, fun _ => 0⟩
  batch := fun _ => .init
  next := fun _ => 0
  state := fun _ => .clean
  dmem := 1
  link := fun _ => 0
  prio := fun _ => 0

/-- `sched->rq[i].pending = allocate_batch (sched)` -/
def allocatePending (s : Sched) (n : Prio) : Sched :=
  let (batch, s) := s.allocateBatch
  s.setRq n { s.rq n with pending := batch }

/-- `Y_rtthreadinit`, up to the first process. -/
def rtthreadinit (id : Word) : Sched :=
  ((List.finRange 32).foldl allocatePending (allocateToFreeList 64 (init id))).newCurb

end Sched

end Ccsp

end Kroc
