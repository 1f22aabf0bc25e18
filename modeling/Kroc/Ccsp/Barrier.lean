import Kroc.Ccsp.Sched

/-!
# Ccsp/Barrier — the full barrier, on one scheduler

`bar_init`, `bar_sync`, `bar_enroll` and `bar_resign` of `runtime/ccsp/kernel/sched.c` with all they
call.  The processes that wait are sorted into batches, which hang from the head that the barrier
has for the scheduler; when the last one arrives the batches go to the run queues.

The scheduler is the only one, so a compare-and-swap can fail only on a state word that was read
before the same call changed it, and the word is then read again; no other scheduler has a head.
-/

namespace Kroc

namespace Ccsp

open Function (update)

/-! ## The state word -/

def barSyncing : Word := 0x80000000#32

def barTagMask : Word := 0x60000000#32

def barCountMask : Word := ~~~(barSyncing ||| barTagMask)

/-- `BAR_TAG` -/
def barTag (state : Word) : Word := (state >>> 29) &&& 3

/-- `BAR_NEXT_TAG` -/
def barNextTag (tag : Word) : Word := (tag + 1) &&& 3

/-- `BAR_COUNT` -/
def barCount (state : Word) : Word := state &&& barCountMask

/-- `BAR_STATE` -/
def barState (count tag flags : Word) : Word := count ||| (tag <<< 29) ||| flags

/-! ## Data -/

/-- `bar_head_t` -/
structure BarHead where
  fptr : BatchPtr
  bptr : BatchPtr
  current : BatchPtr
  affine : BatchPtr
  count : Word
  prio : Fin 4 → BatchPtr

/-- `init_bar_head_t` -/
def BarHead.init : BarHead := ⟨0, 0, 0, 0, 0, fun _ => 0⟩

/-- A word of `bar->head`: `BAR_HEAD_PTR` and `BAR_HEAD_TAG`. -/
structure HeadWord where
  ptr : BatchPtr
  tag : Word
  deriving DecidableEq

/-- `NULL` -/
def HeadWord.null : HeadWord := ⟨0, 0⟩

/-- `bar_t` -/
structure Bar where
  state : Word
  heads : Word
  head : ℕ → HeadWord

/-- A batch that was passed to `push_batch`, and the scheduler it was passed to. -/
structure Pushed where
  batch : BatchPtr
  priofinity : Word
  sched : Sched

/-- The scheduler, with its `index` and the fields of the batches that only a barrier uses, the
barrier, and the memory of the batches that are in use as heads.  `pushed` is a history. -/
structure BarMem where
  sched : Sched
  index : ℕ
  priofinity : BatchPtr → Word
  prio : BatchPtr → Fin 8 → BatchPtr
  bar : Bar
  barHead : BatchPtr → BarHead
  pushed : List Pushed

/-- `bar_init` -/
def barInit (initialCount : Word) : Bar := ⟨barState initialCount 0 0, 0, fun _ => .null⟩

/-- `prio & BAR_HEAD_PRIO_MASK` -/
def barHeadPrio (prio : Prio) : Fin 4 := ⟨prio % 4, Nat.mod_lt _ (by decide)⟩

/-- `prio >> BATCH_PRIO_SHIFT` -/
def batchPrio (prio : Prio) : Fin 8 := ⟨prio / 4, Nat.div_lt_of_lt_mul prio.isLt⟩

namespace BarMem

/-! ## Fields -/

/-- `bar->state = state` -/
def setState (m : BarMem) (state : Word) : BarMem := { m with bar := { m.bar with state := state } }

/-- `bar->head[sched->index] = word` -/
def setHeadWord (m : BarMem) (word : HeadWord) : BarMem :=
  { m with bar := { m.bar with head := update m.bar.head m.index word } }

/-- The fields of the head `head`. -/
def setHead (m : BarMem) (head : BatchPtr) (h : BarHead) : BarMem :=
  { m with barHead := update m.barHead head h }

/-- `batch->next = next` -/
def setNext (m : BarMem) (batch next : BatchPtr) : BarMem :=
  { m with sched := { m.sched with next := update m.sched.next batch next } }

/-- `set_batch_dirty (batch)` -/
def setDirty (m : BarMem) (batch : BatchPtr) : BarMem :=
  { m with sched := { m.sched with state := update m.sched.state batch ⟨true, 0⟩ } }

def allocateBatch (m : BarMem) : BatchPtr × BarMem :=
  (m.sched.allocateBatch.1, { m with sched := m.sched.allocateBatch.2 })

/-- `enqueue_to_batch_with_hint (batch, Wptr, front)` -/
def enqueue (m : BarMem) (batch : BatchPtr) (wptr : Wptr) (front : Bool) : BarMem :=
  let r := enqueueToBatchWithHint m.sched.link (m.sched.batch batch) wptr front
  { m with sched := { m.sched with link := r.1, batch := update m.sched.batch batch r.2 } }

def savePriofinity (m : BarMem) (wptr : Wptr) : BarMem :=
  { m with sched := { m.sched with prio := update m.sched.prio wptr m.sched.priofinity } }

/-- `push_batch (sched, batch->priofinity, batch)` -/
def pushBatch (m : BarMem) (batch : BatchPtr) : BarMem :=
  { m with
    sched := m.sched.pushBatch (m.priofinity batch) batch
    pushed := m.pushed ++ [⟨batch, m.priofinity batch, m.sched⟩] }

/-- `allocate_bar_head`, its bit in `bar->heads`, and its word with the tag of `state`. -/
def allocateBarHead (m : BarMem) (state : Word) : BatchPtr × BarMem :=
  let (head, m) := m.allocateBatch
  let m := m.setHead head .init
  let m := { m with bar := { m.bar with heads := m.bar.heads ||| m.sched.id } }
  (head, m.setHeadWord ⟨head, barTag state⟩)

/-- `release_bar_head`: `init_batch_t` and `release_clean_batch`. -/
def releaseBarHead (m : BarMem) (head : BatchPtr) : BarMem :=
  { m with
    priofinity := update m.priofinity head 0
    sched := Sched.releaseCleanBatch { m.sched with
      batch := update m.sched.batch head .init
      next := update m.sched.next head 0
      state := update m.sched.state head .clean } head }

/-! ## Arriving -/

/-- `bar_add_batch` -/
def barAddBatch (m : BarMem) (head parent : BatchPtr) (front current : Bool) (wptr : Wptr) :
    BatchPtr × BarMem :=
  let priority := pPriority m.sched.priofinity
  let (batch, m) := m.allocateBatch
  let m := (m.enqueue batch wptr true).setNext batch 0
  let m := { m with priofinity := update m.priofinity batch m.sched.priofinity }
  let prio := if parent = 0 then fun _ => 0 else m.prio parent
  let m := { m with prio := update m.prio batch (update prio (batchPrio priority) batch) }
  let m :=
    if front then m.setHead head { m.barHead head with fptr := batch, bptr := batch }
    else (m.setNext (m.barHead head).bptr batch).setHead head
      { m.barHead head with bptr := batch }
  let m := if current then m.setHead head { m.barHead head with current := batch } else m
  (batch, m)

/-- The process joins the affine batch of the head, which may be full then. -/
def joinAffine (m : BarMem) (head batch : BatchPtr) (bsize : Word) (wptr : Wptr) : BarMem :=
  let m := m.enqueue batch wptr false
  if (m.sched.batch batch).size > bsize then
    m.setHead head { m.barHead head with affine := 0 }
  else m

/-- The process joins the affine batch of the head, or starts one; `hdata` says whether the head was
there. -/
def barAffine (m : BarMem) (head : BatchPtr) (hdata : Bool) (bsize : Word) (wptr : Wptr) : BarMem :=
  let batch := (m.barHead head).affine
  if batch = 0 then
    let (batch, m) := m.allocateBatch
    let m := m.setHead head { m.barHead head with affine := batch }
    let m := (m.enqueue batch wptr true).setNext batch 0
    let m := { m with priofinity := update m.priofinity batch m.sched.priofinity }
    let m :=
      if hdata then m.setNext (m.barHead head).bptr batch
      else m.setHead head { m.barHead head with fptr := batch }
    m.setHead head { m.barHead head with bptr := batch }
  else
    let m := if m.priofinity batch ≠ m.sched.priofinity then m.setDirty batch else m
    m.joinAffine head batch bsize wptr

/-- The process joins the current batch of the head or starts another, and ends the use of a
current batch if their priofinities differ. -/
def barCurrent (m : BarMem) (head : BatchPtr) (bsize : Word) (wptr : Wptr) : BarMem :=
  let batch := (m.barHead head).current
  if m.priofinity batch = m.sched.priofinity then
    if (m.sched.batch batch).size ≥ bsize then (m.barAddBatch head 0 false true wptr).2
    else m.enqueue batch wptr false
  else
    let bprio := barHeadPrio (pPriority (m.priofinity batch))
    let prio := barHeadPrio (pPriority m.sched.priofinity)
    let h := m.barHead head
    let m := m.setHead head { h with current := 0, prio := update h.prio bprio batch }
    let (batch, m) := m.barAddBatch head ((m.barHead head).prio prio) false false wptr
    m.setHead head { m.barHead head with prio := update (m.barHead head).prio prio batch }

/-- The process joins or starts a batch of its priority, found through the index of the head and
that of the batch it leads to. -/
def barIndexed (m : BarMem) (head : BatchPtr) (bsize : Word) (wptr : Wptr) : BarMem :=
  let prio := pPriority m.sched.priofinity
  let hprio := barHeadPrio prio
  let batch := (m.barHead head).prio hprio
  let lead := fun (r : BatchPtr × BarMem) =>
    r.2.setHead head { r.2.barHead head with prio := update (r.2.barHead head).prio hprio r.1 }
  if batch = 0 then lead (m.barAddBatch head 0 false false wptr)
  else if m.priofinity batch ≠ m.sched.priofinity then
    let parent := batch
    let batch := m.prio parent (batchPrio prio)
    if batch = 0 then lead (m.barAddBatch head parent false false wptr)
    else if (m.sched.batch batch).size ≥ bsize then
      lead (m.barAddBatch head parent false false wptr)
    else lead (batch, m.enqueue batch wptr false)
  else if (m.sched.batch batch).size ≥ bsize then lead (m.barAddBatch head batch false false wptr)
  else m.enqueue batch wptr false

/-- The part of `bar_sync` that puts the process on a batch of the head. -/
def barPlace (m : BarMem) (head : BatchPtr) (hdata : Bool) (bsize : Word) (wptr : Wptr) : BarMem :=
  if pHasAffinity m.sched.priofinity then m.barAffine head hdata bsize wptr
  else if ¬ hdata then (m.barAddBatch head 0 true true wptr).2
  else if (m.barHead head).current ≠ 0 then m.barCurrent head bsize wptr
  else m.barIndexed head bsize wptr

/-! ## Completion

The loops are bounded by `fuel`; `none` where it runs out, where `enqueue_process` finds no enabled
scheduler, and where there is a head of another scheduler. -/

/-- The loop over the processes of a dirty batch. -/
def enqueueProcesses : ℕ → Sched → Wptr → Option Sched
  | 0, _, _ => none
  | fuel + 1, s, wptr =>
    let next := s.link wptr
    (s.enqueueProcess wptr).bind fun s =>
      if next ≠ 0 then enqueueProcesses fuel s next else some s

/-- One batch of `bar_complete_head`. -/
def completeBatch (fuel : ℕ) (m : BarMem) (batch : BatchPtr) : Option BarMem :=
  if pHasAffinity (m.priofinity batch) then
    if (m.sched.state batch).dirty then
      (enqueueProcesses fuel m.sched (m.sched.batch batch).fptr).map fun s =>
        { m with sched := Sched.releaseCleanBatch { s with
          batch := update s.batch batch (s.batch batch).reinit
          state := update s.state batch .clean } batch }
    else some (m.pushBatch batch)
  else some (m.pushBatch batch)

/-- The loop of `bar_complete_head`. -/
def completeBatches (fuel : ℕ) : ℕ → BarMem → BatchPtr → Option BarMem
  | 0, _, _ => none
  | n + 1, m, batch =>
    let next := m.sched.next batch
    (completeBatch fuel m batch).bind fun m =>
      if next ≠ 0 then completeBatches fuel n m next else some m

/-- `bar_complete_head (sched, bar, true, head)` -/
def barCompleteHead (fuel : ℕ) (m : BarMem) (head : BatchPtr) : Option BarMem :=
  let batch := (m.barHead head).fptr
  let m := m.setState (m.bar.state + (m.barHead head).count)
  (completeBatches fuel fuel m batch).map fun m => m.releaseBarHead head

/-- `bar_complete` -/
def barComplete (fuel : ℕ) : ℕ → BarMem → Word → Option BarMem
  | 0, _, _ => none
  | n + 1, m, tag =>
    let heads := m.bar.heads
    let m := { m with bar := { m.bar with heads := 0 } }
    let released :=
      if heads &&& m.sched.id ≠ 0 then
        (barCompleteHead fuel m (m.bar.head m.index).ptr).map fun m => m.setHeadWord .null
      else some m
    if heads &&& ~~~m.sched.id ≠ 0 then none
    else released.bind fun m =>
      let state := m.bar.state
      if state = barState 1 tag barSyncing ∧ m.bar.heads ≠ 0 then
        let nextTag := barNextTag tag
        barComplete fuel n (m.setState (barState 1 nextTag barSyncing)) nextTag
      else some (m.setState (barState (barCount state - 1) tag 0))

/-! ## Calls -/

def barEnroll (m : BarMem) (count : Word) : BarMem := m.setState (m.bar.state + count)

def barResign (fuel : ℕ) (m : BarMem) (resignCount : Word) : Option BarMem :=
  let state := m.bar.state
  let tag := barTag state
  if state &&& ~~~barTagMask = resignCount then
    if m.bar.heads ≠ 0 then
      let tag := barNextTag tag
      barComplete fuel fuel (m.setState (barState 1 tag barSyncing)) tag
    else some (m.setState (barState 0 tag 0))
  else
    let count := barCount state
    some (m.setState (barState (count - resignCount) tag (state &&& barSyncing)))

/-- The head of the scheduler, and whether it was there: the start of `bar_sync`. -/
def barFindHead (fuel : ℕ) (m : BarMem) : Option (BatchPtr × Bool × BarMem) :=
  let state := m.bar.state
  let hdata := m.bar.head m.index
  let fresh := fun (m : BarMem) => ((m.allocateBarHead state).1, false, (m.allocateBarHead state).2)
  if state &&& barSyncing ≠ 0 then
    if hdata = .null ∨ hdata.tag ≠ barTag state then
      if hdata ≠ .null then
        (barCompleteHead fuel (m.setHeadWord .null) hdata.ptr).map fresh
      else some (fresh m)
    else some (hdata.ptr, true, m)
  else if hdata = .null then some (fresh m)
  else some (hdata.ptr, true, m)

/-- The end of `bar_sync`: one less is to arrive, or all have. -/
def barArrive (fuel : ℕ) (m : BarMem) : Option BarMem :=
  let state := m.bar.state
  let tag := barTag state
  if state &&& ~~~barTagMask = 1 then
    let tag := barNextTag tag
    barComplete fuel fuel (m.setState (barState 1 tag barSyncing)) tag
  else
    let count := barCount state
    some (m.setState (barState (count - 1) tag (state &&& barSyncing)))

/-- `bar_sync`, up to the call of the scheduler, with which it ends in every case. -/
def barSync (fuel : ℕ) (m : BarMem) (wptr : Wptr) : Option BarMem :=
  let m := m.savePriofinity wptr
  let state := m.bar.state
  (barFindHead fuel m).bind fun (head, hdata, m) =>
    let bsize := barCount state + (m.barHead head).count
    let bsize := (bsize >>> 3) ||| (bsize &&& 0xf)
    let m := m.setHead head { m.barHead head with count := (m.barHead head).count + 1 }
    barArrive fuel (m.barPlace head hdata bsize wptr)

end BarMem

end Ccsp

end Kroc
