import Kroc.Lib.Chain
import Kroc.Ccsp.Sched

/-!
# Ccsp/Layout — where every batch and every process is

A **layout** says for each batch who owns it and for each process on which chain it lies, with the
chains written out as lists.  `Inv` says that a scheduler's memory has a given layout; the sections
after it are the elementary moves (a batch is taken from the free list, a process is put on a batch,
a batch is put on a run queue, …), each with the layout it leads to.
-/

namespace Kroc

namespace Ccsp

open Function (update)

/-! ## Workspaces -/

/-- The pointers a process can have: not null, word aligned, 32 bits. -/
def IsWorkspace (w : ℕ) : Prop := w ≠ 0 ∧ w % 4 = 0 ∧ w < 2 ^ 32

/-- **A chain of processes is shorter than `BATCH_EMPTIED`**: there are not more workspaces. -/
theorem length_lt_of_isWorkspace {l : List ℕ} (hnodup : l.Nodup)
    (hws : ∀ w ∈ l, IsWorkspace w) : l.length < 2 ^ 30 := by
  have hinj : Set.InjOn (· / 4) {w : ℕ | w ∈ l} := by
    intro a ha b hb hab
    have ha' := (hws a ha).2.1
    have hb' := (hws b hb).2.1
    simp only at hab
    omega
  have hcard : (l.toFinset.image (· / 4)).card = l.length := by
    rw [Finset.card_image_of_injOn (by simpa [Set.InjOn] using hinj),
      List.toFinset_card_of_nodup hnodup]
  have hsub : l.toFinset.image (· / 4) ⊆ Finset.Ico 1 (2 ^ 30) := by
    intro x hx
    obtain ⟨w, hw, rfl⟩ := Finset.mem_image.mp hx
    obtain ⟨h₀, h₁, h₂⟩ := hws w (List.mem_toFinset.mp hw)
    simp only [Finset.mem_Ico]
    omega
  have hle := Finset.card_le_card hsub
  rw [hcard, Nat.card_Ico] at hle
  omega

/-! ## The processes of one batch -/

/-- The chain of a batch is `l`, and its size without the flag is the length of `l`. -/
def Batch.Holds (link : Wptr → Wptr) (b : Batch) (l : List Wptr) : Prop :=
  Fifo 0 link b.fptr b.bptr l ∧ b.size &&& ~~~batchEmptied = BitVec.ofNat 32 l.length

theorem batchEmptied_eq_flag : batchEmptied = FlaggedCount.flag 32 30 := by decide

theorem masked_size (x : Word) : x &&& ~~~batchEmptied = FlaggedCount.masked 30 x := by
  rw [batchEmptied_eq_flag]
  rfl

theorem dequeueFromBatch_size (link : Wptr → Wptr) (b : Batch) :
    (dequeueFromBatch link b).2.size = FlaggedCount.dec 30 b.size := by
  simp only [dequeueFromBatch, batchEmptied_eq_flag]
  rfl

namespace Batch.Holds

variable {link link' : Wptr → Wptr} {b : Batch} {l : List Wptr} {w : Wptr}

theorem congr (h : b.Holds link l) (hsame : ∀ x ∈ l, link' x = link x) : b.Holds link' l :=
  ⟨h.1.congr hsame, h.2⟩

theorem init (link : Wptr → Wptr) : Batch.init.Holds link [] :=
  ⟨Fifo.nil rfl, by decide⟩

theorem reinit (link : Wptr → Wptr) (b : Batch) : b.reinit.Holds link [] :=
  ⟨Fifo.nil rfl, BitVec.zero_and⟩

/-- What is copied to or from the current batch. -/
theorem masked (h : b.Holds link l) :
    ({ b with size := b.size &&& ~~~batchEmptied } : Batch).Holds link l :=
  ⟨h.1, by rw [masked_size, masked_size, FlaggedCount.masked_masked]; exact h.2⟩

/-- **`enqueue_to_batch` appends.** -/
theorem enqueue (h : b.Holds link l) (hlen : l.length + 1 < 2 ^ 30) (hw : w ≠ 0) (hmem : w ∉ l) :
    (enqueueToBatch link b w).2.Holds (enqueueToBatch link b w).1 (l ++ [w]) := by
  have hsize : (b.size + 1) &&& ~~~batchEmptied = BitVec.ofNat 32 (l ++ [w]).length := by
    rw [List.length_append, List.length_singleton]
    have hcount := h.2
    rw [masked_size] at hcount ⊢
    exact FlaggedCount.masked_add_one hlen hcount
  unfold enqueueToBatch
  by_cases hf : b.fptr = 0
  · obtain rfl := h.1.null_iff.mp hf
    rw [if_pos hf]
    exact ⟨Fifo.singleton hw (by simp), hsize⟩
  · have hne : l ≠ [] := fun hl => hf (h.1.null_iff.mpr hl)
    have hback : b.bptr ∈ l := h.1.back_mem hne
    have hwb : w ≠ b.bptr := fun hwb => hmem (hwb ▸ hback)
    rw [if_neg hf]
    refine ⟨h.1.push hw ?_ (fun _ => by simp) ?_ (fun hz => absurd hz hf) (fun _ => rfl), hsize⟩
    · simp [hwb]
    · intro x hx hxb
      have hxw : x ≠ w := fun hxw => hmem (hxw ▸ hx)
      simp [hxb, hxw]

/-- `enqueue_to_batch` writes the links of the process and of the back of the batch only. -/
theorem enqueue_frame (h : b.Holds link l) {x : Wptr} (hx : x ≠ w) (hmem : x ∉ l) :
    (enqueueToBatch link b w).1 x = link x := by
  unfold enqueueToBatch
  by_cases hf : b.fptr = 0
  · simp [hf, hx]
  · have hback : b.bptr ∈ l := h.1.back_mem fun hl => hf (h.1.null_iff.mpr hl)
    have hxb : x ≠ b.bptr := fun hxb => hmem (hxb ▸ hback)
    simp [hf, hx, hxb]

/-- **`dequeue_from_batch` removes the front.** -/
theorem dequeue (h : b.Holds link l) (hlen : l.length < 2 ^ 30) (hf : b.fptr ≠ 0) :
    ∃ m, l = b.fptr :: m ∧ (dequeueFromBatch link b).2.Holds link m := by
  obtain ⟨m, rfl, hm⟩ := h.1.exists_pop hf
  refine ⟨m, rfl, hm, ?_⟩
  have hcount := h.2
  rw [masked_size] at hcount
  rw [masked_size, dequeueFromBatch_size, FlaggedCount.masked_dec]
  exact FlaggedCount.masked_sub_one hlen hcount

/-- A batch of one process, as `enqueue_to_batch_with_hint` starts it. -/
theorem single (link : Wptr → Wptr) (b : Batch) (hw : w ≠ 0) :
    (enqueueToBatchWithHint link b w true).2.Holds (enqueueToBatchWithHint link b w true).1 [w] :=
  ⟨Fifo.singleton hw (by simp [enqueueToBatchWithHint]), by
    simp only [enqueueToBatchWithHint, if_true, List.length_singleton]
    decide⟩

end Batch.Holds

/-! ## Layouts -/

/-- Who owns a batch: nobody yet, the free list, the function that works on it, a run queue as its
pending batch, or a run queue as one of its batches. -/
inductive Owner
  | unused
  | free
  | held
  | pending (n : Prio)
  | queued (n : Prio)
  deriving DecidableEq

/-- Where a process is. -/
inductive Place
  | away
  | curb
  | batch (b : BatchPtr)
  deriving DecidableEq

/-- Owners, places, and the chains as lists; `curb` is `none` while the current batch has been
handed over and its fields are stale. -/
structure Layout where
  owner : BatchPtr → Owner
  place : Wptr → Place
  free : List BatchPtr
  queue : Prio → List BatchPtr
  procs : BatchPtr → List Wptr
  curb : Option (List Wptr)

/-- Every process of `l` has priority `n` and the affinity of every other. -/
def Uniform (prio : Wptr → Word) (n : Prio) (l : List Wptr) : Prop :=
  ∀ w ∈ l, pPriority (prio w) = n ∧ ∀ v ∈ l, pAffinity (prio v) = pAffinity (prio w)

/-- The batches are where the layout says. -/
structure Batches (s : Sched) (L : Layout) : Prop where
  null : L.owner 0 = .unused
  fresh : ∀ b, s.dmem ≤ b → L.owner b = .unused
  dmem_pos : 0 < s.dmem
  laundry : s.laundry = []
  free : Linked 0 s.next s.free L.free
  mem_free : ∀ b, b ∈ L.free ↔ L.owner b = .free
  queue : ∀ n, Fifo 0 s.next (s.rq n).fptr (s.rq n).bptr (L.queue n)
  mem_queue : ∀ n b, b ∈ L.queue n ↔ L.owner b = .queued n
  pending : ∀ n b, L.owner b = .pending n → (s.rq n).pending = b

/-- A batch is dirty only while it is queued and in the migration window its state names. -/
structure Windows (s : Sched) (L : Layout) : Prop where
  head : ∀ n, (s.mw n).head ≤ 15
  clean : ∀ b, L.owner b ≠ .unused → (∀ n, L.owner b ≠ .queued n) → s.state b = .clean
  window : ∀ n b, L.owner b = .queued n → s.state b = .clean ∨
    ∃ w, w ≠ 0 ∧ s.state b = .inWindow w ∧ (s.mw n).data w = b
  data : ∀ n w, w ≠ 0 → (s.mw n).data w ≠ 0 →
    L.owner ((s.mw n).data w) = .queued n ∧ s.state ((s.mw n).data w) = .inWindow w

/-- The processes are where the layout says, and the sizes count them. -/
structure Processes (s : Sched) (L : Layout) : Prop where
  workspace : ∀ w, L.place w ≠ .away → IsWorkspace w
  mem_curb : ∀ w, w ∈ L.curb.getD [] ↔ L.place w = .curb
  mem_procs : ∀ b w, w ∈ L.procs b ↔ L.place w = .batch b
  curb : ∀ l, L.curb = some l → s.curb.Holds s.link l
  batch : ∀ b, L.owner b ≠ .unused → (s.batch b).Holds s.link (L.procs b)
  empty : ∀ b, L.owner b = .unused ∨ L.owner b = .free → L.procs b = []

/-- Every batch is of one priority and affinity, and the bits of `rqstate` are set. -/
structure Priofinities (s : Sched) (L : Layout) : Prop where
  curbPrio : ∀ l, L.curb = some l → ∀ w ∈ l, s.prio w = s.priofinity
  queuedPrio : ∀ n b, L.owner b = .queued n → L.procs b ≠ [] ∧ Uniform s.prio n (L.procs b)
  pendingPrio : ∀ n b, L.owner b = .pending n → ∀ w ∈ L.procs b,
    pPriority (s.prio w) = n ∧ pAffinity (s.prio w) = pAffinity (s.rq n).priofinity
  pendingEmpty : ∀ n b, L.owner b = .pending n → ((s.rq n).priofinity = 0 ↔ L.procs b = [])
  queuedBit : ∀ n b, L.owner b = .queued n → s.rqstate n = true
  pendingBit : ∀ n b, L.owner b = .pending n → L.procs b ≠ [] → s.rqstate n = true

/-- **The memory of the scheduler has the layout.** -/
structure Inv (s : Sched) (L : Layout) : Prop extends
  Batches s L, Windows s L, Processes s L, Priofinities s L

end Ccsp

end Kroc
