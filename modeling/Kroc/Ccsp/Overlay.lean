import Kroc.Ccsp.Scheduling
import Mathlib.Data.Finset.Piecewise

/-!
# Ccsp/Overlay — the scheduler and the memory outside its layout

Somebody else, a barrier say, may own batches and keep processes that no chain of the scheduler
reaches.  Every operation of the scheduler **commutes with any change of their memory**: it neither
reads nor writes it.
-/

namespace Kroc

namespace Ccsp

open Function (update)

variable {s m : Sched} {L : Layout} {b : BatchPtr} {n : Prio} {w : Wptr}
  {K : Finset BatchPtr} {W : Finset Wptr}

/-! ## Overlays -/

namespace Sched

/-- The state `s` with the memory of the batches `K` and the processes `W` from `m`. -/
def overlay (s : Sched) (K : Finset BatchPtr) (W : Finset Wptr) (m : Sched) : Sched := { s with
  batch := K.piecewise m.batch s.batch
  next := K.piecewise m.next s.next
  state := K.piecewise m.state s.state
  link := W.piecewise m.link s.link
  prio := W.piecewise m.prio s.prio }

@[simp] theorem overlay_rq (s m : Sched) : (s.overlay K W m).rq = s.rq := rfl

@[simp] theorem overlay_id (s m : Sched) : (s.overlay K W m).id = s.id := rfl

@[simp] theorem overlay_priofinity (s m : Sched) :
    (s.overlay K W m).priofinity = s.priofinity := rfl

/-- Overlaying a state with itself. -/
theorem overlay_self (s : Sched) : s.overlay K W s = s := by
  simp only [overlay, Finset.piecewise_same]

/-- Only the last overlay is seen. -/
theorem overlay_overlay (s m m' : Sched) : (s.overlay K W m).overlay K W m' = s.overlay K W m' := by
  simp only [overlay, Finset.piecewise_idem_right]

/-! ## The free list -/

/-- A batch that is not overlaid is released as without the overlay. -/
theorem overlay_releaseCleanBatch (hb : b ∉ K) (m : Sched) :
    (s.overlay K W m).releaseCleanBatch b = (s.releaseCleanBatch b).overlay K W m := by
  simp only [overlay, releaseCleanBatch, Finset.update_piecewise_of_notMem _ _ _ hb]

theorem overlay_freshBatch (hfresh : s.dmem ∉ K) (m : Sched) :
    (s.overlay K W m).freshBatch = s.freshBatch.overlay K W m := by
  simp only [overlay, freshBatch, Finset.update_piecewise_of_notMem _ _ _ hfresh]

/-- Fresh batches are not overlaid. -/
theorem overlay_allocateToFreeList : ∀ (count : ℕ) {s : Sched}, (∀ x ∈ K, x < s.dmem) →
    ∀ m, (s.overlay K W m).allocateToFreeList count = (s.allocateToFreeList count).overlay K W m
  | 0, _, _, _ => rfl
  | count + 1, s, hfresh, m => by
      have hdmem : s.dmem ∉ K := fun h => absurd (hfresh _ h) (Nat.lt_irrefl _)
      show (((s.overlay K W m).freshBatch).releaseCleanBatch s.dmem).allocateToFreeList count = _
      rw [overlay_freshBatch hdmem, overlay_releaseCleanBatch hdmem]
      exact overlay_allocateToFreeList count (fun x hx => Nat.lt_succ_of_lt (hfresh x hx)) m

/-- Fresh batches change neither the laundry nor the identity. -/
theorem allocateToFreeList_same : ∀ (count : ℕ) (s : Sched),
    (s.allocateToFreeList count).laundry = s.laundry ∧
      (s.allocateToFreeList count).dmem = s.dmem + count ∧
        (s.allocateToFreeList count).id = s.id
  | 0, s => ⟨rfl, rfl, rfl⟩
  | count + 1, s => by
      obtain ⟨hl, hd, hi⟩ := allocateToFreeList_same count (s.freshBatch.releaseCleanBatch s.dmem)
      exact ⟨hl, hd.trans (Nat.succ_add_eq_add_succ s.dmem count), hi⟩

/-- The free list begins with a fresh batch. -/
theorem le_allocateToFreeList_free : ∀ (count : ℕ) (s : Sched),
    s.dmem ≤ (s.allocateToFreeList (count + 1)).free
  | 0, s => Nat.le_refl s.dmem
  | count + 1, s => Nat.le_of_succ_le
      (le_allocateToFreeList_free count (s.freshBatch.releaseCleanBatch s.dmem))

theorem doLaundry_of_nil (h : s.laundry = []) : s.doLaundry = s := by
  have hs : ({ s with laundry := [] } : Sched) = s := by rw [← h]
  rw [doLaundry, hs, h]
  rfl

/-- **A batch is allocated** as without the overlay, from the free list or fresh. -/
theorem overlay_allocateBatch (hlaundry : s.laundry = []) (hfresh : ∀ x ∈ K, x < s.dmem)
    (hfree : s.free ≠ 0 → s.free ∉ K) (m : Sched) :
    (s.overlay K W m).allocateBatch = (s.allocateBatch.1, s.allocateBatch.2.overlay K W m) := by
  have htake : ∀ t : Sched, t.free ∉ K →
      (t.free, { t.overlay K W m with free := (t.overlay K W m).next t.free }) =
        (t.free, ({ t with free := t.next t.free } : Sched).overlay K W m) := by
    intro t ht
    simp only [overlay, Finset.piecewise_eq_of_notMem _ _ _ ht]
  unfold allocateBatch
  dsimp only
  by_cases hz : s.free = 0
  · have hl := (allocateToFreeList_same 16 s).1.trans hlaundry
    have hnot : (s.allocateToFreeList 16).free ∉ K := fun h =>
      absurd (hfresh _ h) (Nat.not_lt.mpr (le_allocateToFreeList_free 15 s))
    rw [show (s.overlay K W m).free = s.free from rfl, if_pos hz, if_pos hz,
      overlay_allocateToFreeList 16 hfresh,
      doLaundry_of_nil (s := (s.allocateToFreeList 16).overlay K W m) hl, doLaundry_of_nil hl]
    exact htake _ hnot
  · rw [show (s.overlay K W m).free = s.free from rfl, if_neg hz, if_neg hz]
    exact htake s (hfree hz)

/-- It is not overlaid. -/
theorem allocateBatch_notMem (hlaundry : s.laundry = []) (hfresh : ∀ x ∈ K, x < s.dmem)
    (hfree : s.free ≠ 0 → s.free ∉ K) : s.allocateBatch.1 ∉ K := by
  unfold allocateBatch
  dsimp only
  split_ifs with hz
  · rw [doLaundry_of_nil ((allocateToFreeList_same 16 s).1.trans hlaundry)]
    exact fun h => absurd (hfresh _ h) (Nat.not_lt.mpr (le_allocateToFreeList_free 15 s))
  · exact hfree hz

theorem allocateBatch_same (hlaundry : s.laundry = []) :
    s.dmem ≤ s.allocateBatch.2.dmem ∧ s.allocateBatch.2.id = s.id := by
  unfold allocateBatch
  dsimp only
  split_ifs
  · obtain ⟨hl, hd, hi⟩ := allocateToFreeList_same 16 s
    rw [doLaundry_of_nil (hl.trans hlaundry), hd, hi]
    exact ⟨Nat.le_add_right _ _, rfl⟩
  · exact ⟨Nat.le_refl _, rfl⟩

/-! ## The run queues -/

/-- A run queue touches its last batch and the batch in the next slot of the window. -/
theorem overlay_addToVisibleRunqueue (hb : b ∉ K)
    (hback : (s.rq n).fptr ≠ 0 → (s.rq n).bptr ∉ K)
    (hdata : (s.mw n).data (incrementMwindowHead (s.mw n).head) ≠ 0 →
      (s.mw n).data (incrementMwindowHead (s.mw n).head) ∉ K) (m : Sched) :
    (s.overlay K W m).addToVisibleRunqueue n b = (s.addToVisibleRunqueue n b).overlay K W m := by
  unfold addToVisibleRunqueue addToLocalRunqueue
  by_cases hold : (s.mw n).data (incrementMwindowHead (s.mw n).head) = 0 <;>
    by_cases hf : (s.rq n).fptr = 0
  · simp [overlay, setRq, hold, hf, Finset.update_piecewise_of_notMem _ _ _ hb]
  · simp [overlay, setRq, hold, hf, Finset.update_piecewise_of_notMem _ _ _ hb,
      Finset.update_piecewise_of_notMem _ _ _ (hback hf)]
  · simp [overlay, setRq, hold, hf, Finset.update_piecewise_of_notMem _ _ _ hb,
      Finset.update_piecewise_of_notMem _ _ _ (hdata hold)]
  · simp [overlay, setRq, hold, hf, Finset.update_piecewise_of_notMem _ _ _ hb,
      Finset.update_piecewise_of_notMem _ _ _ (hback hf),
      Finset.update_piecewise_of_notMem _ _ _ (hdata hold)]

theorem overlay_addAffineBatchToRunqueue (hb : b ∉ K)
    (hback : (s.rq n).fptr ≠ 0 → (s.rq n).bptr ∉ K) (m : Sched) :
    (s.overlay K W m).addAffineBatchToRunqueue n b =
      (s.addAffineBatchToRunqueue n b).overlay K W m := by
  unfold addAffineBatchToRunqueue addToLocalRunqueue
  by_cases hf : (s.rq n).fptr = 0
  · simp [overlay, setRq, hf, Finset.update_piecewise_of_notMem _ _ _ hb]
  · simp [overlay, setRq, hf, Finset.update_piecewise_of_notMem _ _ _ hb,
      Finset.update_piecewise_of_notMem _ _ _ (hback hf)]

theorem overlay_addToRunqueue (hb : b ∉ K) (hback : (s.rq n).fptr ≠ 0 → (s.rq n).bptr ∉ K)
    (hdata : (s.mw n).data (incrementMwindowHead (s.mw n).head) ≠ 0 →
      (s.mw n).data (incrementMwindowHead (s.mw n).head) ∉ K) (p : Word) (m : Sched) :
    (s.overlay K W m).addToRunqueue p n b = (s.addToRunqueue p n b).overlay K W m := by
  unfold addToRunqueue
  split_ifs
  · exact overlay_addAffineBatchToRunqueue hb hback m
  · rw [overlay_addToVisibleRunqueue hb hback hdata]
    rfl

theorem addToRunqueue_dmem (s : Sched) (p : Word) (n : Prio) (b : BatchPtr) :
    (s.addToRunqueue p n b).dmem = s.dmem ∧ (s.addToRunqueue p n b).id = s.id := by
  unfold addToRunqueue addToVisibleRunqueue addAffineBatchToRunqueue addToLocalRunqueue
  dsimp only [setRq]
  split_ifs <;> exact ⟨rfl, rfl⟩

/-! ## Processes joining a batch -/

/-- The pending batch is not overlaid, nor its last process. -/
theorem overlay_enqueueToPending (hb : (s.rq n).pending ∉ K) (hw : w ∉ W)
    (hback : (s.batch (s.rq n).pending).fptr ≠ 0 → (s.batch (s.rq n).pending).bptr ∉ W)
    (p : Word) (m : Sched) :
    (s.overlay K W m).enqueueToPending p n w = (s.enqueueToPending p n w).overlay K W m := by
  unfold enqueueToPending enqueueToBatch
  by_cases hf : (s.batch (s.rq n).pending).fptr = 0
  · simp [overlay, setRq, hf, hb, Finset.update_piecewise_of_notMem _ _ _ hb,
      Finset.update_piecewise_of_notMem _ _ _ hw]
    rfl
  · simp [overlay, setRq, hf, hb, Finset.update_piecewise_of_notMem _ _ _ hb,
      Finset.update_piecewise_of_notMem _ _ _ hw,
      Finset.update_piecewise_of_notMem _ _ _ (hback hf)]
    rfl

/-- Nor is the last process of the current batch. -/
theorem overlay_enqueueProcessNopri (hw : w ∉ W) (hback : s.curb.fptr ≠ 0 → s.curb.bptr ∉ W)
    (m : Sched) :
    (s.overlay K W m).enqueueProcessNopri w = (s.enqueueProcessNopri w).overlay K W m := by
  unfold enqueueProcessNopri enqueueToBatch
  by_cases hf : s.curb.fptr = 0
  · simp [overlay, hf, Finset.update_piecewise_of_notMem _ _ _ hw]
  · simp [overlay, hf, Finset.update_piecewise_of_notMem _ _ _ hw,
      Finset.update_piecewise_of_notMem _ _ _ (hback hf)]

end Sched

/-! ## Outside a layout -/

/-- The batches `K` and the processes `W` are not of the layout. -/
structure Outside (K : Finset BatchPtr) (W : Finset Wptr) (s : Sched) (L : Layout) : Prop where
  lt : ∀ b ∈ K, b < s.dmem
  unused : ∀ b ∈ K, L.owner b = .unused
  away : ∀ w ∈ W, L.place w = .away

/-- Memory which no layout reaches: a state no batch of the scheduler is in, and links which lead
nowhere. -/
structure Spoilt (K : Finset BatchPtr) (W : Finset Wptr) (s : Sched) : Prop where
  lt : ∀ b ∈ K, b < s.dmem
  state : ∀ b ∈ K, s.state b = ⟨false, 1⟩
  link : ∀ w ∈ W, s.link w = w

/-- Spoiling everything. -/
def Sched.spoil (s : Sched) : Sched := { s with state := fun _ => ⟨false, 1⟩, link := fun w => w }

/-- **A layout reaches no spoilt memory.** -/
theorem Spoilt.outside (hs : Spoilt K W s) (h : Inv s L) : Outside K W s L where
  lt := hs.lt
  unused b hb := by
    by_contra hb'
    have hstate := hs.state b hb
    by_cases hq : ∃ n, L.owner b = .queued n
    · obtain ⟨n, hn⟩ := hq
      rcases h.window n b hn with hc | ⟨w, -, hw, -⟩ <;>
        simp [hstate, BatchState.clean, BatchState.inWindow] at *
    · have hc := h.clean b hb' (fun n hn => hq ⟨n, hn⟩)
      simp [hstate, BatchState.clean] at hc
  away w hw := by
    have hloop : ∀ c : Batch, ∀ l, c.Holds s.link l → w ∉ l := by
      intro c l hl hmem
      obtain ⟨l₁, l₂, rfl⟩ := List.append_of_mem hmem
      have hdrop := hl.1.1.drop
      have hnext : Linked 0 s.link w l₂ := by
        have := hdrop.2.2
        rwa [hs.link w hw] at this
      have heq := congrArg List.length (hdrop.unique hnext)
      simp at heq
    cases hplace : L.place w with
    | away => rfl
    | curb =>
      have hmem := (h.mem_curb w).mpr hplace
      rcases hc : L.curb with _ | l
      · simp [hc] at hmem
      · exact absurd (by simpa [hc] using hmem) (hloop _ l (h.curb l hc))
    | batch b =>
      have hmem := (h.mem_procs b w).mpr hplace
      refine absurd hmem (hloop _ _ (h.batch b fun hb => ?_))
      simp [h.empty b (.inl hb)] at hmem

namespace Outside

/-- A batch that is in use is not overlaid, -/
theorem notMem (ho : Outside K W s L) (hb : L.owner b ≠ .unused) : b ∉ K :=
  fun h => hb (ho.unused b h)

/-- nor a process that is enqueued. -/
theorem link_notMem (ho : Outside K W s L) (hw : L.place w ≠ .away) : w ∉ W := fun h =>
  hw (ho.away w h)

theorem curb_notMem (ho : Outside K W s L) (h : Inv s L) {l : List Wptr} (hl : L.curb = some l) :
    ∀ x ∈ l, x ∉ W :=
      fun x hx => ho.link_notMem (by simp [(h.mem_curb x).mp (by rw [hl]; exact hx)])

theorem procs_notMem (ho : Outside K W s L) (h : Inv s L) (b : BatchPtr) :
    ∀ x ∈ L.procs b, x ∉ W := fun x hx => ho.link_notMem (by simp [(h.mem_procs b x).mp hx])

/-- What may be overlaid may be so in part. -/
theorem mono (ho : Outside K W s L) {K' : Finset BatchPtr} {W' : Finset Wptr} (hK : K' ⊆ K)
    (hW : W' ⊆ W) : Outside K' W' s L :=
  ⟨fun b hb => ho.lt b (hK hb), fun b hb => ho.unused b (hK hb), fun w hw => ho.away w (hW hw)⟩

end Outside

/-- **What is outside a layout may change.** -/
theorem Inv.overlay (h : Inv s L) (ho : Outside K W s L) (m : Sched) :
    Inv (s.overlay K W m) L where
  null := h.null
  fresh := h.fresh
  dmem_pos := h.dmem_pos
  laundry := h.laundry
  free := h.free.congr fun x hx =>
    Finset.piecewise_eq_of_notMem _ _ _ (ho.notMem (by simp [(h.mem_free x).mp hx]))
  mem_free := h.mem_free
  queue n := (h.queue n).congr fun x hx =>
    Finset.piecewise_eq_of_notMem _ _ _ (ho.notMem (by simp [(h.mem_queue n x).mp hx]))
  mem_queue := h.mem_queue
  pending := h.pending
  head := h.head
  clean x hx hq := (Finset.piecewise_eq_of_notMem _ _ _ (ho.notMem hx)).trans (h.clean x hx hq)
  window n x hx := by
    rw [show (s.overlay K W m).state x = s.state x from
      Finset.piecewise_eq_of_notMem _ _ _ (ho.notMem (by simp [hx]))]
    exact h.window n x hx
  data n w hw hd := by
    obtain ⟨hq, hstate⟩ := h.data n w hw hd
    have hne : L.owner ((s.mw n).data w) ≠ .unused := by simp [hq]
    exact ⟨hq, (Finset.piecewise_eq_of_notMem _ _ _ (ho.notMem hne)).trans hstate⟩
  workspace := h.workspace
  mem_curb := h.mem_curb
  mem_procs := h.mem_procs
  curb l hl := (h.curb l hl).congr fun x hx =>
    Finset.piecewise_eq_of_notMem _ _ _ (ho.curb_notMem h hl x hx)
  batch x hx := by
    rw [show (s.overlay K W m).batch x = s.batch x from
      Finset.piecewise_eq_of_notMem _ _ _ (ho.notMem hx)]
    exact (h.batch x hx).congr fun v hv =>
      Finset.piecewise_eq_of_notMem _ _ _ (ho.procs_notMem h x v hv)
  empty := h.empty
  curbPrio l hl x hx := (Finset.piecewise_eq_of_notMem _ _ _ (ho.curb_notMem h hl x hx)).trans
    (h.curbPrio l hl x hx)
  queuedPrio n x hx := by
    have hprio : ∀ v ∈ L.procs x, (s.overlay K W m).prio v = s.prio v := fun v hv =>
      Finset.piecewise_eq_of_notMem _ _ _ (ho.procs_notMem h x v hv)
    refine ⟨(h.queuedPrio n x hx).1, fun v hv => ?_⟩
    rw [hprio v hv]
    refine ⟨((h.queuedPrio n x hx).2 v hv).1, fun u hu => ?_⟩
    rw [hprio u hu]
    exact ((h.queuedPrio n x hx).2 v hv).2 u hu
  pendingPrio n x hx v hv := by
    rw [show (s.overlay K W m).prio v = s.prio v from
      Finset.piecewise_eq_of_notMem _ _ _ (ho.procs_notMem h x v hv)]
    exact h.pendingPrio n x hx v hv
  pendingEmpty := h.pendingEmpty
  queuedBit := h.queuedBit
  pendingBit := h.pendingBit

/-! ## Operations -/

/-- The operation `f` has nothing to do with the memory of `K` and `W`. -/
structure Beside (K : Finset BatchPtr) (W : Finset Wptr) (f : Sched → Sched) (s : Sched) :
    Prop where
  overlay : ∀ m, f (s.overlay K W m) = (f s).overlay K W m
  dmem : s.dmem ≤ (f s).dmem
  id : (f s).id = s.id

namespace Beside

variable {f g : Sched → Sched}

/-- Doing nothing. -/
theorem same (s : Sched) : Beside K W (fun s => s) s := ⟨fun _ => rfl, Nat.le_refl _, rfl⟩

/-- One after the other. -/
theorem comp (hf : Beside K W f s) (hg : Beside K W g (f s)) : Beside K W (fun s => g (f s)) s :=
  ⟨fun m => by rw [hf.overlay, hg.overlay], hf.dmem.trans hg.dmem, hg.id.trans hf.id⟩

/-- The condition is the same with and without the overlay. -/
theorem ite {c : Sched → Prop} [DecidablePred c] (hc : ∀ m, c (s.overlay K W m) ↔ c s)
    (hf : c s → Beside K W f s) (hg : ¬ c s → Beside K W g s) :
    Beside K W (fun s => if c s then f s else g s) s := by
  by_cases h : c s
  · refine ⟨fun m => ?_, ?_, ?_⟩
    · rw [if_pos ((hc m).mpr h), if_pos h, (hf h).overlay]
    · rw [if_pos h]
      exact (hf h).dmem
    · rw [if_pos h]
      exact (hf h).id
  · refine ⟨fun m => ?_, ?_, ?_⟩
    · rw [if_neg (mt (hc m).mp h), if_neg h, (hg h).overlay]
    · rw [if_neg h]
      exact (hg h).dmem
    · rw [if_neg h]
      exact (hg h).id

theorem eq_overlay (hf : Beside K W f s) : f s = (f s).overlay K W s := by
  rw [← hf.overlay, Sched.overlay_self]

theorem spoilt (hf : Beside K W f s) (hs : Spoilt K W s) : Spoilt K W (f s) where
  lt b hb := (hs.lt b hb).trans_le hf.dmem
  state b hb := by
    rw [hf.eq_overlay]
    exact (Finset.piecewise_eq_of_mem _ _ _ hb).trans (hs.state b hb)
  link w hw := by
    rw [hf.eq_overlay]
    exact (Finset.piecewise_eq_of_mem _ _ _ hw).trans (hs.link w hw)

end Beside

/-- What a run queue ends with is in use. -/
theorem Inv.back_notMem (h : Inv s L) (ho : Outside K W s L) (n : Prio) :
    (s.rq n).fptr ≠ 0 → (s.rq n).bptr ∉ K := fun hf =>
  ho.notMem (by
    have hmem := (h.queue n).back_mem fun hl => hf ((h.queue n).null_iff.mpr hl)
    simp [(h.mem_queue n _).mp hmem])

theorem Inv.free_notMem (h : Inv s L) (ho : Outside K W s L) (hf : s.free ≠ 0) : s.free ∉ K :=
  ho.notMem (by simp [(h.takeFree hf).1])

/-- A batch is allocated. -/
theorem Inv.beside_allocateBatch (h : Inv s L) (ho : Outside K W s L) :
    Beside K W (fun s => s.allocateBatch.2) s ∧
      ∀ m, (s.overlay K W m).allocateBatch.1 = s.allocateBatch.1 := by
  have heq := Sched.overlay_allocateBatch (W := W) h.laundry ho.lt (h.free_notMem ho)
  obtain ⟨hdmem, hid⟩ := Sched.allocateBatch_same h.laundry
  exact ⟨⟨fun m => by rw [heq], hdmem, hid⟩, fun m => by rw [heq]⟩

theorem Inv.allocateBatch_notMem (h : Inv s L) (ho : Outside K W s L) : s.allocateBatch.1 ∉ K :=
  Sched.allocateBatch_notMem h.laundry ho.lt (h.free_notMem ho)

theorem Inv.beside_addToRunqueue (h : Inv s L) (ho : Outside K W s L) (hb : L.owner b ≠ .unused)
    (p : Word) (n : Prio) : Beside K W (fun s => s.addToRunqueue p n b) s where
  overlay := Sched.overlay_addToRunqueue (ho.notMem hb) (h.back_notMem ho n) (fun hd => by
    have hw := (incrementMwindowHead_range (h.head n)).1
    exact ho.notMem (by simp [(h.data n _ hw hd).1])) p
  dmem := (Sched.addToRunqueue_dmem s p n b).1.ge
  id := (Sched.addToRunqueue_dmem s p n b).2

/-- A process is enqueued on the pending batch. -/
theorem Inv.beside_enqueueToPending (h : Inv s L) (ho : Outside K W s L)
    (hb : L.owner (s.rq n).pending ≠ .unused) (hw : w ∉ W) (p : Word) :
    Beside K W (fun s => s.enqueueToPending p n w) s where
  overlay := Sched.overlay_enqueueToPending (ho.notMem hb) hw (fun hf =>
    ho.procs_notMem h _ _
      ((h.batch _ hb).1.back_mem fun hl => hf ((h.batch _ hb).1.null_iff.mpr hl)))
    p
  dmem := Nat.le_refl _
  id := rfl

/-- The pending batch is retired to the run queue and replaced. -/
theorem Inv.beside_replacePending (h : Inv s L) (hs : Spoilt K W s) (hattached : Attached s L)
    (hne : (s.rq n).priofinity ≠ 0) (p : Word) :
    Beside K W (fun s => (s.addToRunqueue p n (s.rq n).pending).allocateBatch.2.setRq n
      { (s.addToRunqueue p n (s.rq n).pending).allocateBatch.2.rq n with
        pending := (s.addToRunqueue p n (s.rq n).pending).allocateBatch.1 }) s := by
  have hretire := h.retire hattached hne p
  have hqueue := h.beside_addToRunqueue (hs.outside h) (b := (s.rq n).pending)
    (by simp [hattached n]) p n
  have hs₁ := hqueue.spoilt hs
  obtain ⟨halloc, hfst⟩ := hretire.beside_allocateBatch (hs₁.outside hretire)
  refine ⟨fun m => ?_, hqueue.dmem.trans halloc.dmem, halloc.id.trans hqueue.id⟩
  have h₁ := hqueue.overlay m
  have h₂ := halloc.overlay m
  have h₃ := hfst m
  dsimp only at h₁ h₂ ⊢
  rw [show (s.overlay K W m).rq = s.rq from rfl, h₁, h₂, h₃]
  rfl

theorem Inv.beside_enqueueFar_of_replaced (h : Inv s L) (hs : Spoilt K W s)
    (hattached : Attached s L) (hne : (s.rq n).priofinity ≠ 0) (hw : w ∉ W) (q p : Word) :
    Beside K W (fun s => ((s.addToRunqueue q n (s.rq n).pending).allocateBatch.2.setRq n
      { (s.addToRunqueue q n (s.rq n).pending).allocateBatch.2.rq n with
        pending := (s.addToRunqueue q n (s.rq n).pending).allocateBatch.1 }).enqueueToPending
          p n w) s := by
  have hreplace := h.beside_replacePending hs hattached hne q
  obtain ⟨L₂, b, hpend, h₂, hheld, -⟩ := h.replacePending hattached (h.retire hattached hne q)
    (addToRunqueue_same s q n (s.rq n).pending).1
  exact hreplace.comp (g := fun s => s.enqueueToPending p n w)
    (h₂.beside_enqueueToPending ((hreplace.spoilt hs).outside h₂) (by rw [hpend]; simp [hheld]) hw
      p)

/-- The same of an operation that may fail. -/
structure BesideOption (K : Finset BatchPtr) (W : Finset Wptr) (f : Sched → Option Sched)
    (s : Sched) : Prop where
  overlay : ∀ m, f (s.overlay K W m) = (f s).map (·.overlay K W m)
  dmem : ∀ s', f s = some s' → s.dmem ≤ s'.dmem
  id : ∀ s', f s = some s' → s'.id = s.id

namespace BesideOption

theorem none {f : Sched → Option Sched} (hf : ∀ m, f (s.overlay K W m) = .none) :
    BesideOption K W f s := by
  have hs : f s = .none := by
    have := hf s
    rwa [Sched.overlay_self] at this
  exact ⟨fun m => by rw [hf, hs, Option.map_none], fun s' hs' => by simp [hs] at hs',
    fun s' hs' => by simp [hs] at hs'⟩

theorem some {f : Sched → Option Sched} {g : Sched → Sched} (hg : Beside K W g s)
    (hf : ∀ m, f (s.overlay K W m) = .some (g (s.overlay K W m))) : BesideOption K W f s := by
  have hs : f s = .some (g s) := by
    have := hf s
    rwa [Sched.overlay_self] at this
  refine ⟨fun m => by rw [hf, hs, hg.overlay, Option.map_some], fun s' hs' => ?_, fun s' hs' => ?_⟩
  · obtain rfl := Option.some.inj (hs.symm.trans hs')
    exact hg.dmem
  · obtain rfl := Option.some.inj (hs.symm.trans hs')
    exact hg.id

theorem spoilt {f : Sched → Option Sched} (hf : BesideOption K W f s) (hs : Spoilt K W s)
    {t : Sched} (ht : f s = .some t) : Spoilt K W t ∧ t.id = s.id := by
  have hover : t = t.overlay K W s := by
    have := hf.overlay s
    rw [Sched.overlay_self, ht, Option.map_some] at this
    exact Option.some.inj this
  refine ⟨⟨fun b hb => (hs.lt b hb).trans_le (hf.dmem t ht), fun b hb => ?_, fun w hw => ?_⟩,
    hf.id t ht⟩
  · rw [hover]
    exact (Finset.piecewise_eq_of_mem _ _ _ hb).trans (hs.state b hb)
  · rw [hover]
    exact (Finset.piecewise_eq_of_mem _ _ _ hw).trans (hs.link w hw)

end BesideOption

/-- **`enqueue_far_process`** touches nothing outside the layout but the process. -/
theorem Inv.beside_enqueueFarProcess (h : Inv s L) (hs : Spoilt K W s) (hattached : Attached s L)
    (hw : w ∉ W) (p : Word) : BesideOption K W (fun s => s.enqueueFarProcess p w) s := by
  have hpend : L.owner (s.rq (pPriority p)).pending ≠ .unused := by simp [hattached (pPriority p)]
  have hto := fun q => h.beside_enqueueToPending (hs.outside h) hpend hw q
  have hfar := fun hne q r =>
    h.beside_enqueueFar_of_replaced (n := pPriority p) hs hattached hne hw q r
  by_cases haff : pHasAffinity p
  · by_cases hid : pAffinity p &&& s.id = 0
    · refine .none fun m => ?_
      simp only [Sched.enqueueFarProcess]
      rw [if_neg (not_not.mpr haff), Sched.overlay_id, if_neg (not_not.mpr hid)]
    by_cases hold : (s.rq (pPriority p)).priofinity ≠ 0 ∧
        pAffinity (s.rq (pPriority p)).priofinity ≠ pAffinity p
    · refine .some (hfar hold.1 (s.rq (pPriority p)).priofinity p) fun m => ?_
      simp only [Sched.enqueueFarProcess]
      rw [if_neg (not_not.mpr haff), Sched.overlay_id, if_pos hid, Sched.overlay_rq, if_pos hold]
    · refine .some (hto p) fun m => ?_
      simp only [Sched.enqueueFarProcess]
      rw [if_neg (not_not.mpr haff), Sched.overlay_id, if_pos hid, Sched.overlay_rq, if_neg hold]
  · by_cases hold : pHasAffinity (s.rq (pPriority p)).priofinity
    · have hne : (s.rq (pPriority p)).priofinity ≠ 0 := fun h₀ => by
        rw [h₀] at hold
        exact hold (by decide)
      refine .some (hfar hne (s.rq (pPriority p)).priofinity (buildPriofinity 0 1)) fun m => ?_
      simp only [Sched.enqueueFarProcess, Sched.addToRunqueue]
      rw [if_pos haff, Sched.overlay_rq, if_pos hold, if_pos hold]
    · refine .some (hto (buildPriofinity 0 1)) fun m => ?_
      simp only [Sched.enqueueFarProcess]
      rw [if_pos haff, Sched.overlay_rq, if_neg hold]

/-- **`enqueue_process`** touches nothing outside the layout but the process. -/
theorem Inv.beside_enqueueProcess (h : Inv s L) (hs : Spoilt K W s) (hattached : Attached s L)
    {l : List Wptr} (hl : L.curb = some l) (hw : w ∉ W) :
    BesideOption K W (fun s => s.enqueueProcess w) s := by
  have hprio : ∀ m, (s.overlay K W m).prio w = s.prio w := fun m =>
    Finset.piecewise_eq_of_notMem _ _ _ hw
  by_cases hp : s.priofinity = s.prio w
  · have hcurb : Beside K W (fun s => s.enqueueProcessNopri w) s := by
      refine ⟨Sched.overlay_enqueueProcessNopri hw fun hf => ?_, Nat.le_refl _, rfl⟩
      have hc := (h.curb l hl).1
      exact (hs.outside h).curb_notMem h hl _ (hc.back_mem fun hnil => hf (hc.null_iff.mpr hnil))
    refine .some hcurb fun m => ?_
    simp only [Sched.enqueueProcess]
    rw [hprio, Sched.overlay_priofinity, if_pos hp]
  · have hfar := h.beside_enqueueFarProcess hs hattached hw (s.prio w)
    have heq : ∀ m, (s.overlay K W m).enqueueProcess w =
        (s.overlay K W m).enqueueFarProcess (s.prio w) w := fun m => by
      simp only [Sched.enqueueProcess]
      rw [hprio, Sched.overlay_priofinity, if_neg hp]
    have hself : s.enqueueProcess w = s.enqueueFarProcess (s.prio w) w := by
      have := heq s
      rwa [Sched.overlay_self] at this
    refine ⟨fun m => ?_, fun s' hs' => hfar.dmem s' (hself.symm.trans hs'),
      fun s' hs' => hfar.id s' (hself.symm.trans hs')⟩
    rw [heq, hself]
    exact hfar.overlay m

/-- **`push_batch`** touches nothing outside the layout. -/
theorem Inv.beside_pushBatch (h : Inv s L) (ho : Outside K W s L) (hattached : Attached s L)
    (b : BatchPtr) (p : Word) : Beside K W (fun s => s.pushBatch p b) s := by
  have hpend := hattached (pPriority p)
  have hnot : (s.rq (pPriority p)).pending ∉ K := ho.notMem (by simp [hpend])
  have hback := h.back_notMem ho (pPriority p)
  unfold Sched.pushBatch
  dsimp only
  rcases eq_or_ne (s.rq (pPriority p)).priofinity 0 with hz | hz
  · refine ⟨fun m => ?_, ?_, by rw [if_neg (not_not.mpr hz)]; rfl⟩
    · simp only [Sched.overlay_rq, if_neg (not_not.mpr hz), Sched.overlay_releaseCleanBatch hnot]
      rfl
    · rw [if_neg (not_not.mpr hz)]
      exact Nat.le_refl _
  · have hqueue := Sched.overlay_addToRunqueue (W := W) (s := s.setRq (pPriority p)
      { s.rq (pPriority p) with priofinity := p ||| buildPriofinity 0 1, pending := b })
      (n := pPriority p) hnot (by simpa using hback) (fun hd => by
        have hw := (incrementMwindowHead_range (h.head (pPriority p))).1
        exact ho.notMem (by simp [(h.data _ _ hw hd).1])) (s.rq (pPriority p)).priofinity
    refine ⟨fun m => ?_, ?_, ?_⟩
    · rw [Sched.overlay_rq, if_pos hz, if_pos hz]
      exact hqueue m
    · rw [if_pos hz, (Sched.addToRunqueue_dmem _ _ _ _).1]
      exact Nat.le_refl _
    · rw [if_pos hz, (Sched.addToRunqueue_dmem _ _ _ _).2]
      rfl

/-- Taking the front of the current batch reads its link only. -/
theorem Inv.beside_dequeueFromCurb (h : Inv s L) (ho : Outside K W s L) {l : List Wptr}
    (hl : L.curb = some l) (hf : s.curb.fptr ≠ 0) :
    Beside K W (fun s => s.dequeueFromCurb.2) s ∧
      ∀ m, (s.overlay K W m).dequeueFromCurb.1 = s.dequeueFromCurb.1 := by
  have hfront : s.curb.fptr ∉ W := by
    obtain ⟨m, hm, -⟩ := (h.curb l hl).1.exists_pop hf
    exact ho.curb_notMem h hl _ (by simp [hm])
  refine ⟨⟨fun m => ?_, Nat.le_refl _, rfl⟩, fun m => rfl⟩
  simp only [Sched.dequeueFromCurb, dequeueFromBatch, Sched.overlay,
    Finset.piecewise_eq_of_notMem _ _ _ hfront]

/-- The current batch is saved. -/
theorem Inv.beside_saveCurb (h : Inv s L) (ho : Outside K W s L) :
    Beside K W (fun s => s.saveCurb.2) s ∧ ∀ m, (s.overlay K W m).saveCurb.1 = s.saveCurb.1 := by
  have heq := Sched.overlay_allocateBatch (W := W) h.laundry ho.lt (h.free_notMem ho)
  obtain ⟨hdmem, hid⟩ := Sched.allocateBatch_same h.laundry
  refine ⟨⟨fun m => ?_, hdmem, hid⟩, fun m => by simp only [Sched.saveCurb, heq]⟩
  simp only [Sched.saveCurb, heq]
  simp only [Sched.overlay, Finset.update_piecewise_of_notMem _ _ _ (h.allocateBatch_notMem ho)]

/-- A batch in hand is loaded. -/
theorem Inv.beside_loadCurb (h : Inv s L) (ho : Outside K W s L) (hb : L.owner b = .held)
    (hne : L.procs b ≠ []) : Beside K W (fun s => s.loadCurb b) s := by
  have hnot : b ∉ K := ho.notMem (by simp [hb])
  have hfront : (s.batch b).fptr ∉ W := by
    have hholds := h.batch b (by simp [hb])
    obtain ⟨m, hm, -⟩ := hholds.1.exists_pop fun hz => hne (hholds.1.null_iff.mp hz)
    exact ho.procs_notMem h b _ (by simp [hm])
  refine ⟨fun m => ?_, Nat.le_refl _, rfl⟩
  simp only [Sched.loadCurb, Sched.releaseCleanBatch, Sched.overlay,
    Finset.piecewise_eq_of_notMem _ _ _ hnot, Finset.piecewise_eq_of_notMem _ _ _ hfront,
    Finset.update_piecewise_of_notMem _ _ _ hnot]

/-- A batch in hand is started with one process. -/
theorem Inv.beside_startBatch (h : Inv s L) (ho : Outside K W s L) (hw : w ∉ W) :
    Beside K W (fun s => { s.allocateBatch.2 with
      link := (enqueueToBatchWithHint s.allocateBatch.2.link
        (s.allocateBatch.2.batch s.allocateBatch.1) w true).1
      batch := update s.allocateBatch.2.batch s.allocateBatch.1
        (enqueueToBatchWithHint s.allocateBatch.2.link
          (s.allocateBatch.2.batch s.allocateBatch.1) w true).2 }) s := by
  have heq := Sched.overlay_allocateBatch (W := W) h.laundry ho.lt (h.free_notMem ho)
  obtain ⟨hdmem, hid⟩ := Sched.allocateBatch_same h.laundry
  refine ⟨fun m => ?_, hdmem, hid⟩
  simp only [heq, enqueueToBatchWithHint, if_true]
  simp only [Sched.overlay, Finset.update_piecewise_of_notMem _ _ _ (h.allocateBatch_notMem ho),
    Finset.update_piecewise_of_notMem _ _ _ hw]

/-- A batch in hand grows by one process. -/
theorem Inv.beside_growBatch (h : Inv s L) (ho : Outside K W s L) (hb : L.owner b = .held)
    (hne : L.procs b ≠ []) (hw : w ∉ W) :
    Beside K W (fun s => { s with
      link := (enqueueToBatchWithHint s.link (s.batch b) w false).1
      batch := update s.batch b (enqueueToBatchWithHint s.link (s.batch b) w false).2 }) s := by
  have hnot : b ∉ K := ho.notMem (by simp [hb])
  have hback : (s.batch b).bptr ∉ W :=
    ho.procs_notMem h b _ ((h.batch b (by simp [hb])).1.back_mem hne)
  refine ⟨fun m => ?_, Nat.le_refl _, rfl⟩
  simp only [enqueueToBatchWithHint, Bool.false_eq_true, if_false, Sched.overlay,
    Finset.piecewise_eq_of_notMem _ _ _ hnot, Finset.update_piecewise_of_notMem _ _ _ hnot,
    Finset.update_piecewise_of_notMem _ _ _ hw, Finset.update_piecewise_of_notMem _ _ _ hback]

/-- A process that is on no chain starts an empty batch in hand. -/
theorem Beside.enqueueSingle (hb : b ∉ K) (hw : w ∉ W) :
    Beside K W (fun s => { s with
      link := (enqueueToBatchWithHint s.link (s.batch b) w true).1
      batch := update s.batch b (enqueueToBatchWithHint s.link (s.batch b) w true).2 }) s := by
  refine ⟨fun m => ?_, Nat.le_refl _, rfl⟩
  simp only [enqueueToBatchWithHint, if_true, Sched.overlay,
    Finset.update_piecewise_of_notMem _ _ _ hb, Finset.update_piecewise_of_notMem _ _ _ hw]

/-- **The split of `push_curb`** touches nothing outside the layout. -/
theorem Inv.beside_splitCurb (h : Inv s L) (hs : Spoilt K W s) (hattached : Attached s L)
    {l : List Wptr} (hl : L.curb = some l) (hne : l ≠ []) :
    Beside K W (fun s => s.splitCurb) s := by
  have ho := hs.outside h
  obtain ⟨La, ha, hheld, hempty, hgrown, hsame⟩ := h.allocateBatch
  have hattacheda := (hgrown.did ha hattached hsame).attached
  have hba := h.beside_allocateBatch ho
  have hnot := h.allocateBatch_notMem ho
  have hla : La.curb = some l := hgrown.curb.trans hl
  have hsa := hba.1.spoilt hs
  have hf : s.allocateBatch.2.curb.fptr ≠ 0 := fun hz =>
    hne ((ha.curb l hla).1.null_iff.mp hz)
  obtain ⟨q, hq, -, hdeq⟩ := ha.dequeueFromCurb hla hf
  have hbd := ha.beside_dequeueFromCurb (hsa.outside ha) hla hf
  have hplace : La.place s.allocateBatch.2.curb.fptr = .curb :=
    (ha.mem_curb _).mp (by simp [hla, hq])
  have hws : IsWorkspace s.allocateBatch.2.curb.fptr := ha.workspace _ (by simp [hplace])
  have hw : s.allocateBatch.2.curb.fptr ∉ W := (hsa.outside ha).link_notMem (by simp [hplace])
  have hsingle := hdeq.enqueueSingle (b := s.allocateBatch.1) hheld hempty hws (by simp)
  have hbs := Beside.enqueueSingle (s := s.allocateBatch.2.dequeueFromCurb.2) hnot hw
  have hss := hbs.spoilt (hbd.1.spoilt hsa)
  have hbp := hsingle.beside_pushBatch (hss.outside hsingle) hattacheda
    s.allocateBatch.1 s.allocateBatch.2.priofinity
  have hall := ((hba.1.comp hbd.1).comp hbs).comp hbp
  refine ⟨fun m => ?_, hall.dmem, hall.id⟩
  have h₁ := hba.1.overlay m
  have h₂ := hbd.1.overlay m
  simp only [Sched.splitCurb]
  rw [hba.2 m, h₁, h₂, hbd.2 m]
  exact (congrArg (Sched.pushBatch · _ _) (hbs.overlay m)).trans (hbp.overlay m)

/-- The current batch, saved and pushed. -/
theorem Inv.beside_pushSaved (h : Inv s L) (hs : Spoilt K W s) (hattached : Attached s L)
    {l : List Wptr} (hl : L.curb = some l) :
    Beside K W (fun s => s.saveCurb.2.pushBatch s.saveCurb.2.priofinity s.saveCurb.1) s := by
  obtain ⟨hbs, hfst⟩ := h.beside_saveCurb (hs.outside h)
  obtain ⟨L₁, hdid, -⟩ := h.saveCurb hattached hl
  have hbp := hdid.inv.beside_pushBatch ((hbs.spoilt hs).outside hdid.inv) hdid.attached
    s.saveCurb.1 s.saveCurb.2.priofinity
  refine ⟨fun m => ?_, (hbs.comp hbp).dmem, (hbs.comp hbp).id⟩
  have h₁ := hbs.overlay m
  rw [h₁, hfst m]
  exact hbp.overlay m

/-- **`push_curb`** touches nothing outside the layout. -/
theorem Inv.beside_pushCurb (h : Inv s L) (hs : Spoilt K W s) (hattached : Attached s L)
    {l : List Wptr} (hl : L.curb = some l) (hne : l ≠ []) :
    Beside K W (fun s => s.pushCurb) s := by
  have hlen : l.length < 2 ^ 30 := length_lt_of_isWorkspace (h.nodup_curb hl) fun w hw =>
    h.workspace w (by simp [(h.mem_curb w).mp (by rw [hl]; exact hw)])
  have hsplit : Beside K W (fun s => if s.dispatches ≤ 0 ∧
      s.curb.size ^^^ batchEmptied > batchEmptied + 1 then s.splitCurb else s) s :=
    .ite (fun _ => Iff.rfl) (fun _ => h.beside_splitCurb hs hattached hl hne) fun _ => .same s
  obtain ⟨L₁, q, hdid, hq⟩ : ∃ L₁ q, Did s L (if s.dispatches ≤ 0 ∧
      s.curb.size ^^^ batchEmptied > batchEmptied + 1 then s.splitCurb else s) L₁ (fun _ => False)
        (fun _ => False) ∧ L₁.curb = some q := by
    split_ifs with hc
    · obtain ⟨L₁, q, hdid, hq, -⟩ := h.splitCurb hattached hl
        ((h.curb l hl).one_lt_length hlen hc.2)
      exact ⟨L₁, q, hdid, hq⟩
    · exact ⟨L, l, ⟨h, hattached, by simp, by simp, fun _ _ _ => rfl, rfl⟩, hl⟩
  exact hsplit.comp (g := fun s => s.saveCurb.2.pushBatch s.saveCurb.2.priofinity s.saveCurb.1)
    (hdid.inv.beside_pushSaved (hsplit.spoilt hs) hdid.attached hq)

/-- **`switch_priofinity`** touches nothing outside the layout. -/
theorem Inv.beside_switchPriofinity (h : Inv s L) (hs : Spoilt K W s) (hattached : Attached s L)
    {l : List Wptr} (hl : L.curb = some l) (p : Word) :
    Beside K W (fun s => s.switchPriofinity p) s := by
  have hnew : ∀ t : Sched, Beside K W (fun s => { s.newCurb with priofinity := p }) t := fun t =>
    ⟨fun _ => rfl, Nat.le_refl _, rfl⟩
  unfold Sched.switchPriofinity
  refine .ite (fun _ => Iff.rfl) (fun _ => ?_) fun _ => .same s
  refine (Beside.ite (c := fun s => s.curb.fptr ≠ 0) (fun _ => Iff.rfl) (fun hf => ?_)
    fun _ => .same s).comp (hnew _)
  exact h.beside_pushCurb hs hattached hl fun hnil => hf ((h.curb l hl).1.null_iff.mpr hnil)

/-- **`try_pull_from_runqueue`** touches nothing outside the layout. -/
theorem Inv.beside_tryPullFromRunqueue (h : Inv s L) (ho : Outside K W s L) (n : Prio) :
    (∀ m, (s.overlay K W m).tryPullFromRunqueue n =
      ((s.tryPullFromRunqueue n).1, (s.tryPullFromRunqueue n).2.overlay K W m)) ∧
        s.dmem ≤ (s.tryPullFromRunqueue n).2.dmem ∧ (s.tryPullFromRunqueue n).2.id = s.id := by
  unfold Sched.tryPullFromRunqueue
  dsimp only
  rcases eq_or_ne (s.rq n).fptr 0 with hf | hf
  · rw [if_neg (not_not.mpr hf)]
    rcases eq_or_ne (s.rq n).priofinity 0 with hz | hz
    · rw [if_neg (not_not.mpr hz)]
      refine ⟨fun m => ?_, Nat.le_refl _, rfl⟩
      rw [Sched.overlay_rq, if_neg (not_not.mpr hf), if_neg (not_not.mpr hz)]
    · rw [if_pos hz]
      refine ⟨fun m => ?_, Sched.allocateBatch_same
        (s := s.setRq n { s.rq n with priofinity := 0 }) h.laundry⟩
      have heq := Sched.overlay_allocateBatch (W := W)
        (s := s.setRq n { s.rq n with priofinity := 0 }) h.laundry ho.lt (h.free_notMem ho) m
      rw [Sched.overlay_rq, if_neg (not_not.mpr hf), if_pos hz,
        show (s.overlay K W m).setRq n { s.rq n with priofinity := 0 } =
          (s.setRq n { s.rq n with priofinity := 0 }).overlay K W m from rfl, heq]
      rfl
  · have hnot : (s.rq n).fptr ∉ K := by
      obtain ⟨q, hq, -⟩ := (h.queue n).exists_pop hf
      exact ho.notMem (by simp [(h.mem_queue n (s.rq n).fptr).mp (by simp [hq])])
    have hstate : ∀ m, (s.overlay K W m).state (s.rq n).fptr = s.state (s.rq n).fptr := fun m =>
      Finset.piecewise_eq_of_notMem _ _ _ hnot
    have hnext : ∀ m, (s.overlay K W m).next (s.rq n).fptr = s.next (s.rq n).fptr := fun m =>
      Finset.piecewise_eq_of_notMem _ _ _ hnot
    rw [if_pos hf, Sched.setRq_state, Sched.setRq_mw]
    rcases eq_or_ne (s.state (s.rq n).fptr).window 0 with hw | hw
    · rw [if_neg (not_not.mpr hw)]
      refine ⟨fun m => ?_, Nat.le_refl _, rfl⟩
      rw [Sched.overlay_rq, if_pos hf, hnext, Sched.setRq_state, hstate, if_neg (not_not.mpr hw)]
      rfl
    rw [if_pos hw]
    by_cases hd : (s.mw n).data (s.state (s.rq n).fptr).window = (s.rq n).fptr
    · rw [if_pos hd]
      refine ⟨fun m => ?_, Nat.le_refl _, rfl⟩
      rw [Sched.overlay_rq, if_pos hf, hnext, Sched.setRq_state, hstate, if_pos hw]
      refine (if_pos hd).trans ?_
      simp only [Sched.overlay, Sched.setRq, Finset.update_piecewise_of_notMem _ _ _ hnot]
    · rw [if_neg hd]
      refine ⟨fun m => ?_, Nat.le_refl _, rfl⟩
      rw [Sched.overlay_rq, if_pos hf, hnext, Sched.setRq_state, hstate, if_pos hw]
      exact if_neg hd

/-- **`pick_batch`** touches nothing outside the layout. -/
theorem Inv.beside_pickBatch (h : Inv s L) (ho : Outside K W s L) (hattached : Attached s L)
    (fuel : ℕ) (n : Prio) :
    (∀ m, (s.overlay K W m).pickBatch fuel n =
      (s.pickBatch fuel n).map fun x => (x.1, x.2.overlay K W m)) ∧
        ∀ x, s.pickBatch fuel n = some x → s.dmem ≤ x.2.dmem ∧ x.2.id = s.id := by
  obtain _ | fuel := fuel
  · exact ⟨fun m => rfl, fun x hx => by simp [Sched.pickBatch] at hx⟩
  obtain ⟨hpull, hdmem⟩ := h.beside_tryPullFromRunqueue ho n
  unfold Sched.pickBatch
  dsimp only
  simp only [hpull]
  rcases h.tryPullFromRunqueue hattached n with ⟨L', hne, -⟩ | ⟨hf, hz, heq⟩
  · simp only [if_pos hne]
    exact ⟨fun m => rfl, fun x hx => by rwa [← Option.some.inj hx]⟩
  · have hnull := not_not.mpr (rfl : (0 : BatchPtr) = 0)
    rw [heq, if_neg hnull, if_pos ⟨hf, hz⟩]
    refine ⟨fun m => ?_, fun x hx => ?_⟩
    · rw [if_neg hnull]
      exact if_pos ⟨hf, hz⟩
    · rw [← Option.some.inj hx]
      exact ⟨Nat.le_refl _, rfl⟩

end Ccsp

end Kroc
