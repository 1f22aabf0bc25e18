import Kroc.Ccsp.Layout

/-!
# Ccsp/Moves — the elementary moves of batches and processes

Each function of the scheduler is a sequence of a few moves: a batch leaves or joins the free list,
a run queue or its pending slot, a process joins or leaves a chain.  Every move is stated with the
layout it leads to.
-/

namespace Kroc

namespace Ccsp

open Function (update)

variable {s : Sched} {L : Layout} {b : BatchPtr} {n : Prio} {w : Wptr}

/-! ## Changing the owner of a batch -/

namespace Layout

/-- The batch `b` goes to the owner `o`. -/
def give (L : Layout) (b : BatchPtr) (o : Owner) : Layout := { L with owner := update L.owner b o }

@[simp, grind =] theorem give_owner (L : Layout) (b x : BatchPtr) (o : Owner) :
    (L.give b o).owner x = if x = b then o else L.owner x := Function.update_apply ..

@[simp, grind =] theorem give_place (L : Layout) (b : BatchPtr) (o : Owner) :
    (L.give b o).place = L.place := rfl

@[simp, grind =] theorem give_free (L : Layout) (b : BatchPtr) (o : Owner) :
    (L.give b o).free = L.free := rfl

@[simp, grind =] theorem give_queue (L : Layout) (b : BatchPtr) (o : Owner) :
    (L.give b o).queue = L.queue := rfl

@[simp, grind =] theorem give_procs (L : Layout) (b : BatchPtr) (o : Owner) :
    (L.give b o).procs = L.procs := rfl

@[simp, grind =] theorem give_curb (L : Layout) (b : BatchPtr) (o : Owner) :
    (L.give b o).curb = L.curb := rfl

end Layout

/-- The null pointer is no batch. -/
theorem Inv.ne_zero (h : Inv s L) (hb : L.owner b ≠ .unused) : b ≠ 0 := by
  rintro rfl
  exact hb h.null

/-- **Taking the pending batch in hand** changes nothing in memory. -/
theorem Inv.hold (h : Inv s L) (hb : L.owner b = .pending n) : Inv s (L.give b .held) where
  null := by grind [h.null]
  fresh x hx := by grind [h.fresh x hx]
  dmem_pos := h.dmem_pos
  laundry := h.laundry
  free := h.free
  mem_free x := by grind [h.mem_free x]
  queue := h.queue
  mem_queue m x := by grind [h.mem_queue m x]
  pending m x hx := h.pending m x (by grind)
  head := h.head
  clean x hx hq := h.clean x (by grind) (by grind)
  window m x hx := h.window m x (by grind)
  data m w hw hd := by grind [h.data m w hw hd]
  workspace := h.workspace
  mem_curb := h.mem_curb
  mem_procs := h.mem_procs
  curb := h.curb
  batch x hx := h.batch x (by grind)
  empty x hx := h.empty x (by grind)
  curbPrio := h.curbPrio
  queuedPrio m x hx := h.queuedPrio m x (by grind)
  pendingPrio m x hx := h.pendingPrio m x (by grind)
  pendingEmpty m x hx := h.pendingEmpty m x (by grind)
  queuedBit m x hx := h.queuedBit m x (by grind)
  pendingBit m x hx := h.pendingBit m x (by grind)

/-- **Leaving a batch in the pending slot** of a queue that had none. -/
theorem Inv.attach (h : Inv s L) (hb : L.owner b = .held) (hslot : (s.rq n).pending = b)
    (hempty : (s.rq n).priofinity = 0 ↔ L.procs b = [])
    (hprio : ∀ w ∈ L.procs b,
      pPriority (s.prio w) = n ∧ pAffinity (s.prio w) = pAffinity (s.rq n).priofinity)
    (hbit : L.procs b ≠ [] → s.rqstate n = true) : Inv s (L.give b (.pending n)) where
  null := by grind [h.null]
  fresh x hx := by grind [h.fresh x hx]
  dmem_pos := h.dmem_pos
  laundry := h.laundry
  free := h.free
  mem_free x := by grind [h.mem_free x]
  queue := h.queue
  mem_queue m x := by grind [h.mem_queue m x]
  pending m x hx := by grind [h.pending m x]
  head := h.head
  clean x hx hq := h.clean x (by grind) (by grind)
  window m x hx := h.window m x (by grind)
  data m w hw hd := by grind [h.data m w hw hd]
  workspace := h.workspace
  mem_curb := h.mem_curb
  mem_procs := h.mem_procs
  curb := h.curb
  batch x hx := h.batch x (by grind)
  empty x hx := h.empty x (by grind)
  curbPrio := h.curbPrio
  queuedPrio m x hx := h.queuedPrio m x (by grind)
  pendingPrio m x hx := by
    rw [Layout.give_owner] at hx
    split_ifs at hx with hxb
    · obtain rfl : n = m := by simpa using hx
      exact hxb ▸ hprio
    · exact h.pendingPrio m x hx
  pendingEmpty m x hx := by
    rw [Layout.give_owner] at hx
    split_ifs at hx with hxb
    · obtain rfl : n = m := by simpa using hx
      exact hxb ▸ hempty
    · exact h.pendingEmpty m x hx
  queuedBit m x hx := h.queuedBit m x (by grind)
  pendingBit m x hx := by
    rw [Layout.give_owner] at hx
    split_ifs at hx with hxb
    · obtain rfl : n = m := by simpa using hx
      exact hxb ▸ hbit
    · exact h.pendingBit m x hx

/-! ## The fields of a run queue -/

namespace Sched

@[simp, grind =] theorem setRq_rq (s : Sched) (n m : Prio) (rq : RunQueue) :
    (s.setRq n rq).rq m = if m = n then rq else s.rq m := Function.update_apply ..

@[simp] theorem setRq_state (s : Sched) (n : Prio) (rq : RunQueue) :
    (s.setRq n rq).state = s.state := rfl

@[simp] theorem setRq_prio (s : Sched) (n : Prio) (rq : RunQueue) :
    (s.setRq n rq).prio = s.prio := rfl

@[simp] theorem setRq_mw (s : Sched) (n : Prio) (rq : RunQueue) : (s.setRq n rq).mw = s.mw := rfl

end Sched

/-- **The pending slot and its priofinity** may be written while the slot is in hand. -/
theorem Inv.setRq (h : Inv s L) (hnone : ∀ x, L.owner x ≠ .pending n) (rq : RunQueue)
    (hfptr : rq.fptr = (s.rq n).fptr) (hbptr : rq.bptr = (s.rq n).bptr) :
    Inv (s.setRq n rq) L where
  null := h.null
  fresh := h.fresh
  dmem_pos := h.dmem_pos
  laundry := h.laundry
  free := h.free
  mem_free := h.mem_free
  queue m := by
    have hq := h.queue m
    rw [Sched.setRq_rq]
    split_ifs with hm
    · rw [hfptr, hbptr]
      exact hm ▸ hq
    · exact hq
  mem_queue := h.mem_queue
  pending m x hx := by grind [h.pending m x hx]
  head := h.head
  clean := h.clean
  window := h.window
  data := h.data
  workspace := h.workspace
  mem_curb := h.mem_curb
  mem_procs := h.mem_procs
  curb := h.curb
  batch := h.batch
  empty := h.empty
  curbPrio := h.curbPrio
  queuedPrio := h.queuedPrio
  pendingPrio m x hx := by
    have hm : m ≠ n := fun hm => hnone x (hm ▸ hx)
    rw [Sched.setRq_rq, if_neg hm]
    exact h.pendingPrio m x hx
  pendingEmpty m x hx := by
    have hm : m ≠ n := fun hm => hnone x (hm ▸ hx)
    rw [Sched.setRq_rq, if_neg hm]
    exact h.pendingEmpty m x hx
  queuedBit := h.queuedBit
  pendingBit := h.pendingBit

/-- **Setting the bit of a queue.** -/
theorem Inv.setBit (h : Inv s L) (n : Prio) :
    Inv { s with rqstate := update s.rqstate n true } L :=
  { h with
    queuedBit := fun m x hx => by
      have := h.queuedBit m x hx
      simp only [Function.update_apply]
      split_ifs <;> trivial
    pendingBit := fun m x hx hne => by
      have := h.pendingBit m x hx hne
      simp only [Function.update_apply]
      split_ifs <;> trivial }

/-- **Clearing the bit of a queue** that has nothing, neither queued nor pending. -/
theorem Inv.clearBit (h : Inv s L) (hq : (s.rq n).fptr = 0) (hp : (s.rq n).priofinity = 0) :
    Inv { s with rqstate := update s.rqstate n false } L :=
  { h with
    queuedBit := fun m x hx => by
      have hne : m ≠ n := by
        rintro rfl
        have hmem := (h.mem_queue m x).mpr hx
        rw [(h.queue m).null_iff.mp hq] at hmem
        exact absurd hmem (List.not_mem_nil)
      simpa [Function.update_apply, hne] using h.queuedBit m x hx
    pendingBit := fun m x hx hprocs => by
      have hne : m ≠ n := by
        rintro rfl
        exact hprocs ((h.pendingEmpty m x hx).mp hp)
      simpa [Function.update_apply, hne] using h.pendingBit m x hx hprocs }

/-! ## The free list -/

@[simp] theorem Sched.releaseCleanBatch_rq (s : Sched) (b : BatchPtr) :
    (s.releaseCleanBatch b).rq = s.rq := rfl

@[simp] theorem Sched.releaseCleanBatch_prio (s : Sched) (b : BatchPtr) :
    (s.releaseCleanBatch b).prio = s.prio := rfl

/-- **A batch in hand that is empty is released.** -/
theorem Inv.release (h : Inv s L) (hb : L.owner b = .held) (hempty : L.procs b = []) :
    Inv (s.releaseCleanBatch b) { L.give b .free with free := b :: L.free } where
  null := by grind [h.null]
  fresh x hx := by grind [h.fresh x hx]
  dmem_pos := h.dmem_pos
  laundry := h.laundry
  free := by
    have hmem : b ∉ L.free := fun hmem => by grind [h.mem_free b]
    have hne : L.owner b ≠ .unused := by simp [hb]
    refine h.free.push_front (h.ne_zero hne) (by simp [Sched.releaseCleanBatch]) ?_
    intro x hx
    have hxb : x ≠ b := fun hxb => hmem (hxb ▸ hx)
    simp [Sched.releaseCleanBatch, hxb]
  mem_free x := by grind [h.mem_free x]
  queue m := (h.queue m).congr fun x hx => by
    have hxb : x ≠ b := fun hxb => by grind [(h.mem_queue m x).mp hx]
    simp [Sched.releaseCleanBatch, hxb]
  mem_queue m x := by grind [h.mem_queue m x]
  pending m x hx := h.pending m x (by grind)
  head := h.head
  clean x hx hq := h.clean x (by grind) (by grind)
  window m x hx := h.window m x (by grind)
  data m w hw hd := by grind [h.data m w hw hd, Sched.releaseCleanBatch]
  workspace := h.workspace
  mem_curb := h.mem_curb
  mem_procs := h.mem_procs
  curb := h.curb
  batch x hx := h.batch x (by grind)
  empty x hx := by
    have := h.empty x
    grind
  curbPrio := h.curbPrio
  queuedPrio m x hx := h.queuedPrio m x (by grind)
  pendingPrio m x hx := h.pendingPrio m x (by grind)
  pendingEmpty m x hx := h.pendingEmpty m x (by grind)
  queuedBit m x hx := h.queuedBit m x (by grind)
  pendingBit m x hx := h.pendingBit m x (by grind)

/-- The next batch of the allocator, initialised. -/
def Sched.freshBatch (s : Sched) : Sched :=
  { s with
    dmem := s.dmem + 1
    batch := update s.batch s.dmem .init
    next := update s.next s.dmem 0
    state := update s.state s.dmem .clean }

/-- **A batch fresh from the allocator is in hand.** -/
theorem Inv.freshBatch (h : Inv s L) : Inv s.freshBatch (L.give s.dmem .held) where
  null := by grind [h.null, h.dmem_pos]
  fresh x hx := by
    have hle : s.dmem + 1 ≤ x := hx
    have hne : x ≠ s.dmem := (Nat.lt_of_succ_le hle).ne'
    simpa [hne] using h.fresh x (Nat.le_of_succ_le hle)
  dmem_pos := Nat.succ_pos _
  laundry := h.laundry
  free := h.free.congr fun x hx => by
    have hne : x ≠ s.dmem := fun hne => by grind [(h.mem_free x).mp hx, h.fresh s.dmem le_rfl]
    simp [Sched.freshBatch, hne]
  mem_free x := by grind [h.mem_free x, h.fresh s.dmem le_rfl]
  queue m := (h.queue m).congr fun x hx => by
    have hne : x ≠ s.dmem := fun hne => by grind [(h.mem_queue m x).mp hx, h.fresh s.dmem le_rfl]
    simp [Sched.freshBatch, hne]
  mem_queue m x := by grind [h.mem_queue m x, h.fresh s.dmem le_rfl]
  pending m x hx := h.pending m x (by grind)
  head := h.head
  clean x hx hq := by
    by_cases hne : x = s.dmem
    · simp [Sched.freshBatch, hne]
    · simpa [Sched.freshBatch, hne] using h.clean x (by grind) (by grind)
  window m x hx := by
    have hne : x ≠ s.dmem := by grind
    simpa [Sched.freshBatch, hne] using h.window m x (by grind)
  data m w hw hd := by
    obtain ⟨hq, hstate⟩ := h.data m w hw hd
    have hne : (s.mw m).data w ≠ s.dmem := fun hne => by grind [h.fresh s.dmem le_rfl]
    constructor
    · simpa [Sched.freshBatch, hne] using hq
    · simpa [Sched.freshBatch, hne] using hstate
  workspace := h.workspace
  mem_curb := h.mem_curb
  mem_procs := h.mem_procs
  curb := h.curb
  batch x hx := by
    by_cases hne : x = s.dmem
    · subst hne
      rw [Layout.give_procs, h.empty _ (.inl (h.fresh _ le_rfl))]
      simpa [Sched.freshBatch] using Batch.Holds.init s.link
    · simpa [Sched.freshBatch, hne] using h.batch x (by grind)
  empty x hx := by
    have := h.empty x
    grind
  curbPrio := h.curbPrio
  queuedPrio m x hx := h.queuedPrio m x (by grind)
  pendingPrio m x hx := h.pendingPrio m x (by grind)
  pendingEmpty m x hx := h.pendingEmpty m x (by grind)
  queuedBit m x hx := h.queuedBit m x (by grind)
  pendingBit m x hx := h.pendingBit m x (by grind)

/-- **The first batch of the free list is taken in hand.** -/
theorem Inv.takeFree (h : Inv s L) (hfree : s.free ≠ 0) :
    L.owner s.free = .free ∧
      Inv { s with free := s.next s.free } { L.give s.free .held with free := L.free.tail } := by
  obtain ⟨m, hm, hlink⟩ := h.free.exists_cons hfree
  have hnodup := h.free.nodup
  rw [hm, List.nodup_cons] at hnodup
  have howner : L.owner s.free = .free := (h.mem_free _).mp (by simp [hm])
  refine ⟨howner, ?_⟩
  exact {
    null := by grind [h.null]
    fresh := fun x hx => by grind [h.fresh x hx]
    dmem_pos := h.dmem_pos
    laundry := h.laundry
    free := by
      rw [hm]
      exact hlink
    mem_free := fun x => by
      have := h.mem_free x
      grind
    queue := h.queue
    mem_queue := fun m x => by grind [h.mem_queue m x]
    pending := fun m x hx => h.pending m x (by grind)
    head := h.head
    clean := fun x hx hq => h.clean x (by grind) (by grind)
    window := fun m x hx => h.window m x (by grind)
    data := fun m w hw hd => by grind [h.data m w hw hd]
    workspace := h.workspace
    mem_curb := h.mem_curb
    mem_procs := h.mem_procs
    curb := h.curb
    batch := fun x hx => h.batch x (by grind)
    empty := fun x hx => by
      have := h.empty x
      grind
    curbPrio := h.curbPrio
    queuedPrio := fun m x hx => h.queuedPrio m x (by grind)
    pendingPrio := fun m x hx => h.pendingPrio m x (by grind)
    pendingEmpty := fun m x hx => h.pendingEmpty m x (by grind)
    queuedBit := fun m x hx => h.queuedBit m x (by grind)
    pendingBit := fun m x hx => h.pendingBit m x (by grind) }

/-- What taking batches from the allocator or the free list leaves alone. -/
structure SameSched (s s' : Sched) : Prop where
  id : s'.id = s.id
  dispatches : s'.dispatches = s.dispatches
  priofinity : s'.priofinity = s.priofinity
  rqstate : s'.rqstate = s.rqstate
  curb : s'.curb = s.curb
  rq : s'.rq = s.rq
  mwstate : s'.mwstate = s.mwstate
  mw : s'.mw = s.mw
  link : s'.link = s.link
  prio : s'.prio = s.prio

theorem SameSched.refl (s : Sched) : SameSched s s :=
  ⟨rfl, rfl, rfl, rfl, rfl, rfl, rfl, rfl, rfl, rfl⟩

/-- One after the other. -/
theorem SameSched.trans {s₁ s₂ s₃ : Sched} (h : SameSched s₁ s₂) (h' : SameSched s₂ s₃) :
    SameSched s₁ s₃ :=
  ⟨h'.id.trans h.id, h'.dispatches.trans h.dispatches, h'.priofinity.trans h.priofinity,
    h'.rqstate.trans h.rqstate, h'.curb.trans h.curb, h'.rq.trans h.rq,
    h'.mwstate.trans h.mwstate, h'.mw.trans h.mw, h'.link.trans h.link, h'.prio.trans h.prio⟩

/-- A layout in which more batches may be free, and the batches of `P` are newly in hand. -/
structure Grown (L L' : Layout) (P : BatchPtr → Prop) : Prop where
  owner : ∀ x o, o ≠ .unused → o ≠ .free → (L'.owner x = o ↔ L.owner x = o ∨ P x ∧ o = .held)
  fresh : ∀ x, P x → L.owner x ≠ .held
  place : L'.place = L.place
  queue : L'.queue = L.queue
  procs : L'.procs = L.procs
  curb : L'.curb = L.curb

/-- **The allocator fills the free list.** -/
theorem Inv.allocateToFreeList : ∀ (count : ℕ) {s : Sched} {L : Layout}, Inv s L →
    ∃ L', Inv (s.allocateToFreeList count) L' ∧ Grown L L' (fun _ => False) ∧
      SameSched s (s.allocateToFreeList count)
  | 0, s, L, h => ⟨L, h, ⟨by simp, by simp, rfl, rfl, rfl, rfl⟩, .refl s⟩
  | count + 1, s, L, h => by
      have hunused := h.fresh s.dmem le_rfl
      have hfresh := h.freshBatch.release (b := s.dmem) (by simp)
        (by simpa using h.empty _ (.inl hunused))
      obtain ⟨L', h', hgrown, hsame⟩ := Inv.allocateToFreeList count hfresh
      refine ⟨L', h', ⟨fun x o ho₁ ho₂ => ?_, by simp, hgrown.place, hgrown.queue, hgrown.procs,
        hgrown.curb⟩, .trans ?_ hsame⟩
      · rw [hgrown.owner x o ho₁ ho₂]
        grind
      · exact ⟨rfl, rfl, rfl, rfl, rfl, rfl, rfl, rfl, rfl, rfl⟩

/-- There is no laundry to be done. -/
theorem Inv.doLaundry (h : Inv s L) : s.doLaundry = s := by
  have hs : ({ s with laundry := [] } : Sched) = s := by rw [← h.laundry]
  rw [Sched.doLaundry, hs, h.laundry]
  rfl

/-- Allocation leaves something on the free list. -/
theorem Inv.free_ne_zero_of_allocate (h : Inv s L) (count : ℕ) :
    (s.allocateToFreeList (count + 1)).free ≠ 0 := by
  induction count generalizing s L with
  | zero =>
    have hpos := h.dmem_pos
    exact hpos.ne'
  | succ count ih =>
    have hunused := h.fresh s.dmem le_rfl
    exact ih (h.freshBatch.release (b := s.dmem) (by simp)
      (by simpa using h.empty _ (.inl hunused)))

/-- **`allocate_batch` hands out an empty batch** that nobody had. -/
theorem Inv.allocateBatch (h : Inv s L) :
    ∃ L', Inv s.allocateBatch.2 L' ∧ L'.owner s.allocateBatch.1 = .held ∧
      L'.procs s.allocateBatch.1 = [] ∧ Grown L L' (· = s.allocateBatch.1) ∧
      SameSched s s.allocateBatch.2 := by
  obtain ⟨s', L', hs', h', hgrown, hsame, hne⟩ : ∃ s' L',
      (if s.free = 0 then (s.allocateToFreeList 16).doLaundry else s) = s' ∧ Inv s' L' ∧
        Grown L L' (fun _ => False) ∧ SameSched s s' ∧ s'.free ≠ 0 := by
    split_ifs with hfree
    · obtain ⟨L', h', hgrown, hsame⟩ := h.allocateToFreeList 16
      rw [h'.doLaundry]
      exact ⟨_, L', rfl, h', hgrown, hsame, h.free_ne_zero_of_allocate 15⟩
    · exact ⟨s, L, rfl, h, ⟨by simp, by simp, rfl, rfl, rfl, rfl⟩, .refl s, hfree⟩
  obtain ⟨howner, htake⟩ := h'.takeFree hne
  unfold Sched.allocateBatch
  rw [hs']
  refine ⟨_, htake, by simp, h'.empty _ (.inr howner), ⟨fun x o ho₁ ho₂ => ?_, ?_, hgrown.place,
    hgrown.queue, hgrown.procs, hgrown.curb⟩, hsame.trans ⟨rfl, rfl, rfl, rfl, rfl, rfl, rfl, rfl,
    rfl, rfl⟩⟩
  · have := hgrown.owner x o ho₁ ho₂
    grind
  · rintro x rfl hheld
    have := hgrown.owner s'.free .held (by simp) (by simp)
    grind

end Ccsp

end Kroc
