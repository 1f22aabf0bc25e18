import Kroc.Ccsp.Moves

/-!
# Ccsp/QueueMoves — processes on chains, batches on run queues

The moves that read or write a chain: a process is appended to a batch or to the current batch, the
current batch is filled from a batch or emptied into one, a batch is appended to a run queue or
pulled from it.
-/

namespace Kroc

namespace Ccsp

open Function (update)

variable {s : Sched} {L : Layout} {b : BatchPtr} {n : Prio} {w : Wptr}

/-! ## Processes joining a chain -/

namespace Layout

/-- The process `w` joins the batch `b`. -/
def join (L : Layout) (b : BatchPtr) (w : Wptr) : Layout :=
  { L with place := update L.place w (.batch b), procs := update L.procs b (L.procs b ++ [w]) }

/-- The process `w` joins the current batch, whose chain was `l`. -/
def joinCurb (L : Layout) (l : List Wptr) (w : Wptr) : Layout :=
  { L with place := update L.place w .curb, curb := some (l ++ [w]) }

@[simp, grind =] theorem join_owner (L : Layout) (b : BatchPtr) (w : Wptr) :
    (L.join b w).owner = L.owner := rfl

@[simp, grind =] theorem join_place (L : Layout) (b : BatchPtr) (w x : Wptr) :
    (L.join b w).place x = if x = w then .batch b else L.place x := Function.update_apply ..

@[simp, grind =] theorem join_procs (L : Layout) (b x : BatchPtr) (w : Wptr) :
    (L.join b w).procs x = if x = b then L.procs b ++ [w] else L.procs x :=
  Function.update_apply ..

@[simp, grind =] theorem joinCurb_place (L : Layout) (l : List Wptr) (w x : Wptr) :
    (L.joinCurb l w).place x = if x = w then .curb else L.place x := Function.update_apply ..

end Layout

theorem Inv.nodup_procs (h : Inv s L) (hb : L.owner b ≠ .unused) : (L.procs b).Nodup :=
  (h.batch b hb).1.1.nodup

theorem Inv.nodup_curb (h : Inv s L) {l : List Wptr} (hl : L.curb = some l) : l.Nodup :=
  (h.curb l hl).1.1.nodup

/-- A process that is away extends a chain of processes by one, below `BATCH_EMPTIED`. -/
theorem Inv.length_succ_lt (h : Inv s L) {l : List Wptr} (hnodup : l.Nodup)
    (hl : ∀ x ∈ l, L.place x ≠ .away) (hw : IsWorkspace w) (haway : L.place w = .away) :
    w ∉ l ∧ l.length + 1 < 2 ^ 30 := by
  have hmem : w ∉ l := fun hmem => hl w hmem haway
  refine ⟨hmem, ?_⟩
  have hlen := length_lt_of_isWorkspace (l := w :: l) (List.nodup_cons.mpr ⟨hmem, hnodup⟩) (by
    intro x hx
    rcases List.mem_cons.mp hx with rfl | hx
    · exact hw
    · exact h.workspace x (hl x hx))
  simpa using hlen

/-- **A process joins a batch in hand.** -/
theorem Inv.join (h : Inv s L) (hb : L.owner b = .held) (hw : IsWorkspace w)
    (haway : L.place w = .away) {link : Wptr → Wptr} {batch : Batch}
    (hholds : batch.Holds link (L.procs b ++ [w]))
    (hframe : ∀ x, x ≠ w → x ∉ L.procs b → link x = s.link x) :
    Inv { s with link := link, batch := update s.batch b batch } (L.join b w) where
  null := h.null
  fresh := h.fresh
  dmem_pos := h.dmem_pos
  laundry := h.laundry
  free := h.free
  mem_free := h.mem_free
  queue := h.queue
  mem_queue := h.mem_queue
  pending := h.pending
  head := h.head
  clean := h.clean
  window := h.window
  data := h.data
  workspace x hx := by
    by_cases hxw : x = w
    · exact hxw ▸ hw
    · exact h.workspace x (by simpa [hxw] using hx)
  mem_curb x := by
    have := h.mem_curb x
    rw [Layout.join_place]
    split_ifs with hxw
    · exact iff_of_false (fun hx => by grind [this.mp hx]) (by simp)
    · exact this
  mem_procs x v := by grind [h.mem_procs x v]
  curb l hl := (h.curb l hl).congr fun x hx => by
    have hplace := (h.mem_curb x).mp (by rw [show L.curb = some l from hl]; exact hx)
    exact hframe x (by grind) (by grind [h.mem_procs b x])
  batch x hx := by
    by_cases hxb : x = b
    · subst hxb
      simpa using hholds
    · simp only [Layout.join_procs, hxb, if_false, Function.update_of_ne hxb]
      refine (h.batch x hx).congr fun v hv => ?_
      have hplace := (h.mem_procs x v).mp hv
      exact hframe v (by grind) (by grind [h.mem_procs b v])
  empty x hx := by
    have := h.empty x hx
    have hxb : x ≠ b := by grind
    simpa [hxb] using this
  curbPrio := h.curbPrio
  queuedPrio m x hx := by
    have hxb : x ≠ b := by grind
    simpa [hxb] using h.queuedPrio m x hx
  pendingPrio m x hx := by
    have hxb : x ≠ b := by grind
    simpa [hxb] using h.pendingPrio m x hx
  pendingEmpty m x hx := by
    have hxb : x ≠ b := by grind
    simpa [hxb] using h.pendingEmpty m x hx
  queuedBit := h.queuedBit
  pendingBit m x hx := by
    have hxb : x ≠ b := by grind
    simpa [hxb] using h.pendingBit m x hx

/-- **`enqueue_to_batch` on a batch in hand.** -/
theorem Inv.enqueueToBatch (h : Inv s L) (hb : L.owner b = .held) (hw : IsWorkspace w)
    (haway : L.place w = .away) :
    Inv { s with
      link := (enqueueToBatch s.link (s.batch b) w).1
      batch := update s.batch b (enqueueToBatch s.link (s.batch b) w).2 } (L.join b w) := by
  have howned : L.owner b ≠ .unused := by simp [hb]
  have hholds := h.batch b howned
  obtain ⟨hmem, hlen⟩ := h.length_succ_lt (h.nodup_procs howned)
    (fun x hx => by simp [(h.mem_procs b x).mp hx]) hw haway
  exact h.join hb hw haway (hholds.enqueue hlen hw.1 hmem) fun x hxw hx =>
    hholds.enqueue_frame hxw hx

/-- **`enqueue_to_batch_with_hint` on an empty batch in hand.** -/
theorem Inv.enqueueSingle (h : Inv s L) (hb : L.owner b = .held) (hempty : L.procs b = [])
    (hw : IsWorkspace w) (haway : L.place w = .away) :
    Inv { s with
      link := (enqueueToBatchWithHint s.link (s.batch b) w true).1
      batch := update s.batch b (enqueueToBatchWithHint s.link (s.batch b) w true).2 }
      (L.join b w) := by
  refine h.join hb hw haway ?_ fun x hxw _ => by simp [enqueueToBatchWithHint, hxw]
  rw [hempty]
  exact .single s.link (s.batch b) hw.1

/-- **`enqueue_to_batch` on the current batch.** -/
theorem Inv.enqueueCurb (h : Inv s L) {l : List Wptr} (hl : L.curb = some l) (hw : IsWorkspace w)
    (haway : L.place w = .away) (hprio : s.prio w = s.priofinity) :
    Inv (s.enqueueProcessNopri w) (L.joinCurb l w) where
  null := h.null
  fresh := h.fresh
  dmem_pos := h.dmem_pos
  laundry := h.laundry
  free := h.free
  mem_free := h.mem_free
  queue := h.queue
  mem_queue := h.mem_queue
  pending := h.pending
  head := h.head
  clean := h.clean
  window := h.window
  data := h.data
  workspace x hx := by
    by_cases hxw : x = w
    · exact hxw ▸ hw
    · exact h.workspace x (by simpa [hxw] using hx)
  mem_curb x := by
    have := h.mem_curb x
    rw [hl] at this
    grind [Layout.joinCurb]
  mem_procs x v := by
    have := h.mem_procs x v
    grind [Layout.joinCurb]
  curb m hm := by
    obtain rfl : l ++ [w] = m := Option.some.inj hm
    have hin : ∀ x ∈ l, L.place x = .curb := fun x hx => (h.mem_curb x).mp (by rw [hl]; exact hx)
    obtain ⟨hmem, hlen⟩ := h.length_succ_lt (h.nodup_curb hl) (fun x hx => by simp [hin x hx])
      hw haway
    exact (h.curb l hl).enqueue hlen hw.1 hmem
  batch x hx := (h.batch x hx).congr fun v hv => by
    have hplace := (h.mem_procs x v).mp hv
    refine (h.curb l hl).enqueue_frame (by grind) fun hmem => ?_
    have := (h.mem_curb v).mp (by rw [hl]; exact hmem)
    grind
  empty := h.empty
  curbPrio m hm x hx := by
    obtain rfl : l ++ [w] = m := Option.some.inj hm
    rcases List.mem_append.mp hx with hx | hx
    · exact h.curbPrio l hl x hx
    · obtain rfl := List.mem_singleton.mp hx
      exact hprio
  queuedPrio := h.queuedPrio
  pendingPrio := h.pendingPrio
  pendingEmpty := h.pendingEmpty
  queuedBit := h.queuedBit
  pendingBit := h.pendingBit

/-! ## The current batch -/

namespace Layout

/-- The front `w` of the current batch leaves it; `l` is left. -/
def leaveCurb (L : Layout) (w : Wptr) (l : List Wptr) : Layout :=
  { L with place := update L.place w .away, curb := some l }

/-- The processes of the current batch, `l`, move to the batch `b`. -/
def pourOut (L : Layout) (b : BatchPtr) (l : List Wptr) : Layout :=
  { L with
    place := fun w => if L.place w = .curb then .batch b else L.place w
    procs := update L.procs b l
    curb := none }

/-- The processes of the batch `b` move to the current batch. -/
def pourIn (L : Layout) (b : BatchPtr) : Layout :=
  { L with
    place := fun w => if L.place w = .batch b then .curb else L.place w
    procs := update L.procs b []
    curb := some (L.procs b) }

@[simp, grind =] theorem leaveCurb_place (L : Layout) (l : List Wptr) (w x : Wptr) :
    (L.leaveCurb w l).place x = if x = w then .away else L.place x := Function.update_apply ..

@[simp, grind =] theorem pourOut_procs (L : Layout) (b x : BatchPtr) (l : List Wptr) :
    (L.pourOut b l).procs x = if x = b then l else L.procs x := Function.update_apply ..

@[simp, grind =] theorem pourOut_owner (L : Layout) (b : BatchPtr) (l : List Wptr) :
    (L.pourOut b l).owner = L.owner := rfl

@[simp, grind =] theorem pourIn_procs (L : Layout) (b x : BatchPtr) :
    (L.pourIn b).procs x = if x = b then [] else L.procs x := Function.update_apply ..

@[simp, grind =] theorem pourIn_owner (L : Layout) (b : BatchPtr) :
    (L.pourIn b).owner = L.owner := rfl

end Layout

/-- **`dequeue_from_curb` takes the front of the current batch away.** -/
theorem Inv.dequeueFromCurb (h : Inv s L) {l : List Wptr} (hl : L.curb = some l)
    (hf : s.curb.fptr ≠ 0) :
    ∃ m, l = s.curb.fptr :: m ∧ s.dequeueFromCurb.1 = s.curb.fptr ∧
      Inv s.dequeueFromCurb.2 (L.leaveCurb s.curb.fptr m) := by
  have hplaced : ∀ w, w ∈ l ↔ L.place w = .curb := fun w => by
    have := h.mem_curb w
    rwa [hl] at this
  have hlen : l.length < 2 ^ 30 := length_lt_of_isWorkspace (h.nodup_curb hl)
    fun w hw => h.workspace w (by simp [(hplaced w).mp hw])
  obtain ⟨m, hm, hholds⟩ := (h.curb l hl).dequeue hlen hf
  have hnodup := h.nodup_curb hl
  rw [hm, List.nodup_cons] at hnodup
  refine ⟨m, hm, rfl, ?_⟩
  exact {
    null := h.null
    fresh := h.fresh
    dmem_pos := h.dmem_pos
    laundry := h.laundry
    free := h.free
    mem_free := h.mem_free
    queue := h.queue
    mem_queue := h.mem_queue
    pending := h.pending
    head := h.head
    clean := h.clean
    window := h.window
    data := h.data
    workspace := fun x hx => h.workspace x (by grind)
    mem_curb := fun x => by
      have := hplaced x
      grind [Layout.leaveCurb]
    mem_procs := fun x v => by
      have := h.mem_procs x v
      have := hplaced s.curb.fptr
      grind [Layout.leaveCurb]
    curb := fun k hk => by
      obtain rfl : m = k := Option.some.inj hk
      exact hholds
    batch := h.batch
    empty := h.empty
    curbPrio := fun k hk x hx => by
      obtain rfl : m = k := Option.some.inj hk
      exact h.curbPrio l hl x (by simp [hm, hx])
    queuedPrio := h.queuedPrio
    pendingPrio := h.pendingPrio
    pendingEmpty := h.pendingEmpty
    queuedBit := h.queuedBit
    pendingBit := h.pendingBit }

/-- **The current batch is copied to an empty batch in hand**; its own fields are stale then. -/
theorem Inv.pourOut (h : Inv s L) {l : List Wptr} (hl : L.curb = some l)
    (hb : L.owner b = .held) (hempty : L.procs b = []) :
    Inv { s with
      batch := update s.batch b { s.curb with size := s.curb.size &&& ~~~batchEmptied } }
      (L.pourOut b l) where
  null := h.null
  fresh := h.fresh
  dmem_pos := h.dmem_pos
  laundry := h.laundry
  free := h.free
  mem_free := h.mem_free
  queue := h.queue
  mem_queue := h.mem_queue
  pending := h.pending
  head := h.head
  clean := h.clean
  window := h.window
  data := h.data
  workspace x hx := h.workspace x (by grind [Layout.pourOut])
  mem_curb x := by grind [Layout.pourOut]
  mem_procs x v := by
    have := h.mem_procs x v
    have hcurb := h.mem_curb v
    rw [hl] at hcurb
    grind [Layout.pourOut]
  curb m hm := by simp [Layout.pourOut] at hm
  batch x hx := by
    by_cases hxb : x = b
    · subst hxb
      simpa using (h.curb l hl).masked
    · simpa [hxb] using h.batch x hx
  empty x hx := by
    have := h.empty x hx
    have hxb : x ≠ b := by grind
    simpa [hxb] using this
  curbPrio m hm := by simp [Layout.pourOut] at hm
  queuedPrio m x hx := by
    have hxb : x ≠ b := by grind
    simpa [hxb] using h.queuedPrio m x hx
  pendingPrio m x hx := by
    have hxb : x ≠ b := by grind
    simpa [hxb] using h.pendingPrio m x hx
  pendingEmpty m x hx := by
    have hxb : x ≠ b := by grind
    simpa [hxb] using h.pendingEmpty m x hx
  queuedBit := h.queuedBit
  pendingBit m x hx := by
    have hxb : x ≠ b := by grind
    simpa [hxb] using h.pendingBit m x hx

/-- **A batch in hand becomes the current batch**, if that has no process of its own. -/
theorem Inv.pourIn (h : Inv s L) (hnone : L.curb.getD [] = []) (hb : L.owner b = .held)
    {priofinity : Word} (hprio : ∀ w ∈ L.procs b, s.prio w = priofinity) (dispatches : ℤ) :
    Inv { s with
      curb := { s.batch b with size := (s.batch b).size &&& ~~~batchEmptied }
      dispatches := dispatches
      priofinity := priofinity
      batch := update s.batch b (s.batch b).reinit } (L.pourIn b) where
  null := h.null
  fresh := h.fresh
  dmem_pos := h.dmem_pos
  laundry := h.laundry
  free := h.free
  mem_free := h.mem_free
  queue := h.queue
  mem_queue := h.mem_queue
  pending := h.pending
  head := h.head
  clean := h.clean
  window := h.window
  data := h.data
  workspace x hx := h.workspace x (by grind [Layout.pourIn])
  mem_curb x := by
    have hprocs := h.mem_procs b x
    have hcurb := h.mem_curb x
    rw [hnone] at hcurb
    grind [Layout.pourIn]
  mem_procs x v := by
    have := h.mem_procs x v
    have hprocs := h.mem_procs b v
    grind [Layout.pourIn]
  curb m hm := by
    obtain rfl : L.procs b = m := Option.some.inj hm
    exact (h.batch b (by simp [hb])).masked
  batch x hx := by
    by_cases hxb : x = b
    · subst hxb
      simpa using Batch.Holds.reinit s.link (s.batch x)
    · simpa [hxb] using h.batch x hx
  empty x hx := by
    have := h.empty x hx
    have hxb : x ≠ b := by grind
    simpa [hxb] using this
  curbPrio m hm := by
    obtain rfl : L.procs b = m := Option.some.inj hm
    exact hprio
  queuedPrio m x hx := by
    have hxb : x ≠ b := by grind
    simpa [hxb] using h.queuedPrio m x hx
  pendingPrio m x hx := by
    have hxb : x ≠ b := by grind
    simpa [hxb] using h.pendingPrio m x hx
  pendingEmpty m x hx := by
    have hxb : x ≠ b := by grind
    simpa [hxb] using h.pendingEmpty m x hx
  queuedBit := h.queuedBit
  pendingBit m x hx := by
    have hxb : x ≠ b := by grind
    simpa [hxb] using h.pendingBit m x hx

/-- **A new current batch**, once the old one has no process. -/
theorem Inv.newCurb (h : Inv s L) (hnone : L.curb.getD [] = []) (priofinity : Word) :
    Inv { s.newCurb with priofinity := priofinity } { L with curb := some [] } :=
  { h with
    mem_curb := fun x => by
      have := h.mem_curb x
      rw [hnone] at this
      exact this
    curb := fun m hm => by
      obtain rfl : [] = m := Option.some.inj hm
      exact ⟨Fifo.nil rfl, by simp only [Sched.newCurb]; decide⟩
    curbPrio := fun m hm x hx => by
      obtain rfl : [] = m := Option.some.inj hm
      exact absurd hx (List.not_mem_nil) }

/-! ## Batches on run queues -/

namespace Layout

/-- The batch `b` joins the run queue `n`. -/
def append (L : Layout) (n : Prio) (b : BatchPtr) : Layout :=
  { L.give b (.queued n) with queue := update L.queue n (L.queue n ++ [b]) }

@[simp, grind =] theorem append_owner (L : Layout) (n : Prio) (b x : BatchPtr) :
    (L.append n b).owner x = if x = b then .queued n else L.owner x := L.give_owner b x _

@[simp, grind =] theorem append_queue (L : Layout) (n m : Prio) (b : BatchPtr) :
    (L.append n b).queue m = if m = n then L.queue n ++ [b] else L.queue m :=
  Function.update_apply ..

end Layout

namespace Sched

/-- What `add_to_local_runqueue` leaves alone. -/
theorem addToLocalRunqueue_same (s : Sched) (n : Prio) (b : BatchPtr) :
    s.addToLocalRunqueue n b = { s with
      next := (s.addToLocalRunqueue n b).next
      rq := (s.addToLocalRunqueue n b).rq } := by
  unfold addToLocalRunqueue
  dsimp only
  split_ifs <;> rfl

theorem addToLocalRunqueue_slot (s : Sched) (n m : Prio) (b : BatchPtr) :
    ((s.addToLocalRunqueue n b).rq m).priofinity = (s.rq m).priofinity ∧
      ((s.addToLocalRunqueue n b).rq m).pending = (s.rq m).pending := by
  unfold addToLocalRunqueue
  dsimp only
  split_ifs <;> simp only [setRq_rq] <;> split_ifs with hm <;> simp [hm]

end Sched

/-- **`add_to_local_runqueue` appends to the queue.** -/
theorem Batches.addToLocalRunqueue (h : Batches s L) (hb : L.owner b = .held) :
    Batches (s.addToLocalRunqueue n b) (L.append n b) := by
  have hb₀ : b ≠ 0 := by
    rintro rfl
    simp [h.null] at hb
  have hqueued : ∀ m x, x ∈ L.queue m → x ≠ b := fun m x hx hxb => by
    grind [(h.mem_queue m x).mp hx]
  have hfree : ∀ x ∈ L.free, x ≠ b := fun x hx hxb => by grind [(h.mem_free x).mp hx]
  have hback : (s.rq n).fptr ≠ 0 → (s.rq n).bptr ∈ L.queue n := fun hf =>
    (h.queue n).back_mem fun hl => hf ((h.queue n).null_iff.mpr hl)
  have hnext : ∀ x, x ≠ b → (x ∉ L.queue n) → (s.addToLocalRunqueue n b).next x = s.next x := by
    intro x hxb hx
    unfold Sched.addToLocalRunqueue
    dsimp only
    split_ifs with hf
    · simp [Sched.setRq, hxb]
    · have hne : x ≠ (s.rq n).bptr := fun hne => hx (hne ▸ hback hf)
      simp [Sched.setRq, hxb, hne]
  refine {
    null := by grind [h.null]
    fresh := fun x hx => by
      rw [Sched.addToLocalRunqueue_same] at hx
      grind [h.fresh x hx]
    dmem_pos := by
      rw [Sched.addToLocalRunqueue_same]
      exact h.dmem_pos
    laundry := by
      rw [Sched.addToLocalRunqueue_same]
      exact h.laundry
    free := by
      have hsame : (s.addToLocalRunqueue n b).free = s.free := by
        rw [Sched.addToLocalRunqueue_same]
      rw [hsame]
      refine h.free.congr fun x hx => hnext x (hfree x hx) fun hq => ?_
      grind [(h.mem_free x).mp hx, (h.mem_queue n x).mp hq]
    mem_free := fun x => by
      have := h.mem_free x
      grind [Layout.append]
    queue := fun m => ?_
    mem_queue := fun m x => by
      have := h.mem_queue m x
      grind
    pending := fun m x hx => by
      rw [(s.addToLocalRunqueue_slot n m b).2]
      exact h.pending m x (by grind) }
  by_cases hm : m = n
  · subst hm
    rw [Layout.append_queue, if_pos rfl]
    unfold Sched.addToLocalRunqueue
    dsimp only
    split_ifs with hf
    · have hl := (h.queue m).null_iff.mp hf
      simp only [Sched.setRq_rq, if_true, hl, List.nil_append]
      exact Fifo.singleton hb₀ (by simp [Sched.setRq])
    · have hbb : (s.rq m).bptr ≠ b := hqueued m _ (hback hf)
      simp only [Sched.setRq_rq, if_true]
      refine (h.queue m).push hb₀ ?_ (fun _ => ?_) (fun x hx hxb => ?_) (fun hz => absurd hz hf)
        fun _ => rfl
      · simp [Sched.setRq, hbb.symm]
      · simp [Sched.setRq]
      · simp [Sched.setRq, hxb, hqueued m x hx]
  · have hrq : (s.addToLocalRunqueue n b).rq m = s.rq m := by
      unfold Sched.addToLocalRunqueue
      dsimp only
      split_ifs <;> simp [hm]
    rw [Layout.append_queue, if_neg hm, hrq]
    refine (h.queue m).congr fun x hx => hnext x (hqueued m x hx) fun hq => ?_
    grind [(h.mem_queue m x).mp hx, (h.mem_queue n x).mp hq]

/-- **A batch in hand joins a run queue**, with whatever window it was given. -/
theorem Inv.append (h : Inv s L) (hb : L.owner b = .held) (hne : L.procs b ≠ [])
    (huniform : Uniform s.prio n (L.procs b)) (hbit : s.rqstate n = true)
    {state : BatchPtr → BatchState} {mw : Prio → MWindow}
    (hwin : Windows { s with state := state, mw := mw } (L.append n b)) :
    Inv (Sched.addToLocalRunqueue { s with state := state, mw := mw } n b) (L.append n b) := by
  have hbatches : Batches { s with state := state, mw := mw } L := { h.toBatches with }
  have happend := hbatches.addToLocalRunqueue (n := n) hb
  have hslot := fun m =>
    Sched.addToLocalRunqueue_slot { s with state := state, mw := mw } n m b
  rw [Sched.addToLocalRunqueue_same] at happend ⊢
  exact {
    happend, hwin with
    workspace := h.workspace
    mem_curb := h.mem_curb
    mem_procs := h.mem_procs
    curb := h.curb
    batch := fun x hx => h.batch x (by grind)
    empty := fun x hx => h.empty x (by grind)
    curbPrio := h.curbPrio
    queuedPrio := fun m x hx => by
      rw [Layout.append_owner] at hx
      split_ifs at hx with hxb
      · obtain rfl : n = m := by simpa using hx
        subst hxb
        exact ⟨hne, huniform⟩
      · exact h.queuedPrio m x hx
    pendingPrio := fun m x hx => by
      rw [(hslot m).1]
      exact h.pendingPrio m x (by grind)
    pendingEmpty := fun m x hx => by
      rw [(hslot m).1]
      exact h.pendingEmpty m x (by grind)
    queuedBit := fun m x hx => by
      rw [Layout.append_owner] at hx
      split_ifs at hx with hxb
      · obtain rfl : n = m := by simpa using hx
        exact hbit
      · exact h.queuedBit m x hx
    pendingBit := fun m x hx => h.pendingBit m x (by grind) }

/-- **`add_affine_batch_to_runqueue`**: the batch gets no window. -/
theorem Inv.addAffineBatchToRunqueue (h : Inv s L) (hb : L.owner b = .held) (hne : L.procs b ≠ [])
    (huniform : Uniform s.prio n (L.procs b)) (hbit : s.rqstate n = true) :
    Inv (s.addAffineBatchToRunqueue n b) (L.append n b) :=
  h.append hb hne huniform hbit {
    head := h.head
    clean := fun x hx hq => by
      have hxb : x ≠ b := by grind
      simpa [hxb] using h.clean x (by grind) (by grind)
    window := fun m x hx => by
      by_cases hxb : x = b
      · exact .inl (by simp [hxb])
      · simpa [hxb] using h.window m x (by grind)
    data := fun m w hw hd => by
      obtain ⟨hq, hstate⟩ := h.data m w hw hd
      have hxb : (s.mw m).data w ≠ b := by grind
      simpa [hxb] using And.intro hq hstate }

theorem incrementMwindowHead_range {head : ℕ} (h : head ≤ 15) :
    Sched.incrementMwindowHead head ≠ 0 ∧ Sched.incrementMwindowHead head ≤ 15 := by
  have hall : ∀ k : Fin 16, Sched.incrementMwindowHead k ≠ 0 ∧
      Sched.incrementMwindowHead k ≤ 15 := by decide
  exact hall ⟨head, by omega⟩

/-- **`add_to_visible_runqueue`**: the batch takes the next window, and a batch that is still there
loses it. -/
theorem Inv.addToVisibleRunqueue (h : Inv s L) (hb : L.owner b = .held) (hne : L.procs b ≠ [])
    (huniform : Uniform s.prio n (L.procs b)) (hbit : s.rqstate n = true) :
    Inv (s.addToVisibleRunqueue n b) (L.append n b) := by
  obtain ⟨hw₀, hw₁⟩ := incrementMwindowHead_range (h.head n)
  generalize hw : Sched.incrementMwindowHead (s.mw n).head = w at hw₀ hw₁
  generalize hold : (s.mw n).data w = old
  have hqueued : ∀ m v, v ≠ 0 → (s.mw m).data v ≠ 0 → (s.mw m).data v ≠ b := fun m v hv hd hb' => by
    grind [h.data m v hv hd]
  have holdb : old ≠ 0 → old ≠ b := hold ▸ hqueued n w hw₀
  obtain ⟨state, hstate, heq⟩ : ∃ state : BatchPtr → BatchState,
      (∀ x, state x = if x = b then .inWindow w else if old ≠ 0 ∧ x = old then .clean
        else s.state x) ∧
      s.addToVisibleRunqueue n b = Sched.addToLocalRunqueue { s with
        state := state
        mw := update s.mw n { (s.mw n) with
          head := w
          bm := update (s.mw n).bm w true
          data := update (s.mw n).data w b } } n b := by
    unfold Sched.addToVisibleRunqueue
    simp only [hw, hold]
    by_cases hz : old ≠ 0
    · rw [if_pos hz]
      refine ⟨_, fun x => ?_, rfl⟩
      have := holdb hz
      grind [Function.update_apply]
    · rw [if_neg hz]
      refine ⟨_, fun x => ?_, rfl⟩
      grind [Function.update_apply]
  have hdata : ∀ m v, ((update s.mw n { (s.mw n) with
      head := w
      bm := update (s.mw n).bm w true
      data := update (s.mw n).data w b } : Prio → MWindow) m).data v =
        if m = n ∧ v = w then b else (s.mw m).data v := by
    intro m v
    by_cases hm : m = n
    · subst hm
      simp [Function.update_apply]
    · simp [hm]
  rw [heq]
  refine h.append hb hne huniform hbit {
    head := fun m => ?_
    clean := fun x hx hq => ?_
    window := fun m x hx => ?_
    data := fun m v hv hd => ?_ }
  · simp only [Function.update_apply]
    split_ifs
    · exact hw₁
    · exact h.head m
  · have hxb : x ≠ b := by grind
    have := h.clean x (by grind) (by grind)
    grind
  · by_cases hxb : x = b
    · obtain rfl : n = m := by grind
      exact .inr ⟨w, hw₀, by simp [hstate, hxb], by simp [hxb]⟩
    · have hwin := h.window m x (by grind)
      simp only [hdata, hstate, hxb, if_false]
      by_cases hxo : old ≠ 0 ∧ x = old
      · exact .inl (if_pos hxo)
      · rw [if_neg hxo]
        refine hwin.imp_right ?_
        rintro ⟨v, hv, hsx, hdx⟩
        refine ⟨v, hv, hsx, ?_⟩
        have hx₀ := h.ne_zero (b := x) (by grind)
        grind
  · simp only [hdata] at hd ⊢
    by_cases hmv : m = n ∧ v = w
    · obtain ⟨rfl, rfl⟩ := hmv
      simp [hstate]
    · rw [if_neg hmv] at hd ⊢
      have hne := hqueued m v hv hd
      obtain ⟨hq, hs⟩ := h.data m v hv hd
      refine ⟨by simpa [hne] using hq, ?_⟩
      rw [hstate, if_neg hne, if_neg]
      · exact hs
      -- the batch that loses window `w` is in no other window, its state names `w`
      · rintro ⟨ho, hvo⟩
        obtain ⟨hq', hs'⟩ := h.data n w hw₀ (by rw [hold]; exact ho)
        rw [hold, ← hvo] at hq' hs'
        have hmn : m = n := by grind
        have hvw : v = w := by
          rw [hs] at hs'
          simpa [BatchState.inWindow] using hs'
        exact hmv ⟨hmn, hvw⟩

/-- **`add_to_runqueue`.** -/
theorem Inv.addToRunqueue (h : Inv s L) (hb : L.owner b = .held) (hne : L.procs b ≠ [])
    (huniform : Uniform s.prio n (L.procs b)) (hbit : s.rqstate n = true) (priofinity : Word) :
    Inv (s.addToRunqueue priofinity n b) (L.append n b) := by
  unfold Sched.addToRunqueue
  split_ifs
  · exact h.addAffineBatchToRunqueue hb hne huniform hbit
  · exact { h.addToVisibleRunqueue hb hne huniform hbit with }

/-- The front `b` of the run queue `n` leaves it; `q` is left. -/
def Layout.pull (L : Layout) (n : Prio) (b : BatchPtr) (q : List BatchPtr) : Layout :=
  { L.give b .held with queue := update L.queue n q }

@[simp, grind =] theorem Layout.pull_owner (L : Layout) (n : Prio) (b x : BatchPtr)
    (q : List BatchPtr) : (L.pull n b q).owner x = if x = b then .held else L.owner x :=
  L.give_owner b x _

@[simp, grind =] theorem Layout.pull_queue (L : Layout) (n m : Prio) (b : BatchPtr)
    (q : List BatchPtr) : (L.pull n b q).queue m = if m = n then q else L.queue m :=
  Function.update_apply ..

@[simp] theorem Layout.pull_procs (L : Layout) (n : Prio) (b : BatchPtr) (q : List BatchPtr) :
    (L.pull n b q).procs = L.procs := rfl

/-- The state after the front batch was unlinked, whatever is done to the windows. -/
theorem Inv.unlink (h : Inv s L) {q : List BatchPtr} (hq : L.queue n = b :: q)
    (state : BatchPtr → BatchState) (mw : Prio → MWindow)
    (hwin : Windows { s with state := state, mw := mw } (L.pull n b q)) :
    Inv { s.setRq n { s.rq n with fptr := s.next b } with state := state, mw := mw }
      (L.pull n b q) := by
  have hfifo := h.queue n
  rw [hq] at hfifo
  obtain ⟨hf, hpop⟩ := hfifo.pop
  have hnodup := hfifo.1.nodup
  rw [List.nodup_cons] at hnodup
  have howner : L.owner b = .queued n := (h.mem_queue n b).mp (by simp [hq])
  exact {
    hwin with
    null := by grind [h.null]
    fresh := fun x hx => by grind [h.fresh x hx]
    dmem_pos := h.dmem_pos
    laundry := h.laundry
    free := h.free
    mem_free := fun x => by
      have := h.mem_free x
      grind [Layout.pull]
    queue := fun m => by
      by_cases hm : m = n
      · subst hm
        simpa [Sched.setRq, hf] using hpop
      · simpa [Sched.setRq, hm] using h.queue m
    mem_queue := fun m x => by
      have := h.mem_queue m x
      by_cases hm : m = n
      · subst hm
        grind
      · grind
    pending := fun m x hx => by
      have := h.pending m x (by grind)
      by_cases hm : m = n <;> simpa [Sched.setRq, hm] using this
    workspace := h.workspace
    mem_curb := h.mem_curb
    mem_procs := h.mem_procs
    curb := h.curb
    batch := fun x hx => h.batch x (by grind)
    empty := fun x hx => h.empty x (by grind)
    curbPrio := h.curbPrio
    queuedPrio := fun m x hx => h.queuedPrio m x (by grind)
    pendingPrio := fun m x hx => by
      have := h.pendingPrio m x (by grind)
      by_cases hm : m = n <;> simpa [Sched.setRq, hm] using this
    pendingEmpty := fun m x hx => by
      have := h.pendingEmpty m x (by grind)
      by_cases hm : m = n <;> simpa [Sched.setRq, hm] using this
    queuedBit := fun m x hx => h.queuedBit m x (by grind)
    pendingBit := fun m x hx => h.pendingBit m x (by grind) }

/-- **The front of a run queue is pulled into hand**: its window, if it has one, is its own, and the
compare-and-swap succeeds. -/
theorem Inv.tryPullQueued (h : Inv s L) (hf : (s.rq n).fptr ≠ 0) :
    ∃ q, L.queue n = (s.rq n).fptr :: q ∧
      (s.tryPullFromRunqueue n).1 = (s.rq n).fptr ∧
      Inv (s.tryPullFromRunqueue n).2 (L.pull n (s.rq n).fptr q) := by
  obtain ⟨q, hq, -⟩ := (h.queue n).exists_pop hf
  refine ⟨q, hq, ?_⟩
  generalize hb : (s.rq n).fptr = b at hf hq
  have howner : L.owner b = .queued n := (h.mem_queue n b).mp (by simp [hq])
  unfold Sched.tryPullFromRunqueue
  simp only [hb, if_pos hf]
  rcases h.window n b howner with hclean | ⟨w, hw, hstate, hdata⟩
  · simp only [Sched.setRq_state, hclean, BatchState.clean, ne_eq, not_true_eq_false, if_false]
    refine ⟨trivial, h.unlink hq s.state s.mw {
      head := h.head
      clean := fun x hx hnq => ?_
      window := fun m x hx => h.window m x (by grind)
      data := fun m v hv hd => ?_ }⟩
    · by_cases hxb : x = b
      · exact hxb ▸ hclean
      · exact h.clean x (by grind) (by grind)
    · obtain ⟨hqv, hsv⟩ := h.data m v hv hd
      have hne : (s.mw m).data v ≠ b := by
        intro heq
        rw [heq, hclean] at hsv
        simp [BatchState.clean, BatchState.inWindow] at hsv
      exact ⟨by simpa [hne] using hqv, hsv⟩
  · simp only [Sched.setRq_state, Sched.setRq_mw, hstate, BatchState.inWindow, if_pos hw,
      if_pos hdata]
    have hdata' : ∀ m v, ((update s.mw n { (s.mw n) with
        data := update (s.mw n).data w 0
        bm := update (s.mw n).bm w false } : Prio → MWindow) m).data v =
          if m = n ∧ v = w then 0 else (s.mw m).data v := by
      intro m v
      by_cases hm : m = n
      · subst hm
        simp [Function.update_apply]
      · simp [hm]
    refine ⟨trivial, h.unlink hq (update s.state b .clean) _ {
      head := fun m => ?_
      clean := fun x hx hnq => ?_
      window := fun m x hx => ?_
      data := fun m v hv hd => ?_ }⟩
    · simp only [Function.update_apply]
      split_ifs
      · exact h.head n
      · exact h.head m
    · by_cases hxb : x = b
      · simp [hxb]
      · simpa [hxb] using h.clean x (by grind) (by grind)
    · have hxb : x ≠ b := by grind
      have := h.window m x (by grind)
      simp only [Function.update_of_ne hxb, hdata']
      refine this.imp_right ?_
      rintro ⟨v, hv, hsx, hdx⟩
      refine ⟨v, hv, hsx, ?_⟩
      grind
    · simp only [hdata'] at hd ⊢
      split_ifs at hd ⊢ with hmv
      · exact absurd rfl hd
      · obtain ⟨hqv, hsv⟩ := h.data m v hv hd
        have hne : (s.mw m).data v ≠ b := by
          intro heq
          rw [heq] at hqv hsv
          have hmn : m = n := by grind
          have hvw : v = w := by
            rw [hstate] at hsv
            simpa [BatchState.inWindow] using hsv.symm
          exact hmv ⟨hmn, hvw⟩
        exact ⟨by simpa [hne] using hqv, by simpa [hne] using hsv⟩

end Ccsp

end Kroc
