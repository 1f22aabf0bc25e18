import Kroc.Lib.Returns
import Kroc.Ccsp.BarrierCalls

/-!
# Ccsp/BarrierRun — a full barrier over whole runs

The scheduler runs and the processes call the barrier, in any order.  A run records who is enqueued,
how many are enrolled and who waits; the waiting processes leave it exactly when nobody else is to
arrive, and this is what the memory then says.
-/

namespace Kroc

namespace Ccsp

open Function (update)

open Run (HasLayout withSched Untouched)

/-- A scheduler and a full barrier on their way. -/
structure FullBar where
  mem : BarMem
  stale : Bool
  hand : List BatchPtr
  enqueued : Wptr → Bool
  enrolled : ℕ
  waiting : List Wptr

namespace FullBar

/-- The run of the scheduler. -/
def run (x : FullBar) : Run := ⟨x.mem.sched, x.stale, x.hand, x.enqueued⟩

/-- The scheduler after `Y_rtthreadinit` and the barrier after `bar_init (bar, n)`. -/
def start (index : Fin 32) (n : ℕ) : FullBar where
  mem := {
    sched := Sched.rtthreadinit ((1 : Word) <<< index.val)
    index := index
    priofinity := fun _ => 0
    prio := fun _ _ => 0
    bar := barInit (BitVec.ofNat 32 n)
    barHead := fun _ => .init
    pushed := [] }
  stale := false
  hand := []
  enqueued := fun _ => false
  enrolled := n
  waiting := []

/-- Nobody else is to arrive: the waiting processes go. -/
def settle (x : FullBar) : FullBar :=
  if x.waiting.length = x.enrolled then { x with
    enqueued := fun v => x.enqueued v || decide (v ∈ x.waiting)
    waiting := [] }
  else x

/-- The process `w` can call `bar_sync`: it is enrolled, runs here and may run here again. -/
structure CanSync (x : FullBar) (w : Wptr) : Prop where
  running : x.stale = false
  workspace : IsWorkspace w
  new : x.enqueued w = false
  arrives : w ∉ x.waiting
  enrolled : x.waiting.length < x.enrolled
  runnable : Runnable x.mem.sched.id x.mem.sched.priofinity

/-- So many processes can resign: they are enrolled and do not wait. -/
structure CanResign (x : FullBar) (n : ℕ) : Prop where
  running : x.stale = false
  enrolled : x.waiting.length + n ≤ x.enrolled

/-- After `bar_sync`. -/
def synced (x : FullBar) (w : Wptr) (m : BarMem) : FullBar :=
  { x with mem := m, waiting := w :: x.waiting }.settle

/-- After `bar_resign`. -/
def resigned (x : FullBar) (n : ℕ) (m : BarMem) : FullBar :=
  { x with mem := m, enrolled := x.enrolled - n }.settle

/-- **One step**: the scheduler does something, knowing nothing of the waiting processes, or the
barrier is called, with fewer than `limit` enrolled. -/
inductive Step (limit : ℕ) : FullBar → FullBar → Prop
  | sched {x : FullBar} {r : Run} : Run.Step (x.run.guard x.waiting.toFinset) r →
      Step limit x { x with
        mem := { x.mem with sched := r.sched }
        stale := r.stale
        hand := r.hand
        enqueued := (r.unguard x.waiting.toFinset).enqueued }
  | sync {x : FullBar} {w : Wptr} {m : BarMem} : x.CanSync w →
      Returns (fun fuel => x.mem.barSync fuel w) m → Step limit x (x.synced w m)
  | enroll {x : FullBar} {n : ℕ} : x.enrolled + n < limit →
      Step limit x { x with
        mem := x.mem.barEnroll (BitVec.ofNat 32 n)
        enrolled := x.enrolled + n }
  | resign {x : FullBar} {n : ℕ} {m : BarMem} : x.CanResign n →
      Returns (fun fuel => x.mem.barResign fuel (BitVec.ofNat 32 n)) m →
      Step limit x (x.resigned n m)

/-- The runs in which fewer than `limit` processes are enrolled at any time. -/
def Reachable (limit : ℕ) (x : FullBar) : Prop :=
  ∃ index n, n < limit ∧ Relation.ReflTransGen (Step limit) (start index n) x

/-! ## What is to hold -/

/-- The processes of the batches that hang from the barrier's head. -/
def Held (m : BarMem) (l : List Wptr) : Prop :=
  if m.bar.head m.index = .null then l = []
  else ∃ q procs, Fifo 0 m.sched.next (m.barHead (m.bar.head m.index).ptr).fptr
      (m.barHead (m.bar.head m.index).ptr).bptr q ∧
    (∀ x ∈ q, (m.sched.batch x).Holds m.sched.link (procs x)) ∧ l = q.flatMap procs

/-- **The barrier is in order.**  The waiting processes are on no queue of the scheduler, the others
that are enqueued on one, once; the waiting ones are those on the barrier's batches, and count with
the state word; there is somebody to wait for; and what was pushed was of one priofinity. -/
structure Synchronised (x : FullBar) : Prop where
  sound : x.run.Sound
  waiting : ∀ w ∈ x.waiting, x.enqueued w = false
  held : ∃ l, Held x.mem l ∧ (barCount x.mem.bar.state).toNat + l.length = x.enrolled ∧ l.Nodup ∧
    ∀ w, w ∈ l ↔ w ∈ x.waiting
  early : x.waiting = [] ∨ x.waiting.length < x.enrolled
  pure : ∀ p ∈ x.mem.pushed, p.Pure

/-! ## The invariant of a run -/

/-- The barrier is in order, and so is the history. -/
structure Inv (x : FullBar) : Prop where
  order : InOrder x.run x.mem x.enrolled x.waiting
  pure : ∀ p ∈ x.mem.pushed, p.Pure

variable {x y : FullBar} {w : Wptr} {n : ℕ} {m : BarMem}

/-- **The scheduler runs beside the barrier**, and the processes wait on. -/
theorem Waits.sched {r r' : Run} {W : List Wptr} (h : Waits r m W) (hr : r.sched = m.sched)
    (hstep : Run.Step (r.guard W.toFinset) r') :
    Waits (r'.unguard W.toFinset) { m with sched := r'.sched } W ∧ r'.sched.id = m.sched.id := by
  have hself : r.withSched m.sched = r := by
    rw [← hr]
    rfl
  rcases h with ⟨hL, hheads, hword⟩ | ⟨hi, hq, hheads, hword, hcount⟩
  · rw [hself] at hL
    obtain ⟨L', hL', -, -, hid⟩ := hL.step_outside (K := ∅) (W := ∅) ⟨by simp, by simp, by simp⟩
      hstep
    exact ⟨.nobody hL' hheads hword, by rw [hid, hr]⟩
  · have hlayout := hi.hanging.layout
    have hout := hi.hanging.outside
    rw [hself] at hlayout
    rw [← hr] at hout
    obtain ⟨L', hL', hout', hsame, hid⟩ := hlayout.step_outside hout hstep
    rw [hr] at hsame hid
    refine ⟨.held (m := { m with sched := r'.sched })
      ⟨hi.hanging.untouched hL' hout' hsame hid, hi.indexed⟩ hq ?_ hword hcount, hid⟩
    exact hheads.trans hid.symm

theorem Inv.sched {r : Run} (h : x.Inv) (hstep : Run.Step (x.run.guard x.waiting.toFinset) r) :
    Inv { x with
      mem := { x.mem with sched := r.sched }
      stale := r.stale
      hand := r.hand
      enqueued := (r.unguard x.waiting.toFinset).enqueued } := by
  obtain ⟨hwaits, hid⟩ := Waits.sched h.order.waits rfl hstep
  refine ⟨⟨hwaits, h.order.state, h.order.lt, h.order.lt_or_nil, ?_⟩, h.pure⟩
  show r.sched.id ≠ 0
  rw [hid]
  exact h.order.id

theorem Inv.settle {W : List Wptr} {e : ℕ} (h : Settled x.run m e W) (hp : ∀ p ∈ m.pushed, p.Pure) :
    Inv (FullBar.settle { x with mem := m, enrolled := e, waiting := W }) := by
  rw [Settled] at h
  rw [FullBar.settle]
  dsimp only
  split_ifs at h ⊢ with hlast
  · exact ⟨h, hp⟩
  · exact ⟨h, hp⟩

/-- **`bar_sync` returns**, and the barrier is in order. -/
theorem Inv.sync (h : x.Inv) (hw : x.CanSync w) :
    ∃ m, Returns (fun fuel => x.mem.barSync fuel w) m ∧ (x.synced w m).Inv := by
  obtain ⟨m, hm, hcalled, hsettled⟩ := h.order.barSync hw.running hw.workspace hw.new hw.arrives
    hw.enrolled hw.runnable
  refine ⟨m, ⟨x.waiting.length + 2, fun fuel hf => ?_⟩, Inv.settle hsettled (hcalled.pure h.pure)⟩
  obtain ⟨k, rfl⟩ := Nat.exists_eq_add_of_le' hf
  exact hm _ (Nat.le_add_left _ k)

/-- **`bar_resign` returns**, and the barrier is in order. -/
theorem Inv.resign (h : x.Inv) (hn : x.CanResign n) :
    ∃ m, Returns (fun fuel => x.mem.barResign fuel (BitVec.ofNat 32 n)) m ∧
      (x.resigned n m).Inv := by
  obtain ⟨m, hm, hcalled, hsettled⟩ := h.order.barResign (n := n)
    (Nat.le_sub_of_add_le' hn.enrolled) hn.running
  refine ⟨m, ⟨x.waiting.length + 1, fun fuel hf => ?_⟩, Inv.settle hsettled (hcalled.pure h.pure)⟩
  obtain ⟨k, rfl⟩ := Nat.exists_eq_add_of_le' hf
  exact hm _ (Nat.le_add_left _ k)

/-- **One step** keeps the barrier in order. -/
theorem Inv.step (h : x.Inv) (hstep : Step (2 ^ 29 - 1) x y) : y.Inv := by
  cases hstep with
  | sched hstep => exact h.sched hstep
  | sync hw hm =>
    obtain ⟨m', hm', hinv⟩ := h.sync hw
    exact hm.eq hm' ▸ hinv
  | enroll hn =>
    exact ⟨h.order.barEnroll (by omega), h.pure⟩
  | resign hn hm =>
    obtain ⟨m', hm', hinv⟩ := h.resign hn
    exact hm.eq hm' ▸ hinv

theorem allocateToFreeList_id (n : ℕ) (s : Sched) : (Sched.allocateToFreeList n s).id = s.id := by
  induction n generalizing s with
  | zero => rfl
  | succ n ih =>
    rw [Sched.allocateToFreeList, ih]
    rfl

theorem allocateBatch_id (s : Sched) : s.allocateBatch.2.id = s.id := by
  have hlaunder : ∀ (l : List BatchPtr) (s : Sched), (l.foldl Sched.launder s).id = s.id := by
    intro l
    induction l with
    | nil => exact fun s => rfl
    | cons b l ih =>
      intro s
      rw [List.foldl_cons, ih, Sched.launder]
      split_ifs <;> rfl
  unfold Sched.allocateBatch
  dsimp only
  split_ifs
  · exact (hlaunder _ _).trans (allocateToFreeList_id 16 s)
  · rfl

/-- The scheduler that is initialised is the one asked for. -/
theorem rtthreadinit_id (id : Word) : (Sched.rtthreadinit id).id = id := by
  have hpending : ∀ (l : List Prio) (s : Sched), (l.foldl Sched.allocatePending s).id = s.id := by
    intro l
    induction l with
    | nil => exact fun s => rfl
    | cons n l ih =>
      intro s
      rw [List.foldl_cons, ih]
      exact allocateBatch_id s
  have hcurb : ∀ s : Sched, s.newCurb.id = s.id := fun _ => rfl
  rw [Sched.rtthreadinit, hcurb, hpending, allocateToFreeList_id]
  rfl

theorem inv_start (index : Fin 32) (hn : n < 2 ^ 29 - 1) : (start index n).Inv := by
  obtain ⟨L, hL⟩ := Run.hasLayout_start ((1 : Word) <<< index.val)
  have hid : (start index n).mem.sched.id ≠ 0 := by
    show (Sched.rtthreadinit ((1 : Word) <<< index.val)).id ≠ 0
    rw [rtthreadinit_id]
    clear hL
    revert index
    decide
  have hwaits : Waits (start index n).run (start index n).mem [] := .nobody hL rfl rfl
  exact ⟨⟨hwaits, ⟨0, by decide, rfl⟩, Nat.add_lt_of_lt_sub hn, .inl rfl, hid⟩,
    fun p hp => absurd hp List.not_mem_nil⟩

/-- **A run** keeps it. -/
theorem Reachable.inv (h : Reachable (2 ^ 29 - 1) x) : x.Inv := by
  obtain ⟨index, n, hn, hrun⟩ := h
  induction hrun with
  | refl => exact inv_start index hn
  | tail _ hstep ih => exact ih.step hstep

/-- **A barrier in order** is what it is for. -/
theorem Inv.synchronised (h : x.Inv) : x.Synchronised := by
  obtain ⟨t, ht, hstate⟩ := h.order.state
  have hlt := h.order.lt
  have hle := h.order.length_le
  have hcount : (barCount x.mem.bar.state).toNat + x.waiting.length = x.enrolled := by
    rw [hstate, barCount_barState (by rw [toNat_ofNat_of_lt (by omega)]; omega) ht,
      toNat_ofNat_of_lt (by omega)]
    exact Nat.sub_add_cancel hle
  obtain ⟨hsound, hwaiting, l, hl, hperm⟩ : x.run.Sound ∧ (∀ w ∈ x.waiting, x.enqueued w = false) ∧
      ∃ l, Held x.mem l ∧ l.Nodup ∧ l.Perm x.waiting := by
    have hwaits := h.order.waits
    generalize x.waiting = W at hwaits
    rcases hwaits with ⟨hL, -, hword⟩ | ⟨hi, hq, -, hword, -⟩
    · exact ⟨hL.sound, by simp, [], by rw [Held, if_pos hword], .nil, .nil⟩
    · have hang := hi.hanging
      refine ⟨hang.layout.sound,
        fun w hw => hang.layout.notEnqueued hang.outside w (by simpa using hw),
        _, ?_, hang.perm.nodup_iff.mpr hang.nodup, hang.perm⟩
      rw [Held, hword, if_neg fun e => hang.pos (congrArg HeadWord.ptr e)]
      exact ⟨_, _, hang.chain, hang.holds, rfl⟩
  exact ⟨hsound, hwaiting, ⟨l, hl, by rw [hperm.2.length_eq]; exact hcount, hperm.1,
    fun w => hperm.2.mem_iff⟩, h.order.lt_or_nil, h.pure⟩

/-! ## The barrier synchronises -/

/-- **The full barrier synchronises**, as long as fewer than `2 ^ 29 - 1` processes are enrolled.
Both calls return; and they release the waiting processes exactly when nobody else is to arrive. -/
theorem full_barrier_synchronises (h : Reachable (2 ^ 29 - 1) x) :
    x.Synchronised ∧
    (∀ w, x.CanSync w → ∃ m, Returns (fun fuel => x.mem.barSync fuel w) m ∧
      (x.synced w m).Synchronised ∧
      ∀ v ∈ w :: x.waiting, (x.synced w m).enqueued v = true ↔ x.waiting.length + 1 = x.enrolled) ∧
    ∀ n, x.CanResign n → ∃ m, Returns (fun fuel => x.mem.barResign fuel (BitVec.ofNat 32 n)) m ∧
      (x.resigned n m).Synchronised ∧
      ∀ v ∈ x.waiting, (x.resigned n m).enqueued v = true ↔ x.waiting.length + n = x.enrolled := by
  have hinv := h.inv
  have hnew := hinv.synchronised.waiting
  refine ⟨hinv.synchronised, fun w hw => ?_, fun n hn => ?_⟩
  · obtain ⟨m, hm, hm'⟩ := hinv.sync hw
    refine ⟨m, hm, hm'.synchronised, fun v hv => ?_⟩
    have hfalse : x.enqueued v = false := by
      rcases List.mem_cons.mp hv with rfl | hv
      · exact hw.new
      · exact hnew v hv
    rw [synced, settle]
    dsimp only
    rw [List.length_cons]
    split_ifs with hlast
    · have hv' := List.mem_cons.mp hv
      simp [hlast, hv']
    · simpa [hlast] using hfalse
  · obtain ⟨m, hm, hm'⟩ := hinv.resign hn
    refine ⟨m, hm, hm'.synchronised, fun v hv => ?_⟩
    have hiff : x.waiting.length = x.enrolled - n ↔ x.waiting.length + n = x.enrolled := by
      have := hn.enrolled
      omega
    rw [resigned, settle]
    dsimp only
    split_ifs with hlast
    · simp [hiff.mp hlast, hv]
    · have hmore : x.waiting.length + n ≠ x.enrolled := fun e => hlast (hiff.mpr e)
      simp [hmore, hnew v hv]

/-- A barrier on which two processes are enrolled. -/
def twoEnrolled : FullBar := start ⟨0, by decide⟩ 2

/-- The first of two processes arrives: no loop is entered, whatever their bound. -/
theorem barSync_start (fuel : ℕ) :
    twoEnrolled.mem.barSync fuel 8 = twoEnrolled.mem.barSync 0 8 := by
  have hfind : ∀ k, (twoEnrolled.mem.savePriofinity 8).barFindHead k =
      some (((twoEnrolled.mem.savePriofinity 8).allocateBarHead (barState 2 0 0)).1, false,
        ((twoEnrolled.mem.savePriofinity 8).allocateBarHead (barState 2 0 0)).2) := fun k => by
    rw [BarMem.barFindHead, if_neg (by decide), if_pos (by decide)]
    rfl
  rw [BarMem.barSync, BarMem.barSync, hfind, hfind, Option.bind_some, Option.bind_some]
  change BarMem.barArrive fuel _ = BarMem.barArrive 0 _
  rw [BarMem.barArrive, BarMem.barArrive, if_neg (by decide +kernel), if_neg (by decide +kernel)]

theorem isSome_barSync_start : (twoEnrolled.mem.barSync 0 8).isSome := by decide +kernel

/-- The memory when the first of two processes waits. -/
def oneArrived : BarMem := (twoEnrolled.mem.barSync 0 8).get isSome_barSync_start

theorem returns_oneArrived : Returns (fun fuel => twoEnrolled.mem.barSync fuel 8) oneArrived :=
  .of_some fun fuel => by rw [barSync_start, oneArrived, Option.some_get]

/-- Two enrolled processes sync, and both go. -/
theorem full_barrier_synchronises_two :
    (twoEnrolled.synced 8 oneArrived).waiting = [8] ∧
    (twoEnrolled.synced 8 oneArrived).enqueued 8 = false ∧
    ∃ m, Reachable (2 ^ 29 - 1) ((twoEnrolled.synced 8 oneArrived).synced 16 m) ∧
      ((twoEnrolled.synced 8 oneArrived).synced 16 m).Synchronised ∧
      ∀ v ∈ [16, 8], ((twoEnrolled.synced 8 oneArrived).synced 16 m).enqueued v = true := by
  have hfirst : twoEnrolled.CanSync 8 := ⟨rfl, by unfold IsWorkspace; decide, rfl,
    List.not_mem_nil, Nat.two_pos, by unfold Runnable; decide +kernel⟩
  have hx : twoEnrolled.synced 8 oneArrived =
      { twoEnrolled with mem := oneArrived, waiting := [8] } := by
    rw [synced, settle]
    exact if_neg (by decide)
  have hreach :
      Relation.ReflTransGen (Step (2 ^ 29 - 1)) twoEnrolled (twoEnrolled.synced 8 oneArrived) :=
    .single (.sync hfirst returns_oneArrived)
  rw [hx] at hreach ⊢
  have hsecond : ({ twoEnrolled with mem := oneArrived, waiting := [8] } : FullBar).CanSync 16 := by
    exact ⟨rfl, by unfold IsWorkspace; decide, rfl, by decide, by decide,
      by unfold Runnable; decide +kernel⟩
  obtain ⟨m, hm, hsound, hiff⟩ :=
    (full_barrier_synchronises ⟨0, 2, by decide, hreach⟩).2.1 16 hsecond
  exact ⟨rfl, rfl, m, ⟨0, 2, by decide, hreach.tail (.sync hsecond hm)⟩, hsound,
    fun v hv => (hiff v hv).mpr rfl⟩

/-- **The count is of 29 bits**: with `2 ^ 29` processes enrolled it is zero, and nobody waits. -/
theorem full_barrier_overflow : ¬ ∀ x : FullBar, Reachable (2 ^ 32) x → x.Synchronised := by
  intro h
  have hstep : Step (2 ^ 32) (start 0 1) { start 0 1 with
      mem := (start 0 1).mem.barEnroll (BitVec.ofNat 32 (2 ^ 29 - 1))
      enrolled := 1 + (2 ^ 29 - 1) } :=
    .enroll (show 1 + (2 ^ 29 - 1) < 2 ^ 32 by decide)
  obtain ⟨l, hl, hcount, -, -⟩ := (h _ ⟨0, 1, by decide, .single hstep⟩).held
  have hnil : l = [] := hl
  have hzero : barCount (barState 1 0 0 + BitVec.ofNat 32 (2 ^ 29 - 1)) = 0 := by decide
  subst hnil
  exact absurd ((congrArg BitVec.toNat hzero).symm.trans hcount) (by decide)

end FullBar

end Ccsp

end Kroc
