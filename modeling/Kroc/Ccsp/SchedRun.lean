import Kroc.Ccsp.Scheduling
import Mathlib.Logic.Relation

/-!
# Ccsp/SchedRun — runs of one scheduler

A run interleaves the operations in any order its callers may call them in.  Beside the scheduler it
records which processes were enqueued and not yet dequeued, which batches are in the hands of the
caller (returned by `save_curb` or `pick_batch`, or built by a barrier, and not yet passed on), and
whether the current batch was handed over, so that its fields mean nothing before the next
`load_curb` or `new_curb`.
-/

namespace Kroc

namespace Ccsp

open Function (update)

/-! ## Runs -/

/-- A scheduler on its way. -/
structure Run where
  sched : Sched
  stale : Bool
  hand : List BatchPtr
  enqueued : Wptr → Bool

namespace Run

/-- The scheduler as `Y_rtthreadinit` leaves it, before the first process. -/
def start (id : Word) : Run := ⟨Sched.rtthreadinit id, false, [], fun _ => false⟩

/-- The current batch has no process: it is empty, or it was handed over. -/
def Idle (r : Run) : Prop := r.stale = true ∨ r.sched.curb.fptr = 0

/-- **One operation.**  `touch` is what processes do while they are not enqueued, to their link and
priofinity slots; `tick` is what dispatching does to the number of dispatches left. -/
inductive Step : Run → Run → Prop
  | enqueueProcess {r w s} : r.stale = false → IsWorkspace w → r.enqueued w = false →
      r.sched.enqueueProcess w = some s →
      Step r { r with sched := s, enqueued := update r.enqueued w true }
  | enqueueFarProcess {r w s} : IsWorkspace w → r.enqueued w = false →
      r.sched.enqueueFarProcess (r.sched.prio w) w = some s →
      Step r { r with sched := s, enqueued := update r.enqueued w true }
  | dequeueFromCurb {r w s} : r.stale = false → r.sched.curb.fptr ≠ 0 →
      r.sched.dequeueFromCurb = (w, s) →
      Step r { r with sched := s, enqueued := update r.enqueued w false }
  | pushCurb {r} : r.stale = false → r.sched.curb.fptr ≠ 0 →
      Step r { r with sched := r.sched.pushCurb, stale := true }
  | saveCurb {r b s} : r.stale = false → r.sched.curb.fptr ≠ 0 → r.sched.saveCurb = (b, s) →
      Step r { r with sched := s, stale := true, hand := b :: r.hand }
  | loadCurb {r b} : r.Idle → b ∈ r.hand →
      Step r { r with sched := r.sched.loadCurb b, stale := false, hand := r.hand.erase b }
  | newCurb {r} : r.Idle → Step r { r with sched := r.sched.newCurb, stale := false }
  | resumeCurb {r} : r.stale = false → Step r { r with sched := r.sched.resumeCurb }
  | switchPriofinity {r p} : r.stale = false →
      Step r { r with sched := r.sched.switchPriofinity p }
  | pushBatch {r b} : b ∈ r.hand →
      Step r { r with
        sched := r.sched.pushBatch (r.sched.prio (r.sched.batch b).fptr) b
        hand := r.hand.erase b }
  | pickBatch {r fuel n b s} : r.sched.pickBatch fuel n = some (b, s) →
      Step r { r with sched := s, hand := if b = 0 then r.hand else b :: r.hand }
  | startBatch {r w b s} : IsWorkspace w → r.enqueued w = false → r.sched.allocateBatch = (b, s) →
      Step r { r with
        sched := { s with
          link := (enqueueToBatchWithHint s.link (s.batch b) w true).1
          batch := update s.batch b (enqueueToBatchWithHint s.link (s.batch b) w true).2 }
        hand := b :: r.hand
        enqueued := update r.enqueued w true }
  | growBatch {r w b} : IsWorkspace w → r.enqueued w = false → b ∈ r.hand →
      r.sched.prio w = r.sched.prio (r.sched.batch b).fptr →
      Step r { r with
        sched := { r.sched with
          link := (enqueueToBatchWithHint r.sched.link (r.sched.batch b) w false).1
          batch := update r.sched.batch b
            (enqueueToBatchWithHint r.sched.link (r.sched.batch b) w false).2 }
        enqueued := update r.enqueued w true }
  | touch {r w v p} : r.enqueued w = false →
      Step r { r with sched := { r.sched with
        link := update r.sched.link w v, prio := update r.sched.prio w p } }
  | tick {r d} : Step r { r with sched := { r.sched with dispatches := d } }

/-- The runs of the scheduler `id`. -/
def Reachable (id : Word) (r : Run) : Prop := Relation.ReflTransGen Step (start id) r

/-! ## What is on which chain -/

/-- The places a chain of processes can hang from. -/
inductive Container
  | curb
  | pending (n : Prio)
  | queued (n : Prio) (b : BatchPtr)
  | hand (b : BatchPtr)

/-- The batch of a place. -/
def batchOf (r : Run) : Container → Batch
  | .curb => r.sched.curb
  | .pending n => r.sched.batch (r.sched.rq n).pending
  | .queued _ b => r.sched.batch b
  | .hand b => r.sched.batch b

/-- The places in use: the current batch unless handed over, the pending batch of a run queue with
`rq->priofinity` set, the batches met from `rq->Fptr`, the batches in hand. -/
def Present (r : Run) : Container → Prop
  | .curb => r.stale = false
  | .pending n => (r.sched.rq n).priofinity ≠ 0
  | .queued n b => ∃ q, Linked 0 r.sched.next (r.sched.rq n).fptr q ∧ b ∈ q
  | .hand b => b ∈ r.hand

/-- The chain of a place in use. -/
def Chain (r : Run) (c : Container) (l : List Wptr) : Prop :=
  r.Present c ∧ Linked 0 r.sched.link (r.batchOf c).fptr l

/-- **Nobody lost, nobody twice**, the sizes, priofinities and bits right. -/
structure Sound (r : Run) : Prop where
  ends : ∀ c, r.Present c → ∃ l, r.Chain c l
  once : ∀ w, r.enqueued w = true → ∃ c l, r.Chain c l ∧ l.count w = 1 ∧
    ∀ c' l', r.Chain c' l' → w ∈ l' → c' = c
  enqueued : ∀ c l, r.Chain c l → ∀ w ∈ l, r.enqueued w = true
  size : ∀ c l, r.Chain c l → ((r.batchOf c).size &&& ~~~batchEmptied).toNat = l.length
  uniform : ∀ c l, r.Chain c l → ∀ v ∈ l, ∀ w ∈ l,
    pPriority (r.sched.prio v) = pPriority (r.sched.prio w) ∧
      pAffinity (r.sched.prio v) = pAffinity (r.sched.prio w)
  current : ∀ l, r.Chain .curb l → ∀ w ∈ l, r.sched.prio w = r.sched.priofinity
  bits : ∀ n, (r.sched.rq n).fptr ≠ 0 ∨ (r.sched.rq n).priofinity ≠ 0 →
    r.sched.rqstate n = true

/-! ## The invariant of a run -/

/-- The run has the layout `L`: the scheduler has it, nobody works on a pending batch, and what the
run records is what the layout says. -/
structure HasLayout (r : Run) (L : Layout) : Prop where
  inv : Inv r.sched L
  attached : Attached r.sched L
  stale : r.stale = true ↔ L.curb = none
  mem_hand : ∀ b, b ∈ r.hand ↔ L.owner b = .held
  nodup_hand : r.hand.Nodup
  hand : ∀ b ∈ r.hand, L.procs b ≠ [] ∧
    ∀ v ∈ L.procs b, ∀ w ∈ L.procs b, r.sched.prio v = r.sched.prio w
  enqueued : ∀ w, r.enqueued w = true ↔ L.place w ≠ .away

variable {r : Run} {L : Layout} {b : BatchPtr} {n : Prio} {w : Wptr}

theorem HasLayout.away (h : r.HasLayout L) (hw : r.enqueued w = false) : L.place w = .away := by
  by_contra hne
  rw [(h.enqueued w).mpr hne] at hw
  exact absurd hw (by simp)

theorem HasLayout.exists_curb (h : r.HasLayout L) (hr : r.stale = false) :
    ∃ l, L.curb = some l := by
  rw [← Option.ne_none_iff_exists']
  intro hnone
  rw [h.stale.mpr hnone] at hr
  exact absurd hr (by simp)

theorem HasLayout.idle (h : r.HasLayout L) (hr : r.Idle) : L.curb.getD [] = [] := by
  rcases hc : L.curb with _ | l
  · rfl
  · rcases hr with hr | hr
    · rw [h.stale.mp hr] at hc
      simp at hc
    · exact (h.inv.curb l hc).1.null_iff.mp hr

/-- The processes of a place, from the layout. -/
def contents (r : Run) (L : Layout) : Container → List Wptr
  | .curb => L.curb.getD []
  | .pending n => L.procs (r.sched.rq n).pending
  | .queued _ b => L.procs b
  | .hand b => L.procs b

/-- What the layout calls the place. -/
def placeOf (r : Run) : Container → Place
  | .curb => .curb
  | .pending n => .batch (r.sched.rq n).pending
  | .queued _ b => .batch b
  | .hand b => .batch b

theorem HasLayout.owner_queued (h : r.HasLayout L) (hp : r.Present (.queued n b)) :
    L.owner b = .queued n := by
  obtain ⟨q, hq, hb⟩ := hp
  rw [hq.unique (h.inv.queue n).1] at hb
  exact (h.inv.mem_queue n b).mp hb

theorem HasLayout.mem_contents (h : r.HasLayout L) (c : Container) :
    w ∈ r.contents L c ↔ L.place w = r.placeOf c := by
  cases c with
  | curb => exact h.inv.mem_curb w
  | pending n => exact h.inv.mem_procs _ w
  | queued n b => exact h.inv.mem_procs b w
  | hand b => exact h.inv.mem_procs b w

theorem HasLayout.holds (h : r.HasLayout L) {c : Container} (hp : r.Present c) :
    (r.batchOf c).Holds r.sched.link (r.contents L c) := by
  cases c with
  | curb =>
    obtain ⟨l, hl⟩ := h.exists_curb hp
    simpa [contents, hl, batchOf] using h.inv.curb l hl
  | pending n => exact h.inv.batch _ (by simp [h.attached n])
  | queued n b => exact h.inv.batch b (by simp [h.owner_queued hp])
  | hand b => exact h.inv.batch b (by simp [(h.mem_hand b).mp hp])

/-- **The chain of a place is its contents.** -/
theorem HasLayout.chain_iff (h : r.HasLayout L) {c : Container} {l : List Wptr} :
    r.Chain c l ↔ r.Present c ∧ l = r.contents L c :=
  ⟨fun hc => ⟨hc.1, hc.2.unique (h.holds hc.1).1.1⟩, fun ⟨hp, hl⟩ => ⟨hp, hl ▸ (h.holds hp).1.1⟩⟩

theorem HasLayout.placeOf_inj (h : r.HasLayout L) {c c' : Container} (hp : r.Present c)
    (hp' : r.Present c') (heq : r.placeOf c = r.placeOf c') : c = c' := by
  have howner : ∀ {c}, r.Present c → ∀ b, r.placeOf c = .batch b →
      c = match L.owner b with
        | .pending n => .pending n
        | .queued n => .queued n b
        | _ => .hand b := by
    intro c hp b hb
    cases c with
    | curb => simp [placeOf] at hb
    | pending n =>
      obtain rfl : (r.sched.rq n).pending = b := by simpa [placeOf] using hb
      rw [h.attached n]
    | queued n b' =>
      obtain rfl : b' = b := by simpa [placeOf] using hb
      rw [h.owner_queued hp]
    | hand b' =>
      obtain rfl : b' = b := by simpa [placeOf] using hb
      rw [(h.mem_hand b').mp hp]
  cases hc : r.placeOf c with
  | away => cases c <;> simp [placeOf] at hc
  | curb =>
    rw [hc] at heq
    cases c <;> cases c' <;> simp [placeOf] at hc heq ⊢
  | batch b => rw [howner hp b hc, howner hp' b (heq ▸ hc)]

theorem HasLayout.exists_place (h : r.HasLayout L) (hw : L.place w ≠ .away) :
    ∃ c, r.Present c ∧ L.place w = r.placeOf c := by
  cases hp : L.place w with
  | away => exact absurd hp hw
  | curb =>
    have hmem := (h.inv.mem_curb w).mpr hp
    refine ⟨.curb, ?_, rfl⟩
    cases hs : r.stale with
    | false => exact hs
    | true =>
      rw [h.stale.mp hs] at hmem
      exact absurd hmem (List.not_mem_nil)
  | batch b =>
    have hmem := (h.inv.mem_procs b w).mpr hp
    have hne : L.procs b ≠ [] := List.ne_nil_of_mem hmem
    cases ho : L.owner b with
    | unused => exact absurd (h.inv.empty b (.inl ho)) hne
    | free => exact absurd (h.inv.empty b (.inr ho)) hne
    | held => exact ⟨.hand b, (h.mem_hand b).mpr ho, rfl⟩
    | pending n =>
      have hb := h.inv.pending n b ho
      exact ⟨.pending n, fun hz => hne ((h.inv.pendingEmpty n b ho).mp hz), by rw [placeOf, hb]⟩
    | queued n => exact ⟨.queued n b, ⟨_, (h.inv.queue n).1, (h.inv.mem_queue n b).mpr ho⟩, rfl⟩

theorem HasLayout.uniform (h : r.HasLayout L) {c : Container} (hp : r.Present c) :
    ∀ v ∈ r.contents L c, ∀ w ∈ r.contents L c, r.sched.prio v = r.sched.prio w := by
  cases c with
  | curb =>
    obtain ⟨l, hl⟩ := h.exists_curb hp
    intro v hv w hw
    rw [contents, hl] at hv hw
    rw [h.inv.curbPrio l hl v hv, h.inv.curbPrio l hl w hw]
  | pending n => exact fun v hv w hw => (h.attached.suits h.inv n).uniform.eq hv hw
  | queued n b =>
    exact fun v hv w hw => (h.inv.queuedPrio n b (h.owner_queued hp)).2.eq hv hw
  | hand b => exact (h.hand b hp).2

/-- **A run with a layout is sound.** -/
theorem HasLayout.sound (h : r.HasLayout L) : r.Sound where
  ends c hp := ⟨_, h.chain_iff.mpr ⟨hp, rfl⟩⟩
  once w hw := by
    obtain ⟨c, hp, hplace⟩ := h.exists_place ((h.enqueued w).mp hw)
    have hmem := (h.mem_contents c).mpr hplace
    refine ⟨c, _, h.chain_iff.mpr ⟨hp, rfl⟩,
      List.count_eq_one_of_mem (h.holds hp).1.1.nodup hmem, fun c' l' hc' hw' => ?_⟩
    obtain ⟨hp', rfl⟩ := h.chain_iff.mp hc'
    exact h.placeOf_inj hp' hp (((h.mem_contents c').mp hw').symm.trans hplace)
  enqueued c l hc w hw := by
    obtain ⟨-, rfl⟩ := h.chain_iff.mp hc
    rw [h.enqueued, (h.mem_contents c).mp hw]
    cases c <;> simp [placeOf]
  size c l hc := by
    obtain ⟨hp, rfl⟩ := h.chain_iff.mp hc
    have hholds := h.holds hp
    have hlen := length_lt_of_isWorkspace hholds.1.1.nodup fun w hw =>
      h.inv.workspace w (by rw [(h.mem_contents c).mp hw]; cases c <;> simp [placeOf])
    rw [hholds.2, BitVec.toNat_ofNat]
    exact Nat.mod_eq_of_lt (by omega)
  uniform c l hc v hv w hw := by
    obtain ⟨hp, rfl⟩ := h.chain_iff.mp hc
    rw [h.uniform hp v hv w hw]
    exact ⟨rfl, rfl⟩
  current l hc w hw := by
    obtain ⟨hp, rfl⟩ := h.chain_iff.mp hc
    obtain ⟨l, hl⟩ := h.exists_curb hp
    rw [contents, hl] at hw
    exact h.inv.curbPrio l hl w hw
  bits n hn := by
    rcases hn with hn | hn
    · obtain ⟨q, hq, -⟩ := (h.inv.queue n).exists_pop hn
      exact h.inv.queuedBit n (r.sched.rq n).fptr ((h.inv.mem_queue n _).mp (by simp [hq]))
    · have hp := h.attached n
      exact h.inv.pendingBit n _ hp fun hnil => hn ((h.inv.pendingEmpty n _ hp).mpr hnil)

/-- **The next state has the next layout**, whatever the operation did. -/
theorem HasLayout.next (h : r.HasLayout L) {s' : Sched} {L' : Layout} {P Q : BatchPtr → Prop}
    (hdid : Did r.sched L s' L' P Q) {stale : Bool} {hand : List BatchPtr} {enqueued : Wptr → Bool}
    (hstale : stale = true ↔ L'.curb = none)
    (hhand : ∀ x, x ∈ hand ↔ P x ∨ x ∈ r.hand ∧ ¬ Q x) (hnodup : hand.Nodup)
    (hnew : ∀ x, P x → L'.procs x ≠ [] ∧
      ∀ v ∈ L'.procs x, ∀ w ∈ L'.procs x, r.sched.prio v = r.sched.prio w)
    (hplace : ∀ w, enqueued w = true ↔ L'.place w ≠ .away) :
    HasLayout ⟨s', stale, hand, enqueued⟩ L' where
  inv := hdid.inv
  attached := hdid.attached
  stale := hstale
  mem_hand x := by
    rw [hhand, hdid.owner, h.mem_hand]
  nodup_hand := hnodup
  hand x hx := by
    show _ ∧ ∀ v ∈ _, ∀ w ∈ _, s'.prio v = s'.prio w
    rw [hdid.prio]
    rcases (hhand x).mp hx with hP | ⟨hx, hQ⟩
    · exact hnew x hP
    · rw [hdid.procs x ((h.mem_hand x).mp hx) hQ]
      exact h.hand x hx
  enqueued := hplace

/-- Marking the process that joined a chain as enqueued. -/
theorem HasLayout.enqueued_update (h : r.HasLayout L) {L' : Layout} {q : Place} (hq : q ≠ .away)
    (hplace : L'.place = update L.place w q) (x : Wptr) :
    update r.enqueued w true x = true ↔ L'.place x ≠ .away := by
  rw [hplace]
  by_cases hxw : x = w
  · subst hxw
    simpa using hq
  · simpa [hxw] using h.enqueued x

theorem HasLayout.enqueued_same (h : r.HasLayout L) {L' : Layout}
    (hplace : ∀ x, L'.place x = .away ↔ L.place x = .away) (x : Wptr) :
    r.enqueued x = true ↔ L'.place x ≠ .away := by
  rw [h.enqueued, ne_eq, ne_eq, hplace]

theorem HasLayout.stale_same (h : r.HasLayout L) {L' : Layout} (hcurb : L'.curb = L.curb) :
    r.stale = true ↔ L'.curb = none := by rw [hcurb, h.stale]

/-- The front of a batch in hand is one of its processes. -/
theorem HasLayout.front_mem (h : r.HasLayout L) (hb : b ∈ r.hand) :
    (r.sched.batch b).fptr ∈ L.procs b := by
  have hholds := h.inv.batch b (by simp [(h.mem_hand b).mp hb])
  obtain ⟨m, hm, -⟩ := hholds.1.exists_pop fun hz => (h.hand b hb).1 (hholds.1.null_iff.mp hz)
  simp [hm]

theorem HasLayout.mem_erase (h : r.HasLayout L) (b x : BatchPtr) :
    x ∈ r.hand.erase b ↔ False ∨ x ∈ r.hand ∧ ¬ x = b := by
  rw [h.nodup_hand.mem_erase_iff]
  simp [and_comm]

/-- **One operation keeps the invariant.** -/
theorem HasLayout.step {r' : Run} (h : r.HasLayout L) (hstep : Step r r') :
    ∃ L', r'.HasLayout L' := by
  cases hstep with
  | @enqueueProcess w s hr hw hnew hs =>
    obtain ⟨l, hl⟩ := h.exists_curb hr
    obtain ⟨L', q, hq, hdid, hplace, hcurb⟩ :=
      h.inv.enqueueProcess h.attached hl hw (h.away hnew) hs
    exact ⟨L', h.next hdid (by simp [hr, hcurb]) (by simp) h.nodup_hand (by simp)
      (h.enqueued_update hq hplace)⟩
  | @enqueueFarProcess w s hw hnew hs =>
    obtain ⟨L', b, hdid, hplace, hcurb⟩ :=
      h.inv.enqueueFarProcess h.attached hw (h.away hnew) hs
    exact ⟨L', h.next hdid (h.stale_same hcurb) (by simp) h.nodup_hand (by simp)
      (h.enqueued_update (by simp) hplace)⟩
  | @dequeueFromCurb w s hr hf hs =>
    obtain ⟨l, hl⟩ := h.exists_curb hr
    obtain ⟨m, hm, hw, hinv⟩ := h.inv.dequeueFromCurb hl hf
    rw [hs] at hw hinv
    obtain rfl : w = r.sched.curb.fptr := hw
    have hprio : s.prio = r.sched.prio := by
      rw [← show r.sched.dequeueFromCurb.2 = s by rw [hs]]
      rfl
    have hrq : s.rq = r.sched.rq := by
      rw [← show r.sched.dequeueFromCurb.2 = s by rw [hs]]
      rfl
    have hdid : Did r.sched L s (L.leaveCurb r.sched.curb.fptr m) (fun _ => False)
        (fun _ => False) :=
      ⟨hinv, fun n => by rw [hrq]; exact h.attached n, fun x => by simp [Layout.leaveCurb],
        by simp, fun _ _ _ => rfl, hprio⟩
    refine ⟨_, h.next hdid (by simp [hr, Layout.leaveCurb]) (by simp) h.nodup_hand (by simp)
      fun x => ?_⟩
    rw [Layout.leaveCurb_place]
    by_cases hxw : x = r.sched.curb.fptr
    · simp [hxw]
    · simpa [hxw] using h.enqueued x
  | pushCurb hr hf =>
    obtain ⟨l, hl⟩ := h.exists_curb hr
    have hne : l ≠ [] := fun hnil => hf ((h.inv.curb l hl).1.null_iff.mpr hnil)
    obtain ⟨L', hdid, hcurb, haway⟩ := h.inv.pushCurb h.attached hl hne
    exact ⟨L', h.next hdid (by simp [hcurb]) (by simp) h.nodup_hand (by simp)
      (h.enqueued_same haway)⟩
  | @saveCurb b s hr hf hs =>
    obtain ⟨l, hl⟩ := h.exists_curb hr
    have hne : l ≠ [] := fun hnil => hf ((h.inv.curb l hl).1.null_iff.mpr hnil)
    obtain ⟨L', hdid, hprocs, haway, hcurb, -⟩ := h.inv.saveCurb h.attached hl
    rw [hs] at hdid hprocs
    have hfresh : b ∉ r.hand := fun hb => hdid.fresh b rfl ((h.mem_hand b).mp hb)
    refine ⟨L', h.next hdid (by simp [hcurb]) (by simp) (List.nodup_cons.mpr ⟨hfresh, h.nodup_hand⟩)
      ?_ (h.enqueued_same haway)⟩
    rintro x rfl
    rw [hprocs]
    exact ⟨hne, fun v hv w hw => by rw [h.inv.curbPrio l hl v hv, h.inv.curbPrio l hl w hw]⟩
  | @loadCurb b hidle hb =>
    obtain ⟨L', hdid, hcurb, haway⟩ := h.inv.loadCurb h.attached (h.idle hidle)
      ((h.mem_hand b).mp hb) (h.hand b hb).1 (h.hand b hb).2
    exact ⟨L', h.next hdid (by simp [hcurb]) (h.mem_erase b) (h.nodup_hand.erase b) (by simp)
      (h.enqueued_same haway)⟩
  | newCurb hidle =>
    have hnew := h.inv.newCurb (h.idle hidle) r.sched.priofinity
    have hdid : Did r.sched L r.sched.newCurb { L with curb := some [] } (fun _ => False)
        (fun _ => False) :=
      ⟨hnew, h.attached, by simp, by simp, fun _ _ _ => rfl, rfl⟩
    exact ⟨_, h.next hdid (by simp) (by simp) h.nodup_hand (by simp) h.enqueued⟩
  | resumeCurb hr =>
    have hdid : Did r.sched L r.sched.resumeCurb L (fun _ => False) (fun _ => False) :=
      ⟨h.inv.resumeCurb, h.attached, by simp, by simp, fun _ _ _ => rfl, rfl⟩
    exact ⟨L, h.next hdid h.stale (by simp) h.nodup_hand (by simp) h.enqueued⟩
  | @switchPriofinity p hr =>
    obtain ⟨l, hl⟩ := h.exists_curb hr
    obtain ⟨L', hdid, hcurb, haway⟩ := h.inv.switchPriofinity h.attached hl p
    exact ⟨L', h.next hdid (by simp [hr, hcurb]) (by simp) h.nodup_hand (by simp)
      (h.enqueued_same haway)⟩
  | @pushBatch b hb =>
    obtain ⟨L', hdid, hplace, hcurb, -, -⟩ := h.inv.pushBatch h.attached ((h.mem_hand b).mp hb)
      (h.hand b hb).1 (fun w hw => (h.hand b hb).2 w hw _ (h.front_mem hb))
    exact ⟨L', h.next hdid (h.stale_same hcurb) (h.mem_erase b) (h.nodup_hand.erase b) (by simp)
      (h.enqueued_same fun x => by rw [hplace])⟩
  | @pickBatch fuel n b s hs =>
    obtain _ | fuel := fuel
    · simp [Sched.pickBatch] at hs
    obtain ⟨b', s', hs', hres⟩ := h.inv.pickBatch h.attached n fuel
    obtain ⟨rfl, rfl⟩ : b' = b ∧ s' = s := by simpa [hs'] using hs
    rcases hres with ⟨L', hb, hdid, hne, huniform, hplace, hcurb⟩ | ⟨rfl, hdid⟩
    · have hfresh : b' ∉ r.hand := fun hm => hdid.fresh b' rfl ((h.mem_hand b').mp hm)
      rw [if_neg hb]
      refine ⟨L', h.next hdid (h.stale_same hcurb) (by simp)
        (List.nodup_cons.mpr ⟨hfresh, h.nodup_hand⟩) ?_ (h.enqueued_same fun x => by rw [hplace])⟩
      rintro x rfl
      exact ⟨hne, fun v hv w hw => huniform.eq hv hw⟩
    · exact ⟨L, h.next hdid h.stale (by simp) h.nodup_hand (by simp) h.enqueued⟩
  | @startBatch w b s hw hnew hs =>
    obtain ⟨L', hdid, hprocs, hplace, hcurb⟩ := h.inv.startBatch h.attached hw (h.away hnew)
    simp only [hs] at hdid hprocs hplace
    have hfresh : b ∉ r.hand := fun hb => hdid.fresh b rfl ((h.mem_hand b).mp hb)
    refine ⟨L', h.next hdid (h.stale_same hcurb) (by simp)
      (List.nodup_cons.mpr ⟨hfresh, h.nodup_hand⟩) ?_ (h.enqueued_update (by simp) hplace)⟩
    rintro x rfl
    rw [hprocs]
    simp
  | @growBatch w b hw hnew hb hprio =>
    have hheld := (h.mem_hand b).mp hb
    have hgrow := h.inv.growBatch hheld (h.hand b hb).1 hw (h.away hnew)
    refine ⟨_, {
      inv := hgrow
      attached := h.attached
      stale := h.stale
      mem_hand := h.mem_hand
      nodup_hand := h.nodup_hand
      hand := fun x hx => ?_
      enqueued := h.enqueued_update (by simp) rfl }⟩
    rw [Layout.join_procs]
    split_ifs with hxb
    · subst hxb
      have hall : ∀ v ∈ L.procs x ++ [w], r.sched.prio v = r.sched.prio (r.sched.batch x).fptr := by
        intro v hv
        rcases List.mem_append.mp hv with hv | hv
        · exact (h.hand x hb).2 v hv _ (h.front_mem hb)
        · rw [List.mem_singleton.mp hv, hprio]
      exact ⟨by simp, fun v hv w hw => (hall v hv).trans (hall w hw).symm⟩
    · exact h.hand x hx
  | @touch w v p hnew =>
    have haway := h.away hnew
    have hprocs : ∀ b, ∀ x ∈ L.procs b, x ≠ w := by
      rintro b x hx rfl
      have := (h.inv.mem_procs b x).mp hx
      simp [haway] at this
    exact ⟨L, { h with
      inv := h.inv.touch haway v p
      hand := fun b hb => ⟨(h.hand b hb).1, fun x hx y hy => by
        simpa [hprocs b x hx, hprocs b y hy] using (h.hand b hb).2 x hx y hy⟩ }⟩
  | @tick d => exact ⟨L, { h with inv := { h.inv with } }⟩

/-! ## The start -/

/-- Nothing anywhere. -/
def emptyLayout : Layout :=
  ⟨fun _ => .unused, fun _ => .away, [], fun _ => [], fun _ => [], some []⟩

theorem inv_init (id : Word) : Inv (Sched.init id) emptyLayout where
  null := rfl
  fresh _ _ := rfl
  dmem_pos := Nat.one_pos
  laundry := rfl
  free := rfl
  mem_free := by simp [emptyLayout]
  queue _ := Fifo.nil rfl
  mem_queue := by simp [emptyLayout]
  pending := by simp [emptyLayout]
  head _ := Nat.zero_le _
  clean _ _ _ := rfl
  window := by simp [emptyLayout]
  data _ _ _ hd := absurd rfl hd
  workspace _ hw := absurd rfl hw
  mem_curb := by simp [emptyLayout]
  mem_procs := by simp [emptyLayout]
  curb l hl := by
    obtain rfl : [] = l := Option.some.inj hl
    exact Batch.Holds.init _
  batch _ hb := absurd rfl hb
  empty _ _ := rfl
  curbPrio l hl w hw := by
    obtain rfl : [] = l := Option.some.inj hl
    exact absurd hw (List.not_mem_nil)
  queuedPrio := by simp [emptyLayout]
  pendingPrio := by simp [emptyLayout]
  pendingEmpty := by simp [emptyLayout]
  queuedBit := by simp [emptyLayout]
  pendingBit := by simp [emptyLayout]

/-- The state of `Y_rtthreadinit` when the run queues of `ns` have their pending batch. -/
structure Starting (s : Sched) (L : Layout) (ns : List Prio) : Prop where
  inv : Inv s L
  pending : ∀ n ∈ ns, L.owner (s.rq n).pending = .pending n
  missing : ∀ n ∉ ns, ∀ b, L.owner b ≠ .pending n
  none : ∀ b, L.owner b ≠ .held
  away : ∀ w, L.place w = .away
  curb : L.curb = some []
  unset : ∀ n, (s.rq n).priofinity = 0

theorem Starting.allocatePending {s : Sched} {ns : List Prio} (h : Starting s L ns) (hn : n ∉ ns) :
    ∃ L', Starting (s.allocatePending n) L' (n :: ns) := by
  obtain ⟨L₂, h₂, hheld, hempty, hgrown, hsame⟩ := h.inv.allocateBatch
  unfold Sched.allocatePending
  dsimp only
  generalize s.allocateBatch.1 = b at *
  generalize s.allocateBatch.2 = s₂ at *
  have howner := hgrown.owner
  have hnone : ∀ x, L₂.owner x ≠ .pending n := fun x hx => by
    have := (howner x _ (by simp) (by simp)).mp hx
    have := h.missing n hn x
    grind
  have hunset : ∀ m, (s₂.rq m).priofinity = 0 := fun m => by rw [hsame.rq, h.unset]
  have hfin := (h₂.setRq hnone { s₂.rq n with pending := b } rfl rfl).attach (b := b) (n := n) hheld
    (by simp) (by simpa [hunset] using hempty) (by simp [hempty]) (by simp [hempty])
  refine ⟨_, hfin, fun m hm => ?_, fun m hm x => ?_, fun x => ?_, fun w => ?_, ?_, fun m => ?_⟩
  · by_cases hmn : m = n
    · subst hmn
      simp
    · have hold := h.pending m ((List.mem_cons.mp hm).resolve_left hmn)
      have hnew := (howner (s.rq m).pending (.pending m) (by simp) (by simp)).mpr (.inl hold)
      rw [Sched.setRq_rq, if_neg hmn, hsame.rq, Layout.give_owner]
      grind
  · rw [List.mem_cons, not_or] at hm
    have := howner x (.pending m) (by simp) (by simp)
    have := h.missing m hm.2 x
    rw [Layout.give_owner]
    grind
  · have := howner x .held (by simp) (by simp)
    have := h.none x
    rw [Layout.give_owner]
    grind
  · exact (congrFun hgrown.place w).trans (h.away w)
  · exact hgrown.curb.trans h.curb
  · rw [Sched.setRq_rq]
    split_ifs with hm
    · exact hunset n
    · exact hunset m

theorem Starting.foldl : ∀ (ms : List Prio) {s : Sched} {L : Layout} {ns : List Prio},
    Starting s L ns → (ms.reverse ++ ns).Nodup →
      ∃ L', Starting (ms.foldl Sched.allocatePending s) L' (ms.reverse ++ ns)
  | [], _, L, _, h, _ => ⟨L, h⟩
  | m :: ms, s, L, ns, h, hnodup => by
      rw [List.reverse_cons, List.append_assoc, List.singleton_append] at hnodup ⊢
      have hm : m ∉ ns := (List.nodup_cons.mp (List.nodup_append.mp hnodup).2.1).1
      obtain ⟨L', h'⟩ := h.allocatePending hm
      exact Starting.foldl ms h' hnodup

/-- **`Y_rtthreadinit` sets up the invariant.** -/
theorem hasLayout_start (id : Word) : ∃ L, (start id).HasLayout L := by
  obtain ⟨L₁, h₁, hgrown, hsame⟩ := (inv_init id).allocateToFreeList 64
  have howner : ∀ x o, o ≠ .unused → o ≠ .free → L₁.owner x ≠ o := fun x o ho₁ ho₂ ho => by
    have := (hgrown.owner x o ho₁ ho₂).mp ho
    simp only [emptyLayout, false_and, or_false] at this
    exact ho₁ this.symm
  have hstart : Starting ((Sched.init id).allocateToFreeList 64) L₁ [] :=
    ⟨h₁, by simp, fun n _ b => howner b _ (by simp) (by simp), fun b => howner b _ (by simp)
      (by simp), fun w => congrFun hgrown.place w, hgrown.curb, fun n => by rw [hsame.rq]; rfl⟩
  obtain ⟨s, hs, L₂, h₂⟩ : ∃ s, start id = ⟨s.newCurb, false, [], fun _ => false⟩ ∧
      ∃ L₂, Starting s L₂ ((List.finRange 32).reverse ++ []) :=
    ⟨_, rfl, Starting.foldl (List.finRange 32) hstart (by
      rw [List.append_nil, List.nodup_reverse]
      exact List.nodup_finRange 32)⟩
  rw [hs]
  exact ⟨{ L₂ with curb := some [] }, {
    inv := h₂.inv.newCurb (by simp [h₂.curb]) s.priofinity
    attached := fun n => h₂.pending n (by simp)
    stale := by simp
    mem_hand := fun b => iff_of_false (by simp) (h₂.none b)
    nodup_hand := List.nodup_nil
    hand := by simp
    enqueued := fun w => iff_of_false (by simp) (not_not.mpr (h₂.away w)) }⟩

/-- **Every state of every run has a layout.** -/
theorem Reachable.hasLayout {id : Word} (h : Reachable id r) : ∃ L, r.HasLayout L := by
  induction h with
  | refl => exact hasLayout_start id
  | tail _ hstep ih =>
    obtain ⟨L, hL⟩ := ih
    exact hL.step hstep

/-- **Batch scheduling on one scheduler loses and duplicates nobody.** -/
theorem reachable_sound {id : Word} (h : Reachable id r) : r.Sound := by
  obtain ⟨L, hL⟩ := h.hasLayout
  exact hL.sound

/-- A process without affinity is never refused. -/
theorem exists_enqueueProcess {s : Sched} (hw : ¬ pHasAffinity (s.prio w)) :
    ∃ s', s.enqueueProcess w = some s' := by
  unfold Sched.enqueueProcess Sched.enqueueFarProcess
  dsimp only
  rw [if_pos hw]
  split_ifs <;> exact ⟨_, rfl⟩

/-- Process 8 has priofinity 16, and process 16 has priofinity 3. -/
def touched (s : Sched) : Sched := { s with
  link := update (update s.link 8 0) 16 0
  prio := update (update s.prio 8 16) 16 3 }

/-- Process 8 is on the current batch, and process 16 on the pending batch of its run queue. -/
def enqueuedBoth (s : Sched) : Sched :=
  ((touched s).enqueueProcessNopri 8).enqueueToPending (buildPriofinity 0 1) 3 16

theorem enqueueProcess_touched {s : Sched} (hcurrent : s.priofinity = 16)
    (hempty : (s.rq 3).priofinity = 0) :
    (touched s).enqueueProcess 8 = some ((touched s).enqueueProcessNopri 8) ∧
      ((touched s).enqueueProcessNopri 8).enqueueProcess 16 = some (enqueuedBoth s) := by
  have hother : ¬ s.priofinity = 3 := fun h => absurd (hcurrent.symm.trans h) (by decide)
  have hpending : ¬ pHasAffinity (s.rq 3).priofinity := by
    rw [hempty]
    decide
  have hfar : ((touched s).enqueueProcessNopri 8).enqueueFarProcess 3 16 =
      some (enqueuedBoth s) := by
    have hpending' : ¬ pHasAffinity (((touched s).enqueueProcessNopri 8).rq 3).priofinity :=
      hpending
    rw [Sched.enqueueFarProcess, show pPriority 3 = 3 from rfl, if_pos (by decide),
      if_neg hpending', enqueuedBoth]
  exact ⟨if_pos hcurrent, (if_neg hother).trans hfar⟩

/-- Where the current priofinity is 16, both are enqueued, and the current batch is pushed onto a
run queue. -/
theorem exists_pushed {s : Sched} (hstart : Reachable 1 ⟨s, false, [], fun _ => false⟩)
    (hcurrent : s.priofinity = 16) (hempty : (s.rq 3).priofinity = 0) :
    ∃ r, Reachable 1 r ∧ r.enqueued 8 = true ∧ r.enqueued 16 = true ∧
      r.sched.prio 8 ≠ r.sched.prio 16 ∧ r.stale = true := by
  obtain ⟨hjoin, hfar⟩ := enqueueProcess_touched hcurrent hempty
  have htouched : Reachable 1 ⟨touched s, false, [], fun _ => false⟩ :=
    (hstart.tail (.touch (w := 8) (v := 0) (p := 16) rfl)).tail
      (.touch (w := 16) (v := 0) (p := 3) rfl)
  have hboth : Reachable 1 ⟨enqueuedBoth s, false, [], update (update (fun _ => false) 8 true) 16
      true⟩ :=
    (htouched.tail (.enqueueProcess rfl (by unfold IsWorkspace; decide) rfl hjoin)).tail
      (.enqueueProcess rfl (by unfold IsWorkspace; decide) rfl hfar)
  have hcurb : (enqueuedBoth s).curb.fptr ≠ 0 := by
    change (enqueueToBatch _ s.curb 8).2.fptr ≠ 0
    unfold enqueueToBatch
    dsimp only
    split_ifs with h
    · exact show (8 : Wptr) ≠ 0 by decide
    · exact h
  obtain ⟨L, hL⟩ := hboth.hasLayout
  obtain ⟨l, hl⟩ := hL.exists_curb rfl
  obtain ⟨L', hdid, -⟩ := hL.inv.pushCurb hL.attached hl fun hnil =>
    hcurb ((hL.inv.curb l hl).1.null_iff.mpr hnil)
  refine ⟨_, hboth.tail (.pushCurb rfl hcurb), rfl, rfl, ?_, rfl⟩
  rw [hdid.prio]
  change (16 : Word) ≠ 3
  decide

/-- A run in which two processes of different priofinities are enqueued, and the current batch is
pushed onto a run queue. -/
theorem reachable_sound_pushed : ∃ r, Reachable 1 r ∧ r.enqueued 8 = true ∧
    r.enqueued 16 = true ∧ r.sched.prio 8 ≠ r.sched.prio 16 ∧ r.stale = true ∧ r.Sound := by
  obtain ⟨r, hr, h₈, h₁₆, hprio, hstale⟩ :=
    exists_pushed (s := (start 1).sched) .refl (by decide +kernel) (by decide +kernel)
  exact ⟨r, hr, h₈, h₁₆, hprio, hstale, reachable_sound hr⟩

end Run

end Ccsp

end Kroc
