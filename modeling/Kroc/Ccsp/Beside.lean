import Kroc.Ccsp.Overlay
import Kroc.Ccsp.SchedRun

/-!
# Ccsp/Beside — what lies beside the layout of a scheduler stays there

A state in which the memory outside a layout is spoilt has the layout all the same, and no layout
reaches spoilt memory; so what a step of the scheduler finds outside it leaves outside, untouched.
-/

namespace Kroc

namespace Ccsp

open Function (update)

variable {s m : Sched} {L : Layout} {b : BatchPtr} {n : Prio} {w : Wptr}
  {K : Finset BatchPtr} {W : Finset Wptr}

/-! ## Steps of a run -/

namespace Run

variable {r r' : Run}

/-- The run as the callers of the scheduler see it, to whom the processes `W` are enqueued. -/
def guard (W : Finset Wptr) (r : Run) : Run :=
  { r with enqueued := fun x => r.enqueued x || decide (x ∈ W) }

/-- The run without the processes `W`. -/
def unguard (W : Finset Wptr) (r : Run) : Run :=
  { r with enqueued := fun x => r.enqueued x && !decide (x ∈ W) }

/-- The run with another scheduler. -/
def withSched (r : Run) (s : Sched) : Run := { r with sched := s }

theorem HasLayout.overlay (h : r.HasLayout L) (ho : Outside K W r.sched L) (m : Sched) :
    (r.withSched (r.sched.overlay K W m)).HasLayout L :=
  { h with
    inv := h.inv.overlay ho m
    attached := h.attached
    hand := fun b hb => ⟨(h.hand b hb).1, fun v hv w hw => by
      have hprio : ∀ x ∈ L.procs b, (r.sched.overlay K W m).prio x = r.sched.prio x := fun x hx =>
        Finset.piecewise_eq_of_notMem _ _ _ (ho.procs_notMem h.inv b x hx)
      show (r.sched.overlay K W m).prio v = (r.sched.overlay K W m).prio w
      rw [hprio v hv, hprio w hw]
      exact (h.hand b hb).2 v hv w hw⟩ }

theorem not_guarded {w : Wptr} (hw : (r.guard W).enqueued w = false) :
    r.enqueued w = false ∧ w ∉ W := by
  simpa [guard] using hw

theorem unguard_update (hW : ∀ x ∈ W, r.enqueued x = false) {w : Wptr} (hw : w ∉ W) (v : Bool)
    (s t : Sched) (stale : Bool) (hand : List BatchPtr) :
    (unguard W ⟨s, stale, hand, update (r.guard W).enqueued w v⟩).withSched t =
      ⟨t, stale, hand, update r.enqueued w v⟩ := by
  refine congrArg (Run.mk t stale hand) (funext fun x => ?_)
  simp only [unguard]
  by_cases hxw : x = w
  · subst hxw
    simp [hw]
  · by_cases hx : x ∈ W
    · simp [hxw, hx, hW x hx]
    · simp [guard, hxw, hx]

theorem unguard_guard (hW : ∀ x ∈ W, r.enqueued x = false) (s t : Sched) (stale : Bool)
    (hand : List BatchPtr) :
    (unguard W ⟨s, stale, hand, (r.guard W).enqueued⟩).withSched t =
      ⟨t, stale, hand, r.enqueued⟩ := by
  refine congrArg (Run.mk t stale hand) (funext fun x => ?_)
  simp only [unguard]
  by_cases hx : x ∈ W
  · simp [hx, hW x hx]
  · simp [guard, hx]

/-- **A step of the scheduler is one with the memory outside spoilt**: `m` is that memory. -/
theorem HasLayout.spoilt_step (h : r.HasLayout L) (hs : Spoilt K W r.sched)
    (hstep : Step ((r.withSched (r.sched.overlay K W m)).guard W) r') :
    ∃ t, Spoilt K W t ∧ t.id = r.sched.id ∧ r'.sched = t.overlay K W m ∧
      Step r ((r'.unguard W).withSched t) := by
  have ho := hs.outside h.inv
  have hW : ∀ x ∈ W, r.enqueued x = false := fun x hx => by
    have := h.enqueued x
    simpa [ho.away x hx] using this
  have hprio : ∀ w, w ∉ W → (r.sched.overlay K W m).prio w = r.sched.prio w := fun w hw =>
    Finset.piecewise_eq_of_notMem _ _ _ hw
  have hbatch : ∀ b, b ∈ r.hand → (r.sched.overlay K W m).batch b = r.sched.batch b ∧
      (r.sched.batch b).fptr ∉ W ∧ L.owner b = .held := fun b hb => by
    have hheld := (h.mem_hand b).mp hb
    exact ⟨Finset.piecewise_eq_of_notMem _ _ _ (ho.notMem (by simp [hheld])),
      ho.procs_notMem h.inv b _ (h.front_mem hb), hheld⟩
  cases hstep with
  | @enqueueProcess w s hst hw hnew hs' =>
    obtain ⟨hfree, hwW⟩ := not_guarded (r := r.withSched _) hnew
    obtain ⟨l, hl⟩ := h.exists_curb hst
    have hb := h.inv.beside_enqueueProcess hs h.attached hl hwW
    obtain ⟨t, ht, rfl⟩ := Option.map_eq_some_iff.mp ((hb.overlay m).symm.trans hs')
    obtain ⟨hst', hid⟩ := hb.spoilt hs ht
    exact ⟨t, hst', hid, rfl, (congrArg (Step r) (unguard_update hW hwW true _ t _ _)).mpr
      (Step.enqueueProcess hst hw hfree ht)⟩
  | @enqueueFarProcess w s hw hnew hs' =>
    obtain ⟨hfree, hwW⟩ := not_guarded (r := r.withSched _) hnew
    have hb := h.inv.beside_enqueueFarProcess hs h.attached hwW (r.sched.prio w)
    rw [show ((r.withSched (r.sched.overlay K W m)).guard W).sched.prio w = r.sched.prio w from
      hprio w hwW] at hs'
    obtain ⟨t, ht, rfl⟩ := Option.map_eq_some_iff.mp ((hb.overlay m).symm.trans hs')
    obtain ⟨hst', hid⟩ := hb.spoilt hs ht
    exact ⟨t, hst', hid, rfl, (congrArg (Step r) (unguard_update hW hwW true _ t _ _)).mpr
      (Step.enqueueFarProcess hw hfree ht)⟩
  | @dequeueFromCurb w s hst hf hs' =>
    obtain ⟨l, hl⟩ := h.exists_curb hst
    obtain ⟨hb, -⟩ := h.inv.beside_dequeueFromCurb ho hl hf
    obtain ⟨q, hq, -⟩ := (h.inv.curb l hl).1.exists_pop hf
    have hwW : r.sched.curb.fptr ∉ W := ho.curb_notMem h.inv hl _ (by simp [hq])
    obtain ⟨rfl, rfl⟩ := Prod.mk.inj hs'
    exact ⟨_, hb.spoilt hs, hb.id, hb.overlay m,
      (congrArg (Step r) (unguard_update hW hwW false _ _ _ _)).mpr
        (Step.dequeueFromCurb hst hf rfl)⟩
  | pushCurb hst hf =>
    obtain ⟨l, hl⟩ := h.exists_curb hst
    have hne : l ≠ [] := fun hnil => hf ((h.inv.curb l hl).1.null_iff.mpr hnil)
    have hb := h.inv.beside_pushCurb hs h.attached hl hne
    exact ⟨_, hb.spoilt hs, hb.id, hb.overlay m,
      (congrArg (Step r) (unguard_guard hW _ _ _ _)).mpr (Step.pushCurb hst hf)⟩
  | @saveCurb b s hst hf hs' =>
    obtain ⟨hb, hfst⟩ := h.inv.beside_saveCurb ho
    obtain rfl : b = r.sched.saveCurb.1 := (congrArg Prod.fst hs').symm.trans (hfst m)
    obtain rfl := congrArg Prod.snd hs'
    exact ⟨_, hb.spoilt hs, hb.id, hb.overlay m,
      (congrArg (Step r) (unguard_guard hW _ _ _ _)).mpr (Step.saveCurb hst hf rfl)⟩
  | @loadCurb b hidle hb' =>
    have hb := h.inv.beside_loadCurb ho (hbatch b hb').2.2 (h.hand b hb').1
    exact ⟨_, hb.spoilt hs, hb.id, hb.overlay m,
      (congrArg (Step r) (unguard_guard hW _ _ _ _)).mpr (Step.loadCurb hidle hb')⟩
  | newCurb hidle =>
    have hb : Beside K W (fun s => s.newCurb) r.sched := ⟨fun _ => rfl, Nat.le_refl _, rfl⟩
    exact ⟨_, hb.spoilt hs, hb.id, hb.overlay m,
      (congrArg (Step r) (unguard_guard hW _ _ _ _)).mpr (Step.newCurb hidle)⟩
  | resumeCurb hst =>
    have hb : Beside K W (fun s => s.resumeCurb) r.sched := ⟨fun _ => rfl, Nat.le_refl _, rfl⟩
    exact ⟨_, hb.spoilt hs, hb.id, hb.overlay m,
      (congrArg (Step r) (unguard_guard hW _ _ _ _)).mpr (Step.resumeCurb hst)⟩
  | @switchPriofinity q hst =>
    obtain ⟨l, hl⟩ := h.exists_curb hst
    have hb := h.inv.beside_switchPriofinity hs h.attached hl q
    exact ⟨_, hb.spoilt hs, hb.id, hb.overlay m,
      (congrArg (Step r) (unguard_guard hW _ _ _ _)).mpr (Step.switchPriofinity hst)⟩
  | @pushBatch b hb' =>
    obtain ⟨hbatch, hfront, hheld⟩ := hbatch b hb'
    have hb := h.inv.beside_pushBatch ho h.attached b (r.sched.prio (r.sched.batch b).fptr)
    refine ⟨_, hb.spoilt hs, hb.id, ?_,
      (congrArg (Step r) (unguard_guard hW _ _ _ _)).mpr (Step.pushBatch hb')⟩
    show (r.sched.overlay K W m).pushBatch ((r.sched.overlay K W m).prio
      ((r.sched.overlay K W m).batch b).fptr) b = _
    rw [hbatch, hprio _ hfront]
    exact hb.overlay m
  | @pickBatch fuel n b s hs' =>
    obtain ⟨hover, hdmem⟩ := h.inv.beside_pickBatch ho h.attached fuel n
    obtain ⟨⟨b', t⟩, ht, heq⟩ := Option.map_eq_some_iff.mp ((hover m).symm.trans hs')
    obtain ⟨rfl, rfl⟩ := Prod.mk.inj heq
    have hb : BesideOption K W (fun s => (s.pickBatch fuel n).map Prod.snd) r.sched := by
      refine ⟨fun m => ?_, fun s' hs' => ?_, fun s' hs' => ?_⟩
      · rw [hover, Option.map_map, Option.map_map]
        rfl
      all_goals
        obtain ⟨x, hx, rfl⟩ := Option.map_eq_some_iff.mp hs'
      · exact (hdmem x hx).1
      · exact (hdmem x hx).2
    obtain ⟨hst', hid⟩ := hb.spoilt hs (t := t) (by rw [ht, Option.map_some])
    exact ⟨t, hst', hid, rfl, (congrArg (Step r) (unguard_guard hW _ _ _ _)).mpr
      (Step.pickBatch ht)⟩
  | @startBatch w b s hw hnew hs' =>
    obtain ⟨hfree, hwW⟩ := not_guarded (r := r.withSched _) hnew
    have hb := h.inv.beside_startBatch ho hwW
    obtain ⟨-, hfst⟩ := h.inv.beside_allocateBatch ho
    obtain rfl : b = r.sched.allocateBatch.1 := (congrArg Prod.fst hs').symm.trans (hfst m)
    obtain rfl := congrArg Prod.snd hs'
    refine ⟨_, hb.spoilt hs, hb.id, ?_,
      (congrArg (Step r) (unguard_update hW hwW true _ _ _ _)).mpr (Step.startBatch hw hfree rfl)⟩
    have hover := hb.overlay m
    rw [hfst m] at hover
    exact hover
  | @growBatch w b hw hnew hb' hp =>
    obtain ⟨hfree, hwW⟩ := not_guarded (r := r.withSched _) hnew
    obtain ⟨hbatch, hfront, hheld⟩ := hbatch b hb'
    have hb := h.inv.beside_growBatch ho hheld (h.hand b hb').1 hwW
    refine ⟨_, hb.spoilt hs, hb.id, hb.overlay m,
      (congrArg (Step r) (unguard_update hW hwW true _ _ _ _)).mpr (Step.growBatch hw hfree hb' ?_)⟩
    rw [← hprio w hwW, ← hprio _ hfront, ← hbatch]
    exact hp
  | @touch w v q hnew =>
    obtain ⟨hfree, hwW⟩ := not_guarded (r := r.withSched _) hnew
    have hb : Beside K W (fun s => { s with link := update s.link w v, prio := update s.prio w q })
        r.sched := by
      refine ⟨fun m => ?_, Nat.le_refl _, rfl⟩
      simp only [Sched.overlay, Finset.update_piecewise_of_notMem _ _ _ hwW]
    exact ⟨_, hb.spoilt hs, hb.id, hb.overlay m,
      (congrArg (Step r) (unguard_guard hW _ _ _ _)).mpr (Step.touch hfree)⟩
  | @tick d =>
    have hb : Beside K W (fun s => { s with dispatches := d }) r.sched :=
      ⟨fun _ => rfl, Nat.le_refl _, rfl⟩
    exact ⟨_, hb.spoilt hs, hb.id, hb.overlay m,
      (congrArg (Step r) (unguard_guard hW _ _ _ _)).mpr Step.tick⟩

/-- Nothing of the memory of `K` and `W` is changed. -/
structure Untouched (K : Finset BatchPtr) (W : Finset Wptr) (s s' : Sched) : Prop where
  batch : ∀ b ∈ K, s'.batch b = s.batch b
  next : ∀ b ∈ K, s'.next b = s.next b
  state : ∀ b ∈ K, s'.state b = s.state b
  link : ∀ w ∈ W, s'.link w = s.link w
  prio : ∀ w ∈ W, s'.prio w = s.prio w

theorem untouched_overlay (t s : Sched) : Untouched K W s (t.overlay K W s) :=
  ⟨fun _ hb => Finset.piecewise_eq_of_mem _ _ _ hb, fun _ hb => Finset.piecewise_eq_of_mem _ _ _ hb,
    fun _ hb => Finset.piecewise_eq_of_mem _ _ _ hb,
    fun _ hw => Finset.piecewise_eq_of_mem _ _ _ hw,
    fun _ hw => Finset.piecewise_eq_of_mem _ _ _ hw⟩

theorem Spoilt.spoil (ho : Outside K W s L) : Spoilt K W (s.overlay K W s.spoil) :=
  ⟨ho.lt, fun _ hb => Finset.piecewise_eq_of_mem _ _ _ hb,
    fun _ hw => Finset.piecewise_eq_of_mem _ _ _ hw⟩

/-- **What is outside the layout stays outside, untouched**, whatever the scheduler does. -/
theorem HasLayout.step_outside (h : r.HasLayout L) (ho : Outside K W r.sched L)
    (hstep : Step (r.guard W) r') :
    ∃ L', (r'.unguard W).HasLayout L' ∧ Outside K W r'.sched L' ∧
      Untouched K W r.sched r'.sched ∧ r'.sched.id = r.sched.id := by
  have hs := Spoilt.spoil ho
  have hp := h.overlay ho r.sched.spoil
  have hback : ((r.withSched (r.sched.overlay K W r.sched.spoil)).withSched
      ((r.sched.overlay K W r.sched.spoil).overlay K W r.sched)) = r := by
    rw [Sched.overlay_overlay, Sched.overlay_self]
    rfl
  obtain ⟨t, hst, hid, hr', hstep'⟩ := hp.spoilt_step hs (m := r.sched)
    (by rw [show (r.withSched (r.sched.overlay K W r.sched.spoil)).sched =
      r.sched.overlay K W r.sched.spoil from rfl, hback]; exact hstep)
  obtain ⟨L', hL'⟩ := hp.step hstep'
  have ho' := hst.outside hL'.inv
  refine ⟨L', ?_, ⟨?_, ho'.unused, ho'.away⟩, ?_, ?_⟩
  · have := hL'.overlay ho' r.sched
    rw [show ((r'.unguard W).withSched t).sched = t from rfl, ← hr'] at this
    exact this
  · rw [hr']
    exact ho'.lt
  · rw [hr']
    exact untouched_overlay t r.sched
  · rw [hr']
    exact hid

end Run

end Ccsp

end Kroc
