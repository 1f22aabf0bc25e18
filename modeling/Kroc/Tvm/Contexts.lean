import Kroc.Tvm.Places

/-!
# Tvm/Contexts — several execution contexts on one memory

Execution contexts share the workspaces and the words outside them, and each has its registers, its
run queue and its timer queue.  A process waiting for something saves its context in `WS_ECTX`, and
`ADD_TO_QUEUE_ECTX` puts it on the run queue of that context.

`Scheduled` says who is where: a process is current in one context, or on one run queue, or
**parked** on something that is not the scheduler's, and never two of these.
-/

namespace Kroc

namespace Tvm

open Ectx

/-- The registers of an execution context that are the scheduler's. -/
structure Context where
  pri : Word
  wptr : Word
  iptr : Word
  fptr : Word
  bptr : Word
  tptr : Word
  tnext : Word
  timers : Bool
  interrupt : Bool

/-- The execution contexts, each at its address, and the memory they share. -/
structure Contexts where
  mem : Word → Slot → Word
  chan : Word → Word
  bytes : Word → BitVec 8
  ctx : Word → Context

/-- `add_queue_to_queue` -/
def Ectx.addQueueToQueue (s : Ectx) (front back : Word) : Ectx :=
  let s := s.set back .link notProcess
  if s.fptr = notProcess then { s with fptr := front, bptr := back }
  else { s.set s.bptr .link front with bptr := back }

namespace Contexts

variable (m : Contexts)

/-- A context with the memory. -/
def ectx (e : Word) : Ectx where
  mem := m.mem
  chan := m.chan
  bytes := m.bytes
  self := e
  wptr := (m.ctx e).wptr
  iptr := (m.ctx e).iptr
  fptr := (m.ctx e).fptr
  bptr := (m.ctx e).bptr
  tptr := (m.ctx e).tptr
  tnext := (m.ctx e).tnext
  timers := (m.ctx e).timers
  interrupt := (m.ctx e).interrupt

/-- What a context has done, for all of them. -/
def put (s : Ectx) : Contexts where
  mem := s.mem
  chan := s.chan
  bytes := s.bytes
  ctx := Function.update m.ctx s.self ⟨(m.ctx s.self).pri, s.wptr, s.iptr, s.fptr, s.bptr, s.tptr,
    s.tnext, s.timers, s.interrupt⟩

/-- `write_word`, outside the workspaces. -/
def write (address value : Word) : Contexts :=
  { m with chan := Function.update m.chan address value }

/-- `WORKSPACE_SET` -/
def set (ws : Word) (slot : Slot) (value : Word) : Contexts :=
  { m with mem := fun w k => if w = ws ∧ k = slot then value else m.mem w k }

/-- `ADD_TO_QUEUE` -/
def addToQueue (self ws : Word) : Contexts := m.put ((m.ectx self).addToQueue ws)

/-- `add_to_queue_external` -/
def addToQueueExternal (dst src ws : Word) : Ret × Contexts :=
  (if (m.ctx dst).pri.slt (m.ctx src).pri then .preempt else .cont, m.addToQueue dst ws)

/-- `ADD_TO_QUEUE_ECTX` -/
def addToQueueEctx (self ws : Word) : Ret × Contexts :=
  let dst := m.mem ws .ectx
  if dst ≠ self then m.addToQueueExternal dst self ws else (.cont, m.addToQueue self ws)

/-- `ADD_QUEUE_TO_QUEUE` -/
def addQueueToQueue (self front back : Word) : Contexts :=
  m.put ((m.ectx self).addQueueToQueue front back)

/-- `run_next_on_queue` -/
def runNextOnQueue (self now : Word) : Option (Ret × Contexts) :=
  ((m.ectx self).runNextOnQueue now).map fun r => (r.1, m.put r.2)

/-- On a run queue. -/
def Queued (w : Word) : Prop := ∃ e q, (m.ectx e).RunQueue q ∧ w ∈ q

/-- The contexts while nobody is current in one of them. -/
def away (e : Word) : Contexts := m.put (Tvm.away (m.ectx e))

@[simp] theorem mem_write (address value : Word) : (m.write address value).mem = m.mem := rfl

@[simp] theorem ctx_write (address value : Word) : (m.write address value).ctx = m.ctx := rfl

@[simp] theorem chan_write (address value a : Word) : (m.write address value).chan a =
    if a = address then value else m.chan a := Function.update_apply _ _ _ _

@[simp] theorem mem_set (ws : Word) (slot : Slot) (value w : Word) (k : Slot) :
    (m.set ws slot value).mem w k = if w = ws ∧ k = slot then value else m.mem w k := rfl

@[simp] theorem ctx_set (ws : Word) (slot : Slot) (value : Word) :
    (m.set ws slot value).ctx = m.ctx := rfl

@[simp] theorem chan_set (ws : Word) (slot : Slot) (value : Word) :
    (m.set ws slot value).chan = m.chan := rfl

variable {m} {s : Ectx} {e : Word}

theorem ectx_put_self (s : Ectx) : (m.put s).ectx s.self = s := by
  simp [ectx, put]

theorem ectx_put_of_ne (h : e ≠ s.self) : (m.put s).ectx e =
    { m.ectx e with mem := s.mem, chan := s.chan, bytes := s.bytes } := by
  simp [ectx, put, h]

theorem wptr_put_self (s : Ectx) : ((m.put s).ctx s.self).wptr = s.wptr := by simp [put]

theorem ctx_put_of_ne (h : e ≠ s.self) : (m.put s).ctx e = m.ctx e := by simp [put, h]

theorem unready_iff {w : Word} : (m.ectx e).unready w = true ↔ m.mem w .state ≠ ready :=
  decide_eq_true_iff

theorem away_ectx_self : (m.away e).ectx e = Tvm.away (m.ectx e) :=
  ectx_put_self (Tvm.away (m.ectx e))

theorem put_away (h : s.self = e) : (m.away e).put s = m.put s := by
  subst h
  simp [away, put, Tvm.away, ectx]

theorem ready_put_of_ne (h : e ≠ s.self) {q : List Word} {w : Word} :
    Ready ((m.put s).ectx e) q w ↔ Ready (m.ectx e) q w := by
  rw [ectx_put_of_ne h]
  rfl

end Contexts

/-! ## A queue behind the run queue -/

namespace Ectx

variable {s : Ectx} {q l : List Word} {f b w : Word}

theorem addQueueToQueue_of_empty (h : s.fptr = notProcess) : s.addQueueToQueue f b =
    { s.set b .link notProcess with fptr := f, bptr := b } := if_pos h

theorem addQueueToQueue_of_ne (h : s.fptr ≠ notProcess) : s.addQueueToQueue f b =
    { (s.set b .link notProcess).set s.bptr .link f with bptr := b } := if_neg h

theorem mem_addQueueToQueue {k : Slot} (hk : k ≠ .link) :
    (s.addQueueToQueue f b).mem w k = s.mem w k := by
  by_cases h : s.fptr = notProcess
  · rw [addQueueToQueue_of_empty h]
    simp [hk]
  · rw [addQueueToQueue_of_ne h]
    simp [hk]

theorem regs_addQueueToQueue (s : Ectx) (f b : Word) : s.addQueueToQueue f b = { s with
    mem := (s.addQueueToQueue f b).mem, fptr := (s.addQueueToQueue f b).fptr,
    bptr := (s.addQueueToQueue f b).bptr } := by
  by_cases h : s.fptr = notProcess
  · rw [addQueueToQueue_of_empty h]
    rfl
  · rw [addQueueToQueue_of_ne h]
    rfl

theorem link_addQueueToQueue (hrun : s.RunQueue q) (hq : w ∉ q) (hw : w ≠ b) :
    (s.addQueueToQueue f b).mem w .link = s.mem w .link := by
  by_cases h : s.fptr = notProcess
  · rw [addQueueToQueue_of_empty h]
    simp [hw]
  · have hback : w ≠ s.bptr := fun e => hq (e ▸ hrun.back_mem fun e => h (hrun.null_iff.mpr e))
    rw [addQueueToQueue_of_ne h]
    simp [hw, hback]

/-- **A queue is put behind the run queue**, its last link still to be set. -/
theorem RunQueue.append (h : s.RunQueue q) (hl : Route s.links f b l) (hnodup : l.Nodup)
    (hnull : ∀ w ∈ l, w ≠ notProcess) (hfresh : ∀ w ∈ l, w ∉ q) :
    (s.addQueueToQueue f b).RunQueue (q ++ l) := by
  have hb := hl.back_mem
  have hlast : ∀ x ∈ l.getLast?, b = x := fun x hx => Option.some.inj (hl.getLast?.symm.trans hx)
  by_cases hempty : s.fptr = notProcess
  · obtain rfl := h.null_iff.mp hempty
    rw [addQueueToQueue_of_empty hempty]
    refine ⟨hl.linked ?_ (fun x _ hx => ?_) hnodup hnull, hlast⟩
    · simp [links]
    · simp [links, hx]
  · have hback : s.bptr ∈ q := h.back_mem fun e => hempty (h.null_iff.mpr e)
    have hne : ∀ x ∈ l, x ≠ s.bptr := fun x hx e => hfresh x hx (e ▸ hback)
    rw [RunQueue, addQueueToQueue_of_ne hempty]
    refine Fifo.append (g := f) h (hl.linked ?_ (fun x hx hxb => ?_) hnodup hnull) hlast hl.ne_nil
      (fun _ => ?_) (fun x hx hxb => ?_) (fun e => absurd e hempty) fun _ => rfl
    · simp [links, hne b hb]
    · simp [links, hne x hx, hxb]
    · simp [links]
    · have hxl : x ≠ b := fun e => hfresh b hb (e ▸ hx)
      simp [links, hxb, hxl]

end Ectx

/-! ## The links of who is not scheduled -/

namespace Ectx

variable {s s' : Ectx} {q l : List Word} {w x now : Word} {fuel : ℕ}

/-- Adding to the run queue touches the links of its processes only. -/
theorem link_addToQueue (hrun : s.RunQueue q) (hw : w ≠ x) (hq : w ∉ q) :
    (s.addToQueue x).mem w .link = s.mem w .link := by
  by_cases h : s.fptr = notProcess
  · rw [addToQueue_of_empty h]
    simp [hw]
  · have hback : w ≠ s.bptr := fun e => hq (e ▸ hrun.back_mem fun e => h (hrun.null_iff.mpr e))
    rw [addToQueue_of_ne h]
    simp [hw, hback]

theorem link_expire (hrun : s.RunQueue q) (hq : w ∉ q) (hx : w = x → s.mem x .state = ready) :
    (s.expire now x).mem w .link = s.mem w .link := by
  have hstate : ((s.set x .tlink timeSet).set x .time now).mem x .state = s.mem x .state := by simp
  unfold expire
  dsimp only
  rw [hstate]
  by_cases hready : s.mem x .state = ready
  · rw [if_neg (not_not.mpr hready)]
    simp
  · rw [if_pos hready]
    have hrun' : (((s.set x .tlink timeSet).set x .time now).set x .state ready).RunQueue q :=
      Fifo.congr hrun fun y _ => by simp [links]
    rw [link_addToQueue hrun' (fun e => hready (hx e)) hq]
    simp

/-- A walk touches the links of the run queue and of who has expired only. -/
theorem link_walkLoop (hx : x ≠ notProcess)
    (hlinked : Linked notProcess s.tlinks (s.tlinks x) l) (hnot : x ∉ l) (hrun : s.RunQueue q)
    (hfree : ∀ v ∈ x :: l, s.unready v = true → v ∉ q) (hq : w ∉ q)
    (hw : w ∈ x :: l → s.mem w .state = ready) (h : walkLoop now fuel s x = some s') :
    s'.mem w .link = s.mem w .link := by
  induction l generalizing x s q fuel with
  | nil =>
    cases fuel with
    | zero => cases h
    | succ fuel =>
      have hnull : s.mem x .tlink = notProcess := hlinked
      rw [walkLoop, hnull, if_pos rfl] at h
      cases h
      exact link_expire hrun hq fun e => e ▸ hw (e ▸ List.mem_cons_self)
  | cons y l ih =>
    cases fuel with
    | zero => cases h
    | succ fuel =>
      obtain ⟨hyl, -⟩ := List.nodup_cons.mp hlinked.nodup
      obtain ⟨hy, hyz, hrest⟩ := hlinked
      have hnext : s.mem x .tlink = y := hy
      obtain ⟨hwalk, hrun', -⟩ := expire_spec hrun hx (hfree x List.mem_cons_self)
      have hlink : (s.expire now x).mem w .link = s.mem w .link :=
        link_expire hrun hq fun e => e ▸ hw (e ▸ List.mem_cons_self)
      have hkeep : ∀ v, v ≠ x → ∀ k, k ≠ .link → (s.expire now x).mem v k = s.mem v k :=
        fun v hv k hk => hwalk.keep v k hk fun e => absurd (List.mem_singleton.mp e) hv
      have hne : ∀ v ∈ y :: l, v ≠ x := fun v hv e => hnot (e ▸ hv)
      have hlinks : ∀ v ∈ y :: l, (s.expire now x).tlinks v = s.tlinks v :=
        fun v hv => hkeep v (hne v hv) .tlink (by decide)
      rw [walkLoop, hnext, if_neg hyz] at h
      dsimp only at h
      split_ifs at h
      · cases h
        exact hlink
      · refine (ih hyz ?_ hyl hrun' ?_ ?_ ?_ h).trans hlink
        · rw [hlinks y List.mem_cons_self]
          exact Linked.congr (fun v hv => hlinks v (List.mem_cons_of_mem _ hv)) hrest
        · intro v hv hun hmem
          rw [unready, hkeep v (hne v hv) _ (by decide)] at hun
          rcases List.mem_append.mp hmem with hmem | hmem
          · exact hfree v (List.mem_cons_of_mem _ hv) hun hmem
          · exact hne v hv (List.mem_singleton.mp (List.mem_filter.mp hmem).1)
        · intro hmem
          rcases List.mem_append.mp hmem with hmem | hmem
          · exact hq hmem
          · obtain ⟨hmem, hun⟩ := List.mem_filter.mp hmem
            obtain rfl := List.mem_singleton.mp hmem
            rw [unready, hw List.mem_cons_self] at hun
            simp at hun
        · intro hmem
          rw [hkeep w (hne w hmem) _ (by decide)]
          exact hw (List.mem_cons_of_mem _ hmem)

theorem takeNext_mem (s : Ectx) : s.takeNext.2.mem = s.mem := by
  unfold takeNext
  dsimp only
  split_ifs <;> rfl

/-- **Running the next process** touches the links of the run queue and of who expires only. -/
theorem link_runNextOnQueue {c : List Word} (hrun : s.RunQueue q) (hpending : Pending s c)
    (hfree : ∀ v ∈ c, s.unready v = true → v ∉ q) (hq : w ∉ q)
    (hw : w ∈ c → s.mem w .state = ready) {r : Ret × Ectx}
    (h : s.runNextOnQueue now = some r) : r.2.mem w .link = s.mem w .link := by
  have hwalk : ∀ {t : Ectx}, s.walkTimerQueue now = some t → t.mem w .link = s.mem w .link := by
    intro t ht
    rw [walkTimerQueue] at ht
    split_ifs at ht with hnone
    · cases ht
      rfl
    · obtain ⟨l, rfl, hl⟩ := hpending.linked.exists_cons (not_or.mp hnone).1
      obtain ⟨hnot, -⟩ := List.nodup_cons.mp hpending.nodup
      exact link_walkLoop (not_or.mp hnone).1 hl hnot hrun hfree hq hw ht
  rw [runNextOnQueue] at h
  split_ifs at h
  · obtain ⟨r', hr', rfl⟩ := Option.map_eq_some_iff.mp h
    have hsync : r'.2.mem w .link = s.mem w .link := by
      rw [synchronise] at hr'
      split_ifs at hr'
      · cases hr'
        rfl
      · obtain ⟨u, hu, rfl⟩ := Option.map_eq_some_iff.mp hr'
        dsimp only
        split_ifs
        · exact (hwalk hu : u.mem w .link = s.mem w .link)
        · exact hwalk hu
    split_ifs
    · rw [takeNext_mem]
      exact hsync
    · exact hsync
  · cases h
    rw [takeNext_mem]

end Ectx

/-! ## Who is where -/

/-- **Everybody is in one place**: `q` and `c` are the run queues and the timer queues, `parked` is
who waits for something that is not the scheduler's. -/
structure Scheduled (m : Contexts) (q c : Word → List Word) (parked : List Word) : Prop where
  run : ∀ e, (m.ectx e).RunQueue (q e)
  pending : ∀ e, Pending (m.ectx e) (c e)
  current : ∀ e, (m.ctx e).wptr ∉ q e
  once : ∀ {e e' w}, Ready (m.ectx e) (q e) w → Ready (m.ectx e') (q e') w → e = e'
  timed : ∀ {e e' w}, w ∈ c e → w ∈ c e' → e = e'
  nodup : parked.Nodup
  apart : ∀ w ∈ parked, w ≠ notProcess ∧ ∀ e, ¬ Ready (m.ectx e) (q e) w
  free : ∀ e, ∀ w ∈ c e, m.mem w .state ≠ ready →
    w ∉ parked ∧ ∀ e', ¬ Ready (m.ectx e') (q e') w

namespace Scheduled

variable {m m' : Contexts} {q c : Word → List Word} {parked parked' : List Word} {e w : Word}

theorem not_ready (h : Scheduled m q c parked) (hw : Ready (m.ectx e) (q e) w) :
    ∀ e', e' ≠ e → ¬ Ready (m.ectx e') (q e') w := fun _ hne hw' => hne (h.once hw' hw)

theorem not_parked (h : Scheduled m q c parked) (hw : Ready (m.ectx e) (q e) w) : w ∉ parked :=
  fun hp => (h.apart w hp).2 e hw

/-- **What one context has done**, seen by all of them. -/
theorem put (h : Scheduled m q c parked) {s : Ectx} {q₁ c₁ p : List Word} (hrun : s.RunQueue q₁)
    (hpending : Pending s c₁) (hcurrent : s.wptr ∉ q₁)
    (hlink : ∀ e ≠ s.self, ∀ w ∈ q e, s.mem w .link = m.mem w .link)
    (htimer : ∀ e ≠ s.self, ∀ w ∈ c e, ∀ k : Slot, k = .tlink ∨ k = .time →
      s.mem w k = m.mem w k)
    (honce : ∀ w, Ready s q₁ w → ∀ e ≠ s.self, ¬ Ready (m.ectx e) (q e) w)
    (htimed : ∀ w ∈ c₁, ∀ e ≠ s.self, w ∉ c e) (hnodup : p.Nodup)
    (hparked : ∀ w ∈ p, w ≠ notProcess ∧ ¬ Ready s q₁ w ∧
      ∀ e ≠ s.self, ¬ Ready (m.ectx e) (q e) w)
    (hfree : ∀ e, ∀ w ∈ Function.update c s.self c₁ e, s.mem w .state ≠ ready →
      w ∉ p ∧ ¬ Ready s q₁ w ∧ ∀ e ≠ s.self, ¬ Ready (m.ectx e) (q e) w) :
    Scheduled (m.put s) (Function.update q s.self q₁) (Function.update c s.self c₁) p := by
  have hready : ∀ e w, Ready ((m.put s).ectx e) (Function.update q s.self q₁ e) w ↔
      (e = s.self ∧ Ready s q₁ w) ∨ (e ≠ s.self ∧ Ready (m.ectx e) (q e) w) := by
    intro e w
    by_cases he : e = s.self
    · rw [he, Contexts.ectx_put_self, Function.update_self]
      exact ⟨fun h => Or.inl ⟨rfl, h⟩, fun h => h.elim And.right fun h => absurd rfl h.1⟩
    · rw [Contexts.ready_put_of_ne he, Function.update_of_ne he]
      exact ⟨fun h => Or.inr ⟨he, h⟩, fun h => h.elim (fun h => absurd h.1 he) And.right⟩
  refine ⟨fun e => ?_, fun e => ?_, fun e => ?_, fun {e e' w} hw hw' => ?_,
    fun {e e' w} hw hw' => ?_, hnodup, fun w hw => ⟨(hparked w hw).1, fun e hr => ?_⟩,
    fun e w hw hstate => ?_⟩
  · by_cases he : e = s.self
    · rw [he, Contexts.ectx_put_self, Function.update_self]
      exact hrun
    · rw [Contexts.ectx_put_of_ne he, Function.update_of_ne he]
      exact Fifo.congr (h.run e) (hlink e he)
  · by_cases he : e = s.self
    · rw [he, Contexts.ectx_put_self, Function.update_self]
      exact hpending
    · rw [Contexts.ectx_put_of_ne he, Function.update_of_ne he]
      have hp := h.pending e
      refine ⟨hp.linked.congr fun w hw => htimer e he w hw _ (Or.inl rfl), fun hne => ?_⟩
      have hmem : (m.ectx e).tptr ∈ c e := by
        obtain ⟨l, hl, -⟩ := hp.linked.exists_cons hne
        rw [hl]
        exact List.mem_cons_self
      exact (hp.next hne).trans (htimer e he _ hmem _ (Or.inr rfl)).symm
  · by_cases he : e = s.self
    · rw [he, Contexts.wptr_put_self, Function.update_self]
      exact hcurrent
    · rw [Contexts.ctx_put_of_ne he, Function.update_of_ne he]
      exact h.current e
  · rcases (hready e w).mp hw with ⟨he, hw⟩ | ⟨he, hw⟩ <;>
      rcases (hready e' w).mp hw' with ⟨he', hw'⟩ | ⟨he', hw'⟩
    · exact he.trans he'.symm
    · exact absurd hw' (honce w hw e' he')
    · exact absurd hw (honce w hw' e he)
    · exact h.once hw hw'
  · by_cases he : e = s.self <;> by_cases he' : e' = s.self
    · exact he.trans he'.symm
    · rw [he, Function.update_self] at hw
      rw [Function.update_of_ne he'] at hw'
      exact absurd hw' (htimed w hw e' he')
    · rw [he', Function.update_self] at hw'
      rw [Function.update_of_ne he] at hw
      exact absurd hw (htimed w hw' e he)
    · rw [Function.update_of_ne he] at hw
      rw [Function.update_of_ne he'] at hw'
      exact h.timed hw hw'
  · rcases (hready e w).mp hr with ⟨-, hr⟩ | ⟨he, hr⟩
    · exact (hparked w hw).2.1 hr
    · exact (hparked w hw).2.2 e he hr
  · obtain ⟨hnot, hown, hothers⟩ := hfree e w hw hstate
    refine ⟨hnot, fun e' hr => ?_⟩
    rcases (hready e' w).mp hr with ⟨-, hr⟩ | ⟨he', hr⟩
    · exact hown hr
    · exact hothers e' he' hr

/-- The scheduler's words are the same. -/
theorem congr (h : Scheduled m q c parked) (hctx : m'.ctx = m.ctx)
    (hlink : ∀ e, ∀ w ∈ q e, m'.mem w .link = m.mem w .link)
    (htimer : ∀ e, ∀ w ∈ c e, ∀ k : Slot, k = .tlink ∨ k = .time ∨ k = .state →
      m'.mem w k = m.mem w k) : Scheduled m' q c parked := by
  have hectx : ∀ e, m'.ectx e =
      { m.ectx e with mem := m'.mem, chan := m'.chan, bytes := m'.bytes } := by
    intro e
    simp only [Contexts.ectx, hctx]
  have hready : ∀ e w, Ready (m'.ectx e) (q e) w ↔ Ready (m.ectx e) (q e) w := by
    intro e w
    rw [hectx]
    rfl
  refine ⟨fun e => ?_, fun e => ?_, fun e => ?_, fun hw hw' => ?_, h.timed, h.nodup,
    fun w hw => ⟨(h.apart w hw).1, fun e hr => ?_⟩, fun e w hw hstate => ?_⟩
  · rw [hectx]
    exact Fifo.congr (h.run e) (hlink e)
  · rw [hectx]
    have hp := h.pending e
    refine ⟨hp.linked.congr fun w hw => htimer e w hw _ (Or.inl rfl), fun hne => ?_⟩
    have hmem : (m.ectx e).tptr ∈ c e := by
      obtain ⟨l, hl, -⟩ := hp.linked.exists_cons hne
      rw [hl]
      exact List.mem_cons_self
    exact (hp.next hne).trans (htimer e _ hmem _ (Or.inr (Or.inl rfl))).symm
  · rw [hctx]
    exact h.current e
  · exact h.once ((hready _ _).mp hw) ((hready _ _).mp hw')
  · exact (h.apart w hw).2 e ((hready _ _).mp hr)
  · rw [htimer e w hw _ (Or.inr (Or.inr rfl))] at hstate
    obtain ⟨hnot, hothers⟩ := h.free e w hw hstate
    exact ⟨hnot, fun e' hr => hothers e' ((hready _ _).mp hr)⟩

/-- **The current process is parked.** -/
theorem park (h : Scheduled m q c parked) (hw : (m.ctx e).wptr ≠ notProcess) :
    Scheduled (m.away e) q c (parked ++ [(m.ctx e).wptr]) := by
  have hcur : Ready (m.ectx e) (q e) (m.ctx e).wptr := Or.inr ⟨rfl, hw⟩
  have hself : (away (m.ectx e)).self = e := rfl
  have hput := h.put (s := away (m.ectx e)) (p := parked ++ [(m.ctx e).wptr]) (h.run e)
    ⟨(h.pending e).linked, (h.pending e).next⟩ (fun hq => (h.run e).1.ne_null _ hq rfl)
      (fun _ _ _ _ => rfl) (fun _ _ _ _ _ _ => rfl)
    (fun w hr => h.not_ready (Or.inl (ready_away.mp hr)))
    (fun w hc e' hne hc' => hne (h.timed hc' hc))
    ?_ ?_ ?_
  · rw [hself, Function.update_eq_self, Function.update_eq_self] at hput
    exact hput
  · rw [List.nodup_append]
    refine ⟨h.nodup, List.nodup_singleton _, fun x hx y hy e => ?_⟩
    obtain rfl := List.mem_singleton.mp hy
    exact h.not_parked hcur (e ▸ hx)
  · intro w hp
    rcases List.mem_append.mp hp with hp | hp
    · obtain ⟨hne, hnot⟩ := h.apart w hp
      exact ⟨hne, fun hr => hnot e (Or.inl (ready_away.mp hr)), fun e' _ => hnot e'⟩
    · obtain rfl := List.mem_singleton.mp hp
      exact ⟨hw, fun hr => h.current e (ready_away.mp hr), h.not_ready hcur⟩
  · intro e' w hc hstate
    rw [hself, Function.update_eq_self] at hc
    obtain ⟨hnot, hothers⟩ := h.free e' w hc hstate
    refine ⟨fun hp => ?_, fun hr => hothers e (Or.inl (ready_away.mp hr)), fun e'' _ => hothers e''⟩
    rcases List.mem_append.mp hp with hp | hp
    · exact hnot hp
    · obtain rfl := List.mem_singleton.mp hp
      exact hothers e hcur

section Next

variable {now : Word} {r : Ectx} {q₁ c₁ gone : List Word}

/-- Who can run after the next process has been taken is not anywhere else. -/
theorem ready_next (h : Scheduled (m.away e) q c parked)
    (hr : Rescheduled (m.ectx e) r now (q e) (c e) q₁ c₁ gone) (hw : Ready r q₁ w) :
    w ∉ parked ∧ ∀ e' ≠ e, ¬ Ready ((m.away e).ectx e') (q e') w := by
  rcases List.mem_append.mp ((hr.ready_iff w).mp hw) with hq | hgone
  · have hready : Ready ((m.away e).ectx e) (q e) w := Or.inl hq
    exact ⟨h.not_parked hready, h.not_ready hready⟩
  · obtain ⟨hgone, hun⟩ := List.mem_filter.mp hgone
    have hc : w ∈ c e := hr.split ▸ List.mem_append_left _ hgone
    have hstate : m.mem w .state ≠ ready := Contexts.unready_iff.mp hun
    obtain ⟨hnot, hothers⟩ := h.free e w hc hstate
    exact ⟨hnot, fun e' _ => hothers e'⟩

/-- The run queue and who has expired are different processes. -/
theorem nodup_next (h : Scheduled (m.away e) q c parked)
    (hr : Rescheduled (m.ectx e) r now (q e) (c e) q₁ c₁ gone) :
    (q e ++ gone.filter (m.ectx e).unready).Nodup := by
  have hc : (c e).Nodup := (h.pending e).nodup
  rw [hr.split, List.nodup_append] at hc
  rw [List.nodup_append]
  refine ⟨(h.run e).1.nodup, hc.1.filter _, fun x hx y hy hxy => ?_⟩
  obtain ⟨hy, hun⟩ := List.mem_filter.mp hy
  have hstate : m.mem y .state ≠ ready := Contexts.unready_iff.mp hun
  have hy' : y ∈ c e := hr.split ▸ List.mem_append_left _ hy
  exact (h.free e y hy' hstate).2 e (Or.inl (hxy ▸ hx))

/-- **The next process runs** in one context: nobody is lost, and the words of who is
parked stay. -/
theorem next (h : Scheduled (m.away e) q c parked) (now : Word) :
    ∃ r q' c', m.runNextOnQueue e now = some r ∧ Scheduled r.2 q' c' parked ∧
      r.2.chan = m.chan ∧ r.2.bytes = m.bytes ∧
      (∀ w ∈ parked, r.2.mem w .link = m.mem w .link) ∧
      (∀ w k, k ≠ .link → (w ∉ c e ∨ k = .iptr ∨ k = .ectx) → r.2.mem w k = m.mem w k) ∧
      ∀ e', e' ≠ e → q' e' = q e' ∧ r.2.ctx e' = m.ctx e' := by
  have hrun : (m.ectx e).RunQueue (q e) := by
    have := h.run e
    rw [Contexts.away_ectx_self] at this
    exact this
  have hpending : Pending (m.ectx e) (c e) := by
    have := h.pending e
    rw [Contexts.away_ectx_self] at this
    exact ⟨this.linked, this.next⟩
  have hfree : ∀ v ∈ c e, (m.ectx e).unready v = true → v ∉ q e :=
    fun v hv hun hq =>
      (h.free e v hv ((Contexts.unready_iff (m := m) (e := e)).mp hun)).2 e (Or.inl hq)
  obtain ⟨r, q₁, c₁, gone, hr, hresch⟩ := runNextOnQueue_spec now hrun hpending hfree
  have hself : r.2.self = e := hresch.self
  have hsub : ∀ v ∈ c₁, v ∈ c e := fun v hv => hresch.split ▸ List.mem_append_right _ hv
  have hgone : ∀ v ∈ gone, v ∈ c e := fun v hv => hresch.split ▸ List.mem_append_left _ hv
  have hlink : ∀ w, w ∉ q e → (w ∈ c e → m.mem w .state = ready) →
      r.2.mem w .link = m.mem w .link := fun w hq hc =>
    link_runNextOnQueue hrun hpending hfree hq hc hr
  have hput := h.put (s := r.2) hresch.run
    hresch.pending ?_ ?_ ?_ (fun w hw => hself.symm ▸ (h.ready_next hresch hw).2)
    (fun w hw e' hne hc => hne (hself.symm ▸ h.timed hc (hsub w hw))) h.nodup
    (fun w hw => ⟨(h.apart w hw).1, fun hr => (h.ready_next hresch hr).1 hw,
      fun e' _ => (h.apart w hw).2 e'⟩) ?_
  · rw [hself, Contexts.put_away hself] at hput
    refine ⟨_, _, _, by rw [Contexts.runNextOnQueue, hr, Option.map_some], hput, hresch.chan,
      hresch.bytes, fun w hw => hlink w (fun hq => (h.apart w hw).2 e (Or.inl hq)) fun hc => ?_,
      fun w k hkl hk => ?_, fun e' hne => ⟨Function.update_of_ne hne _ _, ?_⟩⟩
    · by_contra hne
      exact (h.free e w hc hne).1 hw
    · rcases hk with hc | rfl | rfl
      · exact hresch.keep w k hkl fun hg => absurd (hgone w hg) hc
      · exact hresch.keep w _ hkl fun _ => ⟨by decide, by decide, by decide⟩
      · exact hresch.keep w _ hkl fun _ => ⟨by decide, by decide, by decide⟩
    · exact Contexts.ctx_put_of_ne (hself.symm ▸ hne)
  · rcases hresch.next with ⟨hwptr, -⟩ | ⟨-, hq, -⟩
    · exact fun hq => hresch.run.1.ne_null _ hq hwptr
    · have := h.nodup_next hresch
      rw [← hq] at this
      exact (List.nodup_cons.mp this).1
  · intro e' hne w hw
    rw [hself] at hne
    have hready : Ready ((m.away e).ectx e') (q e') w := Or.inl hw
    refine hlink w (fun hq => hne (h.once hready (Or.inl hq))) fun hc => ?_
    by_contra hun
    exact (h.free e w hc hun).2 e' hready
  · intro e' hne w hw k hk
    rw [hself] at hne
    refine hresch.keep w k ?_ fun hg => absurd (h.timed hw (hgone w hg)) hne
    rcases hk with rfl | rfl <;> decide
  · intro e' w hw hun
    have hw' : w ∈ c e' := by
      by_cases he : e' = r.2.self
      · rw [he, Function.update_self] at hw
        rw [he, hself]
        exact hsub w hw
      · rwa [Function.update_of_ne he] at hw
    have hnot : w ∉ gone := fun hg => hun (hresch.expired w hg).2.2
    rw [hresch.keep w .state (by decide) fun hg => absurd hg hnot] at hun
    obtain ⟨hp, hothers⟩ := h.free e' w hw' hun
    refine ⟨hp, fun hr => ?_, fun e'' _ => hothers e''⟩
    rcases List.mem_append.mp ((hresch.ready_iff w).mp hr) with hq | hg
    · exact hothers e (Or.inl hq)
    · exact hnot (List.mem_filter.mp hg).1

end Next

/-- **Parked processes are resumed**: they go to the back of the run queue of one context. -/
theorem resume {l : List Word} (h : Scheduled m q c (l ++ parked)) {s : Ectx} (hself : s.self = e)
    (hrun : s.RunQueue (q e ++ l)) (hwptr : s.wptr = (m.ctx e).wptr)
    (htptr : s.tptr = (m.ctx e).tptr) (htnext : s.tnext = (m.ctx e).tnext)
    (hmem : ∀ w k, k ≠ Slot.link → s.mem w k = m.mem w k)
    (hlink : ∀ w, w ∉ q e → w ∉ l → s.mem w .link = m.mem w .link) :
    Scheduled (m.put s) (Function.update q e (q e ++ l)) c parked := by
  have hparked : ∀ w ∈ l, ∀ e', ¬ Ready (m.ectx e') (q e') w :=
    fun w hw => (h.apart w (List.mem_append_left _ hw)).2
  have hready : ∀ w, Ready s (q e ++ l) w → w ∈ l ∨ Ready (m.ectx e) (q e) w := by
    rintro w (hw | ⟨hw, hne⟩)
    · exact (List.mem_append.mp hw).symm.imp id Or.inl
    · exact Or.inr (Or.inr ⟨hw.trans hwptr, hne⟩)
  have honce : ∀ w, Ready s (q e ++ l) w → ∀ e', e' ≠ e → ¬ Ready (m.ectx e') (q e') w := by
    intro w hw
    rcases hready w hw with hl | hr
    · exact fun e' _ => hparked w hl e'
    · exact h.not_ready hr
  have hnodup := List.nodup_append.mp h.nodup
  have hput := h.put (s := s) hrun ?_ ?_ ?_ ?_
    (fun w hw => hself.symm ▸ honce w hw)
    (fun w hw e' hne hc => hne (hself.symm ▸ h.timed hc hw)) hnodup.2.1 ?_ ?_
  · rw [hself, Function.update_eq_self] at hput
    exact hput
  · have hp := h.pending e
    refine ⟨?_, fun hne => ?_⟩
    · rw [htptr]
      exact hp.linked.congr fun w _ => hmem w .tlink (by decide)
    · rw [htnext, htptr, hmem _ _ (by decide)]
      exact hp.next fun e => hne (htptr.trans e)
  · rw [hwptr]
    intro hq
    rcases List.mem_append.mp hq with hq | hl
    · exact h.current e hq
    · exact hparked _ hl e (Or.inr ⟨rfl, (h.apart _ (List.mem_append_left _ hl)).1⟩)
  · intro e' hne w hw
    rw [hself] at hne
    have hr : Ready (m.ectx e') (q e') w := Or.inl hw
    exact hlink w (fun hq => hne (h.once hr (Or.inl hq))) fun hl => hparked w hl e' hr
  · rintro e' - w - k (rfl | rfl) <;> exact hmem w _ (by decide)
  · intro w hw
    obtain ⟨hne, hnot⟩ := h.apart w (List.mem_append_right _ hw)
    refine ⟨hne, fun hr => ?_, fun e' _ => hnot e'⟩
    rcases hready w hr with hl | hr
    · exact hnodup.2.2 w hl w hw rfl
    · exact hnot e hr
  · intro e' w hw hstate
    rw [hself, Function.update_eq_self] at hw
    rw [hmem w _ (by decide)] at hstate
    obtain ⟨hnot, hothers⟩ := h.free e' w hw hstate
    rw [List.mem_append, not_or] at hnot
    exact ⟨hnot.2, fun hr => (hready w hr).elim hnot.1 (hothers e), fun e'' _ => hothers e''⟩

/-- **`add_to_queue`** resumes one process. -/
theorem addToQueue (h : Scheduled m q c (w :: parked)) (e : Word) :
    Scheduled (m.addToQueue e w) (Function.update q e (q e ++ [w])) c parked ∧
      (∀ v ∈ parked, (m.addToQueue e w).mem v .link = m.mem v .link) := by
  obtain ⟨hne, hnot⟩ := h.apart w List.mem_cons_self
  have hregs := regs_addToQueue (m.ectx e) w
  have hlink : ∀ v, v ∉ q e → v ≠ w → ((m.ectx e).addToQueue w).mem v .link = m.mem v .link :=
    fun v hq hv => link_addToQueue (h.run e) hv hq
  refine ⟨h.resume (l := [w]) (s := (m.ectx e).addToQueue w) (by rw [hregs]; rfl)
    ((h.run e).add hne fun hq => hnot e (Or.inl hq)) (by rw [hregs]; rfl) (by rw [hregs]; rfl)
    (by rw [hregs]; rfl) (fun v k hk => mem_addToQueue hk w v)
    fun v hq hv => hlink v hq fun e => hv (e ▸ List.mem_cons_self), fun v hv => ?_⟩
  have hv' := (h.apart v (List.mem_cons_of_mem _ hv)).2 e
  exact hlink v (fun hq => hv' (Or.inl hq)) fun e => (List.nodup_cons.mp h.nodup).1 (e ▸ hv)

/-- Who is parked is on no run queue. -/
theorem not_queued (h : Scheduled m q c parked) (hw : w ∈ parked) : ¬ m.Queued w := by
  rintro ⟨e, l, hl, hmem⟩
  rw [hl.unique (h.run e)] at hmem
  exact (h.apart w hw).2 e (Or.inl hmem)

/-- Who is parked is current nowhere. -/
theorem not_current (h : Scheduled m q c parked) (hw : w ∈ parked) (e : Word) :
    (m.ctx e).wptr ≠ w :=
  fun heq => (h.apart w hw).2 e (Or.inr ⟨heq.symm, (h.apart w hw).1⟩)

/-- **The current process stops**: it is parked behind the others, and the next process runs. -/
theorem stop (h : Scheduled m q c parked) (hw : (m.ctx e).wptr ≠ notProcess) (now : Word) :
    ∃ r q' c', m.runNextOnQueue e now = some r ∧
      Scheduled r.2 q' c' (parked ++ [(m.ctx e).wptr]) ∧ r.2.chan = m.chan ∧
      r.2.bytes = m.bytes ∧
      (∀ v ∈ parked ++ [(m.ctx e).wptr], r.2.mem v .link = m.mem v .link) ∧
      (∀ v k, k ≠ .link → v ∉ c e → r.2.mem v k = m.mem v k) ∧
      (r.2.ctx e).wptr ≠ (m.ctx e).wptr := by
  obtain ⟨r, q', c', hr, hsched', hchan, hbytes, hlinks, hkeep, -⟩ := (h.park hw).next now
  exact ⟨r, q', c', hr, hsched', hchan, hbytes, hlinks, fun v k hk hv => hkeep v k hk (Or.inl hv),
    hsched'.not_current (by simp) e⟩

/-- **The current process blocks**: it writes its own words and links of those who are parked, is
parked behind them, and the next process runs. -/
theorem block (h : Scheduled m q c parked) (hw : (m.ctx e).wptr ≠ notProcess)
    (hctx : m'.ctx = m.ctx)
    (hlink : ∀ v, v ≠ (m.ctx e).wptr → v ∉ parked → m'.mem v .link = m.mem v .link)
    (htimer : ∀ v k, k = Slot.tlink ∨ k = .time ∨ k = .state → m'.mem v k = m.mem v k)
    (now : Word) :
    ∃ r q' c', m'.runNextOnQueue e now = some r ∧
      Scheduled r.2 q' c' (parked ++ [(m.ctx e).wptr]) ∧ r.2.chan = m'.chan ∧
      (∀ v ∈ parked ++ [(m.ctx e).wptr], r.2.mem v .link = m'.mem v .link) ∧
      (r.2.ctx e).wptr ≠ (m.ctx e).wptr := by
  have hcur : Ready (m.ectx e) (q e) (m.ctx e).wptr := Or.inr ⟨rfl, hw⟩
  have hsched : Scheduled m' q c parked := by
    refine h.congr hctx (fun e' v hv => ?_) fun _ v _ k hk => htimer v k hk
    have hr : Ready (m.ectx e') (q e') v := Or.inl hv
    refine hlink v (fun heq => ?_) (h.not_parked hr)
    obtain rfl := h.once hr (heq ▸ hcur)
    exact h.current e' (heq ▸ hv)
  obtain ⟨r, q', c', hr, hsched', hchan, -, hlinks, -, hne⟩ :=
    hsched.stop (e := e) (by rwa [hctx]) now
  rw [hctx] at hsched' hlinks hne
  exact ⟨r, q', c', hr, hsched', hchan, hlinks, hne⟩

/-- **`add_queue_to_queue`** resumes all who are parked. -/
theorem addQueueToQueue {f b : Word} (h : Scheduled m q c parked)
    (hl : Route (fun w => m.mem w .link) f b parked) (e : Word) :
    Scheduled (m.addQueueToQueue e f b) (Function.update q e (q e ++ parked)) c [] := by
  have hregs := regs_addQueueToQueue (m.ectx e) f b
  have hfresh : ∀ w ∈ parked, w ∉ q e := fun w hw hq => (h.apart w hw).2 e (Or.inl hq)
  rw [← List.append_nil parked] at h
  refine h.resume (s := (m.ectx e).addQueueToQueue f b) (by rw [hregs]; rfl)
    ((h.run e).append hl (List.append_nil parked ▸ h.nodup)
      (fun w hw => (h.apart w (List.mem_append_left _ hw)).1) hfresh)
    (by rw [hregs]; rfl) (by rw [hregs]; rfl) (by rw [hregs]; rfl)
    (fun w k hk => mem_addQueueToQueue hk)
    fun w hq hw => link_addQueueToQueue (h.run e) hq fun e => hw (e ▸ hl.back_mem)

end Scheduled

/-- Two contexts at 4 and 8, with a process current in each. -/
def twoCurrent : Contexts where
  mem _ _ := 0
  chan _ := 0
  bytes _ := 0
  ctx e := ⟨0, if e = 4 then 64 else if e = 8 then 128 else 0, 0, 0, 0, 0, 0, false, false⟩

theorem twoCurrent_scheduled : Scheduled twoCurrent (fun _ => []) (fun _ => []) [] := by
  have hready : ∀ e w, Ready (twoCurrent.ectx e) [] w → w = 64 ∧ e = 4 ∨ w = 128 ∧ e = 8 := by
    rintro e w (hw | ⟨hw, hne⟩)
    · exact absurd hw List.not_mem_nil
    · have hwptr : w = if e = 4 then 64 else if e = 8 then 128 else 0 := hw
      split_ifs at hwptr with h h'
      · exact Or.inl ⟨hwptr, h⟩
      · exact Or.inr ⟨hwptr, h'⟩
      · exact absurd hwptr hne
  refine ⟨fun e => Fifo.nil rfl, fun e => ⟨rfl, fun hne => absurd rfl hne⟩,
    fun e => List.not_mem_nil, fun {e e' w} hw hw' => ?_, fun hw => absurd hw List.not_mem_nil,
    List.nodup_nil, fun w hw => absurd hw List.not_mem_nil,
    fun e w hw => absurd hw List.not_mem_nil⟩
  rcases hready e w hw with ⟨rfl, rfl⟩ | ⟨rfl, rfl⟩ <;>
    rcases hready e' _ hw' with ⟨h, rfl⟩ | ⟨h, rfl⟩
  · rfl
  · exact absurd h (by decide)
  · exact absurd h (by decide)
  · rfl

end Tvm

end Kroc
