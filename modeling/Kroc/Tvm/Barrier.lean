import Kroc.Lib.Transition
import Kroc.Tvm.Contexts

/-!
# Tvm/Barrier — `tvm_bar_sync`, `tvm_bar_enroll` and `tvm_bar_resign`

The barrier of `runtime/libtvm/ins_barrier.c`: the words `BAR_ENROLLED`, `BAR_COUNT`, `BAR_FPTR` and
`BAR_BPTR`.  The count is of the processes enrolled that do not wait; those who wait are a route
along `WS_LINK` from the front to the back, whose last link points back to where it came from.

Beside the contexts stands who waits, in the order of arrival, by what has become of their calls: a
caller that is not current any more waits until it is on a run queue.
-/

namespace Kroc

namespace Tvm

open Ectx

namespace Contexts

variable (m : Contexts) (self bar now : Word)

/-- `tvm_bar_complete` -/
def barComplete : Contexts :=
  let enrolled := m.chan bar
  let barFptr := m.chan (bar + 8)
  let barBptr := m.chan (bar + 12)
  let m := m.write (bar + 4) enrolled
  let m := m.write (bar + 8) notProcess
  let m := m.write (bar + 12) notProcess
  if barFptr ≠ notProcess then m.addQueueToQueue self barFptr barBptr else m

/-- `tvm_bar_init` -/
def barInit (initialCount : Word) : Contexts :=
  (((m.write bar initialCount).write (bar + 4) initialCount).write (bar + 8) notProcess).write
    (bar + 12) notProcess

/-- The part of `tvm_bar_sync` that stops the process and enqueues it to the barrier. -/
def barJoin : Contexts :=
  let wptr := (m.ctx self).wptr
  let barBptr := m.chan (bar + 12)
  let m := m.write (bar + 4) (m.chan (bar + 4) - 1)
  let m := m.set wptr .link barBptr
  let m := m.set wptr .ectx self
  let m := m.set wptr .iptr (m.ctx self).iptr
  let m := if barBptr = notProcess then m.write (bar + 8) wptr else m.set barBptr .link wptr
  m.write (bar + 12) wptr

/-- `tvm_bar_sync` -/
def barSync : Option (Ret × Contexts) :=
  if m.chan (bar + 4) > 1 then (m.barJoin self bar).runNextOnQueue self now
  else some (.cont, m.barComplete self bar)

/-- `tvm_bar_enroll`; the error is `EFLAG_BAR`. -/
def barEnroll (enrollCount : Word) : Ret × Contexts :=
  let enrolled := m.chan bar
  let count := m.chan (bar + 4)
  if enrolled + enrollCount < enrolled then (.error, m)
  else (.cont, (m.write bar (enrolled + enrollCount)).write (bar + 4) (count + enrollCount))

/-- `tvm_bar_resign`; the error is `EFLAG_BAR`. -/
def barResign (resignCount : Word) : Ret × Contexts :=
  let enrolled := m.chan bar
  let count := m.chan (bar + 4)
  if resignCount > enrolled ∨ resignCount > count then (.error, m)
  else
    let m := m.write bar (enrolled - resignCount)
    let count := count - resignCount
    (.cont, if count ≥ 1 then m.write (bar + 4) count else m.barComplete self bar)

end Contexts

/-! ## Runs -/

/-- The contexts, and who waits at the barrier in the order of arrival. -/
structure BarRun where
  m : Contexts
  waiting : List Word

/-- A call in the context `self`, or what the others do. -/
inductive BarAct
  | sync (self now : Word)
  | enroll (enrollCount : Word)
  | resign (self resignCount : Word)
  | other (m : Contexts)

open Classical in
/-- Those who still wait after a call: they are on no run queue. -/
noncomputable def stillWaiting (m : Contexts) (waiting : List Word) : List Word :=
  waiting.filter fun w => ¬ m.Queued w

/-- **A step.** -/
noncomputable def barStep (bar : Word) (r : BarRun) : BarAct → Option BarRun
  | .sync self now =>
    let w := (r.m.ctx self).wptr
    (r.m.barSync self bar now).map fun x =>
      ⟨x.2, stillWaiting x.2 (if (x.2.ctx self).wptr = w then r.waiting else r.waiting ++ [w])⟩
  | .enroll enrollCount =>
    let m := (r.m.barEnroll bar enrollCount).2
    some ⟨m, stillWaiting m r.waiting⟩
  | .resign self resignCount =>
    let m := (r.m.barResign self bar resignCount).2
    some ⟨m, stillWaiting m r.waiting⟩
  | .other m => some ⟨m, r.waiting⟩

/-- The words of a barrier. -/
def BarWord (bar a : Word) : Prop := a = bar ∨ a = bar + 4 ∨ a = bar + 8 ∨ a = bar + 12

/-- **Who may do what**: the process that syncs is current, no call raises `EFLAG_BAR`, and the
others leave alone the barrier and who waits. -/
def BarOk (bar : Word) (r : BarRun) : BarAct → Prop
  | .sync self _ => (r.m.ctx self).wptr ≠ notProcess
  | .enroll enrollCount => (r.m.barEnroll bar enrollCount).1 ≠ .error
  | .resign self resignCount => (r.m.barResign self bar resignCount).1 ≠ .error
  | .other m => (∃ q c, Scheduled m q c r.waiting) ∧
      (∀ a, BarWord bar a → m.chan a = r.m.chan a) ∧
      ∀ w ∈ r.waiting, ∀ k : Slot, k = .link ∨ k = .ectx ∨ k = .iptr → m.mem w k = r.m.mem w k

/-- The queue of a barrier. -/
def BarQueue (bar : Word) (m : Contexts) (waiting : List Word) : Prop :=
  if waiting = [] then m.chan (bar + 8) = notProcess ∧ m.chan (bar + 12) = notProcess
  else Route (fun w => m.mem w .link) (m.chan (bar + 8)) (m.chan (bar + 12)) waiting

/-- The invariant. -/
structure BarInv (bar : Word) (r : BarRun) : Prop where
  scheduled : ∃ q c, Scheduled r.m q c r.waiting
  queue : BarQueue bar r.m r.waiting
  count : (r.m.chan (bar + 4)).toNat + r.waiting.length = (r.m.chan bar).toNat
  free : r.m.chan (bar + 4) = 0 → r.waiting = []

section Barrier

variable {m m' : Contexts} {q c : Word → List Word} {waiting : List Word} {r : BarRun}
  {self bar now w : Word}

theorem bar_ne (bar : Word) : bar ≠ bar + 4 ∧ bar ≠ bar + 8 ∧ bar ≠ bar + 12 ∧
    bar + 4 ≠ bar + 8 ∧ bar + 4 ≠ bar + 12 ∧ bar + 8 ≠ bar + 12 := by
  refine ⟨?_, ?_, ?_, ?_, ?_, ?_⟩ <;> intro h <;> bv_omega

theorem stillWaiting_eq (h : Scheduled m q c waiting) : stillWaiting m waiting = waiting := by
  refine List.filter_eq_self.mpr fun w hw => ?_
  simpa using h.not_queued hw

theorem stillWaiting_eq_nil (h : ∀ w ∈ waiting, m.Queued w) : stillWaiting m waiting = [] := by
  refine List.filter_eq_nil_iff.mpr fun w hw => ?_
  simpa using h w hw

theorem BarQueue.front_iff (h : BarQueue bar m waiting) (hs : Scheduled m q c waiting) :
    (m.chan (bar + 8) = notProcess ↔ waiting = []) ∧
      (m.chan (bar + 12) = notProcess ↔ waiting = []) := by
  unfold BarQueue at h
  split_ifs at h with he
  · exact ⟨iff_of_true h.1 he, iff_of_true h.2 he⟩
  · exact ⟨iff_of_false (hs.apart _ h.front_mem).1 he, iff_of_false (hs.apart _ h.back_mem).1 he⟩

theorem BarQueue.congr (h : BarQueue bar m waiting) (hfront : m'.chan (bar + 8) = m.chan (bar + 8))
    (hback : m'.chan (bar + 12) = m.chan (bar + 12))
    (hlink : ∀ w ∈ waiting, m'.mem w .link = m.mem w .link) : BarQueue bar m' waiting := by
  unfold BarQueue at *
  rw [hfront, hback]
  split_ifs at * with he
  · exact h
  · exact Route.congr h hlink

/-- **Joining the queue.** -/
theorem barJoin_spec (hs : Scheduled m q c waiting) (hqueue : BarQueue bar m waiting)
    (hnot : (m.ctx self).wptr ∉ waiting) :
    BarQueue bar (m.barJoin self bar) (waiting ++ [(m.ctx self).wptr]) ∧
      (m.barJoin self bar).chan bar = m.chan bar ∧
      (m.barJoin self bar).chan (bar + 4) = m.chan (bar + 4) - 1 ∧
      (m.barJoin self bar).ctx = m.ctx ∧
      (∀ v, v ≠ (m.ctx self).wptr → v ∉ waiting →
        (m.barJoin self bar).mem v .link = m.mem v .link) ∧
      ∀ v k, k = Slot.tlink ∨ k = .time ∨ k = .state →
        (m.barJoin self bar).mem v k = m.mem v k := by
  obtain ⟨-, hback⟩ := hqueue.front_iff hs
  obtain ⟨h4, h8, h12, h48, h412, h812⟩ := bar_ne bar
  unfold BarQueue at *
  unfold Contexts.barJoin
  dsimp only
  rw [if_neg (by simp)]
  generalize bar + 4 = count at *
  generalize bar + 8 = front at *
  generalize bar + 12 = back at *
  by_cases hempty : m.chan back = notProcess
  · have hnil := hback.mp hempty
    subst hnil
    rw [if_pos hempty]
    refine ⟨?_, ?_, ?_, rfl, fun v hv _ => ?_, fun v k hk => ?_⟩
    · simp only [List.nil_append, Contexts.chan_write, if_true, if_neg h812]
      exact Route.singleton _
    · simp [h4, h8, h12]
    · simp [h48, h412]
    · simp [hv]
    · rcases hk with rfl | rfl | rfl <;> simp
  · have hne : waiting ≠ [] := fun e => hempty (hback.mpr e)
    rw [if_neg hne] at hqueue
    have hb := hqueue.back_mem
    have hbw : m.chan back ≠ (m.ctx self).wptr := fun e => hnot (e ▸ hb)
    rw [if_neg hempty]
    refine ⟨?_, ?_, ?_, rfl, fun v hv hvw => ?_, fun v k hk => ?_⟩
    · simp only [Contexts.chan_write, Contexts.chan_set, if_true, if_neg h812, if_neg h48.symm]
      refine hqueue.push ?_ (fun x hx hxb => ?_) hs.nodup
      · simp
      · have hxw : x ≠ (m.ctx self).wptr := fun e => hnot (e ▸ hx)
        simp [hxw, hxb]
    · simp [h4, h12]
    · simp [h412]
    · have hvb : v ≠ m.chan back := fun e => hvw (e ▸ hb)
      simp [hv, hvb]
    · rcases hk with rfl | rfl | rfl <;> simp

/-- What a release does: all are put once on the run queue of the context, and all else that is
scheduled stays. -/
structure Released (m m' : Contexts) (dst : Word) (l : List Word) : Prop where
  queued : ∀ q, (m.ectx dst).RunQueue q → (q ++ l).Nodup ∧ (m'.ectx dst).RunQueue (q ++ l)
  others : ∀ e ≠ dst, ∀ q, (m.ectx e).RunQueue q → (m'.ectx e).RunQueue q
  current : ∀ e, (m'.ctx e).wptr = (m.ctx e).wptr

/-- Writes outside the workspaces release nobody. -/
theorem Released.none (hctx : m'.ctx = m.ctx)
    (hmem : m'.mem = m.mem) : Released m m' self [] := by
  have hrun : ∀ e q, (m.ectx e).RunQueue q → (m'.ectx e).RunQueue q := by
    intro e q hq
    simp only [Contexts.ectx, hctx, hmem]
    exact hq
  refine ⟨fun l hl => ?_, fun e _ => hrun e, fun e => by rw [hctx]⟩
  rw [List.append_nil]
  exact ⟨hl.1.nodup, hrun self l hl⟩

/-- **Completing** releases everybody. -/
theorem barComplete_spec (hs : Scheduled m q c waiting) (hqueue : BarQueue bar m waiting)
    (self : Word) : (∃ q', Scheduled (m.barComplete self bar) q' c []) ∧
      BarQueue bar (m.barComplete self bar) [] ∧ (m.barComplete self bar).chan bar = m.chan bar ∧
      (m.barComplete self bar).chan (bar + 4) = m.chan bar ∧
      Released m (m.barComplete self bar) self waiting ∧
      ∀ w ∈ waiting, (m.barComplete self bar).Queued w := by
  obtain ⟨hfront, -⟩ := hqueue.front_iff hs
  obtain ⟨h4, h8, h12, h48, h412, h812⟩ := bar_ne bar
  unfold BarQueue at *
  unfold Contexts.barComplete
  dsimp only
  rw [if_pos rfl]
  generalize bar + 4 = count at *
  generalize bar + 8 = front at *
  generalize bar + 12 = back at *
  generalize hm₁ : ((m.write count (m.chan bar)).write front notProcess).write back notProcess = m₁
  have hchans : m₁.chan bar = m.chan bar ∧ m₁.chan count = m.chan bar ∧
      m₁.chan front = notProcess ∧ m₁.chan back = notProcess := by
    subst hm₁
    simp [h4, h8, h12, h48, h412, h812]
  have hctx : m₁.ctx = m.ctx := by rw [← hm₁]; rfl
  have hmem : m₁.mem = m.mem := by rw [← hm₁]; rfl
  have hs₁ : Scheduled m₁ q c waiting :=
    hs.congr hctx (fun _ w _ => by rw [hmem]) fun _ w _ k _ => by rw [hmem]
  by_cases hempty : m.chan front = notProcess
  · have hnil := hfront.mp hempty
    subst hnil
    rw [if_neg (not_not.mpr hempty)]
    exact ⟨⟨q, hs₁⟩, ⟨hchans.2.2.1, hchans.2.2.2⟩, hchans.1, hchans.2.1,
      Released.none hctx hmem, fun w hw => absurd hw List.not_mem_nil⟩
  · have hne : waiting ≠ [] := fun e => hempty (hfront.mpr e)
    rw [if_neg hne] at hqueue
    rw [if_pos hempty]
    rw [← hmem] at hqueue
    have hs' := hs₁.addQueueToQueue hqueue self
    have hregs := regs_addQueueToQueue (m₁.ectx self) (m.chan front) (m.chan back)
    have hself : ((m₁.ectx self).addQueueToQueue (m.chan front) (m.chan back)).self = self := by
      rw [hregs]; rfl
    have hchan : (m₁.addQueueToQueue self (m.chan front) (m.chan back)).chan = m₁.chan := by
      show ((m₁.ectx self).addQueueToQueue (m.chan front) (m.chan back)).chan = m₁.chan
      rw [hregs]; rfl
    have hrun := hs'.run
    have hown : ((m₁.addQueueToQueue self (m.chan front) (m.chan back)).ectx self).RunQueue
        (q self ++ waiting) := by
      have := hrun self
      rwa [Function.update_self] at this
    rw [hchan]
    refine ⟨⟨_, hs'⟩, ⟨hchans.2.2.1, hchans.2.2.2⟩, hchans.1, hchans.2.1,
      ⟨fun l hl => ?_, fun e he l hl => ?_, fun e => ?_⟩,
      fun w hw => ⟨self, _, hown, List.mem_append_right _ hw⟩⟩
    · rw [hl.unique (hs.run self)]
      exact ⟨hown.1.nodup, hown⟩
    · have := hrun e
      rw [Function.update_of_ne he] at this
      rwa [hl.unique (hs.run e)]
    · rw [← hctx]
      by_cases he : e = self
      · have hwptr := Contexts.wptr_put_self (m := m₁)
          ((m₁.ectx self).addQueueToQueue (m.chan front) (m.chan back))
        rw [hself] at hwptr
        rw [he, Contexts.addQueueToQueue, hwptr, hregs]
        rfl
      · rw [Contexts.addQueueToQueue, Contexts.ctx_put_of_ne (hself.symm ▸ he)]

/-- What a sync does: the last process enrolled that does not wait goes on and everybody is
released, and any other one blocks behind those who wait. -/
def SyncSound (bar : Word) (r : BarRun) (self now : Word) : Prop :=
  ∃ r', barStep bar r (.sync self now) = some r' ∧
    ((r.m.chan bar).toNat - r.waiting.length ≤ 1 →
      r'.waiting = [] ∧ Released r.m r'.m self r.waiting) ∧
    (1 < (r.m.chan bar).toNat - r.waiting.length →
      r'.waiting = r.waiting ++ [(r.m.ctx self).wptr] ∧ (r'.m.ctx self).wptr ≠ (r.m.ctx self).wptr)

/-- What a resignation does: of all those enrolled that do not wait, it releases everybody, and of
fewer, nobody; of more, it is an error and changes nothing. -/
def ResignSound (bar : Word) (r : BarRun) (self n : Word) : Prop :=
  ((r.m.barResign self bar n).1 = .error ↔
      (r.m.chan bar).toNat - r.waiting.length < n.toNat) ∧
    ((r.m.barResign self bar n).1 = .error → (r.m.barResign self bar n).2 = r.m) ∧
    ∃ r', barStep bar r (.resign self n) = some r' ∧
      (n.toNat = (r.m.chan bar).toNat - r.waiting.length →
        r'.waiting = [] ∧ Released r.m r'.m self r.waiting) ∧
      (n.toNat < (r.m.chan bar).toNat - r.waiting.length →
        r'.waiting = r.waiting ∧ Released r.m r'.m self [])

/-- What an enrolment does: it releases nobody; of too many, it is an error and changes nothing. -/
def EnrollSound (bar : Word) (r : BarRun) (n : Word) : Prop :=
  ((r.m.barEnroll bar n).1 = .error ↔ 2 ^ 32 ≤ (r.m.chan bar).toNat + n.toNat) ∧
    ((r.m.barEnroll bar n).1 = .error → (r.m.barEnroll bar n).2 = r.m) ∧
    ∃ r', barStep bar r (.enroll n) = some r' ∧ r'.waiting = r.waiting ∧
      ∀ e, Released r.m r'.m e []

theorem BarInv.sync (h : BarInv bar r) (hw : (r.m.ctx self).wptr ≠ notProcess) :
    ∃ r', barStep bar r (.sync self now) = some r' ∧ BarInv bar r' ∧
      ((r.m.chan bar).toNat - r.waiting.length ≤ 1 →
        r'.waiting = [] ∧ Released r.m r'.m self r.waiting) ∧
      (1 < (r.m.chan bar).toNat - r.waiting.length →
        r'.waiting = r.waiting ++ [(r.m.ctx self).wptr] ∧
          (r'.m.ctx self).wptr ≠ (r.m.ctx self).wptr) := by
  obtain ⟨m, waiting⟩ := r
  obtain ⟨⟨q, c, hs⟩, hqueue, hcount, hfree⟩ := h
  dsimp only at *
  have hcur : Ready (m.ectx self) (q self) (m.ctx self).wptr := Or.inr ⟨rfl, hw⟩
  by_cases hlast : m.chan (bar + 4) > 1
  · obtain ⟨hqueue', hbar, hcount', hctx, hlink, htimer⟩ :=
      barJoin_spec hs hqueue (hs.not_parked hcur)
    obtain ⟨x, q', c', hx, hs', hchan, hlinks, hne⟩ := hs.block hw hctx hlink htimer now
    have hmore : 1 < (m.chan (bar + 4)).toNat := hlast
    have hpred : (m.chan (bar + 4) - 1).toNat = (m.chan (bar + 4)).toNat - 1 :=
      BitVec.toNat_sub_of_le (show 1 ≤ (m.chan (bar + 4)).toNat by omega)
    refine ⟨⟨x.2, waiting ++ [(m.ctx self).wptr]⟩, ?_, ⟨⟨q', c', hs'⟩, ?_, ?_, fun hz => ?_⟩,
      fun hle => absurd hle (by omega), fun _ => ⟨rfl, hne⟩⟩
    · simp only [barStep, Contexts.barSync, if_pos hlast, hx, Option.map_some, if_neg hne,
        stillWaiting_eq hs']
    · exact hqueue'.congr (by rw [hchan]) (by rw [hchan]) hlinks
    · rw [hchan, hbar, hcount', hpred, List.length_append, List.length_singleton]
      omega
    · rw [hchan, hcount'] at hz
      rw [hz] at hpred
      change 0 = _ at hpred
      omega
  · have hmost : (m.chan (bar + 4)).toNat ≤ 1 := Nat.le_of_not_lt hlast
    obtain ⟨⟨q', hs'⟩, hqueue', hbar, hcount', hreleased, hqueued⟩ :=
      barComplete_spec hs hqueue self
    refine ⟨⟨m.barComplete self bar, []⟩, ?_, ⟨⟨q', c, hs'⟩, hqueue', ?_, fun _ => rfl⟩,
      fun _ => ⟨rfl, hreleased⟩, fun hlt => absurd hlt (by omega)⟩
    · simp only [barStep, Contexts.barSync, if_neg hlast, Option.map_some,
        if_pos (hreleased.current self), stillWaiting_eq_nil hqueued]
    · rw [hcount', hbar]
      rfl

theorem BarInv.resign (h : BarInv bar r) (self n : Word) : ResignSound bar r self n ∧
    ∀ r', (r.m.barResign self bar n).1 ≠ .error → barStep bar r (.resign self n) = some r' →
      BarInv bar r' := by
  obtain ⟨m, waiting⟩ := r
  obtain ⟨⟨q, c, hs⟩, hqueue, hcount, hfree⟩ := h
  unfold ResignSound
  dsimp only at *
  have herror : (n > m.chan bar ∨ n > m.chan (bar + 4)) ↔
      (m.chan bar).toNat - waiting.length < n.toNat := by
    rw [gt_iff_lt, gt_iff_lt, BitVec.lt_def, BitVec.lt_def]
    omega
  by_cases he : n > m.chan bar ∨ n > m.chan (bar + 4)
  · have hresign : m.barResign self bar n = (.error, m) := if_pos he
    have hlt := herror.mp he
    simp only [barStep, hresign]
    exact ⟨⟨iff_of_true trivial hlt, fun _ => trivial, _, rfl, fun e => absurd e (by omega),
      fun e => absurd e (by omega)⟩, fun _ hne => absurd rfl hne⟩
  · have hle : n.toNat ≤ (m.chan bar).toNat - waiting.length := Nat.le_of_not_lt (herror.not.mp he)
    have hsub : (m.chan (bar + 4) - n).toNat = (m.chan (bar + 4)).toNat - n.toNat :=
      BitVec.toNat_sub_of_le (show n.toNat ≤ (m.chan (bar + 4)).toNat by omega)
    have hsub' : (m.chan bar - n).toNat = (m.chan bar).toNat - n.toNat :=
      BitVec.toNat_sub_of_le (show n.toNat ≤ (m.chan bar).toNat by omega)
    obtain ⟨h4, h8, h12, h48, h412, h812⟩ := bar_ne bar
    have hs₁ : Scheduled (m.write bar (m.chan bar - n)) q c waiting :=
      hs.congr rfl (fun _ _ _ => rfl) fun _ _ _ _ _ => rfl
    have hqueue₁ : BarQueue bar (m.write bar (m.chan bar - n)) waiting :=
      hqueue.congr (by simp only [Contexts.chan_write, if_neg h8.symm])
        (by simp only [Contexts.chan_write, if_neg h12.symm]) fun _ _ => rfl
    by_cases hopen : m.chan (bar + 4) - n ≥ 1
    · have hmore : 1 ≤ (m.chan (bar + 4) - n).toNat := hopen
      have hresign : m.barResign self bar n =
          (.cont, (m.write bar (m.chan bar - n)).write (bar + 4) (m.chan (bar + 4) - n)) := by
        unfold Contexts.barResign
        dsimp only
        rw [if_neg he, if_pos hopen]
      have hs₂ : Scheduled ((m.write bar (m.chan bar - n)).write (bar + 4) (m.chan (bar + 4) - n))
          q c waiting := hs₁.congr rfl (fun _ _ _ => rfl) fun _ _ _ _ _ => rfl
      simp only [barStep, hresign, stillWaiting_eq hs₂]
      refine ⟨⟨iff_of_false (by decide) (Nat.not_lt_of_le hle), fun e => (by cases e), _, rfl,
        fun e => absurd e (by omega), fun _ => ⟨rfl, Released.none rfl rfl⟩⟩, fun r' _ hr' => ?_⟩
      cases hr'
      refine ⟨⟨q, c, hs₂⟩, ?_, ?_, fun hz => ?_⟩
      · exact hqueue₁.congr (by rw [Contexts.chan_write, if_neg h48.symm])
          (by rw [Contexts.chan_write, if_neg h412.symm]) fun _ _ => rfl
      · simp only [Contexts.chan_write, if_true, if_neg h4, hsub, hsub']
        omega
      · simp only [Contexts.chan_write, if_true] at hz
        rw [hz] at hmore
        exact absurd hmore (by decide)
    · have hlast : (m.chan (bar + 4) - n).toNat < 1 := Nat.lt_of_not_le hopen
      have hresign : m.barResign self bar n =
          (.cont, (m.write bar (m.chan bar - n)).barComplete self bar) := by
        unfold Contexts.barResign
        dsimp only
        rw [if_neg he, if_neg hopen]
      obtain ⟨⟨q', hs'⟩, hqueue', hbar, hcount', hreleased, hqueued⟩ :=
        barComplete_spec hs₁ hqueue₁ self
      simp only [barStep, hresign, stillWaiting_eq_nil hqueued]
      refine ⟨⟨iff_of_false (by decide) (Nat.not_lt_of_le hle), fun e => (by cases e), _, rfl,
        fun _ => ⟨rfl, hreleased.queued, hreleased.others, hreleased.current⟩,
        fun e => absurd e (by omega)⟩, fun r' _ hr' => ?_⟩
      cases hr'
      refine ⟨⟨q', c, hs'⟩, hqueue', ?_, fun _ => rfl⟩
      rw [hcount', hbar]
      rfl

theorem BarInv.enroll (h : BarInv bar r) (n : Word) : EnrollSound bar r n ∧
    ∀ r', (r.m.barEnroll bar n).1 ≠ .error → barStep bar r (.enroll n) = some r' →
      BarInv bar r' := by
  obtain ⟨m, waiting⟩ := r
  obtain ⟨⟨q, c, hs⟩, hqueue, hcount, hfree⟩ := h
  unfold EnrollSound
  dsimp only at *
  have hn := n.isLt
  have hm := (m.chan bar).isLt
  have herror : m.chan bar + n < m.chan bar ↔ 2 ^ 32 ≤ (m.chan bar).toNat + n.toNat := by
    rw [BitVec.lt_def, BitVec.toNat_add]
    omega
  by_cases he : m.chan bar + n < m.chan bar
  · have henroll : m.barEnroll bar n = (.error, m) := if_pos he
    simp only [barStep, henroll, stillWaiting_eq hs]
    exact ⟨⟨iff_of_true trivial (herror.mp he), fun _ => trivial, _, rfl, rfl,
      fun e => Released.none rfl rfl⟩, fun _ hne => absurd rfl hne⟩
  · have hfits := herror.not.mp he
    obtain ⟨h4, h8, h12, h48, h412, h812⟩ := bar_ne bar
    have henroll : m.barEnroll bar n =
        (.cont, (m.write bar (m.chan bar + n)).write (bar + 4) (m.chan (bar + 4) + n)) := if_neg he
    have hs₂ : Scheduled ((m.write bar (m.chan bar + n)).write (bar + 4) (m.chan (bar + 4) + n))
        q c waiting := hs.congr rfl (fun _ _ _ => rfl) fun _ _ _ _ _ => rfl
    simp only [barStep, henroll, stillWaiting_eq hs₂]
    refine ⟨⟨iff_of_false (by decide) hfits, fun e => (by cases e), _, rfl, rfl,
      fun e => Released.none rfl rfl⟩, fun r' _ hr' => ?_⟩
    cases hr'
    have hadd : (m.chan (bar + 4) + n).toNat = (m.chan (bar + 4)).toNat + n.toNat := by
      rw [BitVec.toNat_add, Nat.mod_eq_of_lt (by omega)]
    have hadd' : (m.chan bar + n).toNat = (m.chan bar).toNat + n.toNat := by
      rw [BitVec.toNat_add, Nat.mod_eq_of_lt (by omega)]
    refine ⟨⟨q, c, hs₂⟩, ?_, ?_, fun hz => ?_⟩
    · exact hqueue.congr (by simp only [Contexts.chan_write, if_neg h8.symm, if_neg h48.symm])
        (by simp only [Contexts.chan_write, if_neg h12.symm, if_neg h412.symm]) fun _ _ => rfl
    · simp only [Contexts.chan_write, if_true, if_neg h4, hadd, hadd']
      omega
    · simp only [Contexts.chan_write, if_true] at hz
      have hzero := congrArg BitVec.toNat hz
      rw [hadd] at hzero
      refine hfree (BitVec.eq_of_toNat_eq ?_)
      change _ = 0 at hzero
      change _ = 0
      omega

/-- **Every step keeps the invariant.** -/
theorem BarInv.step {act : BarAct} {r' : BarRun} (h : BarInv bar r) (hok : BarOk bar r act)
    (hstep : barStep bar r act = some r') : BarInv bar r' := by
  cases act with
  | sync self now =>
    obtain ⟨r'', hr, hinv, -⟩ := h.sync hok
    rw [hstep] at hr
    cases hr
    exact hinv
  | enroll n => exact (h.enroll n).2 r' hok hstep
  | resign self n => exact (h.resign self n).2 r' hok hstep
  | other m =>
    cases hstep
    obtain ⟨hsched, hwords, hsame⟩ := hok
    refine ⟨hsched, ?_, ?_, fun hz => h.free ?_⟩
    · exact h.queue.congr (hwords _ (Or.inr (Or.inr (Or.inl rfl))))
        (hwords _ (Or.inr (Or.inr (Or.inr rfl)))) fun w hw => hsame w hw _ (Or.inl rfl)
    · rw [hwords _ (Or.inr (Or.inl rfl)), hwords _ (Or.inl rfl)]
      exact h.count
    · rwa [hwords _ (Or.inr (Or.inl rfl))] at hz

end Barrier

end Tvm

end Kroc
