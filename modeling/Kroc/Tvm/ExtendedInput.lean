import Kroc.Tvm.Channels
import Kroc.Tvm.Semaphore

/-!
# Tvm/ExtendedInput — extended input is input with a delayed release

`ins_xable` waits for an outputter, `ins_xin` or `ins_mt_xin` takes its data, and `ins_xend` lets it
go.  Beside the contexts stands how far the communication on one channel is, by the calls.  The
outputter stands in the channel word, and is parked, from when it arrives until `ins_xend`.
-/

namespace Kroc

namespace Tvm

open Ectx

/-! ## Runs -/

/-- How far the communication is: nobody is at the channel, the inputter `w` waits for it, the
outputter `o` offers what is at `src`, or its data has been taken. -/
inductive XPhase
  | idle
  | enabled (w : Word)
  | offered (o src : Word)
  | taken (o : Word)

/-- Who is parked. -/
def XPhase.parked : XPhase → List Word
  | .idle => []
  | .enabled w => [w]
  | .offered o _ => [o]
  | .taken o => [o]

/-- Who is blocked in an output. -/
def XPhase.outputter : XPhase → Option Word
  | .offered o _ => some o
  | .taken o => some o
  | _ => none

/-- The contexts and the communication on a channel. -/
structure XRun where
  m : Contexts
  phase : XPhase

/-- A call in the context `self`, or what the others do. -/
inductive XAct
  | xable (self now : Word)
  | out (ops : ChanOps) (self data len now : Word)
  | xin (item : Contexts.Item) (self data now : Word)
  | xend (self : Word)
  | other (m : Contexts)

/-- **A step.** -/
def xStep (intf : Word → Option ExtInterface) (chan : Word) (r : XRun) : XAct → Option XRun
  | .xable self now =>
    (r.m.insXable self intf chan now).map fun x =>
      ⟨x.2, if r.m.chan chan = notProcess then .enabled (r.m.ctx self).wptr else r.phase⟩
  | .out ops self data len now =>
    (r.m.chanStdIo self intf ops chan data len now).map fun x =>
      ⟨x.2, .offered (r.m.ctx self).wptr data⟩
  | .xin item self data now =>
    (r.m.insXin self intf item chan data now).map fun x => ⟨x.2, .taken (r.m.chan chan)⟩
  | .xend self => some ⟨(r.m.insXend self chan).2, .idle⟩
  | .other m => some ⟨m, r.phase⟩

/-- On no timer queue. -/
def Untimed (m : Contexts) (w : Word) : Prop := ∀ e c, Pending (m.ectx e) c → w ∉ c

/-- The data of `o` can be taken. -/
def Transfers (m : Contexts) (item : Contexts.Item) (chan data o : Word) (m' : Contexts) : Prop :=
  item.ops.data data item.len o (m.write chan notProcess) = some (.cont, m')

/-- **Who may do what**: a caller is current and waits for no timeout; one process outputs at a
time, one inputs, the inputter takes what is offered, and then ends; the others leave alone the
channel and who is parked. -/
def XOk (chan : Word) (r : XRun) : XAct → Prop
  | .xable self _ => IsWorkspace (r.m.ctx self).wptr ∧ Untimed r.m (r.m.ctx self).wptr ∧
      (r.phase = .idle ∨ ∃ o src, r.phase = .offered o src)
  | .out _ self _ _ _ => IsWorkspace (r.m.ctx self).wptr ∧ Untimed r.m (r.m.ctx self).wptr ∧
      (r.phase = .idle ∨ ∃ w, r.phase = .enabled w)
  | .xin item self data _ => IsWorkspace (r.m.ctx self).wptr ∧
      ∃ o src m', r.phase = .offered o src ∧ Transfers r.m item chan data o m'
  | .xend self => IsWorkspace (r.m.ctx self).wptr ∧ ∃ o, r.phase = .taken o
  | .other m => (∃ q c, Scheduled m q c r.phase.parked) ∧ m.chan chan = r.m.chan chan ∧
      ∀ w ∈ r.phase.parked, ∀ k : Slot, k = .link ∨ k = .state ∨ k = .ectx ∨ k = .iptr →
        m.mem w k = r.m.mem w k

/-- An outputter that finds an inputter waiting does not find it in a context that preempts its
own. -/
def Loads (r : XRun) : XAct → Prop
  | .out _ self _ _ _ => ∀ w, r.phase = .enabled w → r.m.mem w .ectx ≠ self →
      ¬ (r.m.ctx (r.m.mem w .ectx)).pri.slt (r.m.ctx self).pri
  | _ => True

/-- The channel word, and what stands in the words of who is in it. -/
def XWord (chan : Word) (m : Contexts) : XPhase → Prop
  | .idle => m.chan chan = notProcess
  | .enabled w => IsWorkspace w ∧ m.chan chan = w ||| 1 ∧ m.mem w .state = waiting
  | .offered o src => IsWorkspace o ∧ m.chan chan = o ∧ m.mem o .state = src
  | .taken o => IsWorkspace o ∧ m.chan chan = o

/-- The invariant. -/
structure XInv (chan : Word) (r : XRun) : Prop where
  scheduled : ∃ q c, Scheduled r.m q c r.phase.parked
  word : XWord chan r.m r.phase

section Words

variable {w : Word}

theorem IsWorkspace.and_two (hw : IsWorkspace w) : w &&& 2 = 0 := by
  have h : w &&& 2 = (w &&& 3) &&& 2 := by
    rw [BitVec.and_assoc]
    rfl
  rw [h, hw.2]
  rfl

theorem IsWorkspace.tagged_and_two (hw : IsWorkspace w) : (w ||| 1) &&& 2 = 0 := by
  have h : (w ||| 1) &&& 2 = w &&& 2 := by
    refine BitVec.eq_of_getLsbD_eq fun i hi => ?_
    rw [BitVec.getLsbD_and, BitVec.getLsbD_and, BitVec.getLsbD_or, getLsbD_tag]
    rcases Nat.eq_zero_or_pos i with rfl | hpos
    · simp
    · simp [hpos.ne']
  rw [h, hw.and_two]

end Words

/-! ## The steps -/

section Steps

variable {m m' : Contexts} {q c : Word → List Word} {parked : List Word} {e w chan : Word}

theorem Untimed.notMem (hw : Untimed m w) (h : Scheduled m q c parked) : w ∉ c e :=
  hw e (c e) (h.pending e)

/-- A current process is on no run queue. -/
theorem Scheduled.current_notMem (h : Scheduled m q c parked) (hw : (m.ctx e).wptr ≠ notProcess)
    (e' : Word) : (m.ctx e).wptr ∉ q e' := by
  intro hq
  obtain rfl := h.once (Or.inl hq) (Or.inr ⟨rfl, hw⟩ : Ready (m.ectx e) (q e) (m.ctx e).wptr)
  exact h.current e' hq

/-- **Words of processes that are on no queue** are nothing to the scheduler. -/
theorem Scheduled.writes (h : Scheduled m q c parked) (hctx : m'.ctx = m.ctx) {l : List Word}
    (hl : ∀ v ∈ l, ∀ e, v ∉ q e ∧ v ∉ c e) (hmem : ∀ v, v ∉ l → ∀ k, m'.mem v k = m.mem v k) :
    Scheduled m' q c parked :=
  h.congr hctx (fun e v hv => hmem v (fun hvl => (hl v hvl e).1 hv) _)
    fun e v hv k _ => hmem v (fun hvl => (hl v hvl e).2 hv) k

/-- **One process for another**: the current one is parked, and one who was parked is current. -/
theorem Scheduled.swap (h : Scheduled m q c (w :: parked)) (hw : (m.ctx e).wptr ≠ notProcess)
    (ip : Word) :
    Scheduled (m.put { m.ectx e with wptr := w, iptr := ip }) q c ((m.ctx e).wptr :: parked) := by
  have hcur : Ready (m.ectx e) (q e) (m.ctx e).wptr := Or.inr ⟨rfl, hw⟩
  obtain ⟨hw0, hnot⟩ := h.apart w List.mem_cons_self
  have hself : ({ m.ectx e with wptr := w, iptr := ip } : Ectx).self = e := rfl
  have hready : ∀ v, Ready { m.ectx e with wptr := w, iptr := ip } (q e) v → v = w ∨ v ∈ q e :=
    fun v hv => hv.elim Or.inr fun hv => Or.inl hv.1
  have hput := h.put (s := { m.ectx e with wptr := w, iptr := ip }) (p := (m.ctx e).wptr :: parked)
    (h.run e) ⟨(h.pending e).linked, (h.pending e).next⟩ (fun hq => hnot e (Or.inl hq))
    (fun _ _ _ _ => rfl) (fun _ _ _ _ _ _ => rfl) (fun v hv => ?_)
    (fun v hv e' hne hv' => hne (h.timed hv' hv)) ?_ (fun v hv => ?_) fun e' v hv hstate => ?_
  · rw [hself, Function.update_eq_self, Function.update_eq_self] at hput
    exact hput
  · rcases hready v hv with rfl | hq
    · exact fun e' _ => hnot e'
    · exact h.not_ready (Or.inl hq)
  · exact List.nodup_cons.mpr ⟨fun hp => h.not_parked hcur (List.mem_cons_of_mem _ hp),
      h.nodup.of_cons⟩
  · rcases List.mem_cons.mp hv with rfl | hp
    · refine ⟨hw, fun hr => ?_, h.not_ready hcur⟩
      rcases hready _ hr with heq | hq
      · exact hnot e (heq ▸ hcur)
      · exact h.current e hq
    · obtain ⟨hv0, hvnot⟩ := h.apart v (List.mem_cons_of_mem _ hp)
      refine ⟨hv0, fun hr => ?_, fun e' _ => hvnot e'⟩
      rcases hready v hr with rfl | hq
      · exact (List.nodup_cons.mp h.nodup).1 hp
      · exact hvnot e (Or.inl hq)
  · rw [hself, Function.update_eq_self] at hv
    obtain ⟨hp, hothers⟩ := h.free e' v hv hstate
    refine ⟨fun hv' => ?_, fun hr => ?_, fun e'' _ => hothers e''⟩
    · rcases List.mem_cons.mp hv' with rfl | hv'
      · exact hothers e hcur
      · exact hp (List.mem_cons_of_mem _ hv')
    · rcases hready v hr with rfl | hq
      · exact hp List.mem_cons_self
      · exact hothers e (Or.inl hq)

variable {intf : Word → Option ExtInterface} {self data len now : Word} {ops : ChanOps}

/-- A current process that waits for no timeout writes its own words. -/
theorem Scheduled.writes_own (h : Scheduled m q c parked) (hw : (m.ctx e).wptr ≠ notProcess)
    (hu : Untimed m (m.ctx e).wptr) (hctx : m'.ctx = m.ctx)
    (hmem : ∀ v, v ≠ (m.ctx e).wptr → ∀ k, m'.mem v k = m.mem v k) : Scheduled m' q c parked :=
  h.writes hctx (l := [(m.ctx e).wptr])
    (fun v hv e' => by
      obtain rfl := List.mem_singleton.mp hv
      exact ⟨h.current_notMem hw e', hu.notMem h⟩)
    fun v hv => hmem v (fun heq => hv (List.mem_singleton.mpr heq))

theorem mem_saveInChan_of_ne {v : Word} (hv : v ≠ (m.ctx self).wptr) (k : Slot) :
    (m.saveInChan self chan data len).mem v k = m.mem v k := by
  simp [Contexts.saveInChan, hv]

theorem state_saveInChan :
    (m.saveInChan self chan data len).mem (m.ctx self).wptr .state = data := by
  simp [Contexts.saveInChan]

theorem chan_saveInChan :
    (m.saveInChan self chan data len).chan chan = (m.ctx self).wptr := by
  simp [Contexts.saveInChan]

/-- **Waiting for an outputter**: `ins_xable` on an empty channel. -/
theorem xable_idle (h : Scheduled m q c []) (hchan : m.chan chan = notProcess)
    (hw : (m.ctx self).wptr ≠ notProcess) (hu : Untimed m (m.ctx self).wptr) :
    ∃ x q' c', m.insXable self intf chan now = some x ∧ Scheduled x.2 q' c' [(m.ctx self).wptr] ∧
      x.2.chan chan = (m.ctx self).wptr ||| 1 ∧ x.2.mem (m.ctx self).wptr .state = waiting := by
  have hwait : Scheduled (m.xableWait self chan) q c [] :=
    h.writes_own hw hu rfl fun v hv k => by simp [Contexts.xableWait, hv]
  obtain ⟨x, q', c', hx, hs, hc, -, -, hkeep, -⟩ := hwait.stop hw now
  refine ⟨x, q', c', ?_, hs, ?_, ?_⟩
  · unfold Contexts.insXable
    dsimp only
    rw [hchan, if_neg (by decide), if_pos rfl]
    exact hx
  · rw [hc]
    simp [Contexts.xableWait]
  · rw [hkeep _ _ (by decide) (hu.notMem h)]
    simp [Contexts.xableWait]

/-- **Offering data**: an output on an empty channel. -/
theorem out_idle (h : Scheduled m q c []) (hchan : m.chan chan = notProcess)
    (hw : (m.ctx self).wptr ≠ notProcess) (hu : Untimed m (m.ctx self).wptr) :
    ∃ x q' c', m.chanStdIo self intf ops chan data len now = some x ∧
      Scheduled x.2 q' c' [(m.ctx self).wptr] ∧ x.2.chan chan = (m.ctx self).wptr ∧
      x.2.mem (m.ctx self).wptr .state = data := by
  have hsave : Scheduled (m.saveInChan self chan data len) q c [] :=
    h.writes_own hw hu rfl fun v hv k => mem_saveInChan_of_ne hv k
  obtain ⟨x, q', c', hx, hs, hc, -, -, hkeep, -⟩ := hsave.stop hw now
  refine ⟨x, q', c', ?_, hs, ?_, ?_⟩
  · unfold Contexts.chanStdIo Contexts.chanIo
    dsimp only
    rw [hchan, if_pos rfl]
    dsimp only [Option.bind_some]
    rw [Contexts.requeueOrNext, if_neg (by decide)]
    exact hx
  · rw [hc, chan_saveInChan]
  · rw [hkeep _ _ (by decide) (hu.notMem h), state_saveInChan]

/-- An output to who waits ends with loading it. -/
theorem chanStdIo_enabled (hws : IsWorkspace w) (hchan : m.chan chan = w ||| 1)
    (hstate : m.mem w .state = waiting) : m.chanStdIo self intf ops chan data len now =
      ((m.set w .state ready).saveInChan self chan data len).loadProcess self w now := by
  have htag : w ||| 1 ≠ notProcess := fun e => tagged_ne_zero (w := w) (by rw [e]; rfl)
  unfold Contexts.chanStdIo Contexts.chanIo
  dsimp only
  rw [hchan, if_neg htag, hws.tagged_and_two, if_neg (by simp), if_neg tagged_ne_zero, hws.untag,
    if_pos hws.1, hstate, if_pos (Or.inl rfl)]
  dsimp only [Option.bind_some]
  rw [if_neg (by simp), Contexts.requeueOrNext, hws.untag, if_pos hws.1]

/-- **Offering data to who waits**: the outputter is parked in the place of the inputter, unless
the inputter is of a context that preempts. -/
theorem out_enabled (h : Scheduled m q c [w]) (hws : IsWorkspace w) (hchan : m.chan chan = w ||| 1)
    (hstate : m.mem w .state = waiting) (hw : (m.ctx self).wptr ≠ notProcess)
    (hu : Untimed m (m.ctx self).wptr)
    (hloads : m.mem w .ectx ≠ self →
      ¬ (m.ctx (m.mem w .ectx)).pri.slt (m.ctx self).pri) :
    ∃ x q' c', m.chanStdIo self intf ops chan data len now = some x ∧
      Scheduled x.2 q' c' [(m.ctx self).wptr] ∧ x.2.chan chan = (m.ctx self).wptr ∧
      x.2.mem (m.ctx self).wptr .state = data := by
  have hcur : Ready (m.ectx self) (q self) (m.ctx self).wptr := Or.inr ⟨rfl, hw⟩
  have hne : w ≠ (m.ctx self).wptr := fun e =>
    (h.apart w List.mem_cons_self).2 self (e ▸ hcur)
  have hwq : ∀ e, w ∉ q e ∧ w ∉ c e := by
    intro e
    refine ⟨fun hq => (h.apart w List.mem_cons_self).2 e (Or.inl hq), fun hc => ?_⟩
    exact (h.free e w hc (hstate ▸ by decide)).1 List.mem_cons_self
  set m₁ := (m.set w .state ready).saveInChan self chan data len with hm₁
  have hmem : ∀ v, v ∉ [w, (m.ctx self).wptr] → ∀ k, m₁.mem v k = m.mem v k := by
    intro v hv k
    rw [List.mem_cons, List.mem_singleton, not_or] at hv
    rw [hm₁, mem_saveInChan_of_ne (m := m.set w .state ready) hv.2]
    simp [hv.1]
  have hsched : Scheduled m₁ q c [w] := by
    refine h.writes rfl (fun v hv e => ?_) hmem
    rcases List.mem_cons.mp hv with rfl | hv
    · exact hwq e
    · obtain rfl := List.mem_singleton.mp hv
      exact ⟨h.current_notMem hw e, hu.notMem h⟩
  have hectx : m₁.mem w .ectx = m.mem w .ectx := by
    rw [hm₁, mem_saveInChan_of_ne (m := m.set w .state ready) hne]
    simp
  have hcall : m.chanStdIo self intf ops chan data len now = m₁.loadProcess self w now :=
    chanStdIo_enabled hws hchan hstate
  have hstate₁ : m₁.mem (m.ctx self).wptr .state = data := state_saveInChan
  have hchan₁ : m₁.chan chan = (m.ctx self).wptr := chan_saveInChan
  rw [hcall]
  unfold Contexts.loadProcess
  dsimp only
  rw [hectx]
  by_cases hdst : m.mem w .ectx = self
  · rw [if_neg (not_not.mpr hdst)]
    exact ⟨_, q, c, rfl, hsched.swap hw _, hchan₁, hstate₁⟩
  · obtain ⟨hadd, hlink⟩ := hsched.addToQueue (m.mem w .ectx)
    have hctx : ((m₁.addToQueue (m.mem w .ectx) w).ctx self).wptr = (m.ctx self).wptr := by
      rw [Contexts.addToQueue, Contexts.ctx_put_of_ne]
      · rfl
      · rw [regs_addToQueue]
        exact Ne.symm hdst
    obtain ⟨x, q', c', hx, hs, hc, -, -, hkeep, -⟩ :=
      hadd.stop (e := self) (by rw [hctx]; exact hw) now
    rw [hctx] at hs
    have hcont : (m₁.addToQueueExternal (m.mem w .ectx) self w).1 = .cont := if_neg (hloads hdst)
    rw [if_pos hdst, if_neg (not_not.mpr hcont)]
    refine ⟨x, q', c', hx, hs, ?_, ?_⟩
    · rw [hc, Contexts.addToQueue]
      show ((m₁.ectx _).addToQueue w).chan chan = _
      rw [regs_addToQueue]
      exact hchan₁
    · rw [hkeep _ _ (by decide) (hu.notMem h)]
      show ((m₁.ectx _).addToQueue w).mem _ _ = _
      rw [mem_addToQueue (by decide)]
      exact hstate₁

/-! ## Taking the data -/

variable {item : Contexts.Item} {o : Word}

theorem Contexts.Item.ops_data (item : Contexts.Item) : item.ops.data = item.xops.data := by
  cases item <;> rfl

/-- **A transfer is nothing to the scheduler.** -/
theorem Transfers.same (h : Transfers m item chan data o m') : m'.mem = m.mem ∧ m'.ctx = m.ctx := by
  cases item with
  | bytes n =>
    obtain ⟨-, rfl⟩ := Prod.mk.inj (Option.some.inj h)
    exact ⟨rfl, rfl⟩
  | mobile fuel ptr =>
    have hwords := Contexts.wordsOnly_mtChanIo h
    exact ⟨hwords.mem, hwords.ctx⟩

theorem Transfers.scheduled (ht : Transfers m item chan data o m') (h : Scheduled m q c parked) :
    Scheduled m' q c parked :=
  h.congr ht.same.2 (fun _ _ _ => by rw [ht.same.1]) fun _ _ _ _ _ => by rw [ht.same.1]

/-- What `chan_io` does where an outputter waits. -/
theorem chanIo_offered (hws : IsWorkspace o) (hchan : m.chan chan = o)
    (hdata : ops.data data len o (m.write chan notProcess) = some (.cont, m')) :
    m.chanIo self intf ops chan data len = some (.cont, o, m') := by
  unfold Contexts.chanIo
  dsimp only
  rw [hchan, if_neg hws.1, hws.and_two, if_neg (by simp), hws.and_one, if_pos rfl, hws.untagged,
    hdata]
  rfl

/-- **The outputter is put back** into the channel word. -/
theorem xin_offered (hws : IsWorkspace o) (hchan : m.chan chan = o)
    (ht : Transfers m item chan data o m') :
    m.insXin self intf item chan data now = some (.cont, m'.write chan o) := by
  rw [Transfers, item.ops_data] at ht
  unfold Contexts.insXin
  rw [chanIo_offered hws hchan ht]
  exact if_neg hws.ne_tagged

/-! ## Plain input -/

theorem Scheduled.perm {parked' : List Word} (h : Scheduled m q c parked)
    (hp : parked.Perm parked') : Scheduled m q c parked' :=
  { h with
    nodup := hp.nodup_iff.mp h.nodup
    apart := fun v hv => h.apart v (hp.mem_iff.mpr hv)
    free := fun e v hv hstate =>
      ⟨fun hv' => (h.free e v hv hstate).1 (hp.mem_iff.mpr hv'), (h.free e v hv hstate).2⟩ }

theorem descheduleCurrent_eq (m : Contexts) (e : Word) : m.descheduleCurrent e =
    ((m.away e).set (m.ctx e).wptr .iptr (m.ctx e).iptr).addToQueue e (m.ctx e).wptr := by
  unfold Contexts.descheduleCurrent Contexts.addToQueue Ectx.descheduleCurrent Ectx.addToQueueIptr
  by_cases hf : (m.ctx e).fptr = notProcess
  · rw [addToQueue_of_empty (s := (m.ectx e).set _ _ _) hf, addToQueue_of_empty]
    · simp [Contexts.put, Contexts.away, Contexts.ectx, Contexts.set, Tvm.away, Ectx.set]
      rfl
    · simp [Contexts.put, Contexts.away, Contexts.ectx, Contexts.set, Tvm.away, hf]
  · rw [addToQueue_of_ne (s := (m.ectx e).set _ _ _) hf, addToQueue_of_ne]
    · simp [Contexts.put, Contexts.away, Contexts.ectx, Contexts.set, Tvm.away, Ectx.set]
      rfl
    · simp [Contexts.put, Contexts.away, Contexts.ectx, Contexts.set, Tvm.away, hf]

theorem addToQueue_chan (m : Contexts) (e w : Word) : (m.addToQueue e w).chan = m.chan := by
  show ((m.ectx e).addToQueue w).chan = m.chan
  rw [regs_addToQueue]
  rfl

theorem addToQueue_bytes (m : Contexts) (e w : Word) : (m.addToQueue e w).bytes = m.bytes := by
  show ((m.ectx e).addToQueue w).bytes = m.bytes
  rw [regs_addToQueue]
  rfl

theorem addToQueue_wptr (m : Contexts) (e w e' : Word) :
    ((m.addToQueue e w).ctx e').wptr = (m.ctx e').wptr := by
  have hself : ((m.ectx e).addToQueue w).self = e := by rw [regs_addToQueue]; rfl
  by_cases he : e' = e
  · rw [he, Contexts.addToQueue]
    have := Contexts.wptr_put_self (m := m) ((m.ectx e).addToQueue w)
    rw [hself] at this
    rw [this, regs_addToQueue]
    rfl
  · rw [Contexts.addToQueue, Contexts.ctx_put_of_ne (hself.symm ▸ he)]

/-- **The current process goes to the back of the run queue.** -/
theorem Scheduled.descheduleCurrent (h : Scheduled m q c parked)
    (hw : (m.ctx e).wptr ≠ notProcess) :
    ∃ q', Scheduled (m.descheduleCurrent e) q' c parked := by
  have hpark : Scheduled ((m.away e).set (m.ctx e).wptr .iptr (m.ctx e).iptr) q c
      (parked ++ [(m.ctx e).wptr]) :=
    (h.park hw).congr rfl (fun _ v _ => by simp) fun _ v _ k hk => by
      rcases hk with rfl | rfl | rfl <;> simp
  rw [descheduleCurrent_eq]
  exact ⟨_, ((hpark.perm (List.perm_append_singleton _ _)).addToQueue e).1⟩

/-- Nobody is current there already. -/
theorem away_of_idle (h : (m.ctx e).wptr = notProcess) : m.away e = m := by
  have hectx : Tvm.away (m.ectx e) = m.ectx e := by
    rw [Tvm.away, ← h]
    rfl
  rw [Contexts.away, hectx]
  simp [Contexts.put, Contexts.ectx]

/-- **Loading a process** that was parked, when nobody is current, returns and moves no data. -/
theorem Scheduled.loadProcess (h : Scheduled m q c (o :: parked))
    (hidle : (m.ctx e).wptr = notProcess) (now : Word) :
    ∃ x, m.loadProcess e o now = some x ∧ x.2.chan = m.chan ∧ x.2.bytes = m.bytes := by
  unfold Contexts.loadProcess
  dsimp only
  by_cases hdst : m.mem o .ectx = e
  · rw [if_neg (not_not.mpr hdst)]
    exact ⟨_, rfl, rfl, rfl⟩
  · rw [if_pos hdst]
    have hidle' : ((m.addToQueue (m.mem o .ectx) o).ctx e).wptr = notProcess := by
      rw [addToQueue_wptr, hidle]
    have hchan := addToQueue_chan m (m.mem o .ectx) o
    have hbytes := addToQueue_bytes m (m.mem o .ectx) o
    by_cases hret : (m.addToQueueExternal (m.mem o .ectx) e o).1 = .cont
    · have hadd := (h.addToQueue (m.mem o .ectx)).1
      rw [← away_of_idle hidle'] at hadd
      obtain ⟨x, -, -, hx, -, hxchan, hxbytes, -⟩ := hadd.next now
      rw [if_neg (not_not.mpr hret)]
      exact ⟨x, hx, hxchan.trans hchan, hxbytes.trans hbytes⟩
    · rw [if_pos hret]
      exact ⟨_, rfl, hchan, hbytes⟩

theorem descheduleCurrent_wptr (m : Contexts) (e : Word) :
    ((m.descheduleCurrent e).ctx e).wptr = notProcess := by
  rw [descheduleCurrent_eq, addToQueue_wptr]
  exact Contexts.wptr_put_self (Tvm.away (m.ectx e))

/-- **What a plain input would have delivered**: the same words and bytes. -/
theorem in_offered (h : Scheduled m q c [o]) (hws : IsWorkspace o) (hchan : m.chan chan = o)
    (hw : (m.ctx self).wptr ≠ notProcess) (ht : Transfers m item chan data o m') :
    ∃ x, m.insIn self intf item chan data now = some x ∧ x.2.chan = m'.chan ∧
      x.2.bytes = m'.bytes := by
  have hw' : (m'.ctx self).wptr ≠ notProcess := by rwa [ht.same.2]
  obtain ⟨q', hdes⟩ := (ht.scheduled h).descheduleCurrent hw'
  obtain ⟨x, hx, hxchan, hxbytes⟩ := hdes.loadProcess (descheduleCurrent_wptr m' self) now
  have hsame : (m'.descheduleCurrent self).chan = m'.chan ∧
      (m'.descheduleCurrent self).bytes = m'.bytes := by
    rw [descheduleCurrent_eq, addToQueue_chan, addToQueue_bytes]
    exact ⟨rfl, rfl⟩
  refine ⟨x, ?_, hxchan.trans hsame.1, hxbytes.trans hsame.2⟩
  unfold Contexts.insIn Contexts.chanStdIo
  rw [chanIo_offered hws hchan ht]
  dsimp only [Option.bind_some]
  rw [if_pos hws.1, Contexts.requeueOrNext, hws.untagged, if_pos hws.1]
  exact hx

/-! ## Letting the outputter go -/

/-- **The outputter is let go**, once, and the channel is empty. -/
theorem xend_taken (h : Scheduled m q c [o]) (hws : IsWorkspace o) (hchan : m.chan chan = o) :
    (∃ q', Scheduled (m.insXend self chan).2 q' c []) ∧
      HandedOver m (m.insXend self chan).2 o ∧ (m.insXend self chan).2.Queued o ∧
      (m.insXend self chan).2.chan chan = notProcess ∧ (m.insXend self chan).1 ≠ .error := by
  have hwrite : Scheduled (m.write chan notProcess) q c [o] :=
    h.congr rfl (fun _ _ _ => rfl) fun _ _ _ _ _ => rfl
  obtain ⟨hsched, hover, hqueued, hsame, -⟩ := hwrite.handOver self
  unfold Contexts.insXend
  dsimp only
  rw [hchan, if_pos hws.ne_tagged, hws.untagged]
  refine ⟨hsched, ⟨hover.queued, hover.others, hover.current⟩, hqueued, ?_, ?_⟩
  · rw [hsame]
    simp
  · unfold Contexts.addToQueueEctx Contexts.addToQueueExternal
    dsimp only
    split_ifs <;> simp

/-! ## Whole runs -/

variable {r r' : XRun} {act : XAct}

theorem XInv.xable (h : XInv chan r) (hok : XOk chan r (.xable self now)) :
    ∃ r', xStep intf chan r (.xable self now) = some r' ∧ XInv chan r' := by
  obtain ⟨m, phase⟩ := r
  obtain ⟨⟨q, c, hs⟩, hword⟩ := h
  obtain ⟨hw, hu, hphase⟩ := hok
  dsimp only at hs hword hw hu hphase
  rcases hphase with rfl | ⟨o, src, rfl⟩
  · obtain ⟨x, q', c', hx, hs', hchan, hstate⟩ : ∃ x q' c',
        m.insXable self intf chan now = some x ∧ Scheduled x.2 q' c' [(m.ctx self).wptr] ∧
        x.2.chan chan = (m.ctx self).wptr ||| 1 ∧ x.2.mem (m.ctx self).wptr .state = waiting :=
      xable_idle hs hword hw.1 hu
    refine ⟨⟨x.2, .enabled (m.ctx self).wptr⟩, ?_, ⟨q', c', hs'⟩, hw, hchan, hstate⟩
    simp only [xStep, hx, Option.map_some, if_pos (show m.chan chan = notProcess from hword)]
  · obtain ⟨hws, hchan, hstate⟩ := hword
    refine ⟨⟨m, .offered o src⟩, ?_, ⟨q, c, hs⟩, hws, hchan, hstate⟩
    have hcall : m.insXable self intf chan now = some (.cont, m) := by
      unfold Contexts.insXable
      dsimp only
      rw [hchan, hws.and_two, if_neg (by simp), if_neg hws.1]
    simp only [xStep, hcall, Option.map_some, hchan, if_neg hws.1]

theorem XInv.out (h : XInv chan r) (hok : XOk chan r (.out ops self data len now))
    (hloads : Loads r (.out ops self data len now)) :
    ∃ r', xStep intf chan r (.out ops self data len now) = some r' ∧ XInv chan r' ∧
      r'.phase = .offered (r.m.ctx self).wptr data := by
  obtain ⟨m, phase⟩ := r
  obtain ⟨⟨q, c, hs⟩, hword⟩ := h
  obtain ⟨hw, hu, hphase⟩ := hok
  dsimp only at hs hword hw hu hphase
  obtain ⟨x, q', c', hx, hs', hchan, hstate⟩ : ∃ x q' c',
      m.chanStdIo self intf ops chan data len now = some x ∧
      Scheduled x.2 q' c' [(m.ctx self).wptr] ∧ x.2.chan chan = (m.ctx self).wptr ∧
      x.2.mem (m.ctx self).wptr .state = data := by
    rcases hphase with rfl | ⟨w, rfl⟩
    · exact out_idle hs hword hw.1 hu
    · exact out_enabled hs hword.1 hword.2.1 hword.2.2 hw.1 hu (hloads w rfl)
  refine ⟨⟨x.2, .offered (m.ctx self).wptr data⟩, ?_, ⟨⟨q', c', hs'⟩, hw, hchan, hstate⟩, rfl⟩
  simp only [xStep, hx, Option.map_some]

theorem XInv.xin (h : XInv chan r) (hok : XOk chan r (.xin item self data now)) :
    ∃ r', xStep intf chan r (.xin item self data now) = some r' ∧ XInv chan r' := by
  obtain ⟨m, phase⟩ := r
  obtain ⟨⟨q, c, hs⟩, hword⟩ := h
  obtain ⟨hw, o, src, m', hphase, ht⟩ := hok
  dsimp only at hs hword hw hphase ht
  subst hphase
  obtain ⟨hws, hchan, -⟩ := hword
  have hcall : m.insXin self intf item chan data now = _ := xin_offered hws hchan ht
  refine ⟨⟨m'.write chan o, .taken o⟩, ?_, ⟨q, c, ?_⟩, hws, by simp⟩
  · simp only [xStep, hcall, Option.map_some, hchan]
  · exact (ht.scheduled hs).congr rfl (fun _ _ _ => rfl) fun _ _ _ _ _ => rfl

theorem XInv.xend (h : XInv chan r) (hok : XOk chan r (.xend self)) :
    XInv chan ⟨(r.m.insXend self chan).2, .idle⟩ := by
  obtain ⟨m, phase⟩ := r
  obtain ⟨⟨q, c, hs⟩, hword⟩ := h
  obtain ⟨hw, o, hphase⟩ := hok
  dsimp only at hs hword hw hphase
  subst hphase
  obtain ⟨⟨q', hs'⟩, -, -, hchan, -⟩ := xend_taken hs hword.1 hword.2
  exact ⟨⟨q', c, hs'⟩, hchan⟩

/-- **Every step keeps the invariant.** -/
theorem XInv.step (h : XInv chan r) (hok : XOk chan r act) (hloads : Loads r act)
    (hstep : xStep intf chan r act = some r') : XInv chan r' := by
  cases act with
  | xable self now =>
    obtain ⟨r'', hr, hinv⟩ := h.xable hok
    exact Option.some.inj (hstep.symm.trans hr) ▸ hinv
  | out ops self data len now =>
    obtain ⟨r'', hr, hinv, -⟩ := h.out hok hloads
    exact Option.some.inj (hstep.symm.trans hr) ▸ hinv
  | xin item self data now =>
    obtain ⟨r'', hr, hinv⟩ := h.xin hok
    exact Option.some.inj (hstep.symm.trans hr) ▸ hinv
  | xend self => exact Option.some.inj hstep ▸ h.xend hok
  | other m =>
    obtain ⟨hs, hchan, hsame⟩ := hok
    obtain rfl : (⟨m, r.phase⟩ : XRun) = r' := Option.some.inj hstep
    refine ⟨hs, ?_⟩
    have hword := h.word
    rcases hphase : r.phase with _ | w | ⟨o, src⟩ | o
    · rw [hphase] at hword
      exact hchan.trans hword
    · rw [hphase] at hword hsame
      exact ⟨hword.1, hchan.trans hword.2.1,
        (hsame w (by simp [XPhase.parked]) _ (by simp)).trans hword.2.2⟩
    · rw [hphase] at hword hsame
      exact ⟨hword.1, hchan.trans hword.2.1,
        (hsame o (by simp [XPhase.parked]) _ (by simp)).trans hword.2.2⟩
    · rw [hphase] at hword
      exact ⟨hword.1, hchan.trans hword.2⟩

/-- **Extended input is input with a delayed release**, in a state of a run: who outputs stands in
the channel word and is blocked until `ins_xend`, which lets it go once and leaves the channel
empty; what is taken is what a plain input would have delivered; and there is no error. -/
structure XSound (intf : Word → Option ExtInterface) (chan : Word) (r : XRun) : Prop where
  idle : r.phase = .idle → r.m.chan chan = notProcess
  blocked : ∀ o, r.phase.outputter = some o →
    r.m.chan chan = o ∧ ¬ r.m.Queued o ∧ ∀ e, (r.m.ctx e).wptr ≠ o
  source : ∀ o src, r.phase = .offered o src → r.m.mem o .state = src
  xable : ∀ self now, XOk chan r (.xable self now) →
    (∃ r', xStep intf chan r (.xable self now) = some r') ∧
      (r.phase ≠ .idle → r.m.insXable self intf chan now = some (.cont, r.m))
  out : ∀ ops self data len now, XOk chan r (.out ops self data len now) →
    Loads r (.out ops self data len now) →
    ∃ r', xStep intf chan r (.out ops self data len now) = some r' ∧
      r'.phase = .offered (r.m.ctx self).wptr data
  xin : ∀ item self data now, XOk chan r (.xin item self data now) →
    ∃ m' : Contexts, r.m.insXin self intf item chan data now =
        some (.cont, m'.write chan (r.m.chan chan)) ∧
      ∃ x, r.m.insIn self intf item chan data now = some x ∧ x.2.chan = m'.chan ∧
        x.2.bytes = m'.bytes
  xend : ∀ self o, XOk chan r (.xend self) → r.phase = .taken o →
    HandedOver r.m (r.m.insXend self chan).2 o ∧ (r.m.insXend self chan).2.Queued o ∧
      (r.m.insXend self chan).2.chan chan = notProcess ∧ (r.m.insXend self chan).1 ≠ .error

theorem XInv.sound (h : XInv chan r) : XSound intf chan r := by
  obtain ⟨⟨q, c, hs⟩, hword⟩ := id h
  refine ⟨fun hphase => ?_, fun o ho => ?_, fun o src hphase => ?_, fun self now hok =>
    ⟨?_, fun hphase => ?_⟩, fun ops self data len now hok hloads => ?_,
    fun item self data now hok => ?_, fun self o hok hphase => ?_⟩
  · rw [hphase] at hword
    exact hword
  · have hchan : r.m.chan chan = o := by
      rcases hphase : r.phase with _ | w | ⟨o', src⟩ | o' <;> rw [hphase] at hword ho
      · cases ho
      · cases ho
      · obtain rfl := Option.some.inj ho
        exact hword.2.1
      · obtain rfl := Option.some.inj ho
        exact hword.2
    have hparked : o ∈ r.phase.parked := by
      rcases hphase : r.phase with _ | w | ⟨o', src⟩ | o' <;> rw [hphase] at ho
      · cases ho
      · cases ho
      · exact List.mem_singleton.mpr (Option.some.inj ho).symm
      · exact List.mem_singleton.mpr (Option.some.inj ho).symm
    exact ⟨hchan, hs.not_queued hparked, hs.not_current hparked⟩
  · rw [hphase] at hword
    exact hword.2.2
  · obtain ⟨r', hr, -⟩ : ∃ r', xStep intf chan r (.xable self now) = some r' ∧ XInv chan r' :=
      h.xable hok
    exact ⟨r', hr⟩
  · obtain ⟨o, src, hoffered⟩ := hok.2.2.resolve_left hphase
    rw [hoffered] at hword
    unfold Contexts.insXable
    dsimp only
    rw [hword.2.1, hword.1.and_two, if_neg (by simp), if_neg hword.1.1]
  · obtain ⟨r', hr, -, hphase⟩ : ∃ r', xStep intf chan r (.out ops self data len now) = some r' ∧
        XInv chan r' ∧ r'.phase = .offered (r.m.ctx self).wptr data := h.out hok hloads
    exact ⟨r', hr, hphase⟩
  · obtain ⟨hw, o, src, m', hphase, ht⟩ := hok
    rw [hphase] at hs hword
    refine ⟨m', ?_, in_offered hs hword.1 hword.2.1 hw.1 ht⟩
    rw [hword.2.1]
    exact xin_offered hword.1 hword.2.1 ht
  · rw [hphase] at hs hword
    exact (xend_taken hs hword.1 hword.2).2

/-- **Extended input is sound** in every run that begins with an empty channel, as long as nobody
outputs to a waiting inputter of a context that preempts the outputter's. -/
theorem extended_input_sound {m₀ : Contexts} {q₀ c₀ : Word → List Word}
    (h₀ : Scheduled m₀ q₀ c₀ []) (hchan : m₀.chan chan = notProcess)
    (hreach : Transition.Reach (xStep intf chan) (fun r act => XOk chan r act ∧ Loads r act)
      ⟨m₀, .idle⟩ r) : XSound intf chan r := by
  have hstart : XInv chan ⟨m₀, .idle⟩ := ⟨⟨q₀, c₀, h₀⟩, hchan⟩
  exact (hreach.invariant hstart fun hi hok hstep => hi.step hok.1 hok.2 hstep).sound

theorem untimed_twoCurrent (w : Word) : Untimed twoCurrent w := by
  intro e c hc
  obtain rfl : c = [] := hc.linked.null_iff.mp rfl
  exact List.not_mem_nil

/-- The process of the context at 4 has offered what is at 1024. -/
def oneOffers : Contexts :=
  let m := twoCurrent.saveInChan 4 256 1024 4
  m.put { m.ectx 4 with wptr := notProcess }

theorem untimed_oneOffers (w : Word) : Untimed oneOffers w := by
  intro e c hc
  have htptr : (oneOffers.ectx e).tptr = notProcess := by
    by_cases he : e = 4
    · rw [he]
      rfl
    · rw [oneOffers, Contexts.ectx_put_of_ne he]
      rfl
  obtain rfl : c = [] := hc.linked.null_iff.mp htptr
  exact List.not_mem_nil

/-- The process of the context at 8 has taken it. -/
def otherTakes : Contexts :=
  ((oneOffers.write 256 notProcess).memcpy 2048 1024 4).write 256 64

/-- One of the two offers its data to the other, which finds it, takes it and lets the first go. -/
theorem extended_input_sound_taken :
    ∃ r r', Transition.Reach (xStep (fun _ => none) 256) (fun r act => XOk 256 r act ∧ Loads r act)
        ⟨twoCurrent, .idle⟩ r ∧ r.phase = .taken 64 ∧ XSound (fun _ => none) 256 r ∧
      xStep (fun _ => none) 256 r (.xend 8) = some r' ∧ r'.phase = .idle ∧ r'.m.Queued 64 ∧
      XSound (fun _ => none) 256 r' := by
  have hout : XOk 256 ⟨twoCurrent, .idle⟩ (.out (Contexts.Item.bytes 4).ops 4 1024 4 0) :=
    ⟨⟨by decide, by decide⟩, untimed_twoCurrent _, .inl rfl⟩
  have hxable : XOk 256 ⟨oneOffers, .offered 64 1024⟩ (.xable 8 0) :=
    ⟨⟨by decide, by decide⟩, untimed_oneOffers _, .inr ⟨64, 1024, rfl⟩⟩
  have hxin : XOk 256 ⟨oneOffers, .offered 64 1024⟩ (.xin (.bytes 4) 8 2048 0) :=
    ⟨⟨by decide, by decide⟩, 64, 1024, _, rfl, rfl⟩
  have hxend : XOk 256 ⟨otherTakes, .taken 64⟩ (.xend 8) := ⟨⟨by decide, by decide⟩, 64, rfl⟩
  have hstart : Transition.Reach (xStep (fun _ => none) 256)
      (fun r act => XOk 256 r act ∧ Loads r act) ⟨twoCurrent, .idle⟩ ⟨twoCurrent, .idle⟩ := .start
  have hoffered : xStep (fun _ => none) 256 ⟨twoCurrent, .idle⟩
      (.out (Contexts.Item.bytes 4).ops 4 1024 4 0) = some ⟨oneOffers, .offered 64 1024⟩ := rfl
  have hfound : xStep (fun _ => none) 256 ⟨oneOffers, .offered 64 1024⟩ (.xable 8 0) =
      some ⟨oneOffers, .offered 64 1024⟩ := rfl
  have htaken : xStep (fun _ => none) 256 ⟨oneOffers, .offered 64 1024⟩
      (.xin (.bytes 4) 8 2048 0) = some ⟨otherTakes, .taken 64⟩ := rfl
  have hreach := ((hstart.next ⟨hout, fun w hw => by cases hw⟩ hoffered).next ⟨hxable, trivial⟩
    hfound).next ⟨hxin, trivial⟩ htaken
  have hsound := extended_input_sound twoCurrent_scheduled rfl hreach
  have hidle := hreach.next ⟨hxend, trivial⟩ rfl
  exact ⟨_, _, hreach, rfl, hsound, rfl, rfl, (hsound.xend 8 64 hxend rfl).2.1,
    extended_input_sound twoCurrent_scheduled rfl hidle⟩

/-! ## Where it is not sound -/

/-- **On a channel of an external bundle** an extended input that succeeds is an error. -/
theorem xin_external {i : ExtInterface} (hext : m.chan chan &&& 2 ≠ 0)
    (hi : intf (m.chan (m.chan chan &&& ~~~3)) = some i)
    (hxin : item.xops.ext i (m.chan ((m.chan chan &&& ~~~3) + 4)) chan data item.len m =
      (.cont, m')) :
    m.insXin self intf item chan data now = some (.error, m') := by
  have hne : m.chan chan ≠ notProcess := fun e => hext (by rw [e]; rfl)
  unfold Contexts.insXin Contexts.chanIo
  dsimp only
  rw [if_neg hne, if_pos hext, hi]
  dsimp only
  rw [hxin]
  rfl

/-- **An outputter that is preempted** by the inputter that waits for it stands in the channel word
and is current as well. -/
theorem out_preempted (hws : IsWorkspace w) (hchan : m.chan chan = w ||| 1)
    (hstate : m.mem w .state = waiting) (hne : w ≠ (m.ctx self).wptr)
    (hdst : m.mem w .ectx ≠ self)
    (hpri : (m.ctx (m.mem w .ectx)).pri.slt (m.ctx self).pri = true) :
    ∃ x, m.chanStdIo self intf ops chan data len now = some x ∧ x.1 = .preempt ∧
      x.2.chan chan = (m.ctx self).wptr ∧ (x.2.ctx self).wptr = (m.ctx self).wptr := by
  have hectx : ((m.set w .state ready).saveInChan self chan data len).mem w .ectx =
      m.mem w .ectx := by
    rw [mem_saveInChan_of_ne (m := m.set w .state ready) hne]
    simp
  rw [chanStdIo_enabled hws hchan hstate, Contexts.loadProcess]
  dsimp only
  rw [hectx, if_pos hdst]
  have hret : (((m.set w .state ready).saveInChan self chan data len).addToQueueExternal
      (m.mem w .ectx) self w).1 = .preempt := if_pos hpri
  rw [if_pos (by rw [hret]; decide)]
  refine ⟨_, rfl, hret, ?_, ?_⟩
  · exact (congrFun (addToQueue_chan _ _ _) chan).trans chan_saveInChan
  · exact addToQueue_wptr _ _ _ _

end Steps

/-- A channel of an external bundle at 512, whose interface is at 1024. -/
def externalChannel : Contexts :=
  { twoCurrent with chan := fun a => if a = 256 then 514 else if a = 512 then 1024 else 0 }

/-- An interface whose extended input succeeds. -/
def succeeds : ExtInterface := ⟨none, none, some fun _ _ _ _ m => (.cont, m), none, none⟩

theorem xin_external_error : ¬ ∀ (m : Contexts) (intf : Word → Option ExtInterface)
    (i : ExtInterface)
    (self chan data now : Word) (item : Contexts.Item) (m' : Contexts) (x : Ret × Contexts),
    m.chan chan &&& 2 ≠ 0 → intf (m.chan (m.chan chan &&& ~~~3)) = some i →
    item.xops.ext i (m.chan ((m.chan chan &&& ~~~3) + 4)) chan data item.len m = (.cont, m') →
    m.insXin self intf item chan data now = some x → x.1 ≠ .error := fun h =>
  h externalChannel (fun a => if a = 1024 then some succeeds else none) succeeds 4 256 0 0
    (.bytes 4) externalChannel (.error, externalChannel) (by decide) rfl rfl
    (xin_external (by decide) rfl rfl) rfl

end Tvm

end Kroc
