import Kroc.Lib.Transition
import Kroc.Tvm.Contexts

/-!
# Tvm/Semaphore — `tvm_sem_claim` and `tvm_sem_release`

The semaphore of `runtime/libtvm/ins_pi.c`: two words, `SEM_FPTR` and `SEM_BPTR`.  The front word is
1 while nobody holds the semaphore, null while somebody does and nobody waits, and else the first
of those who wait, whose chain `WS_LINK` leads to the back word.

Beside the contexts stands who holds the semaphore and who waits for it, by what has become of
their calls: a caller that is still current has it, and so has one who waited and is on a run queue.
-/

namespace Kroc

namespace Tvm

open Ectx

namespace Contexts

variable (m : Contexts) (self sem now : Word)

/-- `tvm_sem_init` -/
def semInit : Contexts := (m.write sem (notProcess ||| 1)).write (sem + 4) notProcess

/-- The part of `tvm_sem_claim` that joins the queue. -/
def semJoin : Contexts :=
  let wptr := (m.ctx self).wptr
  let semFptr := m.chan sem
  let m := m.set wptr .link notProcess
  let m := m.set wptr .ectx self
  let m := m.set wptr .iptr (m.ctx self).iptr
  if semFptr = notProcess then (m.write sem wptr).write (sem + 4) wptr
  else (m.set (m.chan (sem + 4)) .link wptr).write (sem + 4) wptr

/-- `tvm_sem_claim` -/
def semClaim : Option (Ret × Contexts) :=
  if m.chan sem = notProcess ||| 1 then some (.cont, m.write sem notProcess)
  else (m.semJoin self sem).runNextOnQueue self now

/-- `tvm_sem_release` -/
def semRelease : Ret × Contexts :=
  let semFptr := m.chan sem
  if semFptr = notProcess then (.cont, m.write sem (notProcess ||| 1))
  else (m.write sem (m.mem semFptr .link)).addToQueueEctx self semFptr

end Contexts

/-! ## Runs -/

/-- The contexts, who holds the semaphore, and who waits for it in the order of their claims. -/
structure SemRun where
  m : Contexts
  holders : List Word
  waiting : List Word

/-- A call in the context `self`, or what the others do. -/
inductive SemAct
  | claim (self now : Word)
  | release (self : Word)
  | other (m : Contexts)

open Classical in
/-- **A step.** -/
noncomputable def semStep (sem : Word) (r : SemRun) : SemAct → Option SemRun
  | .claim self now =>
    let w := (r.m.ctx self).wptr
    (r.m.semClaim self sem now).map fun x =>
      if (x.2.ctx self).wptr = w then ⟨x.2, w :: r.holders, r.waiting⟩
      else ⟨x.2, r.holders, r.waiting ++ [w]⟩
  | .release self =>
    let m := (r.m.semRelease self sem).2
    some ⟨m, r.waiting.filter (fun w => m.Queued w) ++ r.holders.erase (r.m.ctx self).wptr,
      r.waiting.filter fun w => ¬ m.Queued w⟩
  | .other m => some ⟨m, r.holders, r.waiting⟩

/-- **Who may do what**: the caller is current, who releases holds the semaphore, and the others
leave alone the semaphore and who waits. -/
def SemOk (sem : Word) (r : SemRun) : SemAct → Prop
  | .claim self _ => IsWorkspace (r.m.ctx self).wptr
  | .release self => (r.m.ctx self).wptr ∈ r.holders
  | .other m => (∃ q c, Scheduled m q c r.waiting) ∧ m.chan sem = r.m.chan sem ∧
      m.chan (sem + 4) = r.m.chan (sem + 4) ∧
      ∀ w ∈ r.waiting, ∀ k : Slot, k = .link ∨ k = .ectx ∨ k = .iptr → m.mem w k = r.m.mem w k

/-- The chain of who waits, from the front word to the back word. -/
def SemChain (sem : Word) (m : Contexts) (waiting : List Word) : Prop :=
  Fifo notProcess (fun w => m.mem w .link) (m.chan sem) (m.chan (sem + 4)) waiting

/-- The invariant. -/
structure SemInv (sem : Word) (r : SemRun) : Prop where
  scheduled : ∃ q c, Scheduled r.m q c r.waiting
  workspaces : ∀ w ∈ r.waiting, IsWorkspace w
  words : (r.holders = [] ∧ r.waiting = [] ∧ r.m.chan sem = notProcess ||| 1) ∨
    (r.holders.length = 1 ∧ SemChain sem r.m r.waiting)

section Semaphore

variable {m m' : Contexts} {q c : Word → List Word} {waiting : List Word} {r : SemRun}
  {self sem now w : Word}

theorem sem_ne (sem : Word) : sem ≠ sem + 4 := by
  intro h
  bv_omega

theorem SemChain.front (h : SemChain sem m waiting) (hw : ∀ w ∈ waiting, IsWorkspace w) :
    m.chan sem ≠ notProcess ||| 1 := by
  intro he
  have hone : (notProcess ||| 1 : Word) ≠ notProcess := by decide
  obtain ⟨rest, hcons, -⟩ := h.exists_pop fun e => hone (he.symm.trans e)
  have hfront := (hw (m.chan sem) (hcons ▸ List.mem_cons_self)).2
  rw [he] at hfront
  exact absurd hfront (by decide)

/-- **Joining the queue.** -/
theorem semJoin_spec (hchain : SemChain sem m waiting) (hw : (m.ctx self).wptr ≠ notProcess)
    (hnot : (m.ctx self).wptr ∉ waiting) :
    SemChain sem (m.semJoin self sem) (waiting ++ [(m.ctx self).wptr]) ∧
      (m.semJoin self sem).ctx = m.ctx ∧
      (∀ v, v ≠ (m.ctx self).wptr → v ∉ waiting →
        (m.semJoin self sem).mem v .link = m.mem v .link) ∧
      ∀ v k, k = Slot.tlink ∨ k = .time ∨ k = .state →
        (m.semJoin self sem).mem v k = m.mem v k := by
  have hback : m.chan sem ≠ notProcess → m.chan (sem + 4) ∈ waiting :=
    fun hne => hchain.back_mem fun e => hne (hchain.null_iff.mpr e)
  have hsem := sem_ne sem
  unfold Contexts.semJoin SemChain at *
  dsimp only
  generalize sem + 4 = back at *
  by_cases hempty : m.chan sem = notProcess
  · rw [if_pos hempty]
    refine ⟨?_, rfl, fun v hv _ => ?_, fun v k hk => ?_⟩
    · obtain rfl := hchain.null_iff.mp hempty
      simp only [List.nil_append, Contexts.chan_write, if_true, if_neg hsem]
      exact Fifo.singleton hw (by simp)
    · simp [hv]
    · rcases hk with rfl | rfl | rfl <;> simp
  · rw [if_neg hempty]
    have hb := hback hempty
    have hbw : m.chan back ≠ (m.ctx self).wptr := fun e => hnot (e ▸ hb)
    refine ⟨?_, rfl, fun v hv hvw => ?_, fun v k hk => ?_⟩
    · simp only [Contexts.chan_write, Contexts.chan_set, if_true, if_neg hsem]
      refine Fifo.push hchain hw ?_ (fun _ => ?_) (fun x hx hxb => ?_) (fun e => absurd e hempty)
        fun _ => rfl
      · simp [Ne.symm hbw]
      · simp
      · have hxw : x ≠ (m.ctx self).wptr := fun e => hnot (e ▸ hx)
        simp [hxw, hxb]
    · have hvb : v ≠ m.chan back := fun e => hvw (e ▸ hb)
      simp [hv, hvb]
    · rcases hk with rfl | rfl | rfl <;> simp

/-- **A claim** of a semaphore that somebody holds blocks, behind those who wait. -/
theorem semClaim_held (h : Scheduled m q c waiting) (hw : ∀ w ∈ waiting, IsWorkspace w)
    (hchain : SemChain sem m waiting) (hwptr : (m.ctx self).wptr ≠ notProcess) :
    ∃ x q' c', m.semClaim self sem now = some x ∧
      Scheduled x.2 q' c' (waiting ++ [(m.ctx self).wptr]) ∧
      SemChain sem x.2 (waiting ++ [(m.ctx self).wptr]) ∧
      (x.2.ctx self).wptr ≠ (m.ctx self).wptr := by
  have hcur : Ready (m.ectx self) (q self) (m.ctx self).wptr := Or.inr ⟨rfl, hwptr⟩
  obtain ⟨hchain', hctx, hlink, htimer⟩ := semJoin_spec hchain hwptr (h.not_parked hcur)
  obtain ⟨x, q', c', hx, hsched, hchan, hlinks, hne⟩ := h.block hwptr hctx hlink htimer now
  refine ⟨x, q', c', ?_, hsched, ?_, hne⟩
  · rw [Contexts.semClaim, if_neg (hchain.front hw), hx]
  · rw [SemChain, hchan]
    exact Fifo.congr hchain' hlinks

/-- What a hand-over does: the process is put once on the run queue of its context, and all else
that is scheduled stays. -/
structure HandedOver (m m' : Contexts) (w : Word) : Prop where
  queued : ∀ q, (m.ectx (m.mem w .ectx)).RunQueue q →
    w ∉ q ∧ (m'.ectx (m.mem w .ectx)).RunQueue (q ++ [w])
  others : ∀ e ≠ m.mem w .ectx, ∀ q, (m.ectx e).RunQueue q → (m'.ectx e).RunQueue q
  current : ∀ e, (m'.ctx e).wptr = (m.ctx e).wptr

theorem addToQueueEctx_snd (m : Contexts) (self w : Word) :
    (m.addToQueueEctx self w).2 = m.addToQueue (m.mem w .ectx) w := by
  unfold Contexts.addToQueueEctx Contexts.addToQueueExternal
  dsimp only
  by_cases h : m.mem w .ectx = self
  · rw [if_neg (not_not.mpr h), h]
  · rw [if_pos h]

/-- **`ADD_TO_QUEUE_ECTX`** hands over. -/
theorem Scheduled.handOver (h : Scheduled m q c (w :: waiting)) (self : Word) :
    (∃ q', Scheduled (m.addToQueueEctx self w).2 q' c waiting) ∧
      HandedOver m (m.addToQueueEctx self w).2 w ∧
      (m.addToQueueEctx self w).2.Queued w ∧
      (m.addToQueueEctx self w).2.chan = m.chan ∧
      ∀ v ∈ waiting, (m.addToQueueEctx self w).2.mem v .link = m.mem v .link := by
  rw [addToQueueEctx_snd]
  generalize hd : m.mem w .ectx = d
  obtain ⟨hsched, hlink⟩ := h.addToQueue d
  have hself : ((m.ectx d).addToQueue w).self = d := by rw [regs_addToQueue]; rfl
  have hrun : ((m.addToQueue d w).ectx d).RunQueue (q d ++ [w]) := by
    have := hsched.run d
    rwa [Function.update_self] at this
  refine ⟨⟨_, hsched⟩, ⟨fun l hl => ?_, fun e he l hl => ?_, fun e => ?_⟩, ⟨d, _, hrun, by simp⟩,
    ?_, hlink⟩
  · rw [hd] at hl ⊢
    rw [hl.unique (h.run d)]
    exact ⟨fun hq => (h.apart w List.mem_cons_self).2 d (Or.inl hq), hrun⟩
  · rw [hd] at he
    have := hsched.run e
    rw [Function.update_of_ne he] at this
    rwa [hl.unique (h.run e)]
  · by_cases he : e = d
    · rw [he]
      have := Contexts.wptr_put_self (m := m) ((m.ectx d).addToQueue w)
      rw [hself] at this
      rw [Contexts.addToQueue, this, regs_addToQueue]
      rfl
    · rw [Contexts.addToQueue, Contexts.ctx_put_of_ne (hself.symm ▸ he)]
  · show ((m.ectx d).addToQueue w).chan = m.chan
    rw [regs_addToQueue]
    rfl

/-- **A release** hands the semaphore to the first who waits. -/
theorem semRelease_waiting (h : Scheduled m q c (w :: waiting))
    (hchain : SemChain sem m (w :: waiting))
    (hw : w ≠ notProcess) :
    (∃ q', Scheduled (m.semRelease self sem).2 q' c waiting) ∧
      HandedOver m (m.semRelease self sem).2 w ∧ (m.semRelease self sem).2.Queued w ∧
      SemChain sem (m.semRelease self sem).2 waiting := by
  obtain ⟨hfront, hrest⟩ := hchain.pop
  have hwrite : Scheduled (m.write sem (m.mem w .link)) q c (w :: waiting) :=
    h.congr rfl (fun _ _ _ => rfl) fun _ _ _ _ _ => rfl
  obtain ⟨hsched, hover, hqueued, hchan, hlink⟩ := hwrite.handOver self
  unfold Contexts.semRelease
  dsimp only
  rw [hfront, if_neg hw]
  refine ⟨hsched, ⟨hover.queued, hover.others, hover.current⟩, hqueued, ?_⟩
  rw [SemChain, hchan]
  simp only [Contexts.chan_write, if_true, if_neg (sem_ne sem).symm]
  rw [hfront] at hrest
  exact Fifo.congr hrest hlink

/-- What a claim does: who finds the semaphore free has it and goes on, and else the caller blocks
behind those who wait. -/
def ClaimSound (sem : Word) (r : SemRun) (self now : Word) : Prop :=
  ∃ r', semStep sem r (.claim self now) = some r' ∧
    (r.holders = [] → r' = ⟨r.m.write sem notProcess, [(r.m.ctx self).wptr], []⟩) ∧
    (r.holders ≠ [] → r'.holders = r.holders ∧
      r'.waiting = r.waiting ++ [(r.m.ctx self).wptr])

/-- What a release does: it frees the semaphore if nobody waits, and else hands it to the first who
does. -/
def ReleaseSound (sem : Word) (r : SemRun) (self : Word) : Prop :=
  ∃ r', semStep sem r (.release self) = some r' ∧
    (r.waiting = [] → r' = ⟨r.m.write sem (notProcess ||| 1), [], []⟩) ∧
    ∀ w rest, r.waiting = w :: rest →
      r'.holders = [w] ∧ r'.waiting = rest ∧ HandedOver r.m r'.m w

theorem SemInv.claim (h : SemInv sem r) (hw : IsWorkspace (r.m.ctx self).wptr) :
    ∃ r', semStep sem r (.claim self now) = some r' ∧ SemInv sem r' ∧
      (r.holders = [] → r' = ⟨r.m.write sem notProcess, [(r.m.ctx self).wptr], []⟩) ∧
      (r.holders ≠ [] → r'.holders = r.holders ∧
        r'.waiting = r.waiting ++ [(r.m.ctx self).wptr]) := by
  obtain ⟨m, holders, waiting⟩ := r
  obtain ⟨⟨q, c, hsched⟩, hspaces, hwords⟩ := h
  dsimp only at *
  rcases hwords with ⟨rfl, rfl, hfree⟩ | ⟨hone, hchain⟩
  · have hclaim : m.semClaim self sem now = some (.cont, m.write sem notProcess) := by
      rw [Contexts.semClaim, if_pos hfree]
    refine ⟨⟨m.write sem notProcess, [(m.ctx self).wptr], []⟩, ?_, ⟨⟨q, c, ?_⟩, hspaces,
      Or.inr ⟨rfl, ?_⟩⟩, fun _ => rfl, fun hne => absurd rfl hne⟩
    · simp only [semStep, hclaim, Option.map_some, Contexts.ctx_write, if_true]
    · exact hsched.congr rfl (fun _ _ _ => rfl) fun _ _ _ _ _ => rfl
    · exact Fifo.nil (by simp)
  · obtain ⟨x, q', c', hx, hsched', hchain', hwptr⟩ :
        ∃ x q' c', m.semClaim self sem now = some x ∧ _ ∧ _ ∧ _ :=
      semClaim_held hsched hspaces hchain hw.1
    have hne : holders ≠ [] := by
      rintro rfl
      cases hone
    refine ⟨⟨x.2, holders, waiting ++ [(m.ctx self).wptr]⟩, ?_, ⟨⟨q', c', hsched'⟩, ?_,
      Or.inr ⟨hone, hchain'⟩⟩, fun he => absurd he hne, fun _ => ⟨rfl, rfl⟩⟩
    · simp only [semStep, hx, Option.map_some, if_neg hwptr]
    · intro v hv
      rcases List.mem_append.mp hv with hv | hv
      · exact hspaces v hv
      · rw [List.mem_singleton.mp hv]
        exact hw

open Classical in
theorem SemInv.release (h : SemInv sem r) (hw : (r.m.ctx self).wptr ∈ r.holders) :
    ∃ r', semStep sem r (.release self) = some r' ∧ SemInv sem r' ∧
      (r.waiting = [] → r' = ⟨r.m.write sem (notProcess ||| 1), [], []⟩) ∧
      ∀ w rest, r.waiting = w :: rest →
        r'.holders = [w] ∧ r'.waiting = rest ∧ HandedOver r.m r'.m w := by
  obtain ⟨m, holders, waiting⟩ := r
  obtain ⟨⟨q, c, hsched⟩, hspaces, hwords⟩ := h
  dsimp only at *
  obtain ⟨hone, hchain⟩ := hwords.resolve_left fun hf => by
    rw [hf.1] at hw
    exact absurd hw List.not_mem_nil
  obtain ⟨v, rfl⟩ := List.length_eq_one_iff.mp hone
  obtain rfl := List.mem_singleton.mp hw
  have herase : [(m.ctx self).wptr].erase (m.ctx self).wptr = [] := by simp
  cases waiting with
  | nil =>
    have hempty : m.chan sem = notProcess := hchain.null_iff.mpr rfl
    have hrelease : (m.semRelease self sem).2 = m.write sem (notProcess ||| 1) := by
      rw [Contexts.semRelease, if_pos hempty]
    refine ⟨⟨m.write sem (notProcess ||| 1), [], []⟩, ?_, ⟨⟨q, c, ?_⟩, hspaces,
      Or.inl ⟨rfl, rfl, by simp⟩⟩, fun _ => rfl, fun _ _ he => by cases he⟩
    · simp only [semStep, hrelease, herase, List.filter_nil, List.append_nil]
    · exact hsched.congr rfl (fun _ _ _ => rfl) fun _ _ _ _ _ => rfl
  | cons w rest =>
    obtain ⟨⟨q', hsched'⟩, hover, hqueued, hchain'⟩ :=
      semRelease_waiting hsched hchain (hspaces w List.mem_cons_self).1
    have hrest : ∀ v ∈ rest, ¬ (m.semRelease self sem).2.Queued v :=
      fun v hv => hsched'.not_queued hv
    refine ⟨⟨(m.semRelease self sem).2, [w], rest⟩, ?_, ⟨⟨q', c, hsched'⟩,
      fun v hv => hspaces v (List.mem_cons_of_mem _ hv), Or.inr ⟨rfl, hchain'⟩⟩,
      fun he => (by cases he), fun w' rest' he => ?_⟩
    · have hyes : rest.filter (fun w => (m.semRelease self sem).2.Queued w) = [] :=
        List.filter_eq_nil_iff.mpr fun v hv => by simpa using hrest v hv
      have hno : rest.filter (fun w => ¬ (m.semRelease self sem).2.Queued w) = rest :=
        List.filter_eq_self.mpr fun v hv => by simpa using hrest v hv
      simp only [semStep, herase, List.append_nil]
      rw [List.filter_cons_of_pos (by simpa using hqueued), hyes,
        List.filter_cons_of_neg (by simpa using hqueued), hno]
    · cases he
      exact ⟨rfl, rfl, hover⟩

/-- **Every step keeps the invariant.** -/
theorem SemInv.step {act : SemAct} {r' : SemRun} (h : SemInv sem r) (hok : SemOk sem r act)
    (hstep : semStep sem r act = some r') : SemInv sem r' := by
  cases act with
  | claim self now =>
    obtain ⟨r'', hr, hinv, -⟩ := h.claim hok
    rw [hstep] at hr
    cases hr
    exact hinv
  | release self =>
    obtain ⟨r'', hr, hinv, -⟩ := h.release hok
    rw [hstep] at hr
    cases hr
    exact hinv
  | other m =>
    cases hstep
    obtain ⟨hsched, hfront, hback, hsame⟩ := hok
    refine ⟨hsched, h.workspaces, h.words.imp (fun hf => ⟨hf.1, hf.2.1, hfront.trans hf.2.2⟩)
      fun hf => ⟨hf.1, ?_⟩⟩
    rw [SemChain, hfront, hback]
    exact Fifo.congr hf.2 fun w hw => hsame w hw _ (Or.inl rfl)

theorem semInit_inv (h : Scheduled m q c []) (sem : Word) :
    SemInv sem ⟨m.semInit sem, [], []⟩ := by
  have hs := sem_ne sem
  refine ⟨⟨q, c, h.congr rfl (fun _ _ _ => rfl) fun _ _ _ _ _ => rfl⟩,
    fun w hw => absurd hw List.not_mem_nil, Or.inl ⟨rfl, rfl, ?_⟩⟩
  simp only [Contexts.semInit, Contexts.chan_write, if_neg hs, if_true]

/-- **The semaphore excludes, and is handed over in turn**: in every run from an initialised
semaphore one process holds it at most, the words are those of a free semaphore or lead through
exactly those who wait, in the order of their claims, who are neither current nor on a run queue,
and every call returns and does what it should. -/
theorem semaphore_sound {m₀ : Contexts} {q₀ c₀ : Word → List Word} (h₀ : Scheduled m₀ q₀ c₀ [])
    (hreach : Transition.Reach (semStep sem) (SemOk sem) ⟨m₀.semInit sem, [], []⟩ r) :
    r.holders.length ≤ 1 ∧
      (r.holders = [] → r.waiting = [] ∧ r.m.chan sem = notProcess ||| 1) ∧
      (r.holders ≠ [] → SemChain sem r.m r.waiting) ∧ r.waiting.Nodup ∧
      (∀ w ∈ r.waiting, ¬ r.m.Queued w ∧ ∀ e, (r.m.ctx e).wptr ≠ w) ∧
      (∀ self now, IsWorkspace (r.m.ctx self).wptr → ClaimSound sem r self now) ∧
      ∀ self, (r.m.ctx self).wptr ∈ r.holders → ReleaseSound sem r self := by
  have hinv : SemInv sem r :=
    hreach.invariant (semInit_inv h₀ sem) fun hi hok hstep => hi.step hok hstep
  obtain ⟨q, c, hsched⟩ := hinv.scheduled
  refine ⟨?_, fun he => ?_, fun hne => ?_, hsched.nodup,
    fun w hw => ⟨hsched.not_queued hw, hsched.not_current hw⟩, fun self now hw => ?_,
    fun self hw => ?_⟩
  · rcases hinv.words with h | h
    · rw [h.1]
      exact Nat.zero_le _
    · exact h.1.le
  · rcases hinv.words with h | h
    · exact h.2
    · rw [he] at h
      cases h.1
  · exact (hinv.words.resolve_left fun h => hne h.1).2
  · obtain ⟨r', hr, -, hsound⟩ := hinv.claim hw
    exact ⟨r', hr, hsound⟩
  · obtain ⟨r', hr, -, hsound⟩ := hinv.release hw
    exact ⟨r', hr, hsound⟩

/-- One of the two claims a semaphore, and the other one waits for it. -/
theorem semaphore_sound_twoCurrent : ∃ r : SemRun, r.holders = [64] ∧ r.waiting = [128] ∧
    SemChain 256 r.m [128] := by
  have hstart : Transition.Reach (semStep 256) (SemOk 256)
      ⟨twoCurrent.semInit 256, [], []⟩ ⟨twoCurrent.semInit 256, [], []⟩ := .start
  have hfirst : IsWorkspace 64 := ⟨by decide, by decide⟩
  have hsecond : IsWorkspace 128 := ⟨by decide, by decide⟩
  obtain ⟨r, hr, hfree, -⟩ :=
    (semaphore_sound twoCurrent_scheduled hstart).2.2.2.2.2.1 4 0 hfirst
  obtain rfl := hfree rfl
  have hclaimed := hstart.next (a := .claim 4 0) (by exact hfirst) hr
  obtain ⟨t, ht, -, hheld⟩ :=
    (semaphore_sound twoCurrent_scheduled hclaimed).2.2.2.2.2.1 8 0 hsecond
  obtain ⟨hholders, hwaiting⟩ := hheld (List.cons_ne_nil _ _)
  have hboth := hclaimed.next (a := .claim 8 0) (by exact hsecond) ht
  have hchain := (semaphore_sound twoCurrent_scheduled hboth).2.2.1
  rw [hholders, hwaiting] at hchain
  exact ⟨t, hholders, hwaiting, hchain (List.cons_ne_nil _ _)⟩

end Semaphore

end Tvm

end Kroc
