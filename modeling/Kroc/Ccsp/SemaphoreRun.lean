import Mathlib
import Kroc.Ccsp.SemaphoreSteps

/-!
# Ccsp/SemaphoreRun — the semaphore excludes, and loses no waiter

Every step of a call by the kind of step it is, the steps at which the semaphore changes hands, and
what follows for every run.
-/

open Transition

namespace Kroc

namespace Ccsp

namespace Sem

open Function (update)

variable {τ : Type*} [DecidableEq τ] {s s' : Sys τ} {q : List Wptr} {tok tok' : Token τ} {t : τ}
  {e : Pc} {w : Wptr} {m : Mem} {pc : Pc}

namespace Sys

/-! ## Every step of a call -/

theorem advance_spec (s : Sys τ) (t : τ) : (s.advance t).mem = (Sem.advance s.mem (s.pc t)).1 ∧
    (s.advance t).pc = update s.pc t (Sem.advance s.mem (s.pc t)).2 := ⟨rfl, rfl⟩

/-- Only the steps at which a process gets the semaphore or comes onto the queue are logged. -/
theorem advance_logs (hfast : ∀ w, s.pc t = .fast w → s.mem.bptr ≠ 1)
    (htail : ∀ w, s.pc t ≠ .tail w s.mem.bptr) (henqueue : (s.pc t).hand = []) :
    (s.advance t).holding = s.holding ∧ (s.advance t).queued = s.queued ∧
      (s.advance t).enqueued = s.enqueued := by
  unfold Sys.advance
  cases ht : s.pc t with
  | fast w =>
    dsimp only [Sem.advance]
    rw [if_neg (hfast w ht)]
    exact ⟨rfl, rfl, rfl⟩
  | tail w val =>
    have hval : s.mem.bptr ≠ val := fun e => htail w (e ▸ ht)
    dsimp only [Sem.advance]
    rw [if_neg hval]
    exact ⟨rfl, rfl, rfl⟩
  | enqueue f =>
    rw [ht] at henqueue
    cases henqueue
  | _ => exact ⟨rfl, rfl, rfl⟩

/-- **A step of a call without the semaphore** that does not get it and queues nobody. -/
theorem Inv.asideStep (h : s.Inv q tok) (howns : ¬ (s.pc t).Owns)
    (hjoin : ∀ w val, s.pc t ≠ .join w val) (hfast : ∀ w, s.pc t = .fast w → s.mem.bptr ≠ 1)
    (htail : ∀ w, s.pc t ≠ .tail w s.mem.bptr)
    (htest : s.pc t = .testClear → s.mem.bptr % 2 ≠ 1) : (s.advance t).Inv q tok := by
  obtain ⟨hmem, hpc⟩ := advance_spec s t
  obtain ⟨howns', hfptr, hbptr⟩ := advance_aside howns hjoin hfast htail htest
  have hhand : (s.pc t).hand = [] := by
    revert howns
    cases s.pc t <;> intro howns
    case enqueue => exact absurd trivial howns
    all_goals rfl
  refine h.aside hpc (advance_logs hfast htail hhand) ⟨howns, howns'⟩
    ⟨hjoin, fun w val he => htail w (join_of_advance he)⟩ (fun _ => claims_of_advance)
    (fun w hw => hmem ▸ cleared_of_advance h.claimers.cleared hw) (hmem ▸ ⟨hfptr, hbptr⟩)
    (fun x => hmem ▸ advance_link hjoin x) fun hfree hw => ?_
  have hbit := h.queue.bptr_mod
  revert hw htest hjoin
  cases hpct : s.pc t with
  | join w val => exact fun hjoin => absurd rfl (hjoin w val)
  | testClear => exact fun _ htest => absurd (hbit.trans (Token.bit_eq_one.mpr hfree)) (htest rfl)
  | test toTest =>
    intro _ _ hw
    have hword : s.mem.word toTest ≠ 0 := by
      cases toTest with
      | none => exact hw
      | some f => exact hw.2
    dsimp only [Sem.advance]
    rw [if_pos hword]
    trivial
  | _ => exact fun _ _ hw => hw.elim

/-- **A step of the call that has the semaphore**, while it keeps it and everybody stays on the
queue. -/
theorem Inv.ownStep (h : s.Inv q (.call t)) (hjoin : ∀ w val, s.pc t ≠ .join w val)
    (hpct : s.pc t = pc) (hm : Sem.advance s.mem pc = (m, e)) (he : e.Owns) (hhand : e.hand = [])
    (hfront : e.frontOf m = pc.frontOf s.mem) (hseen : ({ s with mem := m } : Sys τ).Seen q e) :
    (s.advance t).Inv q (.call t) := by
  obtain ⟨hmem, hpc⟩ := advance_spec s t
  have howns := (h.tokens.owns t).mpr rfl
  subst hpct
  obtain ⟨hlink, hbptr, hhand', hclaims⟩ :=
    advance_own howns hjoin (by rwa [hm]) (by rwa [hm])
  rw [hm] at hlink hbptr hclaims hmem hpc
  dsimp only at hlink hbptr hclaims hmem hpc
  have htail : ∀ w, s.pc t ≠ .tail w s.mem.bptr := fun w e => by
    rw [e] at howns
    exact howns
  have hfast : ∀ w, s.pc t = .fast w → s.mem.bptr ≠ 1 := fun w e => by
    rw [e] at howns
    exact howns.elim
  have hj : ∀ w val, e ≠ .join w val := fun w val hj => by
    have : (Sem.advance s.mem (s.pc t)).2 = .join w val := by rw [hm, hj]
    exact htail w (join_of_advance this)
  refine h.own hpc (advance_logs hfast htail hhand') he ⟨hjoin, hj⟩ hclaims
    (hhand.trans hhand'.symm) ?_ (hmem ▸ ⟨hlink, hbptr⟩) ?_
  · rw [frontView_eq_frontOf, frontView_eq_frontOf, hmem]
    exact (congrArg (Pc.frontOf m) (pc_self hpc)).trans hfront
  · refine Seen.congr (s := { s with mem := m })
      (fun x _ => (unjoined_of_update hpc hjoin hj x).mp) (fun _ hz => ?_) hseen
    rw [hmem]
    exact hz

/-- Where the semaphore is passed on: from the first process of the queue. -/
theorem Inv.takeStep {f : Wptr} {r : List Wptr} (h : s.Inv (f :: r) (.call t))
    (hpct : s.pc t = pc) (hm : Sem.advance s.mem pc = (m, .enqueue f))
    (hpc : (∀ w val, pc ≠ .join w val) ∧ (∀ w, pc ≠ .fast w) ∧ (∀ w val, pc ≠ .tail w val) ∧
      pc.hand = [])
    (hun : ¬ s.Unjoined f) (hhead : ∀ l r', r = l :: r' → ¬ s.Unjoined l)
    (hfptr : m.fptr = s.mem.link f) (hlink : m.link = s.mem.link)
    (hback : m.bptr = r.getLast?.getD 0) : (s.advance t).Inv r (.call t) := by
  obtain ⟨hmem, hpc'⟩ := advance_spec s t
  obtain ⟨hjoin, hfast, htail, hhand⟩ := hpc
  subst hpct
  rw [hm] at hmem hpc'
  dsimp only at hmem hpc'
  exact h.take hpc' (advance_logs (fun w e => absurd e (hfast w)) (fun w => htail w _) hhand) hjoin
    hhand hun hhead (by rw [hmem, hfptr]) (by rw [hmem, hlink]) (by rw [hmem, hback])

/-- **Every step of the call that has the semaphore**, but those at which it passes it on. -/
theorem Inv.ownerStep (h : s.Inv q (.call t)) (hjoin : ∀ w val, s.pc t ≠ .join w val)
    (hset : ∀ toTest, s.pc t ≠ .setBit toTest) (henqueue : ∀ f, s.pc t ≠ .enqueue f)
    (hcas : s.pc t = .releaseCas → s.mem.bptr ≠ 0) : ∃ q', (s.advance t).Inv q' (.call t) := by
  have howns := (h.tokens.owns t).mpr rfl
  have hseen : s.Seen q (s.pc t) := h.tokens.seen
  have hback : s.mem.bptr = q.getLast?.getD 0 := h.queue.back
  have hfront : (s.view (.call t) 0) = (s.pc t).frontOf s.mem := view_front
  cases hpct : s.pc t with
  | releaseLoad =>
    refine ⟨q, h.ownStep hjoin hpct rfl ?_ ?_ ?_ ?_⟩
    · split_ifs <;> trivial
    · split_ifs <;> rfl
    · split_ifs <;> rfl
    · split_ifs <;> trivial
  | releaseCas =>
    exact ⟨q, h.ownStep hjoin hpct (if_neg (hcas hpct)) trivial rfl rfl trivial⟩
  | front =>
    rw [hpct] at hfront
    refine ⟨q, h.ownStep hjoin hpct rfl ?_ ?_ ?_ ?_⟩
    · split_ifs <;> trivial
    · split_ifs <;> rfl
    · split_ifs <;> rfl
    · split_ifs with hf
      · obtain ⟨r, hq, hun, -⟩ := h.queue.joining.exists_cons (hfront ▸ hf)
        rw [hfront] at hq hun
        exact ⟨r, hq, hun⟩
      · trivial
  | back f =>
    rw [hpct] at hseen
    obtain ⟨r, rfl, hun⟩ := hseen
    refine ⟨f :: r, h.ownStep hjoin hpct rfl trivial rfl rfl ⟨r, rfl, hun, fun hb hr => hb ?_⟩⟩
    rw [hback, hr]
    rfl
  | link f b =>
    rw [hpct] at hseen
    obtain ⟨r, rfl, hun, hb⟩ := hseen
    have hf0 := h.queue.ne_null f List.mem_cons_self
    have hfr := h.queue.joining.2.2
    refine ⟨f :: r, h.ownStep hjoin hpct rfl ?_ ?_ ?_ ?_⟩
    · split_ifs <;> trivial
    · split_ifs <;> rfl
    · split_ifs <;> rfl
    · split_ifs with hbf hl
      · exact ⟨r, rfl, hun⟩
      · obtain ⟨r', hr, hun', -⟩ := hfr.exists_cons (by rwa [view_node hf0])
        rw [view_node hf0] at hr hun'
        exact ⟨r', by rw [hr], hun, hun'⟩
      · obtain ⟨c, r', rfl⟩ := List.exists_cons_of_ne_nil (hb hbf)
        exact ⟨c, r', rfl⟩
  | clearFront f =>
    rw [hpct] at hseen hfront
    obtain ⟨r, rfl, hun⟩ := hseen
    refine ⟨f :: r, h.ownStep hjoin hpct rfl trivial rfl ?_ ⟨⟨r, rfl, hun⟩, rfl⟩⟩
    exact ((h.queue.joining.2.1 hun).symm.trans hfront)
  | casBack f =>
    rw [hpct] at hseen
    obtain ⟨⟨r, rfl, hun⟩, hz⟩ := hseen
    by_cases hb : s.mem.bptr = f
    · obtain rfl : r = [] := by
        by_contra hr
        have hnodup := List.nodup_cons.mp (List.nodup_cons.mp h.queue.nodup_anchor).2
        rw [hb, List.getLast?_cons, Option.getD_some,
          List.getLast?_eq_some_getLast hr, Option.getD_some] at hback
        exact hnodup.1 (hback ▸ List.getLast_mem hr)
      have hf0 := h.queue.ne_null f List.mem_cons_self
      have hlast : s.mem.link f = 0 := (view_node hf0).symm.trans h.queue.joining.2.2
      exact ⟨[], h.takeStep hpct (if_pos hb) ⟨fun _ _ => Pc.noConfusion, fun _ => Pc.noConfusion,
        fun _ _ => Pc.noConfusion, rfl⟩ hun (fun _ _ e => nomatch e) (hz.trans hlast.symm) rfl rfl⟩
    · exact ⟨f :: r, h.ownStep hjoin hpct (if_neg hb) trivial rfl rfl ⟨⟨r, rfl, hun⟩, hz⟩⟩
  | restore f =>
    rw [hpct] at hseen
    obtain ⟨⟨r, rfl, hun⟩, -⟩ := hseen
    exact ⟨f :: r, h.ownStep hjoin hpct rfl trivial rfl rfl ⟨r, rfl, hun⟩⟩
  | setFront f l =>
    rw [hpct] at hseen
    obtain ⟨r, rfl, hun, hun'⟩ := hseen
    have hf0 := h.queue.ne_null f List.mem_cons_self
    have hnext := h.queue.joining.2.2.2.1 hun'
    rw [view_node hf0] at hnext
    exact ⟨l :: r, h.takeStep hpct rfl ⟨fun _ _ => Pc.noConfusion, fun _ => Pc.noConfusion,
      fun _ _ => Pc.noConfusion, rfl⟩ hun (fun _ _ e => (List.cons.inj e).1 ▸ hun') hnext.symm rfl
      (hback.trans (by rw [List.getLast?_cons_cons]))⟩
  | setBit toTest => exact absurd hpct (hset toTest)
  | enqueue f => exact absurd hpct (henqueue f)
  | join w val => exact absurd hpct (hjoin w val)
  | _ =>
    rw [hpct] at howns
    exact howns.elim

/-! ## Where the semaphore changes hands -/

/-- **The semaphore changes hands**, and nobody comes onto the queue or leaves it. -/
theorem Inv.change (h : s.Inv q tok) (hpc : s'.pc = update s.pc t e)
    (hhand : (s'.own tok').hand = []) (hqueued : s'.queued = s.queued)
    (henqueued : s'.enqueued = s.enqueued ++ (s.own tok).hand)
    (hholding : s'.holding = tok'.holders)
    (hjoin : (∀ w val, s.pc t ≠ .join w val) ∧ ∀ w val, e ≠ .join w val)
    (hclaims : ∀ w, ¬ e.Claims w) (htakes : ¬ (s.own tok).Takes ∧ ¬ (s'.own tok').Takes)
    (hmem : s'.mem.fptr = s.mem.fptr ∧ s'.mem.link = s.mem.link)
    (hback : s'.mem.bptr = q.getLast?.getD 0 + tok'.bit)
    (howns : e.Owns ↔ tok' = .call t) (hother : ∀ t', t' ≠ t → (tok' = .call t' ↔ tok = .call t'))
    (hseen : s'.Seen q (s'.own tok'))
    (hwoken : tok' = .free → q ≠ [] → ∃ t', s'.Wakes q (s'.pc t')) : s'.Inv q tok' := by
  obtain ⟨hq, hc, ht⟩ := h
  refine ⟨hq.update hpc hjoin.1 hjoin.2 (hhand ▸ List.nil_sublist _) hqueued
    (by rw [hhand, henqueued, List.append_nil])
    (by rw [frontView_eq htakes.1, frontView_eq htakes.2, hmem.1]) (fun x _ => by rw [hmem.2])
    hback, hc.update hpc (fun w hw => absurd hw (hclaims w))
    (fun w hw => absurd (Pc.claims_of_cleared hw) (hclaims w)) (fun x _ hz => by rwa [hmem.2])
    fun x hx => ?_, hholding, ht.owns_update hpc howns hother, hseen, hwoken⟩
  rw [hhand, List.nil_append] at hx
  exact List.Sublist.subset ((List.sublist_append_right _ _).cons_cons _) hx

/-- The fast path of `sem_claim`. -/
theorem Inv.fast (h : s.Inv q tok) (hpct : s.pc t = .fast w) (hb : s.mem.bptr = 1) :
    q = [] ∧ (s.advance t).Inv q (.held w) := by
  have hbit := h.queue.bptr_mod
  have hclear := h.queue.clearBit_bptr
  have hback := h.queue.back
  rw [hb] at hbit hclear hback
  have hq : q = [] := h.queue.nil_of_last hclear.symm
  have hfree : tok = .free := Token.bit_eq_one.mp hbit.symm
  subst hq hfree
  have hm : Sem.advance s.mem (s.pc t) = ({ s.mem with bptr := 0 }, .idle) := by
    rw [hpct]
    exact if_pos hb
  obtain ⟨hmem, hpc⟩ := advance_spec s t
  rw [hm] at hmem hpc
  dsimp only at hmem hpc
  have hlogs : (s.advance t).holding = s.holding ++ [w] ∧ (s.advance t).queued = s.queued ∧
      (s.advance t).enqueued = s.enqueued := by
    unfold Sys.advance
    rw [hm, hpct]
    exact ⟨rfl, rfl, rfl⟩
  refine ⟨rfl, h.change hpc rfl hlogs.2.1 (hlogs.2.2.trans (List.append_nil _).symm) ?_
    ⟨fun _ _ e => Pc.noConfusion (hpct.symm.trans e), fun _ _ => Pc.noConfusion⟩ (fun _ => id)
    ⟨id, id⟩ (hmem ▸ ⟨rfl, rfl⟩) (hmem ▸ rfl) (iff_of_false id fun e => nomatch e)
    (fun _ _ => iff_of_false (fun e => nomatch e) fun e => nomatch e) trivial
    fun e => nomatch e⟩
  rw [hlogs.1, h.tokens.holding]
  rfl

/-- **A try for the semaphore** that gets it. -/
theorem Inv.testClear (h : s.Inv q tok) (hpct : s.pc t = .testClear) (hb : s.mem.bptr % 2 = 1) :
    (s.advance t).Inv q (.call t) := by
  have hfree : tok = .free := Token.bit_eq_one.mp (h.queue.bptr_mod.symm.trans hb)
  subst hfree
  have hm : Sem.advance s.mem (s.pc t) = ({ s.mem with bptr := clearBit s.mem.bptr }, .front) := by
    rw [hpct, Sem.advance, if_pos hb]
  obtain ⟨hmem, hpc⟩ := advance_spec s t
  rw [hm] at hmem hpc
  dsimp only at hmem hpc
  have hlogs := advance_logs (s := s) (t := t) (fun _ e => Pc.noConfusion (hpct.symm.trans e))
    (fun _ e => Pc.noConfusion (hpct.symm.trans e)) (by rw [hpct]; rfl)
  have hown : (s.advance t).own (.call t) = .front := pc_self hpc
  refine h.change hpc (by rw [hown]; rfl) hlogs.2.1 (hlogs.2.2.trans (List.append_nil _).symm)
    (hlogs.1.trans h.tokens.holding)
    ⟨fun _ _ e => Pc.noConfusion (hpct.symm.trans e), fun _ _ => Pc.noConfusion⟩ (fun _ => id)
    ⟨id, by rw [hown]; exact id⟩ (hmem ▸ ⟨rfl, rfl⟩) ?_ (iff_of_true trivial rfl)
    (fun t' htt => iff_of_false (fun e => htt (Token.call.inj e).symm) fun e => by cases e)
    (by rw [hown]; trivial) fun e => by cases e
  rw [hmem]
  exact h.queue.clearBit_bptr

/-- **The owner gives the semaphore back** when it finds a process that is not joined: the call that
is to join it, or the owner itself, will try for it. -/
theorem Inv.setBit {toTest : Option Wptr} (h : s.Inv q (.call t)) (hpct : s.pc t = .setBit toTest) :
    (s.advance t).Inv q .free := by
  have hm : Sem.advance s.mem (s.pc t) =
      ({ s.mem with bptr := Sem.setBit s.mem.bptr }, .test toTest) := by
    rw [hpct]
    rfl
  obtain ⟨hmem, hpc⟩ := advance_spec s t
  rw [hm] at hmem hpc
  dsimp only at hmem hpc
  have hlogs := advance_logs (s := s) (t := t) (fun _ e => Pc.noConfusion (hpct.symm.trans e))
    (fun _ e => Pc.noConfusion (hpct.symm.trans e)) (by rw [hpct]; rfl)
  have hown : s.own (.call t) = .setBit toTest := hpct
  have hseen : s.Seen q (s.pc t) := h.tokens.seen
  have hnot : ∀ w val, s.pc t ≠ .join w val := fun _ _ e => Pc.noConfusion (hpct.symm.trans e)
  have hjoiner : ∀ {x}, s.Unjoined x → ∃ t', (s.advance t).Wakes q ((s.advance t).pc t') := by
    rintro x ⟨t', val, ht'⟩
    have htt : t' ≠ t := fun e => hnot x val (e ▸ ht')
    exact ⟨t', by rw [pc_ne hpc htt, ht']; trivial⟩
  refine h.change hpc rfl hlogs.2.1 (by rw [hown, hlogs.2.2]; exact (List.append_nil _).symm)
    (hlogs.1.trans h.tokens.holding) ⟨hnot, fun _ _ => Pc.noConfusion⟩ (fun _ => id)
    ⟨by rw [hown]; exact id, id⟩ (hmem ▸ ⟨rfl, rfl⟩) ?_ (iff_of_false id fun e => nomatch e)
    (fun t' htt => iff_of_false (fun e => nomatch e) fun e => htt (Token.call.inj e).symm)
    trivial fun _ hne => ?_
  · rw [hmem]
    exact congrArg (· + 1) h.queue.clearBit_bptr
  · obtain ⟨b, r, rfl⟩ := List.exists_cons_of_ne_nil hne
    rw [hpct] at hseen
    cases toTest with
    | none =>
      by_cases hz : s.mem.fptr = 0
      · have hview : s.view (.call t) 0 = 0 :=
          (view_front.trans (frontView_eq (by rw [hown]; exact id))).trans hz
        obtain ⟨-, hun⟩ | ⟨hb, -⟩ := h.queue.joining.head
        · exact hjoiner hun
        · exact absurd (hb.symm.trans hview) (h.queue.ne_null b List.mem_cons_self)
      · refine ⟨t, ?_⟩
        rw [pc_self hpc, Sys.Wakes, hmem]
        exact hz
    | some f =>
      obtain ⟨c, r', hq⟩ := hseen
      obtain ⟨rfl, rfl⟩ := List.cons.inj hq
      have hb0 := h.queue.ne_null b List.mem_cons_self
      by_cases hz : s.mem.link b = 0
      · obtain ⟨-, hun⟩ | ⟨hb, -⟩ := h.queue.joining.2.2.head
        · exact hjoiner hun
        · rw [view_node hb0] at hb
          exact absurd (hb.symm.trans hz)
            (h.queue.ne_null c (List.mem_cons_of_mem _ List.mem_cons_self))
      · refine ⟨t, ?_⟩
        rw [pc_self hpc, Sys.Wakes, hmem]
        exact ⟨List.mem_cons_self, hz⟩

/-- The fast path of `sem_release`. -/
theorem Inv.releaseCas (h : s.Inv q (.call t)) (hpct : s.pc t = .releaseCas)
    (hb : s.mem.bptr = 0) : (s.advance t).Inv q .free := by
  have hq : q = [] := h.queue.nil_of_last (h.queue.back.symm.trans hb)
  subst hq
  have hm : Sem.advance s.mem (s.pc t) = ({ s.mem with bptr := 1 }, .idle) := by
    rw [hpct]
    exact if_pos hb
  obtain ⟨hmem, hpc⟩ := advance_spec s t
  rw [hm] at hmem hpc
  dsimp only at hmem hpc
  have hlogs := advance_logs (s := s) (t := t) (fun _ e => Pc.noConfusion (hpct.symm.trans e))
    (fun _ e => Pc.noConfusion (hpct.symm.trans e)) (by rw [hpct]; rfl)
  have hown : s.own (.call t) = .releaseCas := hpct
  exact h.change hpc rfl hlogs.2.1 (by rw [hown, hlogs.2.2]; exact (List.append_nil _).symm)
    (hlogs.1.trans h.tokens.holding)
    ⟨fun _ _ e => Pc.noConfusion (hpct.symm.trans e), fun _ _ => Pc.noConfusion⟩ (fun _ => id)
    ⟨by rw [hown]; exact id, id⟩ (hmem ▸ ⟨rfl, rfl⟩) (hmem ▸ rfl)
    (iff_of_false id fun e => nomatch e)
    (fun t' htt => iff_of_false (fun e => nomatch e) fun e => htt (Token.call.inj e).symm)
    trivial fun _ hne => absurd rfl hne

/-- **The semaphore is passed on.** -/
theorem Inv.enqueue {f : Wptr} (h : s.Inv q (.call t)) (hpct : s.pc t = .enqueue f) :
    (s.advance t).Inv q (.held f) := by
  have hm : Sem.advance s.mem (s.pc t) = (s.mem, .idle) := by
    rw [hpct]
    rfl
  obtain ⟨hmem, hpc⟩ := advance_spec s t
  rw [hm] at hmem hpc
  dsimp only at hmem hpc
  have hlogs : (s.advance t).holding = s.holding ++ [f] ∧ (s.advance t).queued = s.queued ∧
      (s.advance t).enqueued = s.enqueued ++ [f] := by
    unfold Sys.advance
    rw [hpct]
    exact ⟨rfl, rfl, rfl⟩
  have hown : s.own (.call t) = .enqueue f := hpct
  refine h.change hpc rfl hlogs.2.1 (by rw [hown, hlogs.2.2]; rfl) ?_
    ⟨fun _ _ e => Pc.noConfusion (hpct.symm.trans e), fun _ _ => Pc.noConfusion⟩ (fun _ => id)
    ⟨by rw [hown]; exact id, id⟩ (hmem ▸ ⟨rfl, rfl⟩) (hmem ▸ h.queue.back)
    (iff_of_false id fun e => nomatch e)
    (fun t' htt => iff_of_false (fun e => nomatch e) fun e => htt (Token.call.inj e).symm)
    trivial fun e => nomatch e
  rw [hlogs.1, h.tokens.holding]
  rfl

/-- **Every step of a call.** -/
theorem Inv.advance (h : s.Inv q tok) (t : τ) : ∃ q' tok', (s.advance t).Inv q' tok' := by
  by_cases howns : (s.pc t).Owns
  · obtain rfl := h.tokens.not_free howns
    by_cases hset : ∃ toTest, s.pc t = .setBit toTest
    · obtain ⟨toTest, hpct⟩ := hset
      exact ⟨q, .free, h.setBit hpct⟩
    by_cases henqueue : ∃ f, s.pc t = .enqueue f
    · obtain ⟨f, hpct⟩ := henqueue
      exact ⟨q, .held f, h.enqueue hpct⟩
    by_cases hcas : s.pc t = .releaseCas ∧ s.mem.bptr = 0
    · exact ⟨q, .free, h.releaseCas hcas.1 hcas.2⟩
    by_cases hjoin : ∃ w val, s.pc t = .join w val
    · obtain ⟨w, val, hpct⟩ := hjoin
      exact ⟨q, .call t, h.join hpct⟩
    obtain ⟨q', h'⟩ := h.ownerStep (fun w val e => hjoin ⟨w, val, e⟩) (fun b e => hset ⟨b, e⟩)
      (fun f e => henqueue ⟨f, e⟩) fun e hb => hcas ⟨e, hb⟩
    exact ⟨q', .call t, h'⟩
  · by_cases hfast : ∃ w, s.pc t = .fast w ∧ s.mem.bptr = 1
    · obtain ⟨w, hpct, hb⟩ := hfast
      exact ⟨q, .held w, (h.fast hpct hb).2⟩
    by_cases htail : ∃ w, s.pc t = .tail w s.mem.bptr
    · obtain ⟨w, hpct⟩ := htail
      obtain ⟨tok', h'⟩ := h.tail hpct
      exact ⟨q ++ [w], tok', h'⟩
    by_cases htest : s.pc t = .testClear ∧ s.mem.bptr % 2 = 1
    · exact ⟨q, .call t, h.testClear htest.1 htest.2⟩
    by_cases hjoin : ∃ w val, s.pc t = .join w val
    · obtain ⟨w, val, hpct⟩ := hjoin
      exact ⟨q, tok, h.join hpct⟩
    exact ⟨q, tok, h.asideStep howns (fun w val e => hjoin ⟨w, val, e⟩)
      (fun w e hb => hfast ⟨w, e, hb⟩) (fun w e => htail ⟨w, e⟩) fun e hb => htest ⟨e, hb⟩⟩

/-! ## Calls -/

/-- **A process calls `sem_release`.** -/
theorem Inv.release (h : s.Inv q tok) (hidle : s.pc t = .idle) (hw : w ∈ s.holding) :
    ({ s with pc := update s.pc t .releaseLoad, holding := s.holding.erase w } : Sys τ).Inv q
      (.call t) := by
  have hholding := h.tokens.holding
  rw [hholding] at hw
  cases tok with
  | held w' =>
    obtain rfl := List.mem_singleton.mp hw
    have hown : ({ s with pc := update s.pc t .releaseLoad, holding := s.holding.erase w } :
        Sys τ).own (.call t) = .releaseLoad := Function.update_self ..
    refine h.change rfl (by rw [hown]; rfl) rfl (List.append_nil _).symm ?_
      ⟨fun _ _ e => Pc.noConfusion (hidle.symm.trans e), fun _ _ => Pc.noConfusion⟩ (fun _ => id)
      ⟨id, by rw [hown]; exact id⟩ ⟨rfl, rfl⟩ h.queue.back (iff_of_true trivial rfl)
      (fun t' htt => iff_of_false (fun e => htt (Token.call.inj e).symm) fun e => nomatch e)
      (by rw [hown]; trivial) fun e => nomatch e
    dsimp only
    rw [hholding]
    exact List.erase_cons_head ..
  | free | call => exact absurd hw List.not_mem_nil

/-- **A process calls `sem_claim`.** -/
theorem Inv.claim (h : s.Inv q tok) (hidle : s.pc t = .idle) (hw : IsWorkspace w)
    (hruns : s.Runs w) : ({ s with pc := update s.pc t (.load w) } : Sys τ).Inv q tok := by
  obtain ⟨hq, hc, ht⟩ := h
  have hpc : ({ s with pc := update s.pc t (.load w) } : Sys τ).pc = update s.pc t (.load w) := rfl
  have hnotowns : ¬ (s.pc t).Owns := by rw [hidle]; exact id
  have hown := own_of_ne hpc (ht.ne_call hnotowns)
  have hjoin : ∀ w val, s.pc t ≠ .join w val := fun _ _ e => Pc.noConfusion (hidle.symm.trans e)
  have hun := unjoined_of_update hpc hjoin fun _ _ => Pc.noConfusion
  have hold : ∀ {t' x}, (update s.pc t (.load w) t').Claims x →
      t' = t ∧ x = w ∨ t' ≠ t ∧ x ≠ w ∧ (s.pc t').Claims x := by
    intro t' x hcl
    rcases of_update hpc hcl with ⟨htt, hx⟩ | ⟨htt, hx⟩
    · exact .inl ⟨htt, hx.symm⟩
    · exact .inr ⟨htt, fun e => hruns.2 t' (e ▸ hx), hx⟩
  refine ⟨hq.update hpc hjoin (fun _ _ => Pc.noConfusion) (by rw [hown]) rfl (by rw [hown])
    (frontView_congr hown rfl) (fun _ _ => rfl) hq.back,
    ⟨fun hcl => ?_, fun hcl => ?_, fun hcl hcl' => ?_, fun hcl => ?_⟩,
    ht.aside hpc hnotowns id rfl (ht.seen.congr (fun x _ => (hun x).mp) fun _ hz => hz)
      (fun pc hw => ?_) fun _ hw => ?_⟩
  · rcases hold hcl with ⟨-, rfl⟩ | ⟨-, -, hcl⟩
    · exact (Nat.mod_mod_of_dvd _ (show 2 ∣ 4 by decide)).symm.trans (congrArg (· % 2) hw.2.1)
    · exact hc.even hcl
  · rw [hown]
    rcases hold hcl with ⟨-, rfl⟩ | ⟨-, -, hcl⟩
    · exact fun hm => (List.mem_cons.mp hm).elim hw.1 (hq.waiting ▸ hruns.1)
    · exact hc.away hcl
  · rcases hold hcl with ⟨htt, rfl⟩ | ⟨htt, hx, hcl⟩ <;>
      rcases hold hcl' with ⟨htt', hx'⟩ | ⟨htt', hx', hcl'⟩
    · rw [htt, htt']
    · exact absurd rfl hx'
    · exact absurd hx' hx
    · exact hc.once hcl hcl'
  · rcases of_update hpc hcl with ⟨-, hcl⟩ | ⟨-, hcl⟩
    · exact hcl.elim
    · exact hc.cleared hcl
  · cases pc with
    | test toTest => cases toTest <;> exact hw
    | _ => exact hw
  · rw [hidle] at hw
    exact hw.elim

omit [DecidableEq τ] in
/-- What others write to. -/
theorem Inv.other {link : Wptr → Wptr} (h : s.Inv q tok) (hok : s.Allowed (.other link)) :
    ({ s with mem := { s.mem with link := link } } : Sys τ).Inv q tok := by
  obtain ⟨hq, hc, ht⟩ := h
  have hsame : ∀ x ∈ q, link x = s.mem.link x := fun x hx =>
    hok x (.inl (by rw [hq.waiting]; exact List.mem_append_right _ hx))
  refine ⟨⟨hq.log, hq.nodup, hq.even, hq.joining.congr rfl (fun x hx => ?_) fun _ _ => Iff.rfl,
    hq.back, hq.follows, hq.joinOnce⟩, ⟨hc.even, hc.away, hc.once, fun {t' x} hcl => ?_⟩,
    ht.holding, ht.owns, Seen.congr (fun _ _ => id) (fun _ hz => hz) ht.seen,
    fun hfree hne => ?_⟩
  · rw [view_node (hq.ne_null x hx), view_node (hq.ne_null x hx)]
    exact hsame x hx
  · exact (hok x (.inr ⟨t', hcl⟩)).trans (hc.cleared hcl)
  · obtain ⟨t', ht'⟩ := ht.woken hfree hne
    refine ⟨t', ?_⟩
    revert ht'
    dsimp only
    cases s.pc t' with
    | test toTest =>
      cases toTest with
      | none => exact id
      | some f => exact fun hw => ⟨hw.1, fun hz => hw.2 ((hsame f hw.1).symm.trans hz)⟩
    | _ => exact id

/-- **Every step keeps the invariant.** -/
theorem Inv.step {act : Act τ} (h : ∃ q tok, s.Inv q tok) (hok : s.Allowed act)
    (hs : s.step act = some s') : ∃ q tok, s'.Inv q tok := by
  obtain ⟨q, tok, h⟩ := h
  cases act with
  | claim t w =>
    rw [Sys.step] at hs
    split_ifs at hs with hidle
    cases hs
    exact ⟨q, tok, h.claim hidle hok.1 hok.2⟩
  | release t w =>
    rw [Sys.step] at hs
    split_ifs at hs with hidle
    cases hs
    exact ⟨q, .call t, h.release hidle hok.1⟩
  | advance t =>
    cases hs
    exact h.advance t
  | other link =>
    cases hs
    exact ⟨q, tok, h.other hok⟩

omit [DecidableEq τ] in
theorem inv_start (link : Wptr → Wptr) : (start τ link).Inv [] .free where
  queue := ⟨rfl, by simp [Sys.own, Pc.hand], fun x hx => absurd hx List.not_mem_nil, rfl,
    rfl, Pc.noConfusion, Pc.noConfusion⟩
  claimers := ⟨False.elim, False.elim, False.elim, False.elim⟩
  tokens := ⟨rfl, fun _ => iff_of_false id fun e => (nomatch e), trivial, fun _ hne =>
    absurd rfl hne⟩

end Sys

/-! ## What is promised -/

/-- **The semaphore excludes, and loses no waiter**: at most one process holds it; those who are
queued are enqueued once each, in their order; and while no call is in progress it is free and
nobody waits, or one process holds it. -/
theorem semaphore_excludes {link : Wptr → Wptr}
    (hreach : Reach Sys.step Sys.Allowed (start τ link) s) :
    s.holding.length ≤ 1 ∧ s.queued = s.enqueued ++ s.waiting ∧ s.waiting.Nodup ∧
      (s.Quiet → s.mem.bptr = 1 ∧ s.waiting = [] ∧ s.holding = [] ∨ ∃ w, s.holding = [w]) := by
  obtain ⟨q, tok, h⟩ := hreach.invariant (I := fun s : Sys τ => ∃ q tok, s.Inv q tok)
    ⟨[], .free, Sys.inv_start link⟩ fun hi hok hstep => Sys.Inv.step hi hok hstep
  have hwaiting := h.queue.waiting
  refine ⟨?_, ?_, ?_, fun hquiet => ?_⟩
  · rw [h.tokens.holding]
    cases tok <;> simp [Token.holders]
  · rw [hwaiting, h.queue.log, List.append_assoc]
  · rw [hwaiting]
    exact (List.nodup_cons.mp h.queue.nodup).2
  · cases tok with
    | free =>
      have hq : q = [] := by
        by_contra hne
        obtain ⟨t, ht⟩ := h.tokens.woken rfl hne
        rw [hquiet t] at ht
        exact ht
      refine .inl ⟨?_, ?_, h.tokens.holding⟩
      · rw [h.queue.back, hq]
        rfl
      · rw [hwaiting, hq]
        rfl
    | held w => exact .inr ⟨w, h.tokens.holding⟩
    | call t =>
      have howns := (h.tokens.owns t).mpr rfl
      rw [hquiet t] at howns
      exact howns.elim

/-- A run to where one process holds the semaphore and another has come onto its queue. -/
theorem semaphore_excludes_two : ∃ s, Reach Sys.step Sys.Allowed (start Bool fun _ => 0) s ∧
    s.holding = [4] ∧ s.waiting = [8] ∧ s.holding.length ≤ 1 ∧ s.waiting.Nodup := by
  have hstart : Reach Sys.step Sys.Allowed (start Bool fun _ => 0) (start Bool fun _ => 0) := .start
  have hfirst : Sys.Allowed (start Bool fun _ => 0) (.claim true 4) :=
    ⟨by unfold IsWorkspace; decide, List.not_mem_nil, fun _ => id⟩
  have hload := hstart.next hfirst rfl
  have hcas := hload.next (show Sys.Allowed _ (.advance true) from trivial) rfl
  have hheld := hcas.next (show Sys.Allowed _ (.advance true) from trivial) rfl
  have hsecond : Sys.Allowed (Sys.advance (Sys.advance
      { start Bool fun _ => 0 with pc := update (fun _ => .idle) true (.load 4) } true) true)
      (.claim false 8) :=
    ⟨by unfold IsWorkspace; decide, List.not_mem_nil, fun t => by cases t <;> exact id⟩
  have hload' := hheld.next hsecond rfl
  have hsave := hload'.next (show Sys.Allowed _ (.advance false) from trivial) rfl
  have htail := hsave.next (show Sys.Allowed _ (.advance false) from trivial) rfl
  have hqueued := htail.next (show Sys.Allowed _ (.advance false) from trivial) rfl
  exact ⟨_, hqueued, rfl, rfl, (semaphore_excludes hqueued).1, (semaphore_excludes hqueued).2.2.1⟩

end Sem

end Ccsp

end Kroc
