import Mathlib
import Kroc.Tvm.Machine
import Kroc.Tvm.TimerQueue

/-!
# Tvm/Places — every process is in one place

The invariant of `Tvm/Machine`: the run queue and the timer queue are lists, a process is current or
on the run queue exactly when it can run, one that is blocked on a channel is in the channel word,
one that waits in an alternative is in `WS_STATE = WAITING_P`, and what a channel word holds is
blocked there or has a guard on it.
-/

namespace Kroc

namespace Tvm

open Ectx

/-! ## Places -/

/-- A process that can run: it is current or on the run queue. -/
def Ready (s : Ectx) (q : List Word) (w : Word) : Prop :=
  w ∈ q ∨ (w = s.wptr ∧ w ≠ notProcess)

/-- Blocked on a channel, or not any more. -/
def AtChan (s : Ectx) (q : List Word) (w chan : Word) : Prop :=
  (Ready s q w ∧ s.chan chan ≠ w) ∨
    (¬ Ready s q w ∧ s.chan chan = w ∧ s.mem w .ectx = s.self)

/-- Waiting in an alternative, or not any more. -/
def AtAlt (s : Ectx) (q : List Word) (w : Word) : Prop :=
  (Ready s q w ∧ s.mem w .state = ready) ∨
    (¬ Ready s q w ∧ s.mem w .state = waiting ∧ s.mem w .ectx = s.self)

/-- On the timer queue, or not any more. -/
def AtTimer (s : Ectx) (q c : List Word) (w time : Word) : Prop :=
  (Ready s q w ∧ w ∉ c) ∨
    (¬ Ready s q w ∧ w ∈ c ∧ s.mem w .state ≠ ready ∧ s.mem w .time = time)

/-- **The place of a process**, from where it is in its program. -/
def Sits (s : Ectx) (q c : List Word) (w : Word) : Option Pos → Prop
  | none => ¬ Ready s q w ∧ w ∉ c
  | some .plain => Ready s q w ∧ w ∉ c
  | some .stopped => ¬ Ready s q w ∧ w ∉ c
  | some (.chanIn chan) => AtChan s q w chan ∧ w ∉ c
  | some (.chanOut chan) => AtChan s q w chan ∧ w ∉ c
  | some (.timer time) => AtTimer s q c w time
  | some (.enabling timed guards) =>
    Ready s q w ∧ w ∉ c ∧ (s.mem w .state = enabling ∨ s.mem w .state = ready) ∧
      (timed = true → s.mem w .tlink = timeNotSet ∨
        (s.mem w .tlink = timeSet ∧ ∃ t, .timer t ∈ guards))
  | some (.disabling timed guards) =>
    AtAlt s q w ∧ (w ∈ c → timed = true ∧ ∃ t, .timer t ∈ guards) ∧
      (timed = true → w ∉ c → s.mem w .tlink = timeNotSet ∨ s.mem w .tlink = timeSet)

/-- What a channel word holds: nobody, who is blocked there, or who has a guard on it. -/
def Held (s : Ectx) (pos : Word → Option Pos) (chan : Word) : Prop :=
  s.chan chan = notProcess ∨
    (pos (s.chan chan) = some (.chanIn chan) ∨ pos (s.chan chan) = some (.chanOut chan)) ∨
    ∃ w p, s.chan chan = w ||| 1 ∧ pos w = some p ∧ Guard.chan chan ∈ p.guards

/-- **Every process is in its place**, with the run queue `q` and the timer queue `c`. -/
structure Placed (s : Ectx) (pos : Word → Option Pos) (q c : List Word) : Prop where
  run : s.RunQueue q
  pending : Pending s c
  current : s.wptr ∉ q
  workspace : ∀ w, pos w ≠ none → IsWorkspace w
  sits : ∀ w, Sits s q c w (pos w)
  held : ∀ chan, Held s pos chan

/-- The slots that a process' place depends on. -/
def Slot.Places : Slot → Prop
  | .ectx | .state | .tlink | .time => True
  | _ => False

/-- What has to stay the same for a process to stay in its place.  The links of the timer queue may
change. -/
structure Same (s s' : Ectx) (q q' c c' : List Word) (w : Word) : Prop where
  ready : Ready s' q' w ↔ Ready s q w
  timed : w ∈ c' ↔ w ∈ c
  mem : ∀ k : Slot, k.Places → (k = .tlink → w ∉ c) → s'.mem w k = s.mem w k

section Frame

variable {s s' : Ectx} {pos pos' : Word → Option Pos} {q q' c c' : List Word} {w : Word}

theorem Sits.same {p : Option Pos} (h : Sits s q c w p) (hsame : Same s s' q q' c c' w)
    (hself : s'.self = s.self)
    (hchan : ∀ k, p = some (.chanIn k) ∨ p = some (.chanOut k) → (s'.chan k = w ↔ s.chan k = w)) :
    Sits s' q' c' w p := by
  obtain ⟨hready, htimed, hmem⟩ := hsame
  have hectx := hmem .ectx trivial (fun e => by cases e)
  have hstate := hmem .state trivial (fun e => by cases e)
  have htime := hmem .time trivial (fun e => by cases e)
  match p with
  | none | some .plain | some .stopped =>
    simpa only [Sits, hready, htimed] using h
  | some (.chanIn k) =>
    simpa only [Sits, AtChan, hready, htimed, hectx, hself, ne_eq, hchan k (Or.inl rfl)] using h
  | some (.chanOut k) =>
    simpa only [Sits, AtChan, hready, htimed, hectx, hself, ne_eq, hchan k (Or.inr rfl)] using h
  | some (.timer t) =>
    simpa only [Sits, AtTimer, hready, htimed, hstate, htime] using h
  | some (.enabling timed guards) =>
    have htlink := hmem .tlink trivial fun _ => h.2.1
    simpa only [Sits, hready, htimed, hstate, htlink] using h
  | some (.disabling timed guards) =>
    obtain ⟨hat, hc, htl⟩ := h
    refine ⟨?_, fun hw => hc (htimed.mp hw), fun ht hw => ?_⟩
    · simpa only [AtAlt, hready, hstate, hectx, hself] using hat
    · have hw' : w ∉ c := fun e => hw (htimed.mpr e)
      rw [hmem .tlink trivial fun _ => hw']
      exact htl ht hw'

/-- **A step that touches few processes** leaves the others in their places. -/
theorem Placed.frame (h : Placed s pos q c) (touched : Word → Prop)
    (hrun : s'.RunQueue q') (hpending : Pending s' c') (hcurrent : s'.wptr ∉ q')
    (hself : s'.self = s.self)
    (hothers : ∀ w, ¬ touched w → pos' w = pos w ∧ Same s s' q q' c c' w)
    (hchans : ∀ w, ¬ touched w → ∀ k, pos w = some (.chanIn k) ∨ pos w = some (.chanOut k) →
      (s'.chan k = w ↔ s.chan k = w))
    (htouched : ∀ w, touched w → Sits s' q' c' w (pos' w) ∧ (pos' w ≠ none → IsWorkspace w))
    (hheld : ∀ chan, Held s' pos' chan) : Placed s' pos' q' c' := by
  refine ⟨hrun, hpending, hcurrent, fun w hw => ?_, fun w => ?_, hheld⟩
  · by_cases ht : touched w
    · exact (htouched w ht).2 hw
    · rw [(hothers w ht).1] at hw
      exact h.workspace w hw
  · by_cases ht : touched w
    · exact (htouched w ht).1
    · rw [(hothers w ht).1]
      exact (h.sits w).same (hothers w ht).2 hself (hchans w ht)

end Frame

/-! ## Running the next process -/

/-- What `run_next_on_queue` does: the run queue `q` gets what has expired, `gone`, the timer queue
`c` loses it, and the head of the run queue is made current. -/
structure Rescheduled (s s' : Ectx) (now : Word) (q c q' c' gone : List Word) : Prop where
  chan : s'.chan = s.chan
  bytes : s'.bytes = s.bytes
  self : s'.self = s.self
  keep : ∀ w k, k ≠ .link → (w ∈ gone → k ≠ .tlink ∧ k ≠ .time ∧ k ≠ .state) →
    s'.mem w k = s.mem w k
  expired : ∀ w ∈ gone, s'.mem w .tlink = timeSet ∧ s'.mem w .time = now ∧ s'.mem w .state = ready
  due : ∀ w ∈ gone, s.due now w = true
  split : c = gone ++ c'
  run : s'.RunQueue q'
  pending : Pending s' c'
  next : (s'.wptr = notProcess ∧ q' = q ++ gone.filter s.unready) ∨
    (s'.wptr ≠ notProcess ∧ s'.wptr :: q' = q ++ gone.filter s.unready ∧
      s'.iptr = s'.mem s'.wptr .iptr)

section Next

variable {s : Ectx} {q c : List Word} {now : Word}

/-- **Taking the next process**, after a walk. -/
theorem Rescheduled.take {s₁ : Ectx} {gone c' : List Word} (hwalk : Walked s s₁ now gone)
    (hdue : ∀ w ∈ gone, s.due now w = true) (hsplit : c = gone ++ c')
    (hrun : s₁.RunQueue (q ++ gone.filter s.unready)) (hpending : Pending s₁ c') :
    ∃ q', Rescheduled s s₁.takeNext.2 now q c q' c' gone := by
  have hchan : s₁.chan = s.chan := by rw [hwalk.regs]
  have hbytes : s₁.bytes = s.bytes := by rw [hwalk.regs]
  have hself : s₁.self = s.self := by rw [hwalk.regs]
  rcases takeNext_spec hrun with ⟨hempty, heq, -⟩ | ⟨w, rest, hcons, hw, -, heq, hrest⟩
  · refine ⟨q ++ gone.filter s.unready, ?_⟩
    rw [heq]
    exact ⟨hchan, hbytes, hself, hwalk.keep, hwalk.gone, hdue, hsplit, hrun,
      ⟨hpending.linked, hpending.next⟩, Or.inl ⟨rfl, rfl⟩⟩
  · refine ⟨rest, ?_⟩
    rw [heq] at hrest ⊢
    exact ⟨hchan, hbytes, hself, hwalk.keep, hwalk.gone, hdue, hsplit, hrest,
      ⟨hpending.linked, hpending.next⟩, Or.inr ⟨hw, hcons.symm, rfl⟩⟩

/-- **`run_next_on_queue` returns**, and this is what it does. -/
theorem runNextOnQueue_spec (now : Word) (hrun : s.RunQueue q) (hpending : Pending s c)
    (hfree : ∀ w ∈ c, s.unready w = true → w ∉ q) :
    ∃ r q' c' gone, s.runNextOnQueue now = some r ∧ Rescheduled s r.2 now q c q' c' gone := by
  have hidle : s.RunQueue (q ++ ([] : List Word).filter s.unready) := by
    rw [List.filter_nil, List.append_nil]
    exact hrun
  by_cases hflags : s.timers ∨ s.interrupt
  · rw [runNextOnQueue, if_pos hflags, synchronise]
    by_cases hinterrupt : s.interrupt = true
    · rw [if_pos hinterrupt]
      refine ⟨_, q, c, [], rfl, rfl, rfl, rfl, fun _ _ _ _ => rfl, by simp, by simp, rfl, hrun,
        ⟨hpending.linked, hpending.next⟩, Or.inl ⟨rfl, by simp⟩⟩
    · rw [if_neg hinterrupt]
      obtain ⟨s₁, hs₁, hwalk, hrun₁, hpending₁⟩ :=
        walkTimerQueue_spec hpending hrun hfree
      rw [hs₁]
      have hdue : ∀ w ∈ c.takeWhile (s.due now), s.due now w = true :=
        fun w hw => List.mem_takeWhile_imp (p := s.due now) hw
      have hsplit : c = c.takeWhile (s.due now) ++ c.dropWhile (s.due now) :=
        List.takeWhile_append_dropWhile.symm
      by_cases hempty : s₁.tptr = notProcess
      · have hwalk' : Walked s { s₁ with timers := false } now (c.takeWhile (s.due now)) :=
          ⟨by rw [hwalk.regs], hwalk.keep, hwalk.gone⟩
        obtain ⟨q', hq'⟩ := Rescheduled.take hwalk' hdue hsplit hrun₁
          ⟨hpending₁.linked, hpending₁.next⟩
        refine ⟨_, q', c.dropWhile (s.due now), c.takeWhile (s.due now), rfl, ?_⟩
        show Rescheduled s (if Ret.cont = Ret.cont then
          (if s₁.tptr = notProcess then { s₁ with timers := false } else s₁).takeNext else _).2
          now q c q' _ _
        rw [if_pos rfl, if_pos hempty]
        exact hq'
      · obtain ⟨q', hq'⟩ := Rescheduled.take hwalk hdue hsplit hrun₁ hpending₁
        refine ⟨_, q', c.dropWhile (s.due now), c.takeWhile (s.due now), rfl, ?_⟩
        simp only [hempty, if_false, if_true]
        exact hq'
  · rw [runNextOnQueue, if_neg hflags]
    obtain ⟨q', hq'⟩ := Rescheduled.take (c := c) (Walked.refl s now)
      (fun w h => absurd h List.not_mem_nil) rfl hidle hpending
    exact ⟨_, q', c, [], rfl, hq'⟩

/-- Whoever can run after is who could before, or has expired. -/
theorem Rescheduled.ready_iff {s' : Ectx} {q' c' gone : List Word}
    (h : Rescheduled s s' now q c q' c' gone) (w : Word) :
    Ready s' q' w ↔ w ∈ q ++ gone.filter s.unready := by
  rcases h.next with ⟨hwptr, hq⟩ | ⟨hwptr, hq, -⟩
  · rw [← hq, Ready]
    exact ⟨fun h => h.resolve_right fun e => e.2 (e.1.trans hwptr), Or.inl⟩
  · rw [← hq, Ready, List.mem_cons]
    exact ⟨fun h => h.elim Or.inr fun e => Or.inl e.1,
      fun h => h.elim (fun e => Or.inr ⟨e, e ▸ hwptr⟩) Or.inl⟩

/-- The context while nobody is current. -/
def away (s : Ectx) : Ectx := { s with wptr := notProcess }

theorem ready_away {s : Ectx} {q : List Word} {w : Word} : Ready (away s) q w ↔ w ∈ q :=
  ⟨fun h => h.resolve_right fun e => e.2 e.1, Or.inl⟩

variable {pos : Word → Option Pos}

/-- Who waits on the timer queue and is not ready is not on the run queue. -/
theorem Placed.free (h : Placed s pos q c) : ∀ w ∈ c, s.unready w = true → w ∉ q := by
  intro w hw hun hq
  have hsits := h.sits w
  have hready : Ready s q w := Or.inl hq
  have hstate : s.mem w .state ≠ ready := by simpa [unready] using hun
  cases hpos : pos w with
  | none =>
    rw [hpos] at hsits
    simp only [Sits] at hsits
    tauto
  | some place =>
    rw [hpos] at hsits
    cases place with
    | timer time =>
      simp only [Sits, AtTimer] at hsits
      tauto
    | disabling timed guards =>
      simp only [Sits, AtAlt] at hsits
      tauto
    | _ =>
      simp only [Sits] at hsits
      tauto

/-- **The next process runs**: everybody stays in place. -/
theorem Placed.next (now : Word) (h : Placed (away s) pos q c) :
    ∃ r q' c' gone, s.runNextOnQueue now = some r ∧ Rescheduled s r.2 now q c q' c' gone ∧
      Placed r.2 pos q' c' := by
  obtain ⟨r, q', c', gone, hr, hresch⟩ := runNextOnQueue_spec (s := s) now h.run
    (⟨h.pending.linked, h.pending.next⟩ : Pending s c) h.free
  have hready := hresch.ready_iff
  have hnodup : c.Nodup := h.pending.nodup
  rw [hresch.split] at hnodup
  have hleft : ∀ w ∈ gone, w ∉ c' := fun w hw hw' =>
    (List.nodup_append.mp hnodup).2.2 w hw w hw' rfl
  have hq : (q ++ gone.filter s.unready).Nodup := by
    refine List.nodup_append.mpr ⟨h.run.1.nodup, (List.nodup_append.mp hnodup).1.filter _, ?_⟩
    rintro w hwq _ hw rfl
    obtain ⟨hgone, hun⟩ := List.mem_filter.mp hw
    exact h.free w (by rw [hresch.split]; exact List.mem_append_left _ hgone) hun hwq
  have hcurrent : r.2.wptr ∉ q' := by
    rcases hresch.next with ⟨hwptr, -⟩ | ⟨-, hcons, -⟩
    · rw [hwptr]
      exact fun hz => hresch.run.1.ne_null _ hz rfl
    · rw [← hcons] at hq
      exact (List.nodup_cons.mp hq).1
  refine ⟨r, q', c', gone, hr, hresch, h.frame (· ∈ gone) hresch.run hresch.pending hcurrent
    hresch.self (fun w hw => ⟨rfl, ?_, ?_, fun k hk _ => ?_⟩)
    (fun w hw k _ => by rw [hresch.chan]; rfl) (fun w hw => ⟨?_, h.workspace w⟩)
    fun chan => ?_⟩
  · rw [hready, ready_away, List.mem_append, List.mem_filter]
    tauto
  · rw [hresch.split, List.mem_append]
    tauto
  · refine hresch.keep w k (fun e => ?_) fun e => absurd e hw
    subst e
    exact hk
  · have hc : w ∈ c := by
      rw [hresch.split]
      exact List.mem_append_left _ hw
    obtain ⟨htlink, htime, hstate⟩ := hresch.expired w hw
    have hsits := h.sits w
    match hpos : pos w with
    | none | some .plain | some .stopped | some (.chanIn _) | some (.chanOut _)
    | some (.enabling ..) =>
      rw [hpos] at hsits
      simp only [Sits] at hsits
      tauto
    | some (.timer time) =>
      rw [hpos] at hsits
      obtain ⟨-, hun⟩ | ⟨-, -, hun, -⟩ := hsits
      · exact absurd hc hun
      · have hne : s.mem w .state ≠ ready := hun
        exact Or.inl ⟨(hready w).mpr (List.mem_append_right _ (List.mem_filter.mpr
          ⟨hw, by simpa [unready] using hne⟩)), hleft w hw⟩
    | some (.disabling timed guards) =>
      rw [hpos] at hsits
      obtain ⟨hat, -, -⟩ := hsits
      refine ⟨Or.inl ⟨(hready w).mpr ?_, hstate⟩, fun e => absurd e (hleft w hw),
        fun _ _ => Or.inr htlink⟩
      rcases hat with ⟨hq', -⟩ | ⟨-, hwait, -⟩
      · exact List.mem_append_left _ (ready_away.mp hq')
      · refine List.mem_append_right _ (List.mem_filter.mpr ⟨hw, ?_⟩)
        have hne : s.mem w .state ≠ ready := by
          rw [show s.mem w .state = waiting from hwait]
          decide
        simpa [unready] using hne
  · have hheld := h.held chan
    rw [Held, hresch.chan]
    exact hheld

end Next

/-! ## What follows from everybody being in place -/

section Current

variable {s t : Ectx} {pos : Word → Option Pos} {q c c' : List Word} {w v k : Word}

theorem getLsbD_tag (i : ℕ) : (1 : Word).getLsbD i = decide (i = 0) := by
  rw [show (1 : Word) = 1#32 from rfl, BitVec.getLsbD_one]
  simp

theorem IsWorkspace.getLsbD_zero (hw : IsWorkspace w) : w.getLsbD 0 = false := by
  have hbit : (w &&& 3).getLsbD 0 = w.getLsbD 0 := by simp
  rw [← hbit, hw.2]
  simp

theorem IsWorkspace.ne_tagged (hw : IsWorkspace w) : w ≠ v ||| 1 := by
  intro e
  have hbit : (v ||| 1).getLsbD 0 = true := by simp
  rw [← e, hw.getLsbD_zero] at hbit
  cases hbit

/-- The tag comes off. -/
theorem IsWorkspace.untag (hw : IsWorkspace w) : (w ||| 1) &&& ~~~1 = w := by
  refine BitVec.eq_of_getLsbD_eq fun i hi => ?_
  rw [BitVec.getLsbD_and, BitVec.getLsbD_or, BitVec.getLsbD_not, getLsbD_tag]
  rcases Nat.eq_zero_or_pos i with rfl | hpos
  · rw [hw.getLsbD_zero]
    simp
  · simp [hpos.ne', hi]

/-- A tagged word is tagged. -/
theorem tagged_ne_zero : (w ||| 1) &&& 1 ≠ 0 := by
  intro e
  have hbit : ((w ||| 1) &&& 1).getLsbD 0 = true := by simp
  rw [e] at hbit
  simp at hbit

/-- An untagged word stays as it is. -/
theorem IsWorkspace.untagged (hw : IsWorkspace w) : w &&& ~~~1 = w := by
  refine BitVec.eq_of_getLsbD_eq fun i hi => ?_
  rw [BitVec.getLsbD_and, BitVec.getLsbD_not, getLsbD_tag]
  rcases Nat.eq_zero_or_pos i with rfl | hpos
  · rw [hw.getLsbD_zero]
    rfl
  · simp [hpos.ne', hi]

theorem IsWorkspace.and_one (hw : IsWorkspace w) : w &&& 1 = 0 := by
  have h : w &&& 1 = (w &&& 3) &&& 1 := by
    rw [BitVec.and_assoc]
    rfl
  rw [h, hw.2]
  rfl

/-- A process that can run is in no channel word. -/
theorem Placed.chan_ne (h : Placed s pos q c) (hready : Ready s q w) (hw : IsWorkspace w) :
    s.chan k ≠ w := by
  intro e
  rcases h.held k with hk | hk | ⟨v, -, hk, -⟩
  · exact hw.1 (e.symm.trans hk)
  · rw [e] at hk
    have hsits := h.sits w
    rcases hk with hk | hk
    all_goals
      rw [hk] at hsits
      obtain ⟨⟨-, hne⟩ | ⟨hnot, -⟩, -⟩ := hsits
      · exact hne e
      · exact hnot hready
  · exact hw.ne_tagged (e.symm.trans hk)

/-- A process outside an alternative that can run is not on the timer queue. -/
theorem Placed.notMem_timers (h : Placed s pos q c) (hready : Ready s q w) {p : Pos}
    (hp : pos w = some p) (hfree : p.Free) : w ∉ c := by
  have hsits := h.sits w
  rw [hp] at hsits
  match p, hfree with
  | .plain, _ => exact hsits.2
  | .chanIn _, _ => exact hsits.2
  | .chanOut _, _ => exact hsits.2
  | .timer _, _ => exact hsits.elim (fun e => e.2) fun e => absurd hready e.1

/-- Nothing is the current process', nor a guard of its, nor empty. -/
def Mine (w v : Word) : Prop := v = notProcess ∨ v = w ∨ v = w ||| 1

/-- **A step that changes the current process' own words only**, and maybe the timer queue. -/
theorem Placed.own (h : Placed s pos q c) (hcur : IsWorkspace s.wptr) {x : Option Pos}
    (hself : t.self = s.self) (hwptr : t.wptr = s.wptr ∨ t.wptr = notProcess)
    (hrun : t.RunQueue q) (hpending : Pending t c')
    (htimed : ∀ w, w ≠ s.wptr → (w ∈ c' ↔ w ∈ c))
    (hmem : ∀ w, w ≠ s.wptr → ∀ k : Slot, k.Places → (k = .tlink → w ∉ c) →
      t.mem w k = s.mem w k)
    (hchan : ∀ k, t.chan k = s.chan k ∨ (Mine s.wptr (s.chan k) ∧ Mine s.wptr (t.chan k)))
    (hheld : ∀ k, Mine s.wptr (t.chan k) → Held t (Function.update pos s.wptr x) k)
    (hsits : Sits t q c' s.wptr x) : Placed t (Function.update pos s.wptr x) q c' := by
  have hpos : ∀ w, w ≠ s.wptr → Function.update pos s.wptr x w = pos w :=
    fun w hw => Function.update_of_ne hw x pos
  have hmine : ∀ w, IsWorkspace w → w ≠ s.wptr → ∀ v, Mine s.wptr v → v ≠ w := by
    rintro w hw hne v (rfl | rfl | rfl)
    · exact hw.1.symm
    · exact hne.symm
    · exact hw.ne_tagged.symm
  refine h.frame (· = s.wptr) hrun hpending ?_ hself (fun w hw => ⟨hpos w hw, ?_, htimed w hw,
    hmem w hw⟩) (fun w hw k hk => ?_) (fun w hw => ?_) fun k => ?_
  · rcases hwptr with e | e
    · rw [e]
      exact h.current
    · rw [e]
      exact fun hz => hrun.1.ne_null _ hz rfl
  · rcases hwptr with e | e
    · rw [Ready, Ready, e]
    · rw [Ready, Ready, e]
      exact or_congr_right ⟨fun e' => absurd e'.1 e'.2, fun e' => absurd e'.1 hw⟩
  · rcases hchan k with e | ⟨e, e'⟩
    · rw [e]
    · have hws : IsWorkspace w := h.workspace w (by rcases hk with hk | hk <;> rw [hk] <;> simp)
      exact ⟨fun h' => absurd h' (hmine w hws hw _ e'), fun h' => absurd h' (hmine w hws hw _ e)⟩
  · subst hw
    exact ⟨by rw [Function.update_self]; exact hsits, fun _ => hcur⟩
  · by_cases hm : Mine s.wptr (t.chan k)
    · exact hheld k hm
    · have heq : t.chan k = s.chan k := (hchan k).resolve_right fun e => hm e.2
      rcases h.held k with hk | hk | ⟨v, p, hv, hp, hg⟩
      · exact absurd (Or.inl (heq.trans hk)) hm
      · refine Or.inr (Or.inl ?_)
        rw [heq, hpos _ fun e => hm (Or.inr (Or.inl (heq.trans e)))]
        exact hk
      · refine Or.inr (Or.inr ⟨v, p, heq.trans hv, ?_, hg⟩)
        rw [hpos _ fun e => hm (Or.inr (Or.inr (heq.trans (e ▸ hv))))]
        exact hp

/-- Who is on the timer queue is neither set nor not set. -/
theorem Placed.tlink_ne (h : Placed s pos q c) (hw : w ∈ c) :
    s.mem w .tlink ≠ timeSet ∧ s.mem w .tlink ≠ timeNotSet := by
  have hnext : s.tlinks w = notProcess ∨ s.tlinks w ∈ c := h.pending.linked.next_mem hw
  have hlow : s.mem w .tlink &&& 3 = 0 := by
    rcases hnext with e | e
    · rw [show s.mem w .tlink = notProcess from e]
      rfl
    · refine (h.workspace _ fun hnone => ?_).2
      have hsits := h.sits (s.tlinks w)
      rw [show pos (s.tlinks w) = none from hnone] at hsits
      exact hsits.2 e
  constructor
  · intro e
    rw [e] at hlow
    exact absurd hlow (by decide)
  · intro e
    rw [e] at hlow
    exact absurd hlow (by decide)

/-- What is written are words of the current process, not those of the timer queue if it is
there. -/
structure OwnWrites (s t : Ectx) (c : List Word) : Prop where
  self : t.self = s.self
  fptr : t.fptr = s.fptr
  bptr : t.bptr = s.bptr
  tptr : t.tptr = s.tptr
  tnext : t.tnext = s.tnext
  mem : ∀ w, w ≠ s.wptr → ∀ k, t.mem w k = s.mem w k
  timed : s.wptr ∈ c → t.mem s.wptr .tlink = s.mem s.wptr .tlink ∧
    t.mem s.wptr .time = s.mem s.wptr .time

theorem OwnWrites.run (hw : OwnWrites s t c) (h : Placed s pos q c) : t.RunQueue q := by
  rw [RunQueue, hw.fptr, hw.bptr]
  refine Fifo.congr h.run fun w hq => hw.mem w (fun e => ?_) .link
  exact h.current (e ▸ hq)

theorem OwnWrites.pending (hw : OwnWrites s t c) (h : Pending s c) : Pending t c := by
  refine ⟨?_, fun hne => ?_⟩
  · rw [hw.tptr]
    refine h.linked.congr fun w hc => ?_
    by_cases e : w = s.wptr
    · subst e
      exact (hw.timed hc).1
    · exact hw.mem w e .tlink
  · rw [hw.tptr] at hne
    rw [hw.tptr, hw.tnext, h.next hne]
    by_cases e : s.tptr = s.wptr
    · have hc : s.wptr ∈ c := by
        obtain ⟨m, hm, -⟩ := h.linked.exists_cons hne
        rw [hm, e]
        exact List.mem_cons_self
      rw [e, (hw.timed hc).2]
    · rw [hw.mem _ e]

/-- Who has a guard on a channel is who the channel word says. -/
theorem Placed.tag_guard (h : Placed s pos q c) (hw : IsWorkspace w) (hk : s.chan k = w ||| 1) :
    ∃ p, pos w = some p ∧ Guard.chan k ∈ p.guards := by
  rcases h.held k with e | e | ⟨v, p, hv, hp, hg⟩
  · rw [hk] at e
    have := tagged_ne_zero (w := w)
    rw [e] at this
    exact absurd rfl this
  · have hws : IsWorkspace (s.chan k) :=
      h.workspace _ (by rcases e with e | e <;> rw [e] <;> simp)
    exact absurd hk hws.ne_tagged
  · have hvws : IsWorkspace v := h.workspace v (by rw [hp]; simp)
    have heq : w = v := by
      rw [← hw.untag, ← hvws.untag, ← hk, hv]
    exact ⟨p, heq ▸ hp, hg⟩

/-- A channel word stays as it is: the current process keeps its guard on it. -/
theorem Placed.held_own (h : Placed s pos q c) (hcur : IsWorkspace s.wptr)
    (hready : Ready s q s.wptr) {p x : Option Pos} (hp : pos s.wptr = p)
    (hchan : t.chan k = s.chan k)
    (hguards : (∃ p', p = some p' ∧ Guard.chan k ∈ p'.guards) →
      ∃ x', x = some x' ∧ Guard.chan k ∈ x'.guards)
    (hm : Mine s.wptr (t.chan k)) : Held t (Function.update pos s.wptr x) k := by
  rw [hchan] at hm
  rcases hm with e | e | e
  · exact Or.inl (by rw [hchan, e])
  · exact absurd e (h.chan_ne hready hcur)
  · obtain ⟨p', hp', hg⟩ := h.tag_guard hcur e
    obtain ⟨x', hx', hg'⟩ := hguards ⟨p', hp ▸ hp', hg⟩
    exact Or.inr (Or.inr ⟨s.wptr, x', by rw [hchan, e], by rw [Function.update_self, hx'], hg'⟩)

/-- **Writing own words** keeps everybody in place. -/
theorem Placed.writes (h : Placed s pos q c) (hcur : IsWorkspace s.wptr)
    (hready : Ready s q s.wptr) {p x : Option Pos} (hp : pos s.wptr = p) (hw : OwnWrites s t c)
    (hchan : t.chan = s.chan) (hwptr : t.wptr = s.wptr ∨ t.wptr = notProcess)
    (hguards : ∀ k, (∃ p', p = some p' ∧ Guard.chan k ∈ p'.guards) →
      ∃ x', x = some x' ∧ Guard.chan k ∈ x'.guards)
    (hsits : Sits t q c s.wptr x) : Placed t (Function.update pos s.wptr x) q c :=
  h.own hcur hw.self hwptr (hw.run h) (hw.pending h.pending) (fun _ _ => Iff.rfl)
    (fun w hne k _ _ => hw.mem w hne k) (fun k => Or.inl (by rw [hchan]))
    (fun k => h.held_own hcur hready hp (by rw [hchan]) (hguards k)) hsits

end Current

end Tvm

end Kroc
