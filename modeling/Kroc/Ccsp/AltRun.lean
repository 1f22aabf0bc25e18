import Kroc.Ccsp.AltTriggers

/-!
# Ccsp/AltRun — when an ALT wakes exactly once

`Inv` holds initially and is kept by every step that meets `Meets`; it gives what is promised.  The
one step that breaks it is a trigger of a guard whose pointer `enbc` has published but not counted,
in a word whose flags a ready guard has cleared: it finds one, leaves zero, and puts an ALTer that
runs on a run queue.
-/

open FlaggedCount Transition

namespace Kroc

namespace Ccsp

namespace Alt

/-- **The condition on a step**: no trigger's compare-and-swap finds exactly one in the state word
while the ALTer stands between the swap and the increment of `enbc`, and no increment of the count
carries into the flags. -/
def Sys.Meets (s : Sys) : Act → Prop
  | .party g _ =>
    match s.pc, s.party g with
    | .enbcInc _, .triggerCas state => s.state = state → s.state ≠ 1
    | _, _ => True
  | .tick =>
    match s.pc with
    | .enbcInc _ => s.state &&& countMask ≠ countMask
    | .taltwtCas state (some _) _ => s.state = state → s.state &&& countMask ≠ countMask
    | _ => True
  | _ => True

instance (s : Sys) (a : Act) : Decidable (s.Meets a) := by
  obtain ⟨state, _, _, _, _, party, _, _, pc, _, _, _, _⟩ := s
  cases a with
  | party g v =>
    dsimp only [Sys.Meets]
    cases pc with
    | enbcInc c =>
      cases party g with
      | triggerCas old => exact inferInstanceAs (Decidable (state = old → state ≠ 1))
      | _ => exact instDecidableTrue
    | _ => exact instDecidableTrue
  | tick =>
    dsimp only [Sys.Meets]
    cases pc with
    | enbcInc c => exact inferInstanceAs (Decidable (state &&& countMask ≠ countMask))
    | taltwtCas old v w =>
      cases v with
      | some v => exact inferInstanceAs (Decidable (state = old → state &&& countMask ≠ countMask))
      | none => exact instDecidableTrue
    | _ => exact instDecidableTrue
  | _ => exact instDecidableTrue

/-- The invariant holds at the start. -/
theorem inv_init : Sys.init.Inv :=
  inv_idle (O := ∅) (V := ∅) ⟨fun g => by simp [Sys.Refers, Sys.init, Party.InFlight],
    fun g => by simp [Sys.init], fun g h => h.elim, fun g _ => GuardWord.noConfusion,
    fun k => GuardWord.noConfusion, fun k _ => ⟨rfl, rfl⟩, trivial⟩ rfl rfl rfl rfl rfl

/-- **A call of the ALTer** keeps the invariant. -/
theorem inv_call {s : Sys} (h : s.Inv) {f : Call} (hpc : s.pc = f.pc) : (s.call f).Inv := by
  cases f with
  | alt => exact inv_alt h hpc
  | talt => exact inv_talt h hpc
  | enbc c form => exact inv_enbc h hpc c form
  | enbs form => exact inv_ready_of_enabling h hpc form
  | enbt form timeout now => exact inv_enbt h hpc form timeout now
  | altwt => exact inv_altwt h hpc
  | taltwt now => exact inv_taltwt h hpc now
  | disc c address always => exact inv_disc h hpc c address always
  | diss address always => exact inv_diss h hpc address always
  | dist timeout address always remote => exact inv_dist h hpc timeout address always remote
  | altend => exact inv_altend h hpc

/-- **A step inside a call** keeps the invariant. -/
theorem inv_tick {s t : Sys} (h : s.Inv) (hmeets : s.Meets .tick) (ht : s.tick = some t) :
    t.Inv := by
  unfold Sys.tick at ht
  split at ht <;> cases ht
  case h_1 hpc => exact inv_enbcSwap h hpc
  case h_2 hpc => exact inv_enbcRestore h hpc
  case h_3 hpc =>
    refine inv_enbcInc h hpc ?_
    simpa only [Sys.Meets, hpc] using hmeets
  case h_4 hpc => exact inv_readyLoad h hpc
  case h_5 hpc => exact inv_readyAnd h hpc
  case h_6 hpc => exact inv_altwtCas h hpc
  case h_7 hpc => exact inv_altwtClear h hpc
  case h_8 state tn now hpc =>
    cases tn with
    | none => exact inv_taltwtCas_none h hpc
    | some k =>
      refine inv_taltwtCas_some h hpc ?_
      simpa only [Sys.Meets, hpc] using hmeets
  case h_9 hpc => exact inv_taltwtAnd h hpc
  case h_10 hpc => exact inv_discCas h hpc
  case h_11 hpc => exact inv_distSwap h hpc
  case h_12 hpc => exact inv_altDec h hpc
  case h_13 hpc => exact inv_altendDec h hpc

/-- **A step of another party** keeps the invariant. -/
theorem inv_partyStep {s t : Sys} (h : s.Inv) {g : Guard} {now : Word}
    (hmeets : s.Meets (.party g now)) (harm : ¬ s.Arming g) (ht : s.partyStep g now = some t) :
    t.Inv := by
  unfold Sys.partyStep at ht
  cases hp : s.party g with
  | idle =>
    rw [hp] at ht
    exact inv_load h hp harm ht
  | loaded =>
    rw [hp] at ht
    cases ht
    exact inv_swap h hp harm
  | trigger =>
    rw [hp] at ht
    cases ht
    exact inv_trigger h hp
  | triggerCas state =>
    rw [hp] at ht
    cases ht
    refine inv_triggerCas h hp fun heq c hpc => ?_
    simp only [Sys.Meets, hpc, hp] at hmeets
    exact hmeets heq
  | enqueue =>
    rw [hp] at ht
    cases ht
    exact inv_enqueue h hp
  | parked =>
    rw [hp] at ht
    cases ht

/-- **The step lemma.** -/
theorem inv_step {s t : Sys} {a : Act} (h : s.Inv) (hmeets : s.Meets a) (ht : s.step a = some t) :
    t.Inv := by
  unfold Sys.step at ht
  cases a with
  | call f =>
    dsimp only at ht
    split_ifs at ht with hf
    cases ht
    exact inv_call h hf.1
  | tick => exact inv_tick h hmeets ht
  | party g now =>
    dsimp only at ht
    split_ifs at ht with harm
    exact inv_partyStep h hmeets harm ht
  | resume => exact inv_resume h ht
  | consume c => exact inv_consume h ht

/-- **The invariant gives what is promised.** -/
theorem Sys.Inv.sound {s : Sys} (h : s.Inv) : s.Sound := by
  obtain ⟨O, V, f, count, hR, hC⟩ := h
  obtain ⟨hdue, hrunning⟩ := s.pc.due_le f count
  have hwakes := hC.wakes
  have hqueued : s.queued ≤ 1 := by omega
  refine ⟨⟨s.stage, hC.stage, ?_, ?_⟩, hqueued, fun hrun => ?_, fun hend hwoken g hg => ?_,
    fun hpark hpub hnone => ?_⟩
  · unfold Sys.stage
    cases s.pc <;> simp [Pc.Running] <;> split_ifs <;> simp
  · have hq : s.pc.Running → s.queued = 0 := fun hrun => by
      have : ¬ 0 < s.pc.due f count := fun hd => hrunning hd hrun
      omega
    unfold Sys.stage
    cases hpc : s.pc <;> rw [hpc] at hq <;> simp only [Pc.Running, true_implies] at hq
    case waiting | ending =>
      dsimp only
      split_ifs with hzero
      · simp [hzero]
      · exact iff_of_true rfl (by omega)
    all_goals simp [hq]
  · have : ¬ 0 < s.pc.due f count := fun hd => hrunning hd hrun
    have hV : V = ∅ := Finset.card_eq_zero.mp (by omega)
    refine ⟨by omega, fun g hg => ?_⟩
    have := (hR.wakers g).mpr hg
    rw [hV] at this
    exact absurd this (Finset.notMem_empty g)
  · have hidle : s.pc ≠ .idle := by rw [hend]; exact Pc.noConfusion
    have hcount := hC.count hidle
    have hpos : 0 < O.card := Finset.card_pos.mpr ⟨g, (hR.refers g).mpr hg⟩
    have hzero : s.pc.due f count = 0 := by
      rw [hend] at hcount ⊢
      exact if_neg (by change count = O.card + 0 at hcount; omega)
    rcases hwoken with hq | ⟨g', hg'⟩
    · omega
    · have : 0 < V.card := Finset.card_pos.mpr ⟨g', (hR.wakers g').mpr hg'⟩
      omega
  · have hO : O = ∅ := Finset.eq_empty_of_forall_notMem fun g hg => hnone g ((hR.refers g).mp hg)
    have hidle : s.pc ≠ .idle := fun hi => hpark (by rw [hi]; trivial)
    have hcount := hC.count hidle
    have hflags := hC.flags hidle
    have hone : s.pc.due f count = 1 := by
      cases hpc : s.pc <;> rw [hpc] at hpark hcount hflags <;>
        simp only [Pc.Running, not_true, not_false_iff] at hpark
      case waiting =>
        rcases hflags with rfl | rfl
        · -- the flag stands: every guard that was published still refers to the ALTer
          have := hC.published hidle (.inr rfl)
          have := hpub hpc
          simp_all
        · rfl
      case ending =>
        rw [hO] at hcount
        rw [hcount]
        rfl
    by_cases hV : V = ∅
    · left
      rw [hV, Finset.card_empty] at hwakes
      omega
    · obtain ⟨g, hg⟩ := Finset.nonempty_iff_ne_empty.mpr hV
      exact .inr ⟨g, (hR.wakers g).mp hg⟩

/-! ## The run theorem -/

/-- **CCSP ALTs wake exactly once**, in every run whose steps all meet the condition: in every
state reached the ALTer has been enqueued once for each time it was descheduled, and only then. -/
theorem wakes_once {s : Sys} (h : Reach Sys.step Sys.Meets Sys.init s) : s.Sound :=
  (h.invariant inv_init inv_step).sound

/-- A whole ALT on two channels, the first of which an outputter comes to while the ALTer waits. -/
def oneOutputter : List Act :=
  [.call .alt, .call (.enbc 0 .plain), .tick, .tick, .call (.enbc 1 .plain), .tick, .tick,
    .call .altwt, .tick, .party (.chan 0) 0, .party (.chan 0) 0, .party (.chan 0) 0,
    .party (.chan 0) 0, .party (.chan 0) 0]

theorem wakes_once_oneOutputter :
    ∃ s, Reach Sys.step Sys.Meets Sys.init s ∧ s.log = [.enqueue, .park] ∧ s.Sound := by
  have hrun : ((exec Sys.step Sys.Meets Sys.init oneOutputter).map Sys.log) =
      some [.enqueue, .park] := by decide
  obtain ⟨s, hs, hlog⟩ := Option.map_eq_some_iff.mp hrun
  have hreach := reach_of_exec hs .start
  exact ⟨s, hreach, hlog, wakes_once hreach⟩

/-! ## The run that breaks it

A ready `SKIP` guard clears both flags; the outputter of the next channel comes between the swap
and the increment of its `enbc`. -/

def outputterAtEnbc : List Act :=
  [.call .alt, .call (.enbs .plain), .tick, .tick, .call (.enbc 0 .plain), .tick,
    .party (.chan 0) 0, .party (.chan 0) 0, .party (.chan 0) 0, .party (.chan 0) 0,
    .party (.chan 0) 0]

theorem not_sound_outputterAtEnbc : ∃ s, Reach Sys.step Any Sys.init s ∧ ¬ s.Sound := by
  have hrun : ((exec Sys.step Any Sys.init outputterAtEnbc).map fun s => (s.pc, s.queued)) =
      some (.enbcInc 0, 1) := by decide
  obtain ⟨s, hs, hst⟩ := Option.map_eq_some_iff.mp hrun
  obtain ⟨hpc, hqueued⟩ := Prod.mk.inj hst
  refine ⟨s, reach_of_exec hs .start, fun hsound => ?_⟩
  have := (hsound.running (by rw [hpc]; trivial)).1
  omega

end Alt

end Ccsp

end Kroc
