import Kroc.Lib.SortedQueue
import Kroc.Lib.Transition
import Kroc.Tvm.Sched

/-!
# Tvm/TimerQueue — the timer queue is sorted and loses nobody

`timer_queue_insert`, `timer_queue_remove` and `walk_timer_queue` on the chain from `TPTR` through
`WS_TLINK`.  While the times in use lie within half the word range of each other, `TIME_AFTER`
orders them, and **in every run the chain holds what is waiting, sorted by time and served in the
order of arrival** (`timerQueue_sound`).
-/

namespace Kroc

namespace Tvm

/-! ## Times -/

/-- Some times lie within half the word range from a time on. -/
def Within (b t : Word) : Prop := (t - b).toNat < 2 ^ 31

/-- **`TIME_AFTER` orders such times** by their distance. -/
theorem timeAfter_iff {b t u : Word} (ht : Within b t) (hu : Within b u) :
    timeAfter t u = true ↔ (u - b).toNat < (t - b).toNat := by
  have hdiff : t - u = (t - b) - (u - b) := by bv_omega
  unfold Within at ht hu
  unfold timeAfter
  rw [decide_eq_true_iff, hdiff, BitVec.toInt_sub]
  rw [BitVec.toInt_eq_toNat_of_lt (by omega), BitVec.toInt_eq_toNat_of_lt (by omega),
    Int.bmod_eq_of_le (by omega) (by omega)]
  omega

theorem timeAfter_eq_false {b t u : Word} (ht : Within b t) (hu : Within b u) :
    timeAfter t u = false ↔ (t - b).toNat ≤ (u - b).toNat := by
  rw [← not_lt, ← timeAfter_iff ht hu, Bool.not_eq_true]

/-- The distance from a time is a time's own. -/
theorem eq_of_distance {b t u : Word} (h : (t - b).toNat = (u - b).toNat) : t = u := by
  have := BitVec.eq_of_toNat_eq h
  bv_omega

/-- Conditions that agree on a list split it alike. -/
theorem span_congr {α : Type*} {p p' : α → Bool} {l : List α} (h : ∀ w ∈ l, p w = p' w) :
    l.takeWhile p = l.takeWhile p' ∧ l.dropWhile p = l.dropWhile p' := by
  induction l with
  | nil => exact ⟨rfl, rfl⟩
  | cons x l ih =>
    obtain ⟨htake, hdrop⟩ := ih fun w hw => h w (List.mem_cons_of_mem _ hw)
    rw [List.takeWhile_cons, List.takeWhile_cons, List.dropWhile_cons, List.dropWhile_cons,
      h x List.mem_cons_self, htake, hdrop]
    exact ⟨rfl, rfl⟩

/-! ## The loops -/

namespace Ectx

/-- `WS_TLINK` of a workspace. -/
def tlinks (s : Ectx) (w : Word) : Word := s.mem w .tlink

/-- A workspace's time is not after another time. -/
def due (s : Ectx) (t : Word) (w : Word) : Bool := !timeAfter (s.mem w .time) t

/-- Only `WS_TLINK` of some workspaces has changed. -/
structure Relinked (s s' : Ectx) (W : List Word) : Prop where
  regs : s' = { s with mem := s'.mem }
  mem : ∀ w k, k ≠ .tlink ∨ w ∉ W → s'.mem w k = s.mem w k

variable {s s' : Ectx} {ws this next now reschedule : Word} {rest : List Word} {fuel : ℕ}

/-- **The loop of an insertion** puts the workspace behind what is not after it. -/
theorem insertLoop_spec (hlinked : Linked notProcess s.tlinks next rest)
    (hthis : s.tlinks this = next)
    (hfuel : rest.length < fuel) (hws : ws ≠ notProcess) (hfresh : ws ∉ this :: rest)
    (hnot : this ∉ rest) :
    ∃ s', insertLoop ws reschedule fuel s this next = some s' ∧
      Relinked s s' (this :: ws :: rest) ∧
      Linked notProcess s'.tlinks (s'.tlinks this)
        (rest.takeWhile (s.due reschedule) ++ ws :: rest.dropWhile (s.due reschedule)) := by
  obtain ⟨hne, hfresh'⟩ := not_or.mp (fun h => hfresh (List.mem_cons.mpr h))
  induction rest generalizing this next fuel with
  | nil =>
    obtain ⟨fuel, rfl⟩ : ∃ k, fuel = k + 1 := ⟨fuel - 1, by omega⟩
    obtain rfl : next = notProcess := hlinked
    rw [insertLoop, if_pos rfl]
    refine ⟨_, rfl, ⟨rfl, fun w k hk => ?_⟩, ?_⟩
    · simp only [List.mem_cons, not_or] at hk
      rw [mem_set, mem_set, if_neg (by tauto), if_neg (by tauto)]
    · refine ⟨?_, hws, ?_⟩
      · simp [tlinks, Ne.symm hne]
      · simp [tlinks]
  | cons x rest ih =>
    obtain ⟨fuel, rfl⟩ : ∃ k, fuel = k + 1 := ⟨fuel - 1, by omega⟩
    obtain ⟨rfl, hx, hrest⟩ := hlinked
    obtain ⟨hwx, hwrest⟩ := not_or.mp (fun h => hfresh' (List.mem_cons.mpr h))
    rw [insertLoop, if_neg hx]
    by_cases hlate : timeAfter (s.mem next .time) reschedule = true
    · have hdue : s.due reschedule next = false := by rw [due, hlate]; rfl
      rw [if_pos hlate, List.takeWhile_cons_of_neg (by rw [hdue]; simp),
        List.dropWhile_cons_of_neg (by rw [hdue]; simp)]
      refine ⟨_, rfl, ⟨rfl, fun w k hk => ?_⟩, ?_⟩
      · simp only [List.mem_cons, not_or] at hk
        rw [mem_set, mem_set, if_neg (by tauto), if_neg (by tauto)]
      · have hsame : ∀ y ∈ next :: rest,
            ((s.set ws .tlink next).set this .tlink ws).tlinks y = s.tlinks y := by
          intro y hy
          have hyw : y ≠ ws := fun e => hfresh' (e ▸ hy)
          have hyt : y ≠ this := fun e => hnot (e ▸ hy)
          simp [tlinks, hyw, hyt]
        refine ⟨by simp [tlinks], hws, ?_⟩
        have hnext : ((s.set ws .tlink next).set this .tlink ws).tlinks ws = next := by
          simp [tlinks, hne]
        rw [hnext]
        exact Linked.congr hsame ⟨rfl, hx, hrest⟩
    · have hdue : s.due reschedule next = true := by
        rw [due]
        simpa using hlate
      rw [if_neg hlate, List.takeWhile_cons_of_pos hdue, List.dropWhile_cons_of_pos hdue]
      have hchain' : Linked notProcess s.tlinks next (next :: rest) := ⟨rfl, hx, hrest⟩
      have hnodup := hchain'.nodup
      obtain ⟨s', hs', hrel, hchain⟩ := ih hrest rfl (by simpa using hfuel)
        (fun h => hfresh' h) (List.nodup_cons.mp hnodup).1 hwx hwrest
      refine ⟨s', hs', ⟨hrel.regs, fun w k hk => hrel.mem w k ?_⟩, ?_⟩
      · simp only [List.mem_cons, not_or] at hk ⊢
        tauto
      · have hthis' : s'.tlinks this = s.tlinks this := by
          refine hrel.mem this .tlink (Or.inr ?_)
          simp only [List.mem_cons, not_or]
          exact ⟨fun e => hnot (e ▸ List.mem_cons_self), Ne.symm hne,
            fun h => hnot (List.mem_cons_of_mem _ h)⟩
        exact ⟨hthis'.trans hthis, hx, hchain⟩

/-- **The loop of a removal** takes the workspace out. -/
theorem removeLoop_spec (hlinked : Linked notProcess s.tlinks next rest)
    (hthis : s.tlinks this = next)
    (hfuel : rest.length < fuel) (hnot : this ∉ rest) :
    ∃ s', removeLoop ws fuel s this next = some s' ∧ Relinked s s' (this :: rest) ∧
      Linked notProcess s'.tlinks (s'.tlinks this) (rest.erase ws) := by
  induction rest generalizing this next fuel with
  | nil =>
    obtain ⟨fuel, rfl⟩ : ∃ k, fuel = k + 1 := ⟨fuel - 1, by omega⟩
    obtain rfl : next = notProcess := hlinked
    rw [removeLoop, if_pos rfl]
    exact ⟨s, rfl, ⟨rfl, fun _ _ _ => rfl⟩, hthis⟩
  | cons x rest ih =>
    obtain ⟨fuel, rfl⟩ : ∃ k, fuel = k + 1 := ⟨fuel - 1, by omega⟩
    have hnodup := hlinked.nodup
    obtain ⟨rfl, hx, hrest⟩ := hlinked
    obtain ⟨hxrest, -⟩ := List.nodup_cons.mp hnodup
    obtain ⟨htx, htrest⟩ := not_or.mp (fun h => hnot (List.mem_cons.mpr h))
    rw [removeLoop, if_neg hx]
    by_cases hw : next = ws
    · rw [if_pos hw]
      subst hw
      refine ⟨_, rfl, ⟨rfl, fun w k hk => ?_⟩, ?_⟩
      · simp only [List.mem_cons, not_or] at hk
        rw [mem_set, if_neg (by tauto)]
      · have hhead : ((s.set this .tlink (s.mem next .tlink)).tlinks this) = s.tlinks next := by
          simp [tlinks]
        rw [List.erase_cons_head, hhead]
        refine Linked.congr (fun y hy => ?_) hrest
        have hyt : y ≠ this := fun e => htrest (e ▸ hy)
        simp [tlinks, hyt]
    · rw [if_neg hw]
      obtain ⟨s', hs', hrel, hchain⟩ := ih hrest rfl (by simpa using hfuel) hxrest
      have hthis' : s'.tlinks this = s.tlinks this := by
        refine hrel.mem this .tlink (Or.inr ?_)
        exact fun h => hnot h
      refine ⟨s', hs', ⟨hrel.regs, fun w k hk => hrel.mem w k ?_⟩, ?_⟩
      · simp only [List.mem_cons, not_or] at hk ⊢
        tauto
      · rw [List.erase_cons_tail (by simpa using hw)]
        exact ⟨hthis'.trans hthis, hx, hchain⟩

/-! ## Insertion and removal -/

/-- The timer queue of a state: the chain from `TPTR`, and `TNEXT` is the time of its head. -/
structure Pending (s : Ectx) (c : List Word) : Prop where
  linked : Linked notProcess s.tlinks s.tptr c
  next : s.tptr ≠ notProcess → s.tnext = s.mem s.tptr .time

/-- What the timer queue's operations leave alone, `ws` being what they are about. -/
structure TimersOnly (s s' : Ectx) (ws : Word) (c : List Word) : Prop where
  regs : s' = { s with
    mem := s'.mem, tptr := s'.tptr, tnext := s'.tnext, timers := s'.timers }
  mem : ∀ w k, (k = .tlink → w ≠ ws ∧ w ∉ c) → (k = .iptr → w ≠ ws) → s'.mem w k = s.mem w k

variable {c : List Word}

/-- A list of workspaces without repetition is shorter than the loops' fuel. -/
theorem length_lt_of_nodup (hc : c.Nodup) (hz : notProcess ∉ c) : c.length < 2 ^ 32 := by
  have hnodup : ((notProcess :: c).map BitVec.toNat).Nodup :=
    (List.nodup_cons.mpr ⟨hz, hc⟩).map fun _ _ h => BitVec.eq_of_toNat_eq h
  have hsub : ((notProcess :: c).map BitVec.toNat).toFinset ⊆ Finset.range (2 ^ 32) := by
    intro n hn
    obtain ⟨w, -, rfl⟩ := List.mem_map.mp (List.mem_toFinset.mp hn)
    exact Finset.mem_range.mpr w.isLt
  have hcard := Finset.card_le_card hsub
  rw [List.toFinset_card_of_nodup hnodup, List.length_map, List.length_cons,
    Finset.card_range] at hcard
  exact hcard

theorem Pending.nodup (h : Pending s c) : c.Nodup := h.linked.nodup

theorem Pending.short (h : Pending s c) : c.length < 2 ^ 32 :=
  length_lt_of_nodup h.nodup fun hz => h.linked.ne_null _ hz rfl

/-- **Insertion** puts a workspace behind what is not after it. -/
theorem timerQueueInsert_spec (h : Pending s c) (hws : ws ≠ notProcess) (hfresh : ws ∉ c)
    (htime : s.mem ws .time = reschedule) :
    ∃ s', s.timerQueueInsert ws reschedule = some s' ∧ TimersOnly s s' ws c ∧
      Pending s' (c.takeWhile (s.due reschedule) ++ ws :: c.dropWhile (s.due reschedule)) := by
  have hshort := h.short
  cases c with
  | nil =>
    have hempty : s.tptr = notProcess := h.linked
    rw [timerQueueInsert, if_pos hempty]
    refine ⟨_, rfl, ⟨rfl, fun w k hk hk' => ?_⟩, ⟨rfl, hws, ?_⟩, fun _ => ?_⟩
    · simp only [setAlarm, mem_set]
      rw [if_neg fun e => (hk e.2).1 e.1, if_neg fun e => hk' e.2 e.1]
    · simp [tlinks, setAlarm]
    · simp [setAlarm, htime]
  | cons x rest =>
    obtain ⟨hx, hxz, hrest⟩ := h.linked
    have hnext := h.next (hx ▸ hxz)
    have hnodup := h.nodup
    obtain ⟨hxrest, -⟩ := List.nodup_cons.mp hnodup
    obtain ⟨hwx, hwrest⟩ := not_or.mp (fun e => hfresh (List.mem_cons.mpr e))
    rw [timerQueueInsert, if_neg (hx ▸ hxz)]
    by_cases hlate : timeAfter s.tnext reschedule = true
    · have hdue : s.due reschedule x = false := by
        rw [due, ← hx, ← hnext, hlate]
        rfl
      rw [if_pos hlate, List.takeWhile_cons_of_neg (by rw [hdue]; simp),
        List.dropWhile_cons_of_neg (by rw [hdue]; simp)]
      refine ⟨_, rfl, ⟨rfl, fun w k hk hk' => ?_⟩, ⟨rfl, hws, ?_⟩, fun _ => ?_⟩
      · simp only [setAlarm, mem_set]
        rw [if_neg fun e => (hk e.2).1 e.1]
      · have hhead :
          (setAlarm { s.set ws .tlink s.tptr with tptr := ws, tnext := reschedule }).tlinks
            ws = x := by
          simp [tlinks, setAlarm, hx]
        rw [hhead]
        refine Linked.congr (fun y hy => ?_) ⟨rfl, hxz, hrest⟩
        have hyw : y ≠ ws := fun e => hfresh (e ▸ hy)
        simp [tlinks, setAlarm, hyw]
      · simp [setAlarm, htime]
    · have hdue : s.due reschedule x = true := by
        rw [due, ← hx, ← hnext]
        simpa using hlate
      rw [if_neg hlate, List.takeWhile_cons_of_pos hdue, List.dropWhile_cons_of_pos hdue]
      obtain ⟨s', hs', hrel, hchain⟩ := insertLoop_spec hrest rfl
        (Nat.lt_of_succ_lt hshort) hws hfresh hxrest
      have htptr : s'.tptr = s.tptr := by rw [hrel.regs]
      have htnext : s'.tnext = s.tnext := by rw [hrel.regs]
      refine ⟨s', by rw [hx]; exact hs', ⟨?_, fun w k hk hk' => hrel.mem w k ?_⟩,
        ⟨htptr.trans hx, hxz, hchain⟩, fun _ => ?_⟩
      · rw [hrel.regs]
      · by_cases hkt : k = .tlink
        · right
          have := hk hkt
          simp only [List.mem_cons, not_or] at this ⊢
          tauto
        · exact Or.inl hkt
      · rw [htnext, htptr, hnext, hrel.mem _ _ (Or.inl (by decide))]

/-- **Removal** takes a workspace out, if it is there. -/
theorem timerQueueRemove_spec (h : Pending s c) (hws : ws ≠ notProcess) :
    ∃ s', s.timerQueueRemove ws = some s' ∧ TimersOnly s s' ws c ∧ Pending s' (c.erase ws) ∧
      s'.mem ws .tlink = timeNotSet := by
  have hshort := h.short
  cases c with
  | nil =>
    have hempty : s.tptr = notProcess := h.linked
    have hhead : s.tptr ≠ ws := fun e => hws (e.symm.trans hempty)
    rw [timerQueueRemove, if_neg hhead, if_neg (not_not.mpr hempty)]
    refine ⟨_, rfl, ⟨rfl, fun w k hk hk' => ?_⟩, ⟨h.linked, fun e => absurd hempty e⟩, ?_⟩
    · rw [mem_set, if_neg fun e => (hk e.2).1 e.1]
    · simp
  | cons x rest =>
    obtain ⟨hx, hxz, hrest⟩ := h.linked
    have hnext := h.next (hx ▸ hxz)
    have hnodup := h.nodup
    obtain ⟨hxrest, -⟩ := List.nodup_cons.mp hnodup
    by_cases hw : x = ws
    · subst hw
      rw [timerQueueRemove, if_pos hx, List.erase_cons_head]
      have hsame : ∀ y ∈ rest, (s.set x .tlink timeNotSet).tlinks y = s.tlinks y := by
        intro y hy
        have hyx : y ≠ x := fun e => hxrest (e ▸ hy)
        simp [tlinks, hyx]
      by_cases hlast : s.mem s.tptr .tlink = notProcess
      · refine ⟨_, rfl, ⟨?_, fun w k hk hk' => ?_⟩, ⟨?_, ?_⟩, ?_⟩
        · simp only [hlast, ne_eq, not_true_eq_false, if_false]
          rfl
        · simp only [hlast, ne_eq, not_true_eq_false, if_false, mem_set]
          rw [if_neg fun e => (hk e.2).1 e.1]
        · simp only [hlast, ne_eq, not_true_eq_false, if_false]
          have hnil : rest = [] := by
            rw [hx] at hlast
            exact hrest.null_iff.mp hlast
          rw [hnil]
          rfl
        · simp only [hlast, ne_eq, not_true_eq_false, if_false]
          exact fun e => absurd rfl e
        · simp
      · refine ⟨_, rfl, ⟨?_, fun w k hk hk' => ?_⟩, ⟨?_, ?_⟩, ?_⟩
        · simp only [ne_eq, hlast, not_false_eq_true, if_true]
          rfl
        · simp only [ne_eq, hlast, not_false_eq_true, if_true, setAlarm, mem_set]
          rw [if_neg fun e => (hk e.2).1 e.1]
        · simp only [ne_eq, hlast, not_false_eq_true, if_true]
          refine Linked.congr hsame ?_
          rw [hx] at *
          exact hrest
        · simp only [ne_eq, hlast, not_false_eq_true, if_true]
          intro _
          simp [setAlarm]
        · simp
    · have hxw : s.tptr ≠ ws := fun e => hw (hx ▸ e)
      rw [timerQueueRemove, if_neg hxw, if_pos (hx ▸ hxz), List.erase_cons_tail (by simpa using hw)]
      obtain ⟨s', hs', hrel, hchain⟩ := removeLoop_spec hrest rfl
        (Nat.lt_of_succ_lt hshort) hxrest
      have htptr : s'.tptr = s.tptr := by rw [hrel.regs]
      have htnext : s'.tnext = s.tnext := by rw [hrel.regs]
      rw [hx, show s.mem x .tlink = s.tlinks x from rfl, hs']
      have hwerase : ws ∉ rest.erase ws := (List.nodup_cons.mp hnodup).2.not_mem_erase
      refine ⟨_, rfl, ⟨?_, fun w k hk hk' => ?_⟩, ⟨⟨?_, hxz, ?_⟩, fun _ => ?_⟩, ?_⟩
      · rw [hrel.regs]
        rfl
      · rw [mem_set, if_neg fun e => (hk e.2).1 e.1]
        refine hrel.mem w k ?_
        by_cases hkt : k = .tlink
        · exact Or.inr (hk hkt).2
        · exact Or.inl hkt
      · exact htptr.trans hx
      · have hhead : (s'.set ws .tlink timeNotSet).tlinks x = s'.tlinks x := by
          simp [tlinks, hw]
        rw [hhead]
        refine Linked.congr (fun y hy => ?_) hchain
        have hyw : y ≠ ws := fun e => hwerase (e ▸ hy)
        simp [tlinks, hyw]
      · simp only [tnext_set, tptr_set, mem_set]
        rw [if_neg (by simp), htnext, htptr, hnext, hrel.mem _ _ (Or.inl (by decide))]
      · simp

/-! ## Expiry -/

/-- What a walk of the timer queue does, `gone` being what has expired. -/
structure Walked (s s' : Ectx) (now : Word) (gone : List Word) : Prop where
  regs : s' = { s with
    mem := s'.mem, fptr := s'.fptr, bptr := s'.bptr, tptr := s'.tptr, tnext := s'.tnext,
    timers := s'.timers }
  keep : ∀ w k, k ≠ .link → (w ∈ gone → k ≠ .tlink ∧ k ≠ .time ∧ k ≠ .state) →
    s'.mem w k = s.mem w k
  gone : ∀ w ∈ gone, s'.mem w .tlink = timeSet ∧ s'.mem w .time = now ∧ s'.mem w .state = ready

theorem Walked.refl (s : Ectx) (now : Word) : Walked s s now [] :=
  ⟨rfl, fun _ _ _ _ => rfl, fun _ h => absurd h List.not_mem_nil⟩

variable {x : Word} {l gone q : List Word} {s₁ : Ectx}

theorem Walked.cons (h : Walked s s₁ now [x]) (h' : Walked s₁ s' now gone) (hx : x ∉ gone) :
    Walked s s' now (x :: gone) := by
  refine ⟨by rw [h'.regs, h.regs], fun w k hk hw => ?_, fun w hw => ?_⟩
  · rw [h'.keep w k hk fun hg => hw (List.mem_cons_of_mem _ hg),
      h.keep w k hk fun hg => hw (List.mem_singleton.mp hg ▸ List.mem_cons_self)]
  · by_cases hg : w ∈ gone
    · exact h'.gone w hg
    · obtain rfl : w = x := (List.mem_cons.mp hw).resolve_right hg
      obtain ⟨htlink, htime, hstate⟩ := h.gone w List.mem_cons_self
      refine ⟨?_, ?_, ?_⟩
      · rw [h'.keep w _ (by decide) fun e => absurd e hx, htlink]
      · rw [h'.keep w _ (by decide) fun e => absurd e hx, htime]
      · rw [h'.keep w _ (by decide) fun e => absurd e hx, hstate]

/-- The processes that were not ready before. -/
def unready (s : Ectx) (w : Word) : Bool := s.mem w .state ≠ ready

/-- **One process expires.** -/
theorem expire_spec (hrun : s.RunQueue q) (hx : x ≠ notProcess) (hq : s.unready x = true → x ∉ q) :
    Walked s (s.expire now x) now [x] ∧
      (s.expire now x).RunQueue (q ++ [x].filter s.unready) ∧ (s.expire now x).tptr = s.tptr ∧
      (s.expire now x).tnext = s.tnext ∧ (s.expire now x).timers = s.timers := by
  have hstate : ((s.set x .tlink timeSet).set x .time now).mem x .state = s.mem x .state := by simp
  have hrun' : ∀ t : Ectx, t = (s.set x .tlink timeSet).set x .time now →
      t.RunQueue q := by
    rintro t rfl
    exact Fifo.congr hrun fun y _ => by simp [links]
  by_cases hready : s.mem x .state = ready
  · have heq : s.expire now x = (s.set x .tlink timeSet).set x .time now := by
      unfold expire
      dsimp only
      rw [if_neg]
      rw [hstate]
      exact not_not.mpr hready
    rw [heq, List.filter_cons_of_neg (by simp [unready, hready]), List.filter_nil, List.append_nil]
    refine ⟨⟨rfl, fun w k hk hw => ?_, fun w hw => ?_⟩, hrun' _ rfl, rfl, rfl, rfl⟩
    · simp only [mem_set]
      rw [if_neg fun e => (hw (List.mem_singleton.mpr e.1)).2.1 e.2,
        if_neg fun e => (hw (List.mem_singleton.mpr e.1)).1 e.2]
    · obtain rfl := List.mem_singleton.mp hw
      exact ⟨by simp, by simp, by simp [hready]⟩
  · have heq : s.expire now x =
        (((s.set x .tlink timeSet).set x .time now).set x .state ready).addToQueue x := by
      unfold expire
      dsimp only
      rw [if_pos]
      rw [hstate]
      exact hready
    have hun : s.unready x = true := by simp [unready, hready]
    rw [heq, List.filter_cons_of_pos hun, List.filter_nil]
    refine ⟨⟨?_, fun w k hk hw => ?_, fun w hw => ?_⟩, ?_, ?_, ?_, ?_⟩
    · rw [regs_addToQueue]
      rfl
    · rw [mem_addToQueue hk]
      simp only [mem_set]
      rw [if_neg fun e => (hw (List.mem_singleton.mpr e.1)).2.2 e.2,
        if_neg fun e => (hw (List.mem_singleton.mpr e.1)).2.1 e.2,
        if_neg fun e => (hw (List.mem_singleton.mpr e.1)).1 e.2]
    · obtain rfl := List.mem_singleton.mp hw
      rw [mem_addToQueue (by decide), mem_addToQueue (by decide), mem_addToQueue (by decide)]
      exact ⟨by simp, by simp, by simp⟩
    · exact RunQueue.add (Fifo.congr hrun fun y _ => by simp [links]) hx (hq hun)
    all_goals
      rw [regs_addToQueue]
      rfl

/-- **The loop of a walk** removes what has expired from the head and adds to the run queue what was
not ready. -/
theorem walkLoop_spec (hx : x ≠ notProcess) (hlinked : Linked notProcess s.tlinks (s.tlinks x) l)
    (hnot : x ∉ l) (hfuel : l.length < fuel) (hrun : s.RunQueue q)
    (hq : ∀ w ∈ x :: l, s.unready w = true → w ∉ q) :
    ∃ s', walkLoop now fuel s x = some s' ∧
      Walked s s' now (x :: l.takeWhile (s.due now)) ∧
      s'.RunQueue (q ++ (x :: l.takeWhile (s.due now)).filter s.unready) ∧
      Pending s' (l.dropWhile (s.due now)) := by
  induction l generalizing x s q fuel with
  | nil =>
    obtain ⟨fuel, rfl⟩ : ∃ k, fuel = k + 1 := ⟨fuel - 1, by omega⟩
    have hnull : s.mem x .tlink = notProcess := hlinked
    obtain ⟨hwalk, hrun', -⟩ := expire_spec hrun hx (hq x List.mem_cons_self)
    rw [walkLoop, hnull, if_pos rfl]
    refine ⟨_, rfl, ⟨?_, hwalk.keep, hwalk.gone⟩, hrun', rfl, fun e => absurd rfl e⟩
    rw [hwalk.regs]
  | cons y l ih =>
    obtain ⟨fuel, rfl⟩ : ∃ k, fuel = k + 1 := ⟨fuel - 1, by omega⟩
    have hnodup := hlinked.nodup
    obtain ⟨hy, hyz, hrest⟩ := hlinked
    have hnext : s.mem x .tlink = y := hy
    obtain ⟨hxy, hxl⟩ := not_or.mp (fun h => hnot (List.mem_cons.mpr h))
    obtain ⟨hyl, -⟩ := List.nodup_cons.mp hnodup
    obtain ⟨hwalk, hrun', -⟩ := expire_spec hrun hx (hq x List.mem_cons_self)
    have hkeep : ∀ w ∈ y :: l, ∀ k, k ≠ .link → (s.expire now x).mem w k = s.mem w k := by
      intro w hw k hk
      refine hwalk.keep w k hk fun e => ?_
      obtain rfl := List.mem_singleton.mp e
      exact absurd hw hnot
    have hlinks : ∀ w ∈ y :: l, (s.expire now x).tlinks w = s.tlinks w :=
      fun w hw => hkeep w hw .tlink (by decide)
    have hdues : ∀ w ∈ y :: l, (s.expire now x).due now w = s.due now w := fun w hw => by
      rw [due, due, hkeep w hw .time (by decide)]
    have huns : ∀ w ∈ y :: l, (s.expire now x).unready w = s.unready w := fun w hw => by
      rw [unready, unready, hkeep w hw .state (by decide)]
    rw [walkLoop, hnext, if_neg hyz, hkeep y List.mem_cons_self .time (by decide)]
    by_cases hlate : timeAfter (s.mem y .time) now = true
    · have hdue : s.due now y = false := by rw [due, hlate]; rfl
      rw [if_pos hlate, List.takeWhile_cons_of_neg (by rw [hdue]; simp),
        List.dropWhile_cons_of_neg (by rw [hdue]; simp)]
      refine ⟨_, rfl, ⟨?_, hwalk.keep, hwalk.gone⟩, hrun', ⟨rfl, hyz, ?_⟩, fun _ => ?_⟩
      · rw [hwalk.regs]
        rfl
      · have hhead : (setAlarm { s.expire now x with tptr := y, tnext := s.mem y .time }).tlinks y =
            s.tlinks y := hlinks y List.mem_cons_self
        rw [hhead]
        exact Linked.congr (fun w hw => hlinks w (List.mem_cons_of_mem _ hw)) hrest
      · exact (hkeep y List.mem_cons_self .time (by decide)).symm
    · have hdue : s.due now y = true := by
        rw [due]
        simpa using hlate
      rw [if_neg hlate, List.takeWhile_cons_of_pos hdue, List.dropWhile_cons_of_pos hdue]
      have hchain : Linked notProcess (s.expire now x).tlinks ((s.expire now x).tlinks y) l := by
        rw [hlinks y List.mem_cons_self]
        exact Linked.congr (fun w hw => hlinks w (List.mem_cons_of_mem _ hw)) hrest
      have hfree : ∀ w ∈ y :: l, (s.expire now x).unready w = true →
          w ∉ q ++ [x].filter s.unready := by
        intro w hw hun hmem
        rw [huns w hw] at hun
        rcases List.mem_append.mp hmem with hmem | hmem
        · exact hq w (List.mem_cons_of_mem _ hw) hun hmem
        · obtain rfl := List.mem_singleton.mp (List.mem_filter.mp hmem).1
          exact hnot hw
      obtain ⟨s', hs', hwalk', hrun'', hpending⟩ := ih hyz hchain hyl (by simpa using hfuel) hrun'
        hfree
      obtain ⟨htake, hdrop⟩ := span_congr (l := l) fun w hw => hdues w (List.mem_cons_of_mem _ hw)
      have hsub : ∀ w ∈ y :: l.takeWhile (s.due now), w ∈ y :: l := fun w hw => by
        rcases List.mem_cons.mp hw with rfl | hw
        · exact List.mem_cons_self
        · exact List.mem_cons_of_mem _ (List.takeWhile_subset _ hw)
      have hfilter : (y :: l.takeWhile (s.due now)).filter (s.expire now x).unready =
          (y :: l.takeWhile (s.due now)).filter s.unready :=
        List.filter_congr fun w hw => huns w (hsub w hw)
      rw [htake] at hwalk' hrun''
      rw [hdrop] at hpending
      rw [hfilter, List.append_assoc, ← List.filter_append] at hrun''
      exact ⟨s', hs', hwalk.cons hwalk' fun e => hnot (hsub x e), hrun'', hpending⟩

/-- **A walk of the timer queue.** -/
theorem walkTimerQueue_spec {c : List Word} (h : Pending s c) (hrun : s.RunQueue q)
    (hq : ∀ w ∈ c, s.unready w = true → w ∉ q) :
    ∃ s', s.walkTimerQueue now = some s' ∧ Walked s s' now (c.takeWhile (s.due now)) ∧
      s'.RunQueue (q ++ (c.takeWhile (s.due now)).filter s.unready) ∧
      Pending s' (c.dropWhile (s.due now)) := by
  have hshort := h.short
  cases c with
  | nil =>
    have hempty : s.tptr = notProcess := h.linked
    rw [walkTimerQueue, if_pos (Or.inl hempty)]
    refine ⟨s, rfl, Walked.refl s now, ?_, h⟩
    rw [List.takeWhile_nil, List.filter_nil, List.append_nil]
    exact hrun
  | cons x l =>
    obtain ⟨hx, hxz, hl⟩ := h.linked
    have hnext := h.next (hx ▸ hxz)
    obtain ⟨hxl, -⟩ := List.nodup_cons.mp h.nodup
    have hdue : s.due now x = !timeAfter s.tnext now := by rw [due, hnext, hx]
    by_cases hlate : timeAfter s.tnext now = true
    · rw [walkTimerQueue, if_pos (Or.inr hlate),
        List.takeWhile_cons_of_neg (by rw [hdue, hlate]; simp),
        List.dropWhile_cons_of_neg (by rw [hdue, hlate]; simp), List.filter_nil, List.append_nil]
      exact ⟨s, rfl, Walked.refl s now, hrun, h⟩
    · rw [walkTimerQueue, if_neg (not_or.mpr ⟨hx ▸ hxz, hlate⟩), hx,
        List.takeWhile_cons_of_pos (by rw [hdue]; simpa using hlate),
        List.dropWhile_cons_of_pos (by rw [hdue]; simpa using hlate)]
      exact walkLoop_spec hxz hl hxl (Nat.lt_of_succ_lt hshort) hrun hq

end Ectx

/-! ## The order of service -/

open Ectx

/-- A chain holds what has arrived and is still waiting: sorted by time, and with equal times in the
order of arrival. -/
structure Ordered (s : Ectx) (c arrivals : List Word) : Prop where
  perm : c.Perm arrivals
  sorted : c.Pairwise fun v w => timeAfter (s.mem v .time) (s.mem w .time) = false
  stable : ∀ t, c.filter (fun w => s.mem w .time = t) = arrivals.filter fun w => s.mem w .time = t

/-- How far behind a time a workspace's time is. -/
def rank (s : Ectx) (b : Word) (w : Word) : ℕ := (s.mem w .time - b).toNat

section Order

variable {s s' : Ectx} {b t ws : Word} {c arrivals : List Word}

/-- **Times within half the word range are ranks.** -/
theorem ordered_iff_served (hb : ∀ w ∈ c, Within b (s.mem w .time)) :
    Ordered s c arrivals ↔ Served (rank s b) c arrivals := by
  have hsame : ∀ t, ∀ m : List Word, m.filter (fun w => decide (s.mem w .time = t)) =
      m.filter fun w => decide (rank s b w = (t - b).toNat) := by
    refine fun t m => List.filter_congr fun w _ => ?_
    have hiff : s.mem w .time = t ↔ rank s b w = (t - b).toNat :=
      ⟨fun e => by rw [rank, e], fun e => eq_of_distance e⟩
    simp only [hiff]
  constructor
  · intro h
    refine ⟨h.perm, h.sorted.imp_of_mem fun hv hw hle =>
      (timeAfter_eq_false (hb _ hv) (hb _ hw)).mp hle, fun n => ?_⟩
    by_cases hn : n < 2 ^ 32
    · have := h.stable (BitVec.ofNat 32 n + b)
      rw [hsame, hsame] at this
      have hn' : (BitVec.ofNat 32 n + b - b).toNat = n := by
        rw [BitVec.add_sub_cancel, BitVec.toNat_ofNat, Nat.mod_eq_of_lt hn]
      rwa [hn'] at this
    · have hnone : ∀ m : List Word, m.filter (fun w => decide (rank s b w = n)) = [] := by
        intro m
        rw [List.filter_eq_nil_iff]
        intro w _
        have : rank s b w < 2 ^ 32 := BitVec.isLt _
        simp only [decide_eq_true_eq]
        omega
      rw [hnone, hnone]
  · intro h
    refine ⟨h.perm, h.sorted.imp_of_mem fun hv hw hle =>
      (timeAfter_eq_false (hb _ hv) (hb _ hw)).mpr hle, fun t => ?_⟩
    rw [hsame, hsame, h.stable]

/-- The order depends on the times of what is waiting only. -/
theorem Ordered.congr (h : Ordered s c arrivals)
    (hsame : ∀ w ∈ arrivals, s'.mem w .time = s.mem w .time) : Ordered s' c arrivals := by
  have hc : ∀ w ∈ c, s'.mem w .time = s.mem w .time := fun w hw => hsame w (h.perm.mem_iff.mp hw)
  refine ⟨h.perm, h.sorted.imp_of_mem fun hv hw hle => by rw [hc _ hv, hc _ hw, hle], fun t => ?_⟩
  have hfilter : ∀ m : List Word, (∀ w ∈ m, s'.mem w .time = s.mem w .time) →
      m.filter (fun w => decide (s'.mem w .time = t)) =
        m.filter fun w => decide (s.mem w .time = t) :=
    fun m hm => List.filter_congr fun w hw => by rw [hm w hw]
  rw [hfilter c hc, hfilter arrivals hsame, h.stable]

/-- Some of what is waiting is in order as well. -/
theorem Ordered.filter (h : Ordered s c arrivals) (p : Word → Bool) :
    Ordered s (c.filter p) (arrivals.filter p) := by
  refine ⟨h.perm.filter p, h.sorted.filter p, fun t => ?_⟩
  have hcomm : ∀ m : List Word, (m.filter p).filter (fun w => decide (s.mem w .time = t)) =
      (m.filter fun w => decide (s.mem w .time = t)).filter p := by
    intro m
    rw [List.filter_filter, List.filter_filter]
    exact List.filter_congr fun w _ => Bool.and_comm _ _
  rw [hcomm, hcomm, h.stable]

/-- What is due is at the head. -/
theorem Ordered.span (h : Ordered s c arrivals) (hb : ∀ w ∈ c, Within b (s.mem w .time))
    (ht : Within b t) : c.takeWhile (s.due t) = c.filter (s.due t) ∧
      c.dropWhile (s.due t) = c.filter fun w => timeAfter (s.mem w .time) t := by
  have hdue : ∀ w ∈ c, s.due t w = decide (rank s b w ≤ (t - b).toNat) := by
    intro w hw
    rw [Bool.eq_iff_iff, decide_eq_true_iff, due, Bool.not_eq_true',
      timeAfter_eq_false (hb w hw) ht]
    rfl
  have hlate : ∀ w ∈ c, timeAfter (s.mem w .time) t = decide ((t - b).toNat < rank s b w) := by
    intro w hw
    rw [Bool.eq_iff_iff, decide_eq_true_iff, timeAfter_iff (hb w hw) ht]
    rfl
  obtain ⟨htake, hdrop⟩ := span_congr hdue
  obtain ⟨htake', hdrop'⟩ := Served.span_eq ((ordered_iff_served hb).mp h).sorted (t - b).toNat
  rw [htake, hdrop, htake', hdrop', List.filter_congr hdue, List.filter_congr hlate]
  exact ⟨rfl, rfl⟩

/-- **An insertion keeps the order.** -/
theorem Ordered.insert (h : Ordered s c arrivals) (hb : ∀ w ∈ c, Within b (s.mem w .time))
    (ht : Within b (s.mem ws .time)) :
    Ordered s (c.takeWhile (s.due (s.mem ws .time)) ++
      ws :: c.dropWhile (s.due (s.mem ws .time))) (arrivals ++ [ws]) := by
  have hdue : ∀ w ∈ c, s.due (s.mem ws .time) w = decide (rank s b w ≤ rank s b ws) := by
    intro w hw
    rw [Bool.eq_iff_iff, decide_eq_true_iff, due, Bool.not_eq_true',
      timeAfter_eq_false (hb w hw) ht]
    rfl
  obtain ⟨htake, hdrop⟩ := span_congr hdue
  have hserved := ((ordered_iff_served hb).mp h).insert ws
  rw [htake, hdrop]
  refine (ordered_iff_served fun w hw => ?_).mpr hserved
  rcases List.mem_append.mp (hserved.perm.mem_iff.mp hw) with hw | hw
  · exact hb w (h.perm.mem_iff.mpr hw)
  · rw [List.mem_singleton.mp hw]
    exact ht

end Order

/-! ## Runs -/

/-- The calls, and anything else that the program does between them. -/
inductive TimerOp
  | insert (ws current reschedule : Word)
  | remove (ws : Word)
  | walk (now : Word)
  | other (s' : Ectx)

/-- A call, with the list of what has arrived and is still waiting. -/
def timerStep : Ectx × List Word → TimerOp → Option (Ectx × List Word)
  | (s, arrivals), .insert ws _ reschedule =>
    (s.timerQueueInsert ws reschedule).map fun s' => (s', arrivals ++ [ws])
  | (s, arrivals), .remove ws => (s.timerQueueRemove ws).map fun s' => (s', arrivals.erase ws)
  | (s, arrivals), .walk now =>
    (s.walkTimerQueue now).map fun s' =>
      (s', arrivals.filter fun w => timeAfter (s.mem w .time) now)
  | (_, arrivals), .other s' => some (s', arrivals)

/-- A run queue in which nobody is who is to be added by a walk. -/
def Runnable (s : Ectx) (arrivals : List Word) : Prop :=
  ∃ q, s.RunQueue q ∧ ∀ w ∈ arrivals, s.unready w = true → w ∉ q

/-- Times within half the word range of each other. -/
def HalfRange (s : Ectx) (arrivals : List Word) (t : Word) : Prop :=
  ∃ b, Within b t ∧ ∀ w ∈ arrivals, Within b (s.mem w .time)

/-- **What is asked of a call**: the times are within half the word range of each other, and an
insertion is of a process that is neither waiting already nor on the run queue, with its `WS_TIME`
set.  The program keeps its hands off the timer queue's words of what is waiting. -/
def TimerOk : Ectx × List Word → TimerOp → Prop
  | (s, arrivals), .insert ws _ reschedule =>
    ws ≠ notProcess ∧ ws ∉ arrivals ∧ s.mem ws .time = reschedule ∧
      HalfRange s arrivals reschedule ∧ ∀ q, s.RunQueue q → ws ∉ q
  | _, .remove ws => ws ≠ notProcess
  | (s, arrivals), .walk now => HalfRange s arrivals now
  | (s, arrivals), .other s' =>
    s'.tptr = s.tptr ∧ s'.tnext = s.tnext ∧
      (∀ w ∈ arrivals, s'.mem w .tlink = s.mem w .tlink ∧ s'.mem w .time = s.mem w .time) ∧
      Runnable s' arrivals

/-- **The timer queue is sound**: the chain from `TPTR` ends, holds each that is waiting once,
sorted by time and with equal times in the order of arrival, and `TNEXT` is the time of its head. -/
def QueueSound (s : Ectx) (arrivals : List Word) : Prop :=
  ∃ c, Linked notProcess s.tlinks s.tptr c ∧ c.Nodup ∧ Ordered s c arrivals ∧
    (s.tptr ≠ notProcess → s.tnext = s.mem s.tptr .time)

/-- **What a walk does**: it removes what is not after the time, marks it, and adds to the run queue
what was not ready, in the order of the timer queue. -/
def WalkSound (s s' : Ectx) (now : Word) : Prop :=
  ∀ c, Linked notProcess s.tlinks s.tptr c →
    Linked notProcess s'.tlinks s'.tptr (c.filter fun w => timeAfter (s.mem w .time) now) ∧
    (∀ w ∈ c, timeAfter (s.mem w .time) now = false →
      s'.mem w .tlink = timeSet ∧ s'.mem w .time = now) ∧
    ∀ q, s.RunQueue q →
      s'.RunQueue (q ++ (c.filter fun w => !timeAfter (s.mem w .time) now).filter fun w =>
        s.mem w .state ≠ ready)

section Runs

variable {s s' : Ectx} {arrivals : List Word} {op : TimerOp} {now : Word}

theorem QueueSound.exists_pending (h : QueueSound s arrivals) :
    ∃ c, Pending s c ∧ Ordered s c arrivals := by
  obtain ⟨c, hlinked, -, hordered, hnext⟩ := h
  exact ⟨c, ⟨hlinked, hnext⟩, hordered⟩

theorem Ectx.Pending.sound {c : List Word} (h : Pending s c) (ho : Ordered s c arrivals) :
    QueueSound s arrivals := ⟨c, h.linked, h.nodup, ho, h.next⟩

/-- Insertions and removals leave the run queue and the states alone. -/
theorem Ectx.TimersOnly.runnable {ws : Word} {c arrivals' : List Word} (h : TimersOnly s s' ws c)
    (hrun : Runnable s arrivals)
    (hsub : ∀ w ∈ arrivals', w ∈ arrivals ∨ ∀ q, s.RunQueue q → w ∉ q) :
    Runnable s' arrivals' := by
  obtain ⟨q, hq, hfree⟩ := hrun
  have hlinks : ∀ w, s'.links w = s.links w := fun w =>
    h.mem w .link (by simp) (by simp)
  have hfptr : s'.fptr = s.fptr := by rw [h.regs]
  have hbptr : s'.bptr = s.bptr := by rw [h.regs]
  refine ⟨q, ?_, fun w hw hun => ?_⟩
  · rw [RunQueue, hfptr, hbptr]
    exact Fifo.congr hq fun w _ => hlinks w
  · rw [unready, h.mem w .state (by simp) (by simp)] at hun
    rcases hsub w hw with hw | hw
    · exact hfree w hw hun
    · exact hw q hq

/-- **Every call keeps the timer queue sound, and returns.** -/
theorem timerStep_sound (h : QueueSound s arrivals) (hrun : Runnable s arrivals)
    (hok : TimerOk (s, arrivals) op) :
    ∃ r, timerStep (s, arrivals) op = some r ∧ QueueSound r.1 r.2 ∧ Runnable r.1 r.2 := by
  obtain ⟨c, hpending, hordered⟩ := h.exists_pending
  have hmem : ∀ w, w ∈ c ↔ w ∈ arrivals := fun w => hordered.perm.mem_iff
  cases op with
  | insert ws current reschedule =>
    obtain ⟨hws, hfresh, htime, ⟨b, ht, hb⟩, hidle⟩ := hok
    obtain ⟨s', hs', honly, hpending'⟩ := timerQueueInsert_spec hpending hws
      (fun e => hfresh ((hmem ws).mp e)) htime
    have htimes : ∀ w, s'.mem w .time = s.mem w .time := fun w =>
      honly.mem w .time (by simp) (by simp)
    have hordered' := hordered.insert (fun w hw => hb w ((hmem w).mp hw))
      (by rw [htime]; exact ht)
    rw [htime] at hordered'
    refine ⟨(s', arrivals ++ [ws]), by rw [timerStep, hs']; rfl,
      hpending'.sound (hordered'.congr fun w _ => htimes w), honly.runnable hrun fun w hw => ?_⟩
    rcases List.mem_append.mp hw with hw | hw
    · exact Or.inl hw
    · exact Or.inr (List.mem_singleton.mp hw ▸ hidle)
  | remove ws =>
    obtain ⟨s', hs', honly, hpending', -⟩ := timerQueueRemove_spec hpending hok
    have htimes : ∀ w, s'.mem w .time = s.mem w .time := fun w =>
      honly.mem w .time (by simp) (by simp)
    have hordered' : Ordered s (c.erase ws) (arrivals.erase ws) := by
      have hnodup := hpending.nodup
      rw [hnodup.erase_eq_filter, (hordered.perm.nodup_iff.mp hnodup).erase_eq_filter]
      exact hordered.filter _
    exact ⟨(s', arrivals.erase ws), by rw [timerStep, hs']; rfl,
      hpending'.sound (hordered'.congr fun w _ => htimes w),
      honly.runnable hrun fun w hw => Or.inl (List.mem_of_mem_erase hw)⟩
  | walk now =>
    obtain ⟨b, ht, hb⟩ := hok
    obtain ⟨q, hq, hfree⟩ := hrun
    obtain ⟨s', hs', hwalk, hq', hpending'⟩ := walkTimerQueue_spec hpending hq
      fun w hw => hfree w ((hmem w).mp hw)
    obtain ⟨htake, hdrop⟩ := hordered.span (fun w hw => hb w ((hmem w).mp hw)) ht
    rw [hdrop] at hpending'
    rw [htake] at hwalk hq'
    have hkeep : ∀ w ∈ arrivals.filter (fun w => timeAfter (s.mem w .time) now), ∀ k, k ≠ .link →
        s'.mem w k = s.mem w k := by
      intro w hw k hk
      refine hwalk.keep w k hk fun hg => ?_
      have hlate := (List.mem_filter.mp hw).2
      have hdue := (List.mem_filter.mp hg).2
      rw [due, hlate] at hdue
      cases hdue
    refine ⟨(s', arrivals.filter fun w => timeAfter (s.mem w .time) now),
      by rw [timerStep, hs']; rfl, hpending'.sound ?_, q ++ _, hq', fun w hw hun => ?_⟩
    · exact (hordered.filter _).congr fun w hw => hkeep w hw .time (by decide)
    · rw [unready, hkeep w hw .state (by decide)] at hun
      intro hmem'
      rcases List.mem_append.mp hmem' with hmem' | hmem'
      · exact hfree w (List.mem_filter.mp hw).1 hun hmem'
      · have hdue := (List.mem_filter.mp (List.mem_filter.mp hmem').1).2
        rw [due, (List.mem_filter.mp hw).2] at hdue
        cases hdue
  | other s' =>
    obtain ⟨htptr, htnext, hsame, hrun'⟩ := hok
    refine ⟨(s', arrivals), rfl, ⟨c, ?_, hpending.nodup, ?_, fun hne => ?_⟩, hrun'⟩
    · rw [htptr]
      exact hpending.linked.congr fun w hw => (hsame w ((hmem w).mp hw)).1
    · exact hordered.congr fun w hw => (hsame w hw).2
    · have hhead : s.tptr ∈ c := by
        obtain ⟨m, hm, -⟩ := hpending.linked.exists_cons (htptr ▸ hne)
        rw [hm]
        exact List.mem_cons_self
      rw [htptr] at hne ⊢
      rw [htnext, hpending.next hne, (hsame _ ((hmem _).mp hhead)).2]

/-- **What a walk does to a sound timer queue.** -/
theorem walk_sound (h : QueueSound s arrivals) (hrun : Runnable s arrivals)
    (hok : TimerOk (s, arrivals) (.walk now)) :
    ∃ s', s.walkTimerQueue now = some s' ∧ WalkSound s s' now := by
  obtain ⟨c, hpending, hordered⟩ := h.exists_pending
  have hmem : ∀ w, w ∈ c ↔ w ∈ arrivals := fun w => hordered.perm.mem_iff
  obtain ⟨b, ht, hb⟩ := hok
  obtain ⟨q, hq, hfree⟩ := hrun
  obtain ⟨s', hs', hwalk, hq', hpending'⟩ := walkTimerQueue_spec hpending hq
    fun w hw => hfree w ((hmem w).mp hw)
  obtain ⟨htake, hdrop⟩ := hordered.span (fun w hw => hb w ((hmem w).mp hw)) ht
  rw [hdrop] at hpending'
  rw [htake] at hwalk hq'
  refine ⟨s', hs', fun c' hc' => ?_⟩
  obtain rfl := hpending.linked.unique hc'
  refine ⟨hpending'.linked, fun w hw hdue => ?_, fun q' hq'' => ?_⟩
  · have hgone := hwalk.gone w (List.mem_filter.mpr ⟨hw, by rw [due, hdue]; rfl⟩)
    exact ⟨hgone.1, hgone.2.1⟩
  · obtain rfl := Fifo.unique hq hq''
    exact hq'

/-- The state before the first call: nobody waits. -/
def NobodyWaits (s : Ectx) : Prop := s.tptr = notProcess ∧ ∃ q, s.RunQueue q

theorem NobodyWaits.sound (h : NobodyWaits s) : QueueSound s [] ∧ Runnable s [] := by
  obtain ⟨htptr, q, hq⟩ := h
  exact ⟨⟨[], htptr, List.nodup_nil, ⟨List.Perm.nil, List.Pairwise.nil, fun _ => rfl⟩,
    fun hne => absurd htptr hne⟩, q, hq, fun w hw => absurd hw List.not_mem_nil⟩

/-- **The timer queue stays sorted and loses nobody**: in every run of the calls it is sound, every
call returns, and a walk removes what is not after its time and adds to the run queue, in order,
what was not ready. -/
theorem timerQueue_sound {s₀ : Ectx} (h₀ : NobodyWaits s₀)
    (hreach : Transition.Reach timerStep TimerOk (s₀, []) (s, arrivals)) :
    QueueSound s arrivals ∧
      (∀ op, TimerOk (s, arrivals) op → ∃ r, timerStep (s, arrivals) op = some r) ∧
      ∀ now, TimerOk (s, arrivals) (.walk now) →
        ∃ s', s.walkTimerQueue now = some s' ∧ WalkSound s s' now := by
  have hinv : QueueSound s arrivals ∧ Runnable s arrivals := by
    refine hreach.invariant (I := fun r => QueueSound r.1 r.2 ∧ Runnable r.1 r.2) h₀.sound ?_
    rintro ⟨s, arrivals⟩ r op ⟨hsound, hrun⟩ hok hstep
    obtain ⟨r', hr', hsound', hrun'⟩ := timerStep_sound hsound hrun hok
    obtain rfl := Option.some.inj (hstep.symm.trans hr')
    exact ⟨hsound', hrun'⟩
  refine ⟨hinv.1, fun op hok => ?_, fun now hok => walk_sound hinv.1 hinv.2 hok⟩
  obtain ⟨r, hr, -⟩ := timerStep_sound hinv.1 hinv.2 hok
  exact ⟨r, hr⟩

/-- A context with nothing to run.  The process at 8 is to wait until 7, the others until 5. -/
def idle : Ectx where
  mem w slot := if slot = .time then (if w = 8 then 7 else 5) else 0
  chan _ := 0
  bytes _ := 0
  self := 4
  wptr := 8
  iptr := 100
  fptr := notProcess
  bptr := notProcess
  tptr := notProcess
  tnext := 0
  timers := false
  interrupt := false

/-- What an insertion asks for while nothing is to run and all times are small. -/
theorem TimerOk.insert {s : Ectx} {arrivals : List Word} (ws t : Word) (hws : ws ≠ notProcess)
    (hfresh : ws ∉ arrivals) (htime : s.mem ws .time = t) (ht : Within 0 t)
    (hb : ∀ w ∈ arrivals, Within 0 (s.mem w .time)) (hfptr : s.fptr = notProcess) :
    TimerOk (s, arrivals) (.insert ws 0 t) :=
  ⟨hws, hfresh, htime, ⟨0, ht, hb⟩, fun q hq => by
    rw [hq.null_iff.mp hfptr]
    exact List.not_mem_nil⟩

/-- The states after the insertions, one at a time. -/
def oneWaiting : Ectx :=
  setAlarm (({ idle with tptr := 8, tnext := 7 }.set 8 .iptr 100).set 8 .tlink notProcess)

def twoWaiting : Ectx :=
  setAlarm { oneWaiting.set 16 .tlink 8 with tptr := 16, tnext := 5 }

def threeWaiting : Ectx := (twoWaiting.set 24 .tlink 8).set 16 .tlink 24

theorem timerQueueInsert_twoWaiting : twoWaiting.timerQueueInsert 24 5 = some threeWaiting := by
  rw [timerQueueInsert, if_neg (by decide), if_neg (by decide)]
  rw [show 2 ^ 32 = (2 ^ 32 - 1) + 1 from rfl, insertLoop, if_neg (by decide), if_pos (by decide)]
  rfl

/-- The three wait in the order of their times, the first come of the two at 5 first, and a walk at
6 makes these two ready. -/
theorem timerQueue_sound_threeWaiting :
    Linked notProcess threeWaiting.tlinks threeWaiting.tptr [16, 24, 8] ∧
      QueueSound threeWaiting [8, 16, 24] ∧
      ∃ s', threeWaiting.walkTimerQueue 6 = some s' ∧ Linked notProcess s'.tlinks s'.tptr [8] ∧
        s'.RunQueue [16, 24] := by
  have hstart : NobodyWaits idle := ⟨rfl, [], Fifo.nil rfl⟩
  have hbound : Within 0 5 ∧ Within 0 7 := by
    unfold Within
    decide
  have h₀ : Transition.Reach timerStep TimerOk (idle, []) (idle, []) := .start
  have h₁ : Transition.Reach timerStep TimerOk (idle, []) (oneWaiting, [8]) :=
    h₀.next (TimerOk.insert 8 7 (by decide) (by decide) rfl hbound.2 (by nofun) rfl) rfl
  have h₂ : Transition.Reach timerStep TimerOk (idle, []) (twoWaiting, [8, 16]) :=
    h₁.next (TimerOk.insert 16 5 (by decide) (by decide) rfl hbound.1
      (List.forall_mem_singleton.mpr hbound.2) rfl) rfl
  have h₃ : Transition.Reach timerStep TimerOk (idle, []) (threeWaiting, [8, 16, 24]) :=
    h₂.next (TimerOk.insert 24 5 (by decide) (by decide) rfl hbound.1
      (List.forall_mem_cons.mpr ⟨hbound.2, List.forall_mem_singleton.mpr hbound.1⟩) rfl)
      (by rw [timerStep, timerQueueInsert_twoWaiting]; rfl)
  obtain ⟨hsound, -, hwalk⟩ := timerQueue_sound hstart h₃
  have hlinked : Linked notProcess threeWaiting.tlinks threeWaiting.tptr [16, 24, 8] :=
    ⟨rfl, by decide, rfl, by decide, rfl, by decide, rfl⟩
  obtain ⟨s', hs', hw⟩ := hwalk 6 ⟨0, by unfold Within; decide,
    List.forall_mem_cons.mpr ⟨hbound.2, List.forall_mem_cons.mpr ⟨hbound.1,
      List.forall_mem_singleton.mpr hbound.1⟩⟩⟩
  obtain ⟨hleft, -, hready⟩ := hw _ hlinked
  exact ⟨hlinked, hsound, s', hs', hleft, hready [] (Fifo.nil rfl)⟩

end Runs

end Tvm

end Kroc
