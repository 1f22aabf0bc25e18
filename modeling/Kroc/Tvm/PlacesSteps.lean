import Kroc.Tvm.Places
import Kroc.Lib.Transition

/-!
# Tvm/PlacesSteps — every instruction keeps everybody in place

One lemma an instruction; `exec_ends` puts them together, `step_placed` adds the walk of the timer
queue, and `reach_placed` is the invariant of every run.
-/

namespace Kroc

namespace Tvm

open Ectx

/-- Everybody is in place, with some run queue and some timer queue. -/
def InPlace (s : Ectx) (pos : Word → Option Pos) : Prop := ∃ q c, Placed s pos q c

section Steps

variable {s t : Ectx} {pos : Word → Option Pos} {q c : List Word} {p : Pos} {now wake : Word}

/-- The current process is where the instruction finds it. -/
structure Current (s : Ectx) (pos : Word → Option Pos) (q c : List Word) (p : Pos) : Prop where
  placed : Placed s pos q c
  pos : pos s.wptr = some p
  ne : s.wptr ≠ notProcess

namespace Current

variable (h : Current s pos q c p)

include h

theorem workspace : IsWorkspace s.wptr := h.placed.workspace _ (by rw [h.pos]; simp)

theorem canRun : Ready s q s.wptr := Or.inr ⟨rfl, h.ne⟩

theorem sits : Sits s q c s.wptr (some p) := h.pos ▸ h.placed.sits s.wptr

theorem notMem (hfree : p.Free) : s.wptr ∉ c := h.placed.notMem_timers h.canRun h.pos hfree

/-- Nobody is where the current process was. -/
theorem notReady_away (ht : t.wptr = notProcess) : ¬ Ready t q s.wptr := by
  rintro (hq | ⟨e, he⟩)
  · exact h.placed.current hq
  · exact he (e.trans ht)

theorem ready_of_wptr (ht : t.wptr = s.wptr) : Ready t q s.wptr := Or.inr ⟨ht.symm, h.ne⟩

/-- **Writing own words, and moving on.** -/
theorem writes {x : Option Pos} (hw : OwnWrites s t c) (hchan : t.chan = s.chan)
    (hwptr : t.wptr = s.wptr ∨ t.wptr = notProcess)
    (hguards : ∀ k, Guard.chan k ∈ p.guards → ∃ x', x = some x' ∧ Guard.chan k ∈ x'.guards)
    (hsits : Sits t q c s.wptr x) : Placed t (Function.update pos s.wptr x) q c :=
  h.placed.writes h.workspace h.canRun h.pos hw hchan hwptr
    (fun k ⟨_, hp', hg⟩ => hguards k (by cases hp'; exact hg)) hsits

/-- The place of the current process after a step that leaves it what it can do. -/
theorem sits_free (ht : t.wptr = s.wptr) (hc : s.wptr ∉ c) (hchan : t.chan = s.chan) {x : Pos}
    (hfree : x.Free) : Sits t q c s.wptr (some x) := by
  have hready := h.ready_of_wptr ht
  match x, hfree with
  | .plain, _ => exact ⟨hready, hc⟩
  | .chanIn _, _ => exact ⟨Or.inl ⟨hready, hchan ▸ h.placed.chan_ne h.canRun h.workspace⟩, hc⟩
  | .chanOut _, _ => exact ⟨Or.inl ⟨hready, hchan ▸ h.placed.chan_ne h.canRun h.workspace⟩, hc⟩
  | .timer _, _ => exact Or.inl ⟨hready, hc⟩

end Current

/-- A process outside an alternative has no guards. -/
theorem Pos.Free.guards_eq (h : p.Free) : p.guards = [] := by
  cases p <;> first | rfl | exact h.elim

/-- What is done to the others: their times are left alone, and whether they are set, but for the
links of the timer queue; and they become ready at most. -/
def Others (s t : Ectx) (c : List Word) (w : Word) : Prop :=
  ∀ v, v ≠ w → t.mem v .time = s.mem v .time ∧ (v ∉ c → t.mem v .tlink = s.mem v .tlink) ∧
    (t.mem v .state = s.mem v .state ∨ t.mem v .state = ready)

theorem Others.of_mem {w : Word}
    (h : ∀ v, v ≠ w → ∀ k : Slot, k.Places → (k = .tlink → v ∉ c) → t.mem v k = s.mem v k) :
    Others s t c w :=
  fun v hv => ⟨h v hv .time trivial fun e => (by cases e),
    fun hc => h v hv .tlink trivial fun _ => hc,
    Or.inl (h v hv .state trivial fun e => (by cases e))⟩

theorem OwnWrites.others (hw : OwnWrites s t c) : Others s t c s.wptr :=
  fun v hv => ⟨hw.mem v hv .time, fun _ => hw.mem v hv .tlink, Or.inl (hw.mem v hv .state)⟩

theorem OwnWrites.refl (s : Ectx) (c : List Word) : OwnWrites s s c :=
  ⟨rfl, rfl, rfl, rfl, rfl, fun _ _ _ => rfl, fun _ => ⟨rfl, rfl⟩⟩

/-- One word more. -/
theorem OwnWrites.set (hw : OwnWrites s t c) (k : Slot) (v : Word)
    (hk : s.wptr ∈ c → k ≠ .tlink ∧ k ≠ .time) : OwnWrites s (t.set s.wptr k v) c := by
  refine ⟨hw.self, hw.fptr, hw.bptr, hw.tptr, hw.tnext, fun w hne j => ?_, fun hc => ?_⟩
  · rw [mem_set, if_neg fun e => hne e.1, hw.mem w hne j]
  · obtain ⟨htlink, htime⟩ := hk hc
    obtain ⟨h₁, h₂⟩ := hw.timed hc
    exact ⟨by rw [mem_set, if_neg fun e => htlink e.2.symm, h₁],
      by rw [mem_set, if_neg fun e => htime e.2.symm, h₂]⟩

/-- The registers do not matter. -/
theorem OwnWrites.regs (hw : OwnWrites s t c) (w ip : Word) (chan : Word → Word)
    (bytes : Word → BitVec 8) :
    OwnWrites s { t with wptr := w, iptr := ip, chan := chan, bytes := bytes } c :=
  ⟨hw.self, hw.fptr, hw.bptr, hw.tptr, hw.tnext, hw.mem, hw.timed⟩

/-- An alternative with timers goes on: it is ready, or the earliest timeout has passed. -/
def goesOn (s : Ectx) (now : Word) : Bool :=
  s.mem s.wptr .state = ready ∨
    s.mem s.wptr .tlink ≠ timeNotSet ∧ timeAfter now (s.mem s.wptr .time)

/-- The words that waiting in an alternative writes. -/
def altWaits (t : Ectx) : Ectx :=
  ((t.set t.wptr .state waiting).set t.wptr .ectx t.self).set t.wptr .iptr t.iptr

theorem altWaits_writes (t : Ectx) (c : List Word) : OwnWrites t (altWaits t) c :=
  (((OwnWrites.refl t c).set _ _ fun _ => by decide).set _ _ fun _ => by decide).set _ _
    fun _ => by decide

/-- What selecting a guard does. -/
theorem select_eq (s : Ectx) (process : Word) :
    ∃ fired v, s.select process = (fired, s.set s.wptr .temp v) ∨
    s.select process = (fired, s) := by
  unfold select
  split_ifs
  · exact ⟨1, process, Or.inl rfl⟩
  · exact ⟨0, 0, Or.inr rfl⟩

/-- A guard of another kind is still to be disabled. -/
theorem mem_diff_guarded {g g' : Guard} {guards : List Guard} {guard : Word} (hg : g ∈ guards)
    (hne : g ≠ g') : g ∈ guards.diff (guarded guard g') := by
  refine List.mem_diff_of_mem hg fun hmem => ?_
  rw [guarded] at hmem
  split_ifs at hmem
  · exact hne (List.mem_singleton.mp hmem)
  · cases hmem

/-! ## Instructions without an effect on others -/

namespace Current

variable (h : Current s pos q c p)

include h

theorem update_self : Function.update pos s.wptr (some p) = pos := by
  rw [← h.pos, Function.update_eq_self]

/-- **Data**: nothing of what a place depends on is written. -/
theorem data (hw : OwnWrites s t c) (hchan : t.chan = s.chan) (hwptr : t.wptr = s.wptr)
    (hmem : ∀ k : Slot, k.Places → t.mem s.wptr k = s.mem s.wptr k) : Placed t pos q c := by
  have hsits : Sits t q c s.wptr (some p) := by
    refine h.sits.same ⟨?_, Iff.rfl, fun k hk _ => hmem k hk⟩ hw.self fun k _ => by rw [hchan]
    rw [Ready, Ready, hwptr]
  have hplaced := h.writes hw hchan (Or.inl hwptr) (fun k hk => ⟨p, rfl, hk⟩) hsits
  rwa [h.update_self] at hplaced

/-- **The start of an alternative.** -/
theorem placed_insAlt (hfree : p.Free) :
    Placed s.insAlt (Function.update pos s.wptr (some (.enabling false []))) q c := by
  have hc := h.notMem hfree
  refine h.writes ((OwnWrites.refl s c).set _ _ fun e => absurd e hc) rfl (Or.inl rfl)
    (fun k hk => ?_) ⟨h.ready_of_wptr rfl, hc, Or.inl ?_, fun e => by cases e⟩
  · rw [hfree.guards_eq] at hk
    cases hk
  · simp [insAlt]

/-- **The start of an alternative with timers.** -/
theorem placed_insTalt (hfree : p.Free) :
    Placed s.insTalt (Function.update pos s.wptr (some (.enabling true []))) q c := by
  have hc := h.notMem hfree
  refine h.writes (((OwnWrites.refl s c).set _ _ fun e => absurd e hc).set _ _
    fun e => absurd e hc) rfl (Or.inl rfl)
    (fun k hk => ?_) ⟨h.ready_of_wptr rfl, hc, Or.inl ?_, fun _ => Or.inl ?_⟩
  · rw [hfree.guards_eq] at hk
    cases hk
  · simp [insTalt]
  · simp [insTalt]

/-- The place of a process that enables a guard. -/
theorem sits_enabling {timed : Bool} {guards more : List Guard}
    (hp : p = .enabling timed guards) (ht : t.wptr = s.wptr)
    (hstate : t.mem s.wptr .state = s.mem s.wptr .state ∨ t.mem s.wptr .state = ready)
    (htlink : timed = true → t.mem s.wptr .tlink = s.mem s.wptr .tlink ∨
      (t.mem s.wptr .tlink = timeSet ∧ ∃ t, .timer t ∈ more ++ guards)) :
    Sits t q c s.wptr (some (.enabling timed (more ++ guards))) := by
  have hsits := h.sits
  rw [hp] at hsits
  obtain ⟨-, hc, hst, htl⟩ := hsits
  refine ⟨h.ready_of_wptr ht, hc, ?_, fun e => ?_⟩
  · rcases hstate with e | e
    · rwa [e]
    · exact Or.inr e
  · rcases htlink e with e' | e'
    · rw [e']
      exact (htl e).imp_right fun ⟨e'', t, ht⟩ => ⟨e'', t, List.mem_append_right _ ht⟩
    · exact Or.inr e'

theorem notMem_enabling {timed : Bool} {guards : List Guard} (hp : p = .enabling timed guards) :
    s.wptr ∉ c := by
  have hsits := h.sits
  rw [hp] at hsits
  exact hsits.2.1

/-- **Enabling a channel.** -/
theorem placed_insEnbc {timed : Bool} {guards : List Guard} (hp : p = .enabling timed guards)
    (guard chan : Word) :
    Placed (s.insEnbc guard chan) (Function.update pos s.wptr
      (some (.enabling timed (guarded guard (.chan chan) ++ guards)))) q c := by
  have hkeep : ∀ k, Guard.chan k ∈ p.guards → ∃ x',
      some (Pos.enabling timed (guarded guard (.chan chan) ++ guards)) = some x' ∧
        Guard.chan k ∈ x'.guards :=
    fun k hk => ⟨_, rfl, List.mem_append_right _ (by rw [hp] at hk; exact hk)⟩
  have hrefl := OwnWrites.refl s c
  unfold insEnbc
  by_cases hguard : guard = 0
  · rw [if_neg (not_not.mpr hguard)]
    exact h.writes hrefl rfl (Or.inl rfl) hkeep
      (h.sits_enabling hp rfl (Or.inl rfl) fun _ => Or.inl rfl)
  · rw [if_pos hguard]
    dsimp only
    by_cases hempty : s.chan chan = notProcess
    · rw [if_pos hempty]
      refine h.placed.own h.workspace rfl (Or.inl rfl) h.placed.run
        ⟨h.placed.pending.linked, h.placed.pending.next⟩ (fun _ _ => Iff.rfl)
        (fun _ _ _ _ _ => rfl) (fun k => ?_) (fun k hm => ?_)
        (h.sits_enabling hp rfl (Or.inl rfl) fun _ => Or.inl rfl)
      · by_cases hk : k = chan
        · subst hk
          exact Or.inr ⟨Or.inl hempty, Or.inr (Or.inr (by simp [setChan]))⟩
        · exact Or.inl (by simp [setChan, hk])
      · by_cases hk : k = chan
        · subst hk
          refine Or.inr (Or.inr ⟨s.wptr, _, by simp [setChan], by rw [Function.update_self], ?_⟩)
          refine List.mem_append_left _ ?_
          rw [guarded, if_pos hguard]
          exact List.mem_singleton_self _
        · refine h.placed.held_own h.workspace h.canRun h.pos (by simp [setChan, hk])
            (fun ⟨_, e, hg⟩ => ?_) hm
          cases e
          exact hkeep k hg
    · rw [if_neg hempty]
      by_cases hthis : s.chan chan = s.wptr ||| 1
      · rw [if_neg (not_not.mpr hthis)]
        exact h.writes hrefl rfl (Or.inl rfl) hkeep
          (h.sits_enabling hp rfl (Or.inl rfl) fun _ => Or.inl rfl)
      · rw [if_pos hthis]
        exact h.writes (hrefl.set _ _ fun _ => by decide) rfl (Or.inl rfl) hkeep
          (h.sits_enabling hp rfl (Or.inr (by simp)) fun _ => Or.inl (by simp))

/-- **Enabling a skip.** -/
theorem placed_insEnbs {timed : Bool} {guards : List Guard} (hp : p = .enabling timed guards)
    (guard : Word) :
    Placed (s.insEnbs guard) (Function.update pos s.wptr
      (some (.enabling timed (guarded guard .skip ++ guards)))) q c := by
  have hkeep : ∀ k, Guard.chan k ∈ p.guards → ∃ x',
      some (Pos.enabling timed (guarded guard .skip ++ guards)) = some x' ∧
        Guard.chan k ∈ x'.guards :=
    fun k hk => ⟨_, rfl, List.mem_append_right _ (by rw [hp] at hk; exact hk)⟩
  have hrefl := OwnWrites.refl s c
  unfold insEnbs
  split_ifs with hguard
  · exact h.writes (hrefl.set _ _ fun _ => by decide) rfl (Or.inl rfl) hkeep
      (h.sits_enabling hp rfl (Or.inr (by simp)) fun _ => Or.inl (by simp))
  · exact h.writes hrefl rfl (Or.inl rfl) hkeep
      (h.sits_enabling hp rfl (Or.inl rfl) fun _ => Or.inl rfl)

/-- **Enabling a timer.** -/
theorem placed_insEnbt {guards : List Guard} (hp : p = .enabling true guards)
    (guard timeout : Word) :
    Placed (s.insEnbt guard timeout) (Function.update pos s.wptr
      (some (.enabling true (guarded guard (.timer timeout) ++ guards)))) q c := by
  have hc := h.notMem_enabling hp
  have hkeep : ∀ k, Guard.chan k ∈ p.guards → ∃ x',
      some (Pos.enabling true (guarded guard (.timer timeout) ++ guards)) = some x' ∧
        Guard.chan k ∈ x'.guards :=
    fun k hk => ⟨_, rfl, List.mem_append_right _ (by rw [hp] at hk; exact hk)⟩
  have hrefl := OwnWrites.refl s c
  unfold insEnbt
  split_ifs with hguard hnotset hafter
  · refine h.writes ((hrefl.set _ _ fun e => absurd e hc).set _ _ fun e => absurd e hc) rfl
      (Or.inl rfl) hkeep (h.sits_enabling hp rfl (Or.inl (by simp)) fun _ => Or.inr ⟨by simp,
        timeout, List.mem_append_left _ ?_⟩)
    rw [guarded, if_pos hguard]
    exact List.mem_singleton_self _
  · exact h.writes (hrefl.set _ _ fun e => absurd e hc) rfl (Or.inl rfl) hkeep
      (h.sits_enabling hp rfl (Or.inl (by simp)) fun _ => Or.inl (by simp))
  · exact h.writes hrefl rfl (Or.inl rfl) hkeep
      (h.sits_enabling hp rfl (Or.inl rfl) fun _ => Or.inl rfl)
  · exact h.writes hrefl rfl (Or.inl rfl) hkeep
      (h.sits_enabling hp rfl (Or.inl rfl) fun _ => Or.inl rfl)

/-! ## Waiting -/

/-- **The current process goes away**, having written own words. -/
theorem parks {x : Option Pos} (hw : OwnWrites s t c) (hchan : t.chan = s.chan)
    (hguards : ∀ k, Guard.chan k ∈ p.guards → ∃ x', x = some x' ∧ Guard.chan k ∈ x'.guards)
    (hsits : Sits (away t) q c s.wptr x) :
    Placed (away t) (Function.update pos s.wptr x) q c :=
  h.writes (hw.regs notProcess t.iptr t.chan t.bytes) hchan (Or.inr rfl) hguards hsits

/-- **The end of a process** that has no guards: it stops, or is no more. -/
theorem parks_gone (hfree : p.Free) (hw : OwnWrites s t c) (hchan : t.chan = s.chan)
    {x : Option Pos} (hx : x = none ∨ x = some .stopped) :
    Placed (away t) (Function.update pos s.wptr x) q c := by
  refine h.parks hw hchan (fun k hk => ?_) ?_
  · rw [hfree.guards_eq] at hk
    cases hk
  · have hgone := h.notReady_away (t := away t) rfl
    rcases hx with rfl | rfl
    · exact ⟨hgone, h.notMem hfree⟩
    · exact ⟨hgone, h.notMem hfree⟩

/-- **Waiting on the timer queue**: the process is inserted and goes away. -/
theorem parks_timer (hc : s.wptr ∉ c) {s₀ : Ectx} (time : Word) (hw : OwnWrites s s₀ c)
    (hwptr : s₀.wptr = s.wptr) (hchan : s₀.chan = s.chan) (htime : s₀.mem s.wptr .time = time) :
    ∃ s₁ c₁, s₀.timerQueueInsert s.wptr time = some s₁ ∧ TimersOnly s₀ s₁ s.wptr c ∧
      (∀ w, w ∈ c₁ ↔ w = s.wptr ∨ w ∈ c) ∧ s₁.wptr = s.wptr ∧ s₁.chan = s.chan ∧
      s₁.self = s.self ∧ (∀ w, w ≠ s.wptr → ∀ k : Slot, (k = .tlink → w ∉ c) →
        s₁.mem w k = s.mem w k) ∧
      ∀ t x, OwnWrites s₁ t c₁ → t.chan = s₁.chan →
        (∀ k, Guard.chan k ∈ p.guards → ∃ x', x = some x' ∧ Guard.chan k ∈ x'.guards) →
        Sits (away t) q c₁ s.wptr x → Placed (away t) (Function.update pos s.wptr x) q c₁ := by
  obtain ⟨s₁, hs₁, honly, hpending⟩ := timerQueueInsert_spec (hw.pending h.placed.pending)
    h.ne hc htime
  have hregs := honly.regs
  have hwptr₁ : s₁.wptr = s.wptr := by rw [hregs, hwptr]
  have hchan₁ : s₁.chan = s.chan := by rw [hregs, hchan]
  have hself₁ : s₁.self = s.self := by rw [hregs, hw.self]
  have hmem₁ : ∀ w, w ∈ c.takeWhile (s₀.due time) ++ s.wptr :: c.dropWhile (s₀.due time) ↔
      w = s.wptr ∨ w ∈ c := by
    intro w
    rw [List.mem_append, List.mem_cons]
    conv_rhs => rw [← List.takeWhile_append_dropWhile (p := s₀.due time) (l := c), List.mem_append]
    tauto
  have hkeep : ∀ w, w ≠ s.wptr → ∀ k : Slot, (k = .tlink → w ∉ c) → s₁.mem w k = s.mem w k :=
    fun w hne k hk => by
      rw [honly.mem w k (fun e => ⟨hne, hk e⟩) fun _ => hne, hw.mem w hne k]
  refine ⟨s₁, _, hs₁, honly, hmem₁, hwptr₁, hchan₁, hself₁, hkeep,
    fun t x hw₁ ht hguards hsits => ?_⟩
  have hmem : ∀ w, w ≠ s.wptr → ∀ k : Slot, (k = .tlink → w ∉ c) →
      t.mem w k = s.mem w k := fun w hne k hk => by
    rw [hw₁.mem w (by rw [hwptr₁]; exact hne) k, hkeep w hne k hk]
  refine h.placed.own h.workspace (hw₁.self.trans hself₁) (Or.inr rfl) ?_ ?_
    (fun w hne => by rw [hmem₁]; tauto) (fun w hne k _ hk => hmem w hne k hk)
    (fun k => Or.inl (by rw [show (away t).chan = t.chan from rfl, ht, hchan₁]))
    (fun k hm => ?_) hsits
  · have hf : t.fptr = s.fptr := by rw [hw₁.fptr, hregs, hw.fptr]
    have hb : t.bptr = s.bptr := by rw [hw₁.bptr, hregs, hw.bptr]
    show Fifo _ t.links t.fptr t.bptr q
    rw [hf, hb]
    refine Fifo.congr h.placed.run fun w hq => hmem w (fun e => ?_) .link fun e => by cases e
    exact h.placed.current (e ▸ hq)
  · have hpending₁ := hw₁.pending hpending
    exact ⟨hpending₁.linked, hpending₁.next⟩
  · refine h.placed.held_own h.workspace h.canRun h.pos ?_ (fun ⟨_, e, hg⟩ => ?_) hm
    · rw [show (away t).chan = t.chan from rfl, ht, hchan₁]
    · cases e
      exact hguards k hg

/-- **Timer input that waits**: the process is on the timer queue with its time. -/
theorem insTin_waits (hfree : p.Free) {now time : Word} (wake : Word)
    (hlate : timeAfter now time = false) :
    ∃ t c₁, s.insTin time now wake = t.runNextOnQueue wake ∧ s.wptr ∈ c₁ ∧
      t.mem s.wptr .time = time ∧ (∀ w, w ≠ s.wptr → (w ∈ c₁ ↔ w ∈ c)) ∧
      Others s t c s.wptr ∧
      Placed (away t) (Function.update pos s.wptr (some (.timer time))) q c₁ := by
  have hc := h.notMem hfree
  have hw₀ : OwnWrites s ((s.set s.wptr .time time).set s.wptr .iptr s.iptr) c :=
    ((OwnWrites.refl s c).set _ _ fun e => absurd e hc).set _ _ fun e => absurd e hc
  obtain ⟨s₁, c₁, hs₁, honly, hmem₁, hwptr₁, hchan₁, -, hkeep, hparks⟩ :=
    h.parks_timer hc time hw₀ rfl rfl (by simp)
  have hin : s.wptr ∈ c₁ := (hmem₁ _).mpr (Or.inl rfl)
  have htime : s₁.mem s.wptr .time = time := by
    rw [honly.mem _ _ (fun e => by cases e) fun e => by cases e]
    simp
  refine ⟨s₁.set s₁.wptr .state notProcess, c₁, ?_, hin, ?_, fun w hne => by rw [hmem₁]; tauto,
    Others.of_mem fun w hne k _ hk => ?_, ?_⟩
  · rw [insTin, hlate, if_neg (by decide), hs₁]
    rfl
  · rw [mem_set, if_neg (by simp), htime]
  · rw [mem_set, if_neg fun e => hne (e.1.trans hwptr₁), hkeep w hne k hk]
  · refine hparks _ _ ((OwnWrites.refl s₁ c₁).set _ _ fun _ => by decide) rfl (fun k hk => ?_) ?_
    · rw [hfree.guards_eq] at hk
      cases hk
    · refine Or.inr ⟨h.notReady_away rfl, hin, ?_, ?_⟩
      · have hstate : (away (s₁.set s₁.wptr .state notProcess)).mem s.wptr .state = notProcess := by
          rw [← hwptr₁]
          simp [away]
        rw [hstate]
        decide
      · simp only [away, mem_set]
        rw [if_neg (by simp), htime]

/-- The place of a process that waits in an alternative. -/
theorem sits_altWaits {t : Ectx} {d : List Word} (ht : t.wptr = s.wptr) (timed : Bool)
    (guards : List Guard) (htimed : s.wptr ∈ d → timed = true ∧ ∃ t, .timer t ∈ guards)
    (htlink : timed = true → s.wptr ∉ d → t.mem s.wptr .tlink = timeNotSet) :
    Sits (away (altWaits t)) q d s.wptr (some (.disabling timed guards)) := by
  refine ⟨Or.inr ⟨h.notReady_away rfl, ?_, ?_⟩, htimed, fun e hd => Or.inl ?_⟩
  · simp [away, altWaits, ht]
  · simp [away, altWaits, ht]
  · have htl := htlink e hd
    simp [away, altWaits, htl]

/-- **The wait of an alternative without timers.** -/
theorem insAltwt_lands {guards : List Guard} (hp : p = .enabling false guards) :
    (∃ t, s.insAltwt wake = some (.cont, t) ∧ Others s t c s.wptr ∧
      Placed t (Function.update pos s.wptr (some (.disabling false guards))) q c) ∨
    ∃ t, s.insAltwt wake = t.runNextOnQueue wake ∧ Others s t c s.wptr ∧
      Placed (away t) (Function.update pos s.wptr (some (.disabling false guards))) q c := by
  have hc := h.notMem_enabling hp
  have hw : OwnWrites s (s.set s.wptr .temp noneSelected) c :=
    (OwnWrites.refl s c).set _ _ fun e => absurd e hc
  have hguards : ∀ k, Guard.chan k ∈ p.guards → ∃ x',
      some (Pos.disabling false guards) = some x' ∧ Guard.chan k ∈ x'.guards :=
    fun k hk => ⟨_, rfl, by rw [hp] at hk; exact hk⟩
  by_cases hstate : s.mem s.wptr .state = ready
  · refine Or.inl ⟨s.set s.wptr .temp noneSelected, ?_, hw.others, ?_⟩
    · rw [insAltwt]
      exact if_pos (by simpa using hstate)
    · exact h.writes hw rfl (Or.inl rfl) hguards
        ⟨Or.inl ⟨h.ready_of_wptr rfl, by simpa using hstate⟩, fun e => absurd e hc,
          fun e => by cases e⟩
  · have hw' : OwnWrites s (altWaits (s.set s.wptr .temp noneSelected)) c :=
      ((hw.set _ _ fun e => absurd e hc).set _ _ fun e => absurd e hc).set _ _
        fun e => absurd e hc
    refine Or.inr ⟨altWaits (s.set s.wptr .temp noneSelected), ?_, hw'.others, ?_⟩
    · rw [insAltwt]
      exact if_neg (by simpa using hstate)
    · have hsits := h.sits_altWaits (t := s.set s.wptr .temp noneSelected) rfl
        false guards (fun e => absurd e hc) fun e => by cases e
      exact h.parks hw' rfl hguards hsits

/-- **The wait of an alternative with timers**: it goes on with the time recorded, or it waits, on
the timer queue for the time after the earliest timeout if there is one. -/
theorem insTaltwt_lands {guards : List Guard} (hp : p = .enabling true guards) :
    (goesOn s now = true ∧ ∃ t, s.insTaltwt now wake = some (.cont, t) ∧
      t.mem s.wptr .time = now ∧
      Others s t c s.wptr ∧ Placed t (Function.update pos s.wptr (some (.disabling true guards))) q
        c) ∨
    goesOn s now = false ∧ ∃ t c', s.insTaltwt now wake = t.runNextOnQueue wake ∧
      (s.wptr ∈ c' ∨ t.mem s.wptr .tlink = timeNotSet) ∧
      (∀ w, w ≠ s.wptr → (w ∈ c' ↔ w ∈ c)) ∧ Others s t c s.wptr ∧
      Placed (away t) (Function.update pos s.wptr (some (.disabling true guards))) q c' := by
  have hc := h.notMem_enabling hp
  have hw : OwnWrites s (s.set s.wptr .temp noneSelected) c :=
    (OwnWrites.refl s c).set _ _ fun e => absurd e hc
  have hguards : ∀ k, Guard.chan k ∈ p.guards → ∃ x',
      some (Pos.disabling true guards) = some x' ∧ Guard.chan k ∈ x'.guards :=
    fun k hk => ⟨_, rfl, by rw [hp] at hk; exact hk⟩
  have hsits := h.sits
  rw [hp] at hsits
  obtain ⟨-, -, -, htl⟩ := hsits
  obtain ⟨s', hs'⟩ : ∃ s', s' = s.set s.wptr .temp noneSelected := ⟨_, rfl⟩
  have htemp : ∀ k : Slot, k ≠ .temp → s'.mem s.wptr k = s.mem s.wptr k := fun k hk => by
    rw [hs', mem_set, if_neg fun e => hk e.2]
  have hwptr' : s'.wptr = s.wptr := by rw [hs']; rfl
  have hchan' : s'.chan = s.chan := by rw [hs']; rfl
  rw [← hs'] at hw
  unfold insTaltwt
  rw [← hs']
  dsimp only
  rw [hwptr']
  have htl' : s'.mem s.wptr .tlink = timeNotSet ∨ s'.mem s.wptr .tlink = timeSet := by
    rw [htemp _ (by decide)]
    exact (htl rfl).imp_right And.left
  have hgoes : goesOn s now = decide (s'.mem s.wptr .state = ready ∨
      s'.mem s.wptr .tlink ≠ timeNotSet ∧ timeAfter now (s'.mem s.wptr .time)) := by
    rw [htemp _ (by decide), htemp _ (by decide), htemp _ (by decide)]
    rfl
  by_cases hstate : s'.mem s.wptr .state = ready
  · left
    rw [if_pos hstate]
    have hw' := hw.set .time now fun e => absurd e hc
    refine ⟨by simp [hgoes, hstate], _, rfl, by simp, hw'.others, ?_⟩
    exact h.writes hw' hchan' (Or.inl hwptr') hguards
      ⟨Or.inl ⟨h.ready_of_wptr hwptr', by simpa using hstate⟩, fun e => absurd e hc,
        fun _ _ => by simpa using htl'⟩
  · rw [if_neg hstate]
    by_cases hnotset : s'.mem s.wptr .tlink = timeNotSet
    · right
      rw [if_neg (not_not.mpr hnotset)]
      have hw' : OwnWrites s (altWaits s') c := by
        unfold altWaits
        rw [hwptr']
        exact (((hw.set _ _ fun e => absurd e hc).set _ _ fun e => absurd e hc).set _ _
          fun e => absurd e hc)
      refine ⟨by simp [hgoes, hstate, hnotset], altWaits s', c, rfl, Or.inr ?_,
        fun _ _ => Iff.rfl, hw'.others, ?_⟩
      · simp [altWaits, hnotset]
      · exact h.parks hw' hchan' hguards
          (h.sits_altWaits hwptr' true guards (fun e => absurd e hc) fun _ _ => hnotset)
    · rw [if_pos hnotset]
      by_cases hlate : timeAfter now (s'.mem s.wptr .time) = true
      · left
        rw [if_pos hlate]
        have hw' := (hw.set .state ready fun e => absurd e hc).set .time now fun e => absurd e hc
        refine ⟨by simp [hgoes, hnotset, hlate], _, rfl, by simp, hw'.others, ?_⟩
        exact h.writes hw' hchan'
          (Or.inl hwptr') hguards
          ⟨Or.inl ⟨h.ready_of_wptr hwptr', by simp⟩, fun e => absurd e hc,
            fun _ _ => by simpa using htl'⟩
      · right
        rw [if_neg hlate]
        obtain ⟨s₁, c₁, hs₁, honly, hmem₁, hwptr₁, hchan₁, -, hkeep, hparks⟩ :=
          h.parks_timer hc (s'.mem s.wptr .time + 1)
            (hw.set .time (s'.mem s.wptr .time + 1) fun e => absurd e hc) hwptr' hchan' (by simp)
        have hin : s.wptr ∈ c₁ := (hmem₁ _).mpr (Or.inl rfl)
        refine ⟨by simp [hgoes, hstate, hlate], altWaits s₁, c₁, ?_, Or.inl hin,
          fun w hne => by rw [hmem₁]; tauto,
          Others.of_mem fun w hne k _ hk => ?_, ?_⟩
        · rw [hs₁]
          rfl
        · rw [(altWaits_writes s₁ c₁).mem w (hwptr₁ ▸ hne), hkeep w hne k hk]
        · refine hparks _ _ (altWaits_writes s₁ c₁) rfl hguards
            (h.sits_altWaits hwptr₁ true guards (fun _ => ⟨rfl, ?_⟩) fun _ e => absurd hin e)
          rw [htemp _ (by decide)] at hnotset
          exact ((htl rfl).resolve_left hnotset).2

/-! ## Disabling -/

/-- The place of a process that disables a guard that is not a timer. -/
theorem sits_disabling {timed : Bool} {guards guards' : List Guard}
    (hp : p = .disabling timed guards) (ht : t.wptr = s.wptr)
    (hmem : ∀ k : Slot, k.Places → t.mem s.wptr k = s.mem s.wptr k)
    (htimers : ∀ u, Guard.timer u ∈ guards → Guard.timer u ∈ guards') :
    Sits t q c s.wptr (some (.disabling timed guards')) := by
  have hsits := h.sits
  rw [hp] at hsits
  obtain ⟨hat, hc, htl⟩ := hsits
  have hstate : s.mem s.wptr .state = ready :=
    hat.elim And.right fun e => absurd h.canRun e.1
  refine ⟨Or.inl ⟨h.ready_of_wptr ht, ?_⟩, fun e => ?_, fun e he => ?_⟩
  · rw [hmem .state trivial, hstate]
  · exact (hc e).imp_right fun ⟨u, hu⟩ => ⟨u, htimers u hu⟩
  · rw [hmem .tlink trivial]
    exact htl e he

/-- **Disabling without an effect**, but for the guard that is selected. -/
theorem placed_disabled {timed : Bool} {guards guards' : List Guard}
    (hp : p = .disabling timed guards) (ht : t = s ∨ ∃ v, t = s.set s.wptr .temp v)
    (htimers : ∀ u, Guard.timer u ∈ guards → Guard.timer u ∈ guards')
    (hchans : ∀ k, s.chan k = s.wptr ||| 1 → Guard.chan k ∈ guards → Guard.chan k ∈ guards') :
    Placed t (Function.update pos s.wptr (some (.disabling timed guards'))) q c := by
  have hw : OwnWrites s t c := by
    rcases ht with rfl | ⟨v, rfl⟩
    · exact OwnWrites.refl t c
    · exact (OwnWrites.refl s c).set _ _ fun _ => by decide
  have hwptr : t.wptr = s.wptr := by
    rcases ht with rfl | ⟨v, rfl⟩ <;> rfl
  have hchan : t.chan = s.chan := by
    rcases ht with rfl | ⟨v, rfl⟩ <;> rfl
  have hmem : ∀ k : Slot, k.Places → t.mem s.wptr k = s.mem s.wptr k := fun k hk => by
    rcases ht with rfl | ⟨v, rfl⟩
    · rfl
    · rw [mem_set, if_neg]
      rintro ⟨-, rfl⟩
      exact hk
  refine h.placed.own h.workspace hw.self (Or.inl hwptr) (hw.run h.placed)
    (hw.pending h.placed.pending) (fun _ _ => Iff.rfl) (fun w hne k _ _ => hw.mem w hne k)
    (fun k => Or.inl (by rw [hchan])) (fun k hm => ?_) (h.sits_disabling hp hwptr hmem htimers)
  rw [hchan] at hm
  rcases hm with e | e | e
  · exact Or.inl (by rw [hchan, e])
  · exact absurd e (h.placed.chan_ne h.canRun h.workspace)
  · obtain ⟨p', hp', hg⟩ := h.placed.tag_guard h.workspace e
    rw [h.pos, hp] at hp'
    cases hp'
    exact Or.inr (Or.inr ⟨s.wptr, _, by rw [hchan, e], Function.update_self .., hchans k e hg⟩)

/-- **Disabling a skip.** -/
theorem placed_insDiss {timed : Bool} {guards : List Guard} (hp : p = .disabling timed guards)
    (process guard : Word) :
    Placed (s.insDiss process guard).2 (Function.update pos s.wptr
      (some (.disabling timed (guards.diff (guarded guard .skip))))) q c := by
  refine h.placed_disabled hp ?_ (fun u hu => mem_diff_guarded hu (by simp))
    fun k _ hk => mem_diff_guarded hk (by simp)
  unfold insDiss
  split_ifs
  · obtain ⟨fired, v, e | e⟩ := select_eq s process
    · exact Or.inr ⟨v, by rw [e]⟩
    · exact Or.inl (by rw [e])
  · exact Or.inl rfl

/-- **Disabling a channel.** -/
theorem placed_insDisc {timed : Bool} {guards : List Guard} (hp : p = .disabling timed guards)
    (process guard chan : Word) :
    Placed (s.insDisc process guard chan).2 (Function.update pos s.wptr
      (some (.disabling timed (guards.diff (guarded guard (.chan chan)))))) q c := by
  have htimers : ∀ u, Guard.timer u ∈ guards →
      Guard.timer u ∈ guards.diff (guarded guard (.chan chan)) :=
    fun u hu => mem_diff_guarded hu (by simp)
  have hother : ∀ k, k ≠ chan → Guard.chan k ∈ guards →
      Guard.chan k ∈ guards.diff (guarded guard (.chan chan)) :=
    fun k hk hg => mem_diff_guarded hg (by simpa using hk)
  by_cases hthis : guard ≠ 0 ∧ s.chan chan = s.wptr ||| 1
  · rw [insDisc, if_pos hthis.1, if_pos hthis.2]
    refine h.placed.own h.workspace rfl (Or.inl rfl) h.placed.run
      ⟨h.placed.pending.linked, h.placed.pending.next⟩ (fun _ _ => Iff.rfl)
      (fun _ _ _ _ _ => rfl) (fun k => ?_) (fun k hm => ?_)
      (h.sits_disabling hp rfl (fun _ _ => rfl) htimers)
    · by_cases hk : k = chan
      · subst hk
        exact Or.inr ⟨Or.inr (Or.inr hthis.2), Or.inl (by simp [setChan])⟩
      · exact Or.inl (by simp [setChan, hk])
    · by_cases hk : k = chan
      · subst hk
        exact Or.inl (by simp [setChan])
      · refine h.placed.held_own h.workspace h.canRun h.pos (by simp [setChan, hk])
          (fun ⟨_, e, hg⟩ => ⟨_, rfl, ?_⟩) hm
        cases e
        rw [hp] at hg
        exact hother k hk hg
  · have hsame : (s.insDisc process guard chan).2 = s ∨
        ∃ v, (s.insDisc process guard chan).2 = s.set s.wptr .temp v := by
      unfold insDisc
      split_ifs with hguard hmine
      · exact absurd ⟨hguard, hmine⟩ hthis
      · obtain ⟨fired, v, e | e⟩ := select_eq s process
        · exact Or.inr ⟨v, by rw [e]⟩
        · exact Or.inl (by rw [e])
      · exact Or.inl rfl
      · exact Or.inl rfl
    refine h.placed_disabled hp hsame htimers fun k hk hg => ?_
    by_cases hguard : guard = 0
    · rw [guarded, if_neg (not_not.mpr hguard), List.diff_nil]
      exact hg
    · exact hother k (fun e => hthis ⟨hguard, e ▸ hk⟩) hg

/-- **Disabling a timer**: the process is on the timer queue no more. -/
theorem placed_insDist {guards : List Guard} (hp : p = .disabling true guards)
    (process guard timeout : Word) :
    ∃ r c', s.insDist process guard timeout = some r ∧ Placed r.2 (Function.update pos s.wptr
      (some (.disabling true (guards.diff (guarded guard (.timer timeout)))))) q c' ∧
      (∀ w, w ≠ s.wptr → (w ∈ c' ↔ w ∈ c)) ∧ Others s r.2 c s.wptr := by
  have hsits := h.sits
  rw [hp] at hsits
  obtain ⟨hat, -, htl⟩ := hsits
  have hstate : s.mem s.wptr .state = ready :=
    hat.elim And.right fun e => absurd h.canRun e.1
  have hchans : ∀ k, Guard.chan k ∈ guards →
      Guard.chan k ∈ guards.diff (guarded guard (.timer timeout)) :=
    fun k hk => mem_diff_guarded hk (by simp)
  -- without the timer queue: nothing but the selection changes
  have hstays : s.wptr ∉ c → ∀ t, (t = s ∨ ∃ v, t = s.set s.wptr .temp v) →
      Placed t (Function.update pos s.wptr
        (some (.disabling true (guards.diff (guarded guard (.timer timeout)))))) q c ∧
        (∀ w, w ≠ s.wptr → (w ∈ c ↔ w ∈ c)) ∧ Others s t c s.wptr := by
    intro hc t ht
    have hw : OwnWrites s t c := by
      rcases ht with rfl | ⟨v, rfl⟩
      · exact OwnWrites.refl t c
      · exact (OwnWrites.refl s c).set _ _ fun _ => by decide
    have hwptr : t.wptr = s.wptr := by
      rcases ht with rfl | ⟨v, rfl⟩ <;> rfl
    have hchan : t.chan = s.chan := by
      rcases ht with rfl | ⟨v, rfl⟩ <;> rfl
    have hmem : ∀ k : Slot, k.Places → t.mem s.wptr k = s.mem s.wptr k := fun k hk => by
      rcases ht with rfl | ⟨v, rfl⟩
      · rfl
      · rw [mem_set, if_neg]
        rintro ⟨-, rfl⟩
        exact hk
    refine ⟨h.writes hw hchan (Or.inl hwptr) (fun k hk => ⟨_, rfl, ?_⟩)
      ⟨Or.inl ⟨h.ready_of_wptr hwptr, by rw [hmem .state trivial, hstate]⟩,
        fun e => absurd e hc, fun _ _ => ?_⟩, fun _ _ => Iff.rfl, hw.others⟩
    · rw [hp] at hk
      exact hchans k hk
    · rw [hmem .tlink trivial]
      exact htl rfl hc
  unfold insDist
  split_ifs with hg hset hafter hnotset
  · have hc : s.wptr ∉ c := fun e => (h.placed.tlink_ne e).1 hset
    exact ⟨_, c, rfl, hstays hc s (Or.inl rfl)⟩
  · have hc : s.wptr ∉ c := fun e => (h.placed.tlink_ne e).1 hset
    refine ⟨_, c, rfl, hstays hc _ ?_⟩
    obtain ⟨fired, v, e | e⟩ := select_eq s process
    · exact Or.inr ⟨v, by rw [e]⟩
    · exact Or.inl (by rw [e])
  · obtain ⟨t, ht, honly, hpending, htlink⟩ := timerQueueRemove_spec h.placed.pending h.ne
    have hregs := honly.regs
    have hwptr : t.wptr = s.wptr := by rw [hregs]
    have hchan : t.chan = s.chan := by rw [hregs]
    have hnot : s.wptr ∉ c.erase s.wptr := h.placed.pending.nodup.not_mem_erase
    have hmem : ∀ w, w ≠ s.wptr → ∀ k : Slot, (k = .tlink → w ∉ c) → t.mem w k = s.mem w k :=
      fun w hne k hk => honly.mem w k (fun e => ⟨hne, hk e⟩) fun _ => hne
    refine ⟨_, c.erase s.wptr, by rw [ht]; rfl, ?_, fun w hne => List.mem_erase_of_ne hne,
      Others.of_mem fun w hne k _ hk => hmem w hne k hk⟩
    refine h.placed.own h.workspace (by rw [hregs]) (Or.inl hwptr) ?_ hpending
      (fun w hne => List.mem_erase_of_ne hne) (fun w hne k _ hk => hmem w hne k hk)
      (fun k => Or.inl (by rw [hchan])) (fun k hm => ?_)
      ⟨Or.inl ⟨h.ready_of_wptr hwptr, ?_⟩, fun e => absurd e hnot, fun _ _ => Or.inl htlink⟩
    · have hf : t.fptr = s.fptr := by rw [hregs]
      have hb : t.bptr = s.bptr := by rw [hregs]
      rw [RunQueue, hf, hb]
      refine Fifo.congr h.placed.run fun w hq => hmem w (fun e => ?_) .link fun e => by cases e
      exact h.placed.current (e ▸ hq)
    · refine h.placed.held_own h.workspace h.canRun h.pos (by rw [hchan]) (fun hheld => ?_) hm
      obtain ⟨_, e, hk⟩ := hheld
      refine ⟨_, rfl, ?_⟩
      cases e
      rw [hp] at hk
      exact hchans k hk
    · rw [honly.mem _ _ (fun e => by cases e) (fun e => by cases e), hstate]
  · have hc : s.wptr ∉ c := fun e => (h.placed.tlink_ne e).2 (not_not.mp hnotset)
    exact ⟨_, c, rfl, hstays hc s (Or.inl rfl)⟩
  · refine ⟨_, c, rfl, ?_, fun _ _ => Iff.rfl, (OwnWrites.refl s c).others⟩
    refine h.placed_disabled hp (Or.inl rfl) (fun u hu => ?_) fun k _ hk => hchans k hk
    rw [guarded, if_neg hg, List.diff_nil]
    exact hu

/-- **The end of an alternative.** -/
theorem placed_insAltend {timed : Bool} (hp : p = .disabling timed []) :
    Placed s.insAltend.2 (Function.update pos s.wptr (some .plain)) q c := by
  have hsits := h.sits
  rw [hp] at hsits
  have hc : s.wptr ∉ c := fun e => by
    obtain ⟨-, u, hu⟩ := hsits.2.1 e
    cases hu
  have hguards : ∀ k, Guard.chan k ∈ p.guards → ∃ x', some Pos.plain = some x' ∧
      Guard.chan k ∈ x'.guards := fun k hk => by
    rw [hp] at hk
    cases hk
  unfold insAltend
  split_ifs
  · exact h.writes ((OwnWrites.refl s c).regs s.wptr _ s.chan s.bytes) rfl (Or.inl rfl) hguards
      ⟨h.ready_of_wptr rfl, hc⟩
  · exact h.writes (OwnWrites.refl s c) rfl (Or.inl rfl) hguards ⟨h.ready_of_wptr rfl, hc⟩

/-! ## Processes -/

/-- Who is not live is nowhere. -/
theorem nowhere {w : Word} (hw : pos w = none) : w ∉ q ∧ w ≠ s.wptr ∧ w ∉ c := by
  have hsits := h.placed.sits w
  rw [hw] at hsits
  exact ⟨fun e => hsits.1 (Or.inl e), fun e => hsits.1 (e ▸ h.canRun), hsits.2⟩

/-- No channel word has who is not live. -/
theorem nobody {w k : Word} (hw : pos w = none) (hws : IsWorkspace w) :
    s.chan k ≠ w ∧ s.chan k ≠ w ||| 1 := by
  constructor
  · intro e
    rcases h.placed.held k with hk | hk | ⟨v, p', hv, -⟩
    · exact hws.1 (e.symm.trans hk)
    · rw [e, hw] at hk
      rcases hk with hk | hk <;> cases hk
    · exact hws.ne_tagged (e.symm.trans hv)
  · intro e
    obtain ⟨p', hp', -⟩ := h.placed.tag_guard hws e
    rw [hw] at hp'
    cases hp'

/-- **A process is started**: it is on the run queue. -/
theorem placed_insStartp {ws offset : Word} (hws : IsWorkspace ws) (hnone : pos ws = none) :
    Placed (s.addToQueueIptr ws (s.iptr + offset))
      (Function.update pos ws (some .plain)) (q ++ [ws]) c := by
  obtain ⟨hq, hne, hc⟩ := h.nowhere hnone
  have hregs := regs_addToQueue (s.set ws .iptr (s.iptr + offset)) ws
  have hwptr : (s.addToQueueIptr ws (s.iptr + offset)).wptr = s.wptr := by
    rw [addToQueueIptr, hregs]
    rfl
  have hchan : (s.addToQueueIptr ws (s.iptr + offset)).chan = s.chan := by
    rw [addToQueueIptr, hregs]
    rfl
  have hmem : ∀ w (k : Slot), k.Places →
      (s.addToQueueIptr ws (s.iptr + offset)).mem w k = s.mem w k := fun w k hk => by
    rw [addToQueueIptr, mem_addToQueue (by rintro rfl; exact hk), mem_set, if_neg]
    rintro ⟨-, rfl⟩
    exact hk
  have hrun : (s.set ws .iptr (s.iptr + offset)).RunQueue q :=
    Fifo.congr h.placed.run fun w _ => by simp [links]
  have hpos : ∀ w, w ≠ ws → Function.update pos ws (some Pos.plain) w = pos w :=
    fun w hw => Function.update_of_ne hw ..
  refine h.placed.frame (· = ws) (hrun.add hws.1 hq) ?_ ?_ (by rw [addToQueueIptr, hregs]; rfl)
    (fun w hw => ⟨hpos w hw, ?_, Iff.rfl, fun k hk _ => hmem w k hk⟩)
    (fun w _ k _ => by rw [hchan]) (fun w hw => ?_) fun k => ?_
  · refine ⟨?_, fun hp => ?_⟩
    · have htptr : (s.addToQueueIptr ws (s.iptr + offset)).tptr = s.tptr := by
        rw [addToQueueIptr, hregs]
        rfl
      rw [htptr]
      exact h.placed.pending.linked.congr fun w _ => hmem w .tlink trivial
    · rw [addToQueueIptr, hregs] at hp ⊢
      rw [show (s.set ws .iptr (s.iptr + offset)).tnext = s.tnext from rfl,
        h.placed.pending.next hp]
      exact (hmem s.tptr .time trivial).symm
  · rw [hwptr, List.mem_append, List.mem_singleton]
    exact fun e => e.elim h.placed.current (Ne.symm hne)
  · rw [Ready, Ready, hwptr, List.mem_append, List.mem_singleton]
    tauto
  · subst hw
    refine ⟨?_, fun _ => hws⟩
    rw [Function.update_self]
    exact ⟨Or.inl (List.mem_append_right _ (List.mem_singleton_self _)), hc⟩
  · rw [Held, hchan]
    obtain ⟨hplain, htag⟩ := h.nobody (k := k) hnone hws
    rcases h.placed.held k with hk | hk | ⟨v, p', hv, hp', hg⟩
    · exact Or.inl hk
    · exact Or.inr (Or.inl (by rw [hpos _ hplain]; exact hk))
    · refine Or.inr (Or.inr ⟨v, p', hv, ?_, hg⟩)
      rw [hpos _ fun e => htag (e ▸ hv)]
      exact hp'

/-- **The current process becomes another one**, that nobody is: it moves its workspace. -/
theorem placed_becomes (hfree : p.Free) {ws : Word} (hws : IsWorkspace ws)
    (hnone : ws = s.wptr ∨ pos ws = none) (ip : Word) :
    Placed { s with wptr := ws, iptr := ip }
      (Function.update (Function.update pos s.wptr none) ws (some .plain)) q c := by
  have hc := h.notMem hfree
  have hq := h.placed.current
  have hfresh : ws ∉ q ∧ ws ∉ c := by
    rcases hnone with rfl | hnone
    · exact ⟨hq, hc⟩
    · exact ⟨(h.nowhere hnone).1, (h.nowhere hnone).2.2⟩
  have hpos : ∀ w, w ≠ ws → w ≠ s.wptr →
      Function.update (Function.update pos s.wptr none) ws (some Pos.plain) w = pos w :=
    fun w hw hw' => by rw [Function.update_of_ne hw, Function.update_of_ne hw']
  refine h.placed.frame (fun w => w = ws ∨ w = s.wptr) h.placed.run
    ⟨h.placed.pending.linked, h.placed.pending.next⟩ hfresh.1 rfl
    (fun w hw => ⟨hpos w (fun e => hw (Or.inl e)) fun e => hw (Or.inr e), ?_, Iff.rfl,
      fun _ _ _ => rfl⟩) (fun _ _ _ _ => Iff.rfl) (fun w hw => ?_) fun k => ?_
  · obtain ⟨hw, hw'⟩ := not_or.mp hw
    exact or_congr_right ⟨fun e => absurd e.1 hw, fun e => absurd e.1 hw'⟩
  · by_cases e : w = ws
    · subst e
      rw [Function.update_self]
      exact ⟨⟨Or.inr ⟨rfl, hws.1⟩, hfresh.2⟩, fun _ => hws⟩
    · obtain rfl := hw.resolve_left e
      rw [Function.update_of_ne e, Function.update_self]
      exact ⟨⟨fun h' => h'.elim hq fun h'' => e h''.1, hc⟩, fun h' => absurd rfl h'⟩
  · have hplain : ∀ w, w = ws ∨ w = s.wptr → s.chan k ≠ w := by
      rintro w (rfl | rfl)
      · rcases hnone with e | hnone
        · exact e ▸ h.placed.chan_ne h.canRun h.workspace
        · exact (h.nobody hnone hws).1
      · exact h.placed.chan_ne h.canRun h.workspace
    have htag : ∀ w, w = ws ∨ w = s.wptr → s.chan k ≠ w ||| 1 := by
      have hself : s.chan k ≠ s.wptr ||| 1 := fun e => by
        obtain ⟨p', hp', hg⟩ := h.placed.tag_guard h.workspace e
        rw [h.pos] at hp'
        cases hp'
        rw [hfree.guards_eq] at hg
        cases hg
      rintro w (rfl | rfl)
      · rcases hnone with e | hnone
        · exact e ▸ hself
        · exact (h.nobody hnone hws).2
      · exact hself
    rcases h.placed.held k with hk | hk | ⟨v, p', hv, hp', hg⟩
    · exact Or.inl hk
    · refine Or.inr (Or.inl ?_)
      rw [hpos _ (fun e => hplain _ (Or.inl e) rfl) fun e => hplain _ (Or.inr e) rfl]
      exact hk
    · refine Or.inr (Or.inr ⟨v, p', hv, ?_, hg⟩)
      rw [hpos _ (fun e => htag _ (Or.inl e) hv) fun e => htag _ (Or.inr e) hv]
      exact hp'

/-! ## Channels -/

/-- A channel word that is not touched: the current process is not in it, and has no guard. -/
theorem held_free (hfree : p.Free) {k : Word} (hchan : t.chan k = s.chan k) (x : Option Pos) :
    Held t (Function.update pos s.wptr x) k := by
  have hpos : ∀ w, w ≠ s.wptr → Function.update pos s.wptr x w = pos w :=
    fun w hw => Function.update_of_ne hw ..
  rw [Held, hchan]
  rcases h.placed.held k with hk | hk | ⟨v, p', hv, hp', hg⟩
  · exact Or.inl hk
  · refine Or.inr (Or.inl ?_)
    rw [hpos _ (h.placed.chan_ne h.canRun h.workspace)]
    exact hk
  · refine Or.inr (Or.inr ⟨v, p', hv, ?_, hg⟩)
    rw [hpos _ ?_]
    · exact hp'
    · rintro rfl
      rw [h.pos] at hp'
      cases hp'
      rw [hfree.guards_eq] at hg
      cases hg

/-- **A process is saved in a channel word** that nobody is blocked in, and goes away. -/
theorem placed_saved (hfree : p.Free) {chan : Word} (data len requeue : Word) {x : Pos}
    (hx : x = .chanIn chan ∨ x = .chanOut chan)
    (hnot : s.chan chan = notProcess ∨ ∃ w, s.chan chan = w ||| 1) :
    Placed (away (s.saveInChan chan data len requeue).2.2)
      (Function.update pos s.wptr (some x)) q c := by
  have hc := h.notMem hfree
  obtain ⟨t, ht⟩ : ∃ t, t = away (s.saveInChan chan data len requeue).2.2 := ⟨_, rfl⟩
  rw [← ht]
  have hchan : ∀ k, t.chan k = if k = chan then s.wptr else s.chan k := fun k => by
    rw [ht]
    rfl
  have hmem : ∀ w, w ≠ s.wptr → ∀ k, t.mem w k = s.mem w k := fun w hne k => by
    rw [ht]
    simp [saveInChan, setChan, away, hne]
  have hpos : ∀ w, w ≠ s.wptr → Function.update pos s.wptr (some x) w = pos w :=
    fun w hw => Function.update_of_ne hw ..
  have htwptr : t.wptr = notProcess := by rw [ht]; rfl
  have hold : ∀ w, IsWorkspace w → s.chan chan ≠ w := by
    rintro w hw e
    rcases hnot with e' | ⟨v, e'⟩
    · exact hw.1 (e.symm.trans e')
    · exact hw.ne_tagged (e.symm.trans e')
  refine h.placed.frame (· = s.wptr) ?_ ?_ ?_ (by rw [ht]; rfl)
    (fun w hw => ⟨hpos w hw, ?_, Iff.rfl, fun k _ _ => hmem w hw k⟩) (fun w hw k hk => ?_)
    (fun w hw => ?_) fun k => ?_
  · rw [RunQueue, show t.fptr = s.fptr by rw [ht]; rfl, show t.bptr = s.bptr by rw [ht]; rfl]
    refine Fifo.congr h.placed.run fun w hq => hmem w (fun e => ?_) .link
    exact h.placed.current (e ▸ hq)
  · refine ⟨?_, fun hne => ?_⟩
    · rw [show t.tptr = s.tptr by rw [ht]; rfl]
      exact h.placed.pending.linked.congr fun w hw => hmem w (fun e => hc (e ▸ hw)) .tlink
    · rw [show t.tptr = s.tptr by rw [ht]; rfl] at hne
      obtain ⟨m, hm, -⟩ := h.placed.pending.linked.exists_cons hne
      rw [show t.tptr = s.tptr by rw [ht]; rfl, show t.tnext = s.tnext by rw [ht]; rfl,
        h.placed.pending.next hne, hmem _ fun e => hc (by rw [hm, e]; exact List.mem_cons_self)]
  · rw [htwptr]
    exact fun hz => h.placed.run.1.ne_null _ hz rfl
  · rw [Ready, Ready, htwptr]
    exact or_congr_right ⟨fun e => absurd e.1 e.2, fun e => absurd e.1 hw⟩
  · rw [hchan]
    by_cases hkc : k = chan
    · subst hkc
      have hws : IsWorkspace w := h.placed.workspace w (by rcases hk with e | e <;> rw [e] <;> simp)
      rw [if_pos rfl]
      exact ⟨fun e => absurd e.symm hw, fun e => absurd e (hold w hws)⟩
    · rw [if_neg hkc]
  · subst hw
    refine ⟨?_, fun _ => h.workspace⟩
    rw [Function.update_self]
    have hat : AtChan t q s.wptr chan := by
      refine Or.inr ⟨h.notReady_away htwptr, by rw [hchan, if_pos rfl], ?_⟩
      rw [ht]
      simp [saveInChan, setChan, away]
    rcases hx with rfl | rfl
    · exact ⟨hat, hc⟩
    · exact ⟨hat, hc⟩
  · by_cases hkc : k = chan
    · subst hkc
      refine Or.inr (Or.inl ?_)
      rw [hchan, if_pos rfl, Function.update_self]
      exact hx.imp (congrArg some) (congrArg some)
    · exact h.held_free hfree (by rw [hchan, if_neg hkc]) (some x)

omit h in
/-- Being saved writes own words. -/
theorem others_saved (chan data len requeue : Word) :
    Others s (s.saveInChan chan data len requeue).2.2 c s.wptr := by
  refine Others.of_mem fun v hne k _ _ => ?_
  simp [saveInChan, setChan, hne]

/-- The partner of a communication: who is blocked in the channel word. -/
theorem blocked {w k : Word} (hk : s.chan k = w) (hw : IsWorkspace w) :
    (pos w = some (.chanIn k) ∨ pos w = some (.chanOut k)) ∧ ¬ Ready s q w ∧ w ∉ c ∧
      s.mem w .ectx = s.self := by
  rcases h.placed.held k with e | e | ⟨v, -, e, -⟩
  · exact absurd (hk.symm.trans e) hw.1
  · rw [hk] at e
    have hsits := h.placed.sits w
    refine ⟨e, ?_⟩
    rcases e with e | e
    all_goals
      rw [e] at hsits
      obtain ⟨⟨-, hne⟩ | ⟨hnot, -, hectx⟩, hc⟩ := hsits
      · exact absurd hk hne
      · exact ⟨hnot, hc, hectx⟩
  · exact absurd (hk.symm.trans e) hw.ne_tagged

/-- **A communication**: the current process goes to the run queue, and who was blocked runs. -/
theorem placed_handover (hfree : p.Free) {chan w : Word} {x : Pos}
    (hx : x = .chanIn chan ∨ x = .chanOut chan) (hw : IsWorkspace w) (hk : s.chan chan = w)
    (ht : t = { s with chan := t.chan, bytes := t.bytes })
    (hchan : ∀ k, t.chan k = if k = chan then notProcess else s.chan k) :
    ∃ r, t.descheduleCurrent.requeueOrNext w wake = some r ∧ Others s r.2 c s.wptr ∧
      Placed r.2 (Function.update pos s.wptr (some x)) (q ++ [s.wptr]) c := by
  obtain ⟨hat, hnot, hwc, hectx⟩ := h.blocked hk hw
  have hc := h.notMem hfree
  have hne : w ≠ s.wptr := fun e => hnot (e ▸ h.canRun)
  have hwptr : t.wptr = s.wptr := by rw [ht]
  have htmem : t.mem = s.mem := by rw [ht]
  have htself : t.self = s.self := by rw [ht]
  obtain ⟨d, hd⟩ : ∃ d, d = t.descheduleCurrent := ⟨_, rfl⟩
  have hregs := regs_addToQueue (t.set t.wptr .iptr t.iptr) t.wptr
  have hdchan : d.chan = t.chan := by
    rw [hd, descheduleCurrent, addToQueueIptr, hregs]
    rfl
  have hdself : d.self = s.self := by
    rw [hd, descheduleCurrent, addToQueueIptr, hregs, ← htself]
    rfl
  have hdmem : ∀ v (k : Slot), k.Places → d.mem v k = s.mem v k := fun v k hkp => by
    rw [hd, descheduleCurrent, addToQueueIptr]
    show ((t.set t.wptr .iptr t.iptr).addToQueue t.wptr).mem v k = _
    rw [mem_addToQueue (by rintro rfl; exact hkp), mem_set, if_neg, htmem]
    rintro ⟨-, rfl⟩
    exact hkp
  have hload : d.requeueOrNext w wake =
      some (.cont, { d with wptr := w, iptr := d.mem w .iptr }) := by
    have hctx : d.mem w .ectx = d.self := by rw [hdmem w .ectx trivial, hectx, hdself]
    rw [requeueOrNext, hw.untagged, if_pos hw.1, loadProcess, if_neg (not_not.mpr hctx)]
  have hrun : (t.set t.wptr .iptr t.iptr).RunQueue q := by
    rw [RunQueue, show (t.set t.wptr .iptr t.iptr).fptr = s.fptr by rw [ht]; rfl,
      show (t.set t.wptr .iptr t.iptr).bptr = s.bptr by rw [ht]; rfl]
    exact Fifo.congr h.placed.run fun v _ => by simp [links, htmem]
  have hq : s.wptr ∉ q := h.placed.current
  have hrun' : d.RunQueue (q ++ [s.wptr]) := by
    have hadded := hrun.add (hwptr ▸ h.ne : t.wptr ≠ notProcess) (hwptr ▸ hq)
    rw [hwptr] at hadded
    rw [hd, descheduleCurrent, addToQueueIptr, hwptr]
    exact hadded
  have hready : ∀ v, v ≠ w → (Ready { d with wptr := w, iptr := d.mem w .iptr }
      (q ++ [s.wptr]) v ↔ Ready s q v) := fun v hv => by
    rw [Ready, Ready, List.mem_append, List.mem_singleton]
    constructor
    · rintro ((hq | rfl) | ⟨e, -⟩)
      · exact Or.inl hq
      · exact h.canRun
      · exact absurd e hv
    · rintro (hq | ⟨rfl, -⟩)
      · exact Or.inl (Or.inl hq)
      · exact Or.inl (Or.inr rfl)
  have hpos : ∀ v, v ≠ s.wptr → Function.update pos s.wptr (some x) v = pos v :=
    fun v hv => Function.update_of_ne hv ..
  refine ⟨_, by rw [← hd]; exact hload, Others.of_mem fun v _ k hkp _ => hdmem v k hkp, ?_⟩
  refine h.placed.frame (fun v => v = w ∨ v = s.wptr) hrun' ?_ ?_ hdself
    (fun v hv => ⟨hpos v fun e => hv (Or.inr e), hready v fun e => hv (Or.inl e), Iff.rfl,
      fun k hkp _ => hdmem v k hkp⟩) (fun v hv k hpk => ?_) (fun v hv => ?_) fun k => ?_
  · have htptr : d.tptr = s.tptr := by
      rw [hd, descheduleCurrent, addToQueueIptr, hregs, ht]
      rfl
    have htnext : d.tnext = s.tnext := by
      rw [hd, descheduleCurrent, addToQueueIptr, hregs, ht]
      rfl
    refine ⟨?_, fun hp => ?_⟩
    · show Linked notProcess d.tlinks d.tptr c
      rw [htptr]
      exact h.placed.pending.linked.congr fun v _ => hdmem v .tlink trivial
    · show d.tnext = d.mem d.tptr .time
      rw [show ({ d with wptr := w, iptr := d.mem w .iptr } : Ectx).tptr = d.tptr from rfl,
        htptr] at hp
      rw [htptr, htnext, h.placed.pending.next hp, hdmem _ .time trivial]
  · rw [List.mem_append, List.mem_singleton]
    exact fun e => e.elim (fun e => hnot (Or.inl e)) hne
  · obtain ⟨hvw, -⟩ := not_or.mp hv
    show d.chan k = v ↔ s.chan k = v
    rw [hdchan, hchan]
    by_cases hkc : k = chan
    · subst hkc
      have hvws : IsWorkspace v := h.placed.workspace v (by
        rcases hpk with e | e <;> rw [e] <;> simp)
      rw [if_pos rfl, hk]
      exact ⟨fun e => absurd e.symm hvws.1, fun e => absurd e.symm hvw⟩
    · rw [if_neg hkc]
  · have hfreed : d.chan chan = notProcess := by rw [hdchan, hchan, if_pos rfl]
    by_cases e : v = w
    · subst e
      refine ⟨?_, fun _ => hw⟩
      rw [hpos v hne]
      have hat' : AtChan { d with wptr := v, iptr := d.mem v .iptr } (q ++ [s.wptr]) v chan :=
        Or.inl ⟨Or.inr ⟨rfl, hw.1⟩, fun e => hw.1 (e.symm.trans hfreed)⟩
      rcases hat with e | e
      · rw [e]
        exact ⟨hat', hwc⟩
      · rw [e]
        exact ⟨hat', hwc⟩
    · obtain rfl := hv.resolve_left e
      refine ⟨?_, fun _ => h.workspace⟩
      rw [Function.update_self]
      have hat' : AtChan { d with wptr := w, iptr := d.mem w .iptr } (q ++ [s.wptr])
          s.wptr chan :=
        Or.inl ⟨Or.inl (List.mem_append_right _ (List.mem_singleton_self _)),
          fun e => h.ne (e.symm.trans hfreed)⟩
      rcases hx with rfl | rfl
      · exact ⟨hat', hc⟩
      · exact ⟨hat', hc⟩
  · by_cases hkc : k = chan
    · subst hkc
      exact Or.inl (by rw [hdchan, hchan, if_pos rfl])
    · have heq : d.chan k = s.chan k := by rw [hdchan, hchan, if_neg hkc]
      exact h.held_free hfree heq (some x)

/-- A process that can run may be said to be ready. -/
theorem placed_setReady {w : Word} {p' : Pos} (hne : w ≠ s.wptr) (hp' : pos w = some p')
    (hguards : p'.guards ≠ []) (hready : Ready s q w) :
    Current (s.set w .state ready) pos q c p := by
  have hmem : ∀ v k, (v = w → k ≠ .state) → (s.set w .state ready).mem v k = s.mem v k :=
    fun v k hk => by rw [mem_set, if_neg fun e => hk e.1 e.2]
  refine ⟨h.placed.frame (· = w) ?_ ?_ h.placed.current rfl
    (fun v hv => ⟨rfl, Iff.rfl, Iff.rfl, fun k _ _ => hmem v k fun e => absurd e hv⟩)
    (fun _ _ _ _ => Iff.rfl) (fun v hv => ?_) h.placed.held, h.pos, h.ne⟩
  · exact Fifo.congr h.placed.run fun v _ => hmem v .link fun _ => by decide
  · refine ⟨h.placed.pending.linked.congr fun v _ => hmem v .tlink fun _ => by decide,
      fun hp => ?_⟩
    show s.tnext = _
    rw [h.placed.pending.next hp]
    exact (hmem _ .time fun _ => by decide).symm
  · subst hv
    refine ⟨?_, h.placed.workspace v⟩
    have hsits := h.placed.sits v
    rw [hp'] at hsits ⊢
    have hstate : (s.set v .state ready).mem v .state = ready := by simp
    match p', hguards with
    | .enabling timed guards, _ =>
      obtain ⟨-, hvc, -, htl⟩ := hsits
      exact ⟨hready, hvc, Or.inr hstate, fun e => by
        rw [hmem v .tlink fun _ => by decide]
        exact htl e⟩
    | .disabling timed guards, _ =>
      obtain ⟨-, hvc, htl⟩ := hsits
      exact ⟨Or.inl ⟨hready, hstate⟩, hvc, fun e hv => by
        rw [hmem v .tlink fun _ => by decide]
        exact htl e hv⟩

end Current

/-- **Who waits in an alternative is woken** while nobody is current. -/
theorem placed_woken {w : Word} (timed : Bool) (guards : List Guard) {u : Ectx}
    (h : Placed u pos q c) (hu : u.wptr = notProcess) (hp : pos w = some (.disabling timed guards))
    (hnot : w ∉ q) (ht : t = { u with
      wptr := w, iptr := t.iptr, mem := t.mem })
    (hmem : ∀ v k, (v = w → k ≠ .state) → t.mem v k = u.mem v k)
    (hstate : t.mem w .state = ready) : Placed t pos q c := by
  have hws : IsWorkspace w := h.workspace w (by rw [hp]; simp)
  have hwptr : t.wptr = w := by rw [ht]
  have hready : ∀ v, v ≠ w → (Ready t q v ↔ Ready u q v) := fun v hv => by
    rw [Ready, Ready, hwptr, hu]
    exact or_congr_right ⟨fun e => absurd e.1 hv, fun e => absurd e.1 e.2⟩
  refine h.frame (· = w) ?_ ?_ (hwptr ▸ hnot) (by rw [ht])
    (fun v hv => ⟨rfl, hready v hv, Iff.rfl, fun k _ _ => hmem v k fun e => absurd e hv⟩)
    (fun _ _ k _ => by rw [ht]) (fun v hv => ?_) fun k => ?_
  · rw [RunQueue, show t.fptr = u.fptr by rw [ht], show t.bptr = u.bptr by rw [ht]]
    exact Fifo.congr h.run fun v _ => hmem v .link fun _ => by decide
  · have htptr : t.tptr = u.tptr := by rw [ht]
    have htnext : t.tnext = u.tnext := by rw [ht]
    refine ⟨?_, fun hne => ?_⟩
    · rw [htptr]
      exact h.pending.linked.congr fun v _ => hmem v .tlink fun _ => by decide
    · rw [htptr] at hne ⊢
      rw [htnext, h.pending.next hne]
      exact (hmem _ .time fun _ => by decide).symm
  · subst hv
    refine ⟨?_, fun _ => hws⟩
    have hsits := h.sits v
    rw [hp] at hsits ⊢
    obtain ⟨-, hvc, htl⟩ := hsits
    exact ⟨Or.inl ⟨Or.inr ⟨hwptr.symm, hws.1⟩, hstate⟩, hvc, fun e hv => by
      rw [hmem v .tlink fun _ => by decide]
      exact htl e hv⟩
  · rw [Held, show t.chan = u.chan by rw [ht]]
    exact h.held k

namespace Current

variable (h : Current s pos q c p)

include h

/-- **Standard channel input and output.** -/
theorem chanStdIo_lands (hfree : p.Free) (dir : Dir) {chan : Word} (data len : Word) {x : Pos}
    (hx : x = .chanIn chan ∨ x = .chanOut chan) :
    (∃ r q', s.chanStdIo dir chan data len wake = some r ∧ Others s r.2 c s.wptr ∧
      Placed r.2 (Function.update pos s.wptr (some x)) q' c) ∨
    ∃ t, s.chanStdIo dir chan data len wake = t.runNextOnQueue wake ∧ Others s t c s.wptr ∧
      Placed (away t) (Function.update pos s.wptr (some x)) q c := by
  -- whoever is saved with nobody to requeue leaves the next process to run
  have hsaved : ∀ u : Ectx, u.requeueOrNext notProcess wake = u.runNextOnQueue wake :=
    fun u => if_neg (by decide)
  rcases h.placed.held chan with hk | hk | ⟨w, p', hk, hp', hg⟩
  · right
    refine ⟨(s.saveInChan chan data len notProcess).2.2, ?_, others_saved _ _ _ _,
      h.placed_saved hfree data len notProcess hx (Or.inl hk)⟩
    rw [chanStdIo, chanIo, hk, if_pos rfl]
    exact hsaved _
  · left
    have hws : IsWorkspace (s.chan chan) :=
      h.placed.workspace _ (by rcases hk with e | e <;> rw [e] <;> simp)
    obtain ⟨t, htdef⟩ : ∃ t, t = (s.setChan chan notProcess).channelMove dir data len
        (s.chan chan &&& ~~~1) := ⟨_, rfl⟩
    have ht : t = { s with chan := t.chan, bytes := t.bytes } := by
      rw [htdef]
      cases dir <;> rfl
    have hchan : ∀ k, t.chan k = if k = chan then notProcess else s.chan k := fun k => by
      rw [htdef]
      cases dir <;> rfl
    obtain ⟨r, hr, hothers, hplaced⟩ := h.placed_handover hfree hx hws rfl ht hchan
    refine ⟨r, _, ?_, hothers, hplaced⟩
    rw [chanStdIo, chanIo, if_neg hws.1, if_pos hws.and_one, ← htdef]
    dsimp only
    rw [if_pos hws.1]
    exact hr
  · have hws : IsWorkspace w := h.placed.workspace w (by rw [hp']; simp)
    have hne : w ≠ s.wptr := by
      rintro rfl
      rw [h.pos] at hp'
      cases hp'
      rw [hfree.guards_eq] at hg
      cases hg
    have hguards : p'.guards ≠ [] := fun e => by
      rw [e] at hg
      cases hg
    have hvalue : s.chan chan ≠ notProcess := fun e => by
      have := tagged_ne_zero (w := w)
      rw [← hk, e] at this
      exact this rfl
    have htag : ¬ s.chan chan &&& 1 = 0 := by
      rw [hk]
      exact tagged_ne_zero
    have hother : s.chan chan &&& ~~~1 = w := by rw [hk, hws.untag]
    have hsits := h.placed.sits w
    rw [hp'] at hsits
    rw [chanStdIo, chanIo, if_neg hvalue, if_neg htag, hother, if_pos hws.1]
    dsimp only
    have hready : (Ready s q w ∧ (s.mem w .state = enabling ∨ s.mem w .state = ready)) ∨
        ((∃ timed guards, p' = .disabling timed guards) ∧ ¬ Ready s q w ∧
          s.mem w .state = waiting ∧ s.mem w .ectx = s.self) := by
      match p', hguards with
      | .enabling .., _ => exact Or.inl ⟨hsits.1, hsits.2.2.1⟩
      | .disabling .., _ =>
        exact hsits.1.imp (fun e => ⟨e.1, Or.inr e.2⟩) fun e => ⟨⟨_, _, rfl⟩, e⟩
    rcases hready with ⟨hcan, hstate | hstate⟩ | ⟨⟨timed, guards, rfl⟩, hnot, hstate, hectx⟩
    · right
      have h' := h.placed_setReady hne hp' hguards hcan
      refine ⟨_, ?_, fun v hv => ?_, h'.placed_saved hfree data len notProcess hx (Or.inr ⟨w, hk⟩)⟩
      · rw [if_pos (Or.inr hstate), hstate, if_pos (by decide)]
        exact hsaved _
      · obtain ⟨htime, htlink, hst⟩ :=
          others_saved (s := s.set w .state ready) (c := c) chan data len notProcess v hv
        refine ⟨htime.trans ?_, fun hv' => (htlink hv').trans ?_, ?_⟩
        · rw [mem_set, if_neg (by simp)]
        · rw [mem_set, if_neg (by simp)]
        · rcases hst with e | e
          · by_cases hvw : v = w
            · exact Or.inr (e.trans (by rw [hvw]; simp))
            · exact Or.inl (e.trans (by simp [hvw]))
          · exact Or.inr e
    · right
      refine ⟨_, ?_, others_saved _ _ _ _, h.placed_saved hfree data len notProcess hx
        (Or.inr ⟨w, hk⟩)⟩
      rw [if_neg (by rw [hstate]; decide), if_pos hstate, hstate, if_pos (by decide)]
      exact hsaved _
    · left
      rw [if_pos (Or.inl hstate), if_neg (not_not.mpr hstate), hk]
      have hplaced := h.placed_saved hfree data len (w ||| 1) hx (Or.inr ⟨w, hk⟩)
      obtain ⟨u, hu⟩ : ∃ u, u = ((s.set w .state ready).saveInChan chan data len (w ||| 1)).2.2 :=
        ⟨_, rfl⟩
      have humem : ∀ v k, (v = w → k ≠ .state) →
          u.mem v k = (away (s.saveInChan chan data len (w ||| 1)).2.2).mem v k := fun v k hvk => by
        rw [hu]
        simp only [saveInChan, setChan, away, mem_set, wptr_set, self_set, iptr_set]
        rw [if_neg fun e : v = w ∧ k = .state => hvk e.1 e.2]
      have hself : u.self = s.self := by rw [hu]; rfl
      have huectx : u.mem w .ectx = u.self := by
        rw [humem w .ectx fun _ => by decide, hself, ← hectx]
        simp [saveInChan, setChan, away, hne]
      have hustate : u.mem w .state = ready := by
        rw [hu]
        simp [saveInChan, setChan, hne]
      refine ⟨(.cont, { u with wptr := w, iptr := u.mem w .iptr }), q, ?_, fun v hv => ?_, ?_⟩
      · show ((s.set w .state ready).saveInChan chan data len (w ||| 1)).2.2.requeueOrNext
          (w ||| 1) wake = _
        rw [← hu, requeueOrNext, hws.untag, if_pos hws.1, loadProcess,
          if_neg (not_not.mpr huectx)]
      · obtain ⟨htime, htlink, hst⟩ := others_saved (c := c) chan data len (w ||| 1) v hv
        refine ⟨(humem v .time fun _ => by decide).trans htime,
          fun hv' => (humem v .tlink fun _ => by decide).trans (htlink hv'), ?_⟩
        by_cases hvw : v = w
        · exact Or.inr (hvw ▸ hustate)
        · exact hst.imp (fun e => (humem v .state fun e => absurd e hvw).trans e)
            fun e => (humem v .state fun e => absurd e hvw).trans e
      · refine placed_woken timed guards hplaced rfl ?_
          (fun e => hnot (Or.inl e)) ?_ humem hustate
        · rw [Function.update_of_ne hne, hp']
        · rw [hu]
          rfl

end Current

/-! ## All instructions -/

/-- What an instruction of the current process may end in: it returns, or the next process is run;
the timer queue `c` stays as it is but for the current process. -/
def Ends (s : Ectx) (r : Option Ectx) (wake : Word) (c : List Word) (pos : Word → Option Pos) :
    Prop :=
  (∃ t q' c', r = some t ∧ Placed t pos q' c' ∧ (∀ v, v ≠ s.wptr → (v ∈ c' ↔ v ∈ c)) ∧
    Others s t c s.wptr) ∨
  ∃ t q' c', r = (t.runNextOnQueue wake).map Prod.snd ∧ Placed (away t) pos q' c' ∧
    (∀ v, v ≠ s.wptr → (v ∈ c' ↔ v ∈ c)) ∧ Others s t c s.wptr

theorem Ends.stays (h : Placed t pos q c) (ho : Others s t c s.wptr) :
    Ends s (some t) wake c pos :=
  Or.inl ⟨t, q, c, rfl, h, fun _ _ => Iff.rfl, ho⟩

theorem Ends.next {r : Option (Ret × Ectx)} (hr : r = t.runNextOnQueue wake)
    (h : Placed (away t) pos q c) (ho : Others s t c s.wptr) :
    Ends s (r.map Prod.snd) wake c pos :=
  Or.inr ⟨t, q, c, by rw [hr], h, fun _ _ => Iff.rfl, ho⟩

/-- An instruction after data of its own. -/
theorem Ends.weaken {s' : Ectx} {r : Option Ectx} (h : Ends s' r wake c pos)
    (ho : Others s s' c s.wptr) (hwptr : s'.wptr = s.wptr) : Ends s r wake c pos := by
  have htrans : ∀ t, Others s' t c s'.wptr → Others s t c s.wptr := fun t ht v hv => by
    obtain ⟨htime, htlink, hst⟩ := ht v (hwptr ▸ hv)
    obtain ⟨htime', htlink', hst'⟩ := ho v hv
    refine ⟨htime.trans htime', fun hc => (htlink hc).trans (htlink' hc), ?_⟩
    rcases hst with e | e
    · exact hst'.imp e.trans e.trans
    · exact Or.inr e
  rcases h with ⟨t, q', c', hr, hplaced, hc', ht⟩ | ⟨t, q', c', hr, hplaced, hc', ht⟩
  · exact Or.inl ⟨t, q', c', hr, hplaced, hwptr ▸ hc', htrans t ht⟩
  · exact Or.inr ⟨t, q', c', hr, hplaced, hwptr ▸ hc', htrans t ht⟩

/-- An instruction that moves the current process only. -/
theorem Ends.moves {r : Option Ectx} {ins : Ins} {x : Pos} (hp : pos s.wptr = some p)
    (hmove : ins.move s pos s.wptr =
      Function.update pos s.wptr ((pos s.wptr).map fun p => ins.next p))
    (hx : ins.next p = x) (h : Ends s r wake c (Function.update pos s.wptr (some x))) :
    Ends s r wake c (ins.move s pos s.wptr) := by
  rw [hmove, hp, Option.map_some, hx]
  exact h

/-- Standard channel input and output, from a state that differs in data. -/
theorem Current.chan_ends (h : Current s pos q c p) (hfree : p.Free) (dir : Dir) {chan : Word}
    (data len : Word) {x : Pos} (hx : x = .chanIn chan ∨ x = .chanOut chan) :
    Ends s ((s.chanStdIo dir chan data len wake).map Prod.snd) wake c
      (Function.update pos s.wptr (some x)) := by
  rcases h.chanStdIo_lands hfree dir data len hx with
    ⟨r, q', hr, ho, hplaced⟩ | ⟨t, ht, ho, hplaced⟩
  · rw [hr]
    exact Ends.stays hplaced ho
  · exact Ends.next ht hplaced ho

/-- A word that no place depends on. -/
theorem Current.setData (h : Current s pos q c p) (ws v : Word) {k : Slot} (hk : ¬ k.Places)
    (hlink : k ≠ .link) : Current (s.set ws k v) pos q c p := by
  have hmem : ∀ w (k' : Slot), k'.Places ∨ k' = .link → (s.set ws k v).mem w k' = s.mem w k' :=
    fun w k' hk' => by
      rw [mem_set, if_neg]
      rintro ⟨-, rfl⟩
      exact hk'.elim hk hlink
  refine ⟨h.placed.frame (fun _ => False) ?_ ?_ h.placed.current rfl
    (fun w _ => ⟨rfl, Iff.rfl, Iff.rfl, fun k' hk' _ => hmem w k' (Or.inl hk')⟩)
    (fun _ _ _ _ => Iff.rfl) (fun _ hf => hf.elim) h.placed.held, h.pos, h.ne⟩
  · exact Fifo.congr h.placed.run fun w _ => hmem w .link (Or.inr rfl)
  · refine ⟨h.placed.pending.linked.congr fun w _ => hmem w .tlink (Or.inl trivial), fun hne => ?_⟩
    show s.tnext = _
    rw [h.placed.pending.next hne]
    exact (hmem _ .time (Or.inl trivial)).symm

/-- The bytes are data. -/
theorem Current.setBytes (h : Current s pos q c p) (bytes : Word → BitVec 8) :
    Current { s with bytes := bytes } pos q c p :=
  ⟨h.data ((OwnWrites.refl s c).regs _ _ _ bytes) rfl rfl fun _ _ => rfl, h.pos, h.ne⟩

/-- The instructions of alternatives that do not wait write own words only. -/
theorem Others.of_ne {w : Word} (h : ∀ v, v ≠ w → ∀ k, t.mem v k = s.mem v k) : Others s t c w :=
  fun v hv => ⟨h v hv .time, fun _ => h v hv .tlink, Or.inl (h v hv .state)⟩

theorem others_insEnbc (guard chan : Word) : Others s (s.insEnbc guard chan) c s.wptr := by
  refine Others.of_ne fun v hv k => ?_
  unfold insEnbc
  dsimp only
  split_ifs <;> simp [setChan, hv]

theorem others_insEnbs (guard : Word) : Others s (s.insEnbs guard) c s.wptr := by
  refine Others.of_ne fun v hv k => ?_
  unfold insEnbs
  split_ifs <;> simp [hv]

theorem others_insEnbt (guard timeout : Word) :
    Others s (s.insEnbt guard timeout) c s.wptr := by
  refine Others.of_ne fun v hv k => ?_
  unfold insEnbt
  split_ifs <;> simp [hv]

theorem mem_select {v : Word} {k : Slot} (process : Word) (hk : v ≠ s.wptr ∨ k ≠ .temp) :
    (s.select process).2.mem v k = s.mem v k := by
  unfold select
  split_ifs
  · rw [mem_set, if_neg]
    rintro ⟨rfl, rfl⟩
    simp at hk
  · rfl

theorem mem_insDisc {v : Word} {k : Slot} (process guard chan : Word)
    (hk : v ≠ s.wptr ∨ k ≠ .temp) : (s.insDisc process guard chan).2.mem v k = s.mem v k := by
  unfold insDisc
  split_ifs
  · rfl
  · exact mem_select process hk
  · rfl
  · rfl

theorem mem_insDiss {v : Word} {k : Slot} (process guard : Word) (hk : v ≠ s.wptr ∨ k ≠ .temp) :
    (s.insDiss process guard).2.mem v k = s.mem v k := by
  unfold insDiss
  split_ifs
  · exact mem_select process hk
  · rfl

/-- A count is no place. -/
theorem others_set_count {w : Word} (ws value : Word) : Others s (s.set ws .count value) c w :=
  Others.of_mem fun v _ k hk _ => by
    rw [mem_set, if_neg]
    rintro ⟨-, rfl⟩
    exact hk

/-- A process that is started has its instruction pointer written, and its link if it is queued. -/
theorem others_insStartp {w : Word} (ws iptr : Word) : Others s (s.addToQueueIptr ws iptr) c w :=
  Others.of_mem fun v _ k hk _ => by
    rw [addToQueueIptr, mem_addToQueue (by rintro rfl; exact hk), mem_set, if_neg]
    rintro ⟨-, rfl⟩
    exact hk

theorem others_insAltend : Others s s.insAltend.2 c s.wptr := by
  refine Others.of_ne fun v hv k => ?_
  unfold insAltend
  split_ifs <;> rfl

/-- **The last to join becomes its parent**, and every other is gone. -/
theorem Current.insEndp_ends (h : Current s pos q c p) (hfree : p.Free) {parent : Word}
    (hws : IsWorkspace parent) (hnone : parent = s.wptr ∨ pos parent = none) :
    Ends s ((s.insEndp parent wake).map Prod.snd) wake c
      ((Ins.endp parent).move s pos s.wptr) := by
  rw [insEndp, Ins.move]
  by_cases hcount : s.mem parent .count = 1
  · rw [if_pos hcount, if_pos hcount]
    exact Ends.stays ((h.setData parent 0 id (by decide)).placed_becomes hfree hws hnone _)
      (others_set_count parent 0)
  · rw [if_neg hcount, if_neg hcount]
    have h' := h.setData parent (s.mem parent .count - 1) (k := .count) id (by decide)
    exact Ends.next rfl (h'.parks_gone hfree (OwnWrites.refl _ c) rfl (Or.inl rfl))
      (others_set_count parent _)

/-- A time that is past does not wait. -/
theorem Current.insTin_ends (h : Current s pos q c p) (hfree : p.Free) (time : Word) :
    Ends s ((s.insTin time now wake).map Prod.snd) wake c
      (Function.update pos s.wptr (some (.timer time))) := by
  by_cases hafter : timeAfter now time = true
  · rw [insTin, if_pos hafter]
    refine Ends.stays (h.writes (OwnWrites.refl s c) rfl (Or.inl rfl) (fun k hk => ?_)
      (h.sits_free rfl (h.notMem hfree) rfl trivial)) (OwnWrites.refl s c).others
    rw [hfree.guards_eq] at hk
    cases hk
  · obtain ⟨t, c', ht, -, -, hc', ho, hplaced⟩ := h.insTin_waits hfree wake
      (by simpa using hafter)
    exact Or.inr ⟨t, q, c', by rw [ht], hplaced, hc', ho⟩

theorem Current.insAltwt_ends {guards : List Guard}
    (h : Current s pos q c (.enabling false guards)) :
    Ends s ((s.insAltwt wake).map Prod.snd) wake c
      (Function.update pos s.wptr (some (.disabling false guards))) := by
  rcases h.insAltwt_lands rfl with ⟨t, ht, ho, hplaced⟩ | ⟨t, ht, ho, hplaced⟩
  · rw [ht]
    exact Ends.stays hplaced ho
  · exact Ends.next ht hplaced ho

theorem Current.insTaltwt_ends {guards : List Guard}
    (h : Current s pos q c (.enabling true guards)) :
    Ends s ((s.insTaltwt now wake).map Prod.snd) wake c
      (Function.update pos s.wptr (some (.disabling true guards))) := by
  rcases h.insTaltwt_lands rfl with
    ⟨-, t, ht, -, ho, hplaced⟩ | ⟨-, t, c', ht, -, hc', ho, hplaced⟩
  · rw [ht]
    exact Ends.stays hplaced ho
  · exact Or.inr ⟨t, q, c', by rw [ht], hplaced, hc', ho⟩

/-- **Every instruction of a well-formed program** keeps everybody in place. -/
theorem exec_ends (sys : Sys) (now wake : Word) {ins : Ins} (h : Current sys.ectx sys.pos q c p)
    (hok : ins.Allowed sys p) :
    Ends sys.ectx (ins.exec sys.ectx now wake) wake c
      (ins.move sys.ectx sys.pos sys.ectx.wptr) := by
  have hrefl := OwnWrites.refl sys.ectx c
  have hsame : Others sys.ectx sys.ectx c sys.ectx.wptr := hrefl.others
  cases ins with
  | run => exact hok.elim
  | «local» =>
    refine Ends.moves (x := p) h.pos rfl rfl ?_
    rw [h.update_self]
    exact Ends.stays h.placed hsame
  | stl0 value =>
    refine Ends.moves (x := p) h.pos rfl rfl ?_
    rw [h.update_self]
    exact Ends.stays (h.setData _ value id (by decide)).placed
      (Others.of_ne fun v hv k => by simp [hv])
  | stl1 value =>
    refine Ends.moves (x := p) h.pos rfl rfl ?_
    rw [h.update_self]
    exact Ends.stays (h.setData _ value id (by decide)).placed
      (Others.of_ne fun v hv k => by simp [hv])
  | store address value =>
    refine Ends.moves (x := p) h.pos rfl rfl ?_
    rw [h.update_self]
    exact Ends.stays (h.setBytes _).placed hsame
  | ajw offset =>
    obtain ⟨hfree, hws, hnone⟩ := hok
    exact Ends.stays (h.placed_becomes hfree hws (Or.inr hnone) sys.ectx.iptr) hsame
  | startp ws offset =>
    obtain ⟨-, hws, hnone⟩ := hok
    exact Ends.stays (h.placed_insStartp hws hnone) (others_insStartp ws _)
  | endp parent =>
    obtain ⟨hfree, hws, hnone⟩ := hok
    exact h.insEndp_ends hfree hws hnone
  | stopp =>
    refine Ends.moves h.pos rfl rfl ?_
    have hw : OwnWrites sys.ectx (sys.ectx.set sys.ectx.wptr .iptr sys.ectx.iptr) c :=
      hrefl.set _ _ fun _ => by decide
    exact Ends.next rfl (h.parks_gone hok hw rfl (Or.inr rfl)) hw.others
  | input bytes chan data =>
    refine Ends.moves h.pos rfl rfl ?_
    exact h.chan_ends hok.1 .input data bytes (Or.inl rfl)
  | output bytes chan data =>
    refine Ends.moves h.pos rfl rfl ?_
    exact h.chan_ends hok.1 .output data (-bytes) (Or.inr rfl)
  | outbyte data chan =>
    refine Ends.moves h.pos rfl rfl ?_
    exact (((h.setData _ _ id (by decide)).setBytes _).chan_ends hok.1 .output _ _
      (Or.inr rfl)).weaken (Others.of_ne fun v hv k => by simp [hv]) rfl
  | outword data chan =>
    refine Ends.moves h.pos rfl rfl ?_
    exact (((h.setData _ _ id (by decide)).setBytes _).chan_ends hok.1 .output _ _
      (Or.inr rfl)).weaken (Others.of_ne fun v hv k => by simp [hv]) rfl
  | tin time =>
    refine Ends.moves h.pos rfl rfl ?_
    exact h.insTin_ends hok time
  | alt =>
    refine Ends.moves h.pos rfl rfl ?_
    exact Ends.stays (h.placed_insAlt hok) (Others.of_ne fun v hv k => by simp [insAlt, hv])
  | talt =>
    refine Ends.moves h.pos rfl rfl ?_
    exact Ends.stays (h.placed_insTalt hok) (Others.of_ne fun v hv k => by simp [insTalt, hv])
  | enbc guard chan =>
    obtain ⟨⟨timed, guards, rfl⟩, -⟩ := hok
    refine Ends.moves h.pos rfl rfl ?_
    exact Ends.stays (h.placed_insEnbc rfl guard chan) (others_insEnbc guard chan)
  | enbs guard =>
    obtain ⟨timed, guards, rfl⟩ := hok
    refine Ends.moves h.pos rfl rfl ?_
    exact Ends.stays (h.placed_insEnbs rfl guard) (others_insEnbs guard)
  | enbt guard timeout =>
    obtain ⟨guards, rfl⟩ := hok
    refine Ends.moves h.pos rfl rfl ?_
    exact Ends.stays (h.placed_insEnbt rfl guard timeout) (others_insEnbt guard timeout)
  | altwt =>
    obtain ⟨guards, rfl⟩ := hok
    refine Ends.moves h.pos rfl rfl ?_
    exact h.insAltwt_ends
  | taltwt =>
    obtain ⟨guards, rfl⟩ := hok
    refine Ends.moves h.pos rfl rfl ?_
    exact h.insTaltwt_ends
  | disc process guard chan =>
    obtain ⟨timed, guards, rfl, -⟩ := hok
    refine Ends.moves h.pos rfl rfl ?_
    exact Ends.stays (h.placed_insDisc rfl process guard chan)
      (Others.of_ne fun v hv k => mem_insDisc process guard chan (Or.inl hv))
  | diss process guard =>
    obtain ⟨timed, guards, rfl, -⟩ := hok
    refine Ends.moves h.pos rfl rfl ?_
    exact Ends.stays (h.placed_insDiss rfl process guard)
      (Others.of_ne fun v hv k => mem_insDiss process guard (Or.inl hv))
  | dist process guard timeout =>
    obtain ⟨guards, rfl, hguard⟩ := hok
    refine Ends.moves h.pos rfl rfl ?_
    obtain ⟨r, c', hr, hplaced, hc', ho⟩ := h.placed_insDist rfl process guard timeout
    exact Or.inl ⟨r.2, q, c', by rw [Ins.exec, hr]; rfl, hplaced, hc', ho⟩
  | altend =>
    obtain ⟨timed, rfl⟩ := hok
    refine Ends.moves h.pos rfl rfl ?_
    exact Ends.stays (h.placed_insAltend rfl) others_insAltend

/-! ## Steps and runs -/

/-- What a step does to another process: it may become ready, or the walk takes it off the timer
queue, when its time is not after the reading of the clock. -/
def Passes (s t : Ectx) (c c' : List Word) (wake v : Word) : Prop :=
  (t.mem v .time = s.mem v .time ∧ (v ∉ c → t.mem v .tlink = s.mem v .tlink) ∧
    (v ∈ c' ↔ v ∈ c) ∧ (t.mem v .state = s.mem v .state ∨ t.mem v .state = ready)) ∨
  (v ∈ c ∧ v ∉ c' ∧ timeAfter (s.mem v .time) wake = false ∧ t.mem v .tlink = timeSet ∧
    t.mem v .time = wake ∧ t.mem v .state = ready)

/-- **The walk of `run_next_on_queue`**, seen by one process. -/
theorem Rescheduled.passes {q' c' gone : List Word} (h : Rescheduled s t now q c q' c' gone)
    (hnodup : c.Nodup) (v : Word) : Passes s t c c' now v := by
  by_cases hv : v ∈ gone
  · obtain ⟨htlink, htime, hstate⟩ := h.expired v hv
    refine Or.inr ⟨?_, fun hc' => ?_, ?_, htlink, htime, hstate⟩
    · rw [h.split]
      exact List.mem_append_left _ hv
    · rw [h.split] at hnodup
      exact (List.nodup_append.mp hnodup).2.2 v hv v hc' rfl
    · have hdue := h.due v hv
      simpa [Ectx.due] using hdue
  · have hkeep : ∀ k, k ≠ .link → t.mem v k = s.mem v k :=
      fun k hk => h.keep v k hk fun e => absurd e hv
    refine Or.inl ⟨hkeep _ (by decide), fun _ => hkeep _ (by decide), ?_,
      Or.inl (hkeep _ (by decide))⟩
    rw [h.split, List.mem_append]
    exact ⟨Or.inr, fun e => e.resolve_left hv⟩

/-- After data of its own, and links of the timer queue. -/
theorem Others.passes {u : Ectx} {c₁ c' : List Word} {w v : Word} (ho : Others s u c w)
    (hv : v ≠ w) (hc : v ∈ c₁ ↔ v ∈ c) (h : Passes u t c₁ c' now v) : Passes s t c c' now v := by
  obtain ⟨htime, htlink, hstate⟩ := ho v hv
  rcases h with ⟨htime', htlink', hc', hstate'⟩ | ⟨hin, hout, hdue, hset, htime', hstate'⟩
  · refine Or.inl ⟨htime'.trans htime, fun e => (htlink' (fun e' => e (hc.mp e'))).trans (htlink e),
      hc'.trans hc, ?_⟩
    rcases hstate' with e | e
    · exact hstate.imp e.trans e.trans
    · exact Or.inr e
  · exact Or.inr ⟨hc.mp hin, hout, htime ▸ hdue, hset, htime', hstate'⟩

theorem away_self (h : s.wptr = notProcess) : away s = s := by
  cases s
  cases h
  rfl

/-- What an instruction may ask of the state does not depend on the instruction pointer. -/
theorem allowed_iptr {sys : Sys} {ip : Word} {ins : Ins} :
    ins.Allowed ⟨{ sys.ectx with iptr := ip }, sys.pos⟩ p ↔ ins.Allowed sys p := by
  cases ins <;> exact Iff.rfl

/-- The state an instruction begins in. -/
theorem Placed.begins {sys : Sys} (h : Placed sys.ectx sys.pos q c) (ip : Word) :
    Placed { sys.ectx with iptr := ip } sys.pos q c :=
  ⟨h.run, ⟨h.pending.linked, h.pending.next⟩, h.current, h.workspace, h.sits, h.held⟩

/-- The current process, and what it may execute. -/
theorem StepOk.current {sys : Sys} {act : Act} (hok : StepOk sys act)
    (h : Placed sys.ectx sys.pos q c) (hne : sys.ectx.wptr ≠ notProcess) :
    ∃ p, Current { sys.ectx with iptr := act.iptr } sys.pos q c p ∧
      act.ins.Allowed ⟨{ sys.ectx with iptr := act.iptr }, sys.pos⟩ p := by
  rw [StepOk, if_neg hne] at hok
  obtain ⟨p, hp, hallowed⟩ := hok
  exact ⟨p, ⟨h.begins act.iptr, hp, hne⟩, allowed_iptr.mpr hallowed⟩

/-- **A step of a well-formed program** is taken, and keeps everybody in place. -/
theorem step_placed {sys : Sys} {act : Act} (h : Placed sys.ectx sys.pos q c)
    (hok : StepOk sys act) :
    ∃ sys' q' c', step sys act = some sys' ∧ Placed sys'.ectx sys'.pos q' c' ∧
      ∀ v, v ≠ sys.ectx.wptr ∨ sys.ectx.wptr = notProcess →
        Passes sys.ectx sys'.ectx c c' act.wake v := by
  obtain ⟨s, hs⟩ : ∃ s : Ectx, s = { sys.ectx with iptr := act.iptr } := ⟨_, rfl⟩
  have hplaced : Placed s sys.pos q c := hs ▸ h.begins act.iptr
  have hwptr : s.wptr = sys.ectx.wptr := by rw [hs]
  have hpass : ∀ {t : Ectx} {c' : List Word} {v : Word}, Passes s t c c' act.wake v →
      Passes sys.ectx t c c' act.wake v := fun h => by
    rw [hs] at h
    exact h
  have hstep : step sys act = (act.ins.exec s act.now act.wake).map fun s' =>
      ⟨s', act.ins.move s sys.pos s.wptr⟩ := by rw [hs]; rfl
  by_cases hidle : sys.ectx.wptr = notProcess
  · rw [StepOk, if_pos hidle] at hok
    rw [hok] at hstep
    obtain ⟨r, q', c', gone, hr, hresch, hplaced'⟩ := Placed.next (s := s) act.wake
      (by rw [away_self (hwptr.trans hidle)]; exact hplaced)
    refine ⟨⟨r.2, sys.pos⟩, q', c', ?_, hplaced', fun v _ =>
      hpass (hresch.passes h.pending.nodup v)⟩
    rw [hstep, Ins.exec, hr]
    rfl
  · obtain ⟨p, hcur, hallowed⟩ := hok.current h hidle
    rw [← hs] at hcur hallowed
    have hends := exec_ends ⟨s, sys.pos⟩ act.now act.wake hcur hallowed
    rcases hends with ⟨t, q', c', hr, hplaced', hc', ho⟩ | ⟨t, q', c', hr, hparked, hc', ho⟩
    · refine ⟨⟨t, _⟩, q', c', by rw [hstep, hr]; rfl, hplaced', fun v hv => ?_⟩
      have hv' : v ≠ s.wptr := hwptr ▸ hv.resolve_right hidle
      obtain ⟨htime, htlink, hstate⟩ := ho v hv'
      exact hpass (Or.inl ⟨htime, htlink, hc' v hv', hstate⟩)
    · obtain ⟨r, q'', c'', gone, hr', hresch, hplaced'⟩ := hparked.next act.wake
      refine ⟨⟨r.2, _⟩, q'', c'', by rw [hstep, hr, hr']; rfl, hplaced', fun v hv => ?_⟩
      have hv' : v ≠ s.wptr := hwptr ▸ hv.resolve_right hidle
      exact hpass (ho.passes hv' (hc' v hv') (hresch.passes hparked.pending.nodup v))

/-- The state before the first step: one process, and nobody else. -/
structure Starts (sys : Sys) : Prop where
  ne : IsWorkspace sys.ectx.wptr
  pos : sys.pos = Function.update (fun _ => none) sys.ectx.wptr (some .plain)
  fptr : sys.ectx.fptr = notProcess
  tptr : sys.ectx.tptr = notProcess
  chans : ∀ k, sys.ectx.chan k = notProcess

theorem Starts.placed {sys : Sys} (h : Starts sys) : Placed sys.ectx sys.pos [] [] := by
  refine ⟨Fifo.nil h.fptr, ⟨h.tptr, fun e => absurd h.tptr e⟩, List.not_mem_nil, fun w hw => ?_,
    fun w => ?_, fun k => Or.inl (h.chans k)⟩
  · rw [h.pos] at hw
    by_cases e : w = sys.ectx.wptr
    · exact e ▸ h.ne
    · rw [Function.update_of_ne e] at hw
      exact absurd rfl hw
  · rw [h.pos]
    by_cases e : w = sys.ectx.wptr
    · rw [e, Function.update_self]
      exact ⟨Or.inr ⟨rfl, h.ne.1⟩, List.not_mem_nil⟩
    · rw [Function.update_of_ne e]
      exact ⟨fun h' => h'.elim List.not_mem_nil fun h'' => e h''.1, List.not_mem_nil⟩

/-- **In every run everybody is in place.** -/
theorem reach_placed {sys₀ sys : Sys} (h₀ : Starts sys₀)
    (h : Transition.Reach step StepOk sys₀ sys) : InPlace sys.ectx sys.pos := by
  refine h.invariant (I := fun sys => InPlace sys.ectx sys.pos) ⟨[], [], h₀.placed⟩ ?_
  rintro sys sys' act ⟨q, c, hplaced⟩ hok hstep
  obtain ⟨sys'', q', c', hstep', hplaced', -⟩ := step_placed hplaced hok
  obtain rfl := Option.some.inj (hstep.symm.trans hstep')
  exact ⟨q', c', hplaced'⟩

end Steps

end Tvm

end Kroc
