import Kroc.Ccsp.Beside

/-!
# Ccsp/Hands — batches that change hands

A batch that is allocated leaves the layout, and lies outside it until it is released or, with its
processes, pushed.
-/

namespace Kroc

namespace Ccsp

open Function (update)

variable {s m : Sched} {L : Layout} {b : BatchPtr} {w : Wptr} {l : List Wptr}
  {K : Finset BatchPtr} {W : Finset Wptr}

/-! ## Out of the layout and into it -/

/-- **An empty batch in hand leaves the layout.** -/
theorem Inv.disown (h : Inv s L) (hb : L.owner b = .held) (hempty : L.procs b = []) :
    Inv s (L.give b .unused) where
  null := by grind [h.null]
  fresh x hx := by grind [h.fresh x hx]
  dmem_pos := h.dmem_pos
  laundry := h.laundry
  free := h.free
  mem_free x := by grind [h.mem_free x]
  queue := h.queue
  mem_queue n x := by grind [h.mem_queue n x]
  pending n x hx := h.pending n x (by grind)
  head := h.head
  clean x hx hq := h.clean x (by grind) (by grind)
  window n x hx := h.window n x (by grind)
  data n w hw hd := by grind [h.data n w hw hd]
  workspace := h.workspace
  mem_curb := h.mem_curb
  mem_procs := h.mem_procs
  curb := h.curb
  batch x hx := h.batch x (by grind)
  empty x hx := by
    have := h.empty x
    grind
  curbPrio := h.curbPrio
  queuedPrio n x hx := h.queuedPrio n x (by grind)
  pendingPrio n x hx := h.pendingPrio n x (by grind)
  pendingEmpty n x hx := h.pendingEmpty n x (by grind)
  queuedBit n x hx := h.queuedBit n x (by grind)
  pendingBit n x hx := h.pendingBit n x (by grind)

namespace Layout

/-- The batch `b` comes into hand with the processes `l`. -/
def adopt (L : Layout) (b : BatchPtr) (l : List Wptr) : Layout := { L with
  owner := update L.owner b .held
  place := fun w => if w ∈ l then .batch b else L.place w
  procs := update L.procs b l }

@[simp, grind =] theorem adopt_owner (L : Layout) (b x : BatchPtr) (l : List Wptr) :
    (L.adopt b l).owner x = if x = b then .held else L.owner x := Function.update_apply ..

@[simp, grind =] theorem adopt_place (L : Layout) (b : BatchPtr) (l : List Wptr) (w : Wptr) :
    (L.adopt b l).place w = if w ∈ l then .batch b else L.place w := rfl

@[simp, grind =] theorem adopt_procs (L : Layout) (b x : BatchPtr) (l : List Wptr) :
    (L.adopt b l).procs x = if x = b then l else L.procs x := Function.update_apply ..

@[simp, grind =] theorem adopt_curb (L : Layout) (b : BatchPtr) (l : List Wptr) :
    (L.adopt b l).curb = L.curb := rfl

@[simp, grind =] theorem adopt_queue (L : Layout) (b : BatchPtr) (l : List Wptr) :
    (L.adopt b l).queue = L.queue := rfl

@[simp, grind =] theorem adopt_free (L : Layout) (b : BatchPtr) (l : List Wptr) :
    (L.adopt b l).free = L.free := rfl

end Layout

/-- **A clean batch from outside comes into hand**, with its processes. -/
theorem Inv.adopt (h : Inv s L) (hpos : b ≠ 0) (hlt : b < s.dmem) (hb : L.owner b = .unused)
    (hclean : s.state b = .clean) (hholds : (s.batch b).Holds s.link l)
    (hws : ∀ w ∈ l, IsWorkspace w) (haway : ∀ w ∈ l, L.place w = .away) :
    Inv s (L.adopt b l) where
  null := by grind [h.null]
  fresh x hx := by
    have hxb : x ≠ b := fun e => absurd (e ▸ hx) (Nat.not_le.mpr hlt)
    grind [h.fresh x hx]
  dmem_pos := h.dmem_pos
  laundry := h.laundry
  free := h.free
  mem_free x := by grind [h.mem_free x]
  queue := h.queue
  mem_queue n x := by grind [h.mem_queue n x]
  pending n x hx := h.pending n x (by grind)
  head := h.head
  clean x hx hq := by
    by_cases hxb : x = b
    · exact hxb ▸ hclean
    · exact h.clean x (by grind) (by grind)
  window n x hx := h.window n x (by grind)
  data n w hw hd := by grind [h.data n w hw hd]
  workspace w hw := by
    by_cases hwl : w ∈ l
    · exact hws w hwl
    · exact h.workspace w (by grind)
  mem_curb w := by
    have := h.mem_curb w
    have := haway w
    grind
  mem_procs x w := by
    have := h.mem_procs x w
    have := haway w
    have := h.empty b (.inl hb)
    grind
  curb := h.curb
  batch x hx := by
    by_cases hxb : x = b
    · subst hxb
      simpa using hholds
    · simpa [hxb] using h.batch x (by grind)
  empty x hx := by
    have := h.empty x
    grind
  curbPrio := h.curbPrio
  queuedPrio n x hx := by
    have := h.queuedPrio n x (by grind)
    grind
  pendingPrio n x hx := by
    have := h.pendingPrio n x (by grind)
    grind
  pendingEmpty n x hx := by
    have := h.pendingEmpty n x (by grind)
    grind
  queuedBit n x hx := h.queuedBit n x (by grind)
  pendingBit n x hx := by
    have := h.pendingBit n x (by grind)
    grind

namespace Run

variable {r : Run}

/-- A batch allocated and taken out of the layout. -/
theorem HasLayout.allocateBatch (h : r.HasLayout L) :
    ∃ L', (r.withSched r.sched.allocateBatch.2).HasLayout L' ∧
      L'.owner r.sched.allocateBatch.1 = .unused := by
  obtain ⟨L₁, h₁, hheld, hempty, hgrown, hsame⟩ := h.inv.allocateBatch
  have hdid := hgrown.did h₁ h.attached hsame
  refine ⟨L₁.give r.sched.allocateBatch.1 .unused, {
    inv := h₁.disown hheld hempty
    attached := fun n => ?_
    stale := ?_
    mem_hand := fun x => ?_
    nodup_hand := h.nodup_hand
    hand := fun x hx => ?_
    enqueued := fun w => ?_ }, by simp⟩
  · have hn := hdid.attached n
    have hne : (r.sched.allocateBatch.2.rq n).pending ≠ r.sched.allocateBatch.1 := fun e => by
      rw [e, hheld] at hn
      exact absurd hn (by simp)
    show (L₁.give _ _).owner (r.sched.allocateBatch.2.rq n).pending = _
    rw [Layout.give_owner, if_neg hne]
    exact hn
  · show r.stale = true ↔ L₁.curb = none
    rw [hgrown.curb]
    exact h.stale
  · have hx := hdid.owner x
    have hfresh := hdid.fresh x
    show x ∈ r.hand ↔ _
    rw [h.mem_hand, Layout.give_owner]
    grind
  · show L₁.procs x ≠ [] ∧ ∀ v ∈ L₁.procs x, ∀ w ∈ L₁.procs x,
      r.sched.allocateBatch.2.prio v = r.sched.allocateBatch.2.prio w
    rw [hgrown.procs, hsame.prio]
    exact h.hand x hx
  · show r.enqueued w = true ↔ L₁.place w ≠ .away
    rw [hgrown.place]
    exact h.enqueued w

/-- **A batch is allocated for somebody outside**: it is clean, and it was not outside before. -/
theorem HasLayout.allocate_outside (h : r.HasLayout L) (ho : Outside K W r.sched L) :
    ∃ L', (r.withSched r.sched.allocateBatch.2).HasLayout L' ∧
      Outside (insert r.sched.allocateBatch.1 K) W r.sched.allocateBatch.2 L' ∧
      Untouched K W r.sched r.sched.allocateBatch.2 ∧ r.sched.allocateBatch.1 ≠ 0 ∧
      r.sched.allocateBatch.1 ∉ K ∧
      r.sched.allocateBatch.2.state r.sched.allocateBatch.1 = .clean ∧
      SameSched r.sched r.sched.allocateBatch.2 := by
  obtain ⟨L₀, h₀, hheld, -, -, hsame⟩ := h.inv.allocateBatch
  have hs := Spoilt.spoil ho
  have hp := h.overlay ho r.sched.spoil
  obtain ⟨hb, hfst⟩ := hp.inv.beside_allocateBatch (hs.outside hp.inv)
  have hnot := h.inv.allocateBatch_notMem ho
  obtain ⟨L', hL', hunused⟩ := hp.allocateBatch
  have hback : (r.sched.overlay K W r.sched.spoil).overlay K W r.sched = r.sched := by
    rw [Sched.overlay_overlay, Sched.overlay_self]
  have hone : r.sched.allocateBatch.1 = (r.sched.overlay K W r.sched.spoil).allocateBatch.1 := by
    have := hfst r.sched
    rwa [show (r.withSched (r.sched.overlay K W r.sched.spoil)).sched.overlay K W r.sched = r.sched
      from hback] at this
  have htwo : r.sched.allocateBatch.2 =
      (r.sched.overlay K W r.sched.spoil).allocateBatch.2.overlay K W r.sched := by
    have := hb.overlay r.sched
    rwa [show (r.withSched (r.sched.overlay K W r.sched.spoil)).sched.overlay K W r.sched = r.sched
      from hback] at this
  have hout := (hb.spoilt hs).outside hL'.inv
  refine ⟨L', ?_, ⟨fun x hx => ?_, fun x hx => ?_, hout.away⟩, ?_, h₀.ne_zero (by simp [hheld]),
    hnot,
    h₀.clean _ (by simp [hheld]) (by simp [hheld]), hsame⟩
  · have := hL'.overlay hout r.sched
    rw [htwo]
    exact this
  · rcases Finset.mem_insert.mp hx with rfl | hx
    · by_contra hle
      have := h₀.fresh _ (Nat.not_lt.mp hle)
      simp [hheld] at this
    · rw [htwo]
      exact hout.lt x hx
  · rcases Finset.mem_insert.mp hx with rfl | hx
    · rw [hone]
      exact hunused
    · exact hout.unused x hx
  · rw [htwo]
    exact untouched_overlay _ _

/-- **A clean batch from outside comes into hand**: its processes are enqueued now. -/
theorem HasLayout.adopt (h : r.HasLayout L) (ho : Outside K W r.sched L) (hb : b ∈ K) (hpos : b ≠ 0)
    (hclean : r.sched.state b = .clean) (hholds : (r.sched.batch b).Holds r.sched.link l)
    (hne : l ≠ []) (hws : ∀ w ∈ l, IsWorkspace w) (hl : ∀ w ∈ l, w ∈ W) {p : Word}
    (hprio : ∀ w ∈ l, r.sched.prio w = p) :
    HasLayout ⟨r.sched, r.stale, b :: r.hand, fun x => r.enqueued x || decide (x ∈ l)⟩
        (L.adopt b l) ∧
      Outside (K.erase b) (W \ l.toFinset) r.sched (L.adopt b l) := by
  have hunused := ho.unused b hb
  have hinv := h.inv.adopt hpos (ho.lt b hb) hunused hclean hholds hws fun w hw =>
    ho.away w (hl w hw)
  have hnew : b ∉ r.hand := fun hmem => by
    have := (h.mem_hand b).mp hmem
    simp [hunused] at this
  refine ⟨{
    inv := hinv
    attached := fun n => ?_
    stale := h.stale
    mem_hand := fun x => ?_
    nodup_hand := List.nodup_cons.mpr ⟨hnew, h.nodup_hand⟩
    hand := fun x hx => ?_
    enqueued := fun w => ?_ }, ⟨fun x hx => ?_, fun x hx => ?_, fun w hw => ?_⟩⟩
  · have hn := h.attached n
    have hxb : (r.sched.rq n).pending ≠ b := fun e => by simp [e, hunused] at hn
    show (L.adopt b l).owner (r.sched.rq n).pending = _
    rw [Layout.adopt_owner, if_neg hxb]
    exact hn
  · have := h.mem_hand x
    rw [List.mem_cons, Layout.adopt_owner]
    grind
  · rw [Layout.adopt_procs]
    split_ifs with hxb
    · exact ⟨hne, fun v hv w hw => (hprio v hv).trans (hprio w hw).symm⟩
    · exact h.hand x ((List.mem_cons.mp hx).resolve_left hxb)
  · have := h.enqueued w
    rw [Layout.adopt_place]
    by_cases hwl : w ∈ l
    · simp [hwl]
    · simpa [hwl] using this
  · exact ho.lt x (Finset.mem_of_mem_erase hx)
  · rw [Layout.adopt_owner, if_neg (Finset.ne_of_mem_erase hx)]
    exact ho.unused x (Finset.mem_of_mem_erase hx)
  · obtain ⟨hwW, hwl⟩ := Finset.mem_sdiff.mp hw
    rw [Layout.adopt_place, if_neg fun hmem => hwl (List.mem_toFinset.mpr hmem)]
    exact ho.away w hwW

theorem HasLayout.notEnqueued (h : r.HasLayout L) (ho : Outside K W r.sched L) :
    ∀ x ∈ W, r.enqueued x = false := fun x hx => by
  have := h.enqueued x
  simpa [ho.away x hx] using this

/-- **A batch from outside is pushed.** -/
theorem HasLayout.push_outside (h : r.HasLayout L) (ho : Outside K W r.sched L) (hb : b ∈ K)
    (hpos : b ≠ 0) (hclean : r.sched.state b = .clean)
    (hholds : (r.sched.batch b).Holds r.sched.link l) (hne : l ≠ [])
    (hws : ∀ w ∈ l, IsWorkspace w) (hl : ∀ w ∈ l, w ∈ W) {p : Word}
    (hprio : ∀ w ∈ l, r.sched.prio w = p) :
    ∃ L', HasLayout ⟨r.sched.pushBatch p b, r.stale, r.hand,
        fun x => r.enqueued x || decide (x ∈ l)⟩ L' ∧
      Outside (K.erase b) (W \ l.toFinset) (r.sched.pushBatch p b) L' ∧
      Untouched (K.erase b) (W \ l.toFinset) r.sched (r.sched.pushBatch p b) ∧
      (r.sched.pushBatch p b).id = r.sched.id := by
  obtain ⟨hadopt, hout⟩ := h.adopt ho hb hpos hclean hholds hne hws hl hprio
  have hfront : r.sched.prio (r.sched.batch b).fptr = p := by
    obtain ⟨q, hq, -⟩ := hholds.1.exists_pop fun hz => hne (hholds.1.null_iff.mp hz)
    exact hprio _ (by simp [hq])
  have hstep := Step.pushBatch (r := guard (W \ l.toFinset)
    ⟨r.sched, r.stale, b :: r.hand, fun x => r.enqueued x || decide (x ∈ l)⟩) (b := b)
      (by simp [guard])
  obtain ⟨L', hL', hout', huntouched, hid⟩ := hadopt.step_outside hout hstep
  have heq := unguard_guard (hadopt.notEnqueued hout) (r.sched.pushBatch p b)
    (r.sched.pushBatch p b) r.stale r.hand
  simp only [guard, hfront, List.erase_cons_head] at hL' hout' huntouched hid
  refine ⟨L', ?_, hout', huntouched, hid⟩
  rw [← heq]
  exact hL'

/-- **A process from outside is enqueued.** -/
theorem HasLayout.enqueue_outside (h : r.HasLayout L) (ho : Outside K W r.sched L)
    (hst : r.stale = false) (hw : w ∈ W) (hws : IsWorkspace w) {s' : Sched}
    (hs' : r.sched.enqueueProcess w = some s') :
    ∃ L', HasLayout ⟨s', r.stale, r.hand, update r.enqueued w true⟩ L' ∧
      Outside K (W.erase w) s' L' ∧ Untouched K (W.erase w) r.sched s' ∧ s'.id = r.sched.id := by
  have hout := ho.mono (Finset.Subset.refl K) (Finset.erase_subset w W)
  have hfree := h.notEnqueued ho
  have hnew : (r.guard (W.erase w)).enqueued w = false := by
    simp [guard, hfree w hw]
  obtain ⟨L', hL', hout', huntouched, hid⟩ := h.step_outside hout
    (Step.enqueueProcess (r := r.guard (W.erase w)) hst hws hnew hs')
  have heq := unguard_update (fun x hx => hfree x (Finset.mem_of_mem_erase hx))
    (Finset.notMem_erase w W) true s' s' r.stale r.hand
  refine ⟨L', ?_, hout', huntouched, hid⟩
  rw [← heq]
  exact hL'

/-- **An empty batch from outside is released**, whatever it is overwritten with. -/
theorem HasLayout.release_outside (h : r.HasLayout L) (ho : Outside K W r.sched L) (hb : b ∈ K)
    (hpos : b ≠ 0) {c : Batch} (hc : c.Holds r.sched.link []) :
    ∃ L', (r.withSched (Sched.releaseCleanBatch { r.sched with
        batch := update r.sched.batch b c, state := update r.sched.state b .clean } b)).HasLayout
          L' ∧
      Outside (K.erase b) W (Sched.releaseCleanBatch { r.sched with
        batch := update r.sched.batch b c, state := update r.sched.state b .clean } b) L' := by
  have hunused := ho.unused b hb
  have hover : ({ r.sched with
      batch := update r.sched.batch b c
      state := update r.sched.state b .clean } : Sched) =
        r.sched.overlay {b} ∅ { r.sched with
          batch := update r.sched.batch b c
          state := update r.sched.state b .clean } := by
    simp only [Sched.overlay, Finset.piecewise_singleton, Finset.piecewise_empty,
      Function.update_self, Function.update_eq_self]
  have hinv₁ := h.inv.overlay (ho.mono (Finset.singleton_subset_iff.mpr hb) (Finset.empty_subset W))
    { r.sched with
      batch := update r.sched.batch b c
      state := update r.sched.state b .clean }
  rw [← hover] at hinv₁
  have hadopt := hinv₁.adopt (l := []) hpos (ho.lt b hb) hunused (by simp) (by simpa using hc)
    (by simp) (by simp)
  have hrel := hadopt.release (b := b) (by simp) (by simp)
  refine ⟨_, {
    inv := hrel
    attached := fun n => ?_
    stale := h.stale
    mem_hand := fun x => ?_
    nodup_hand := h.nodup_hand
    hand := fun x hx => ?_
    enqueued := fun w => ?_ }, ⟨fun x hx => ?_, fun x hx => ?_, fun w hw => ?_⟩⟩
  · have hn := h.attached n
    have hxb : (r.sched.rq n).pending ≠ b := fun e => by simp [e, hunused] at hn
    show ((L.adopt b []).give b .free).owner (r.sched.rq n).pending = _
    rw [Layout.give_owner, if_neg hxb, Layout.adopt_owner, if_neg hxb]
    exact hn
  · have := h.mem_hand x
    show x ∈ r.hand ↔ ((L.adopt b []).give b .free).owner x = _
    rw [Layout.give_owner, Layout.adopt_owner]
    grind
  · have hxb : x ≠ b := fun e => by
      have := (h.mem_hand x).mp hx
      simp [e, hunused] at this
    show (L.adopt b []).procs x ≠ [] ∧ ∀ v ∈ (L.adopt b []).procs x, ∀ w ∈ (L.adopt b []).procs x, _
    rw [Layout.adopt_procs, if_neg hxb]
    exact h.hand x hx
  · show r.enqueued w = true ↔ (L.adopt b []).place w ≠ .away
    rw [Layout.adopt_place, if_neg List.not_mem_nil]
    exact h.enqueued w
  · exact ho.lt x (Finset.mem_of_mem_erase hx)
  · show ((L.adopt b []).give b .free).owner x = _
    rw [Layout.give_owner, if_neg (Finset.ne_of_mem_erase hx), Layout.adopt_owner,
      if_neg (Finset.ne_of_mem_erase hx)]
    exact ho.unused x (Finset.mem_of_mem_erase hx)
  · show (L.adopt b []).place w = _
    rw [Layout.adopt_place, if_neg List.not_mem_nil]
    exact ho.away w hw

end Run

end Ccsp

end Kroc
