import Kroc.Ccsp.QueueMoves

/-!
# Ccsp/Scheduling — the operations of the scheduler keep a layout

One lemma for each function of `sched.c` between `try_pull_from_runqueue` and `switch_priofinity`:
in which layout it leaves the memory, which process moved, and which batches are in its caller's
hands.
-/

namespace Kroc

namespace Ccsp

open Function (update)

variable {s : Sched} {L : Layout} {b : BatchPtr} {n : Prio} {w : Wptr}

/-! ## Priofinity words -/

theorem getElem_affinityMask {i : ℕ} (h : i < 32) : affinityMask[i] = decide (5 ≤ i) := by
  rw [show affinityMask = BitVec.allOnes 32 <<< 5 by decide, BitVec.getElem_shiftLeft,
    BitVec.getElem_allOnes]
  by_cases h5 : i < 5
  · simp [h5]
  · simp [h5, Nat.le_of_not_lt h5]

theorem pAffinity_of_not_pHasAffinity {x : Word} (h : ¬ pHasAffinity x) : pAffinity x = 0 := by
  have hz : x &&& affinityMask = 0 := not_not.mp h
  rw [pAffinity, hz]
  rfl

theorem pAffinity_or_build (x : Word) : pAffinity (x ||| buildPriofinity 0 1) = pAffinity x := by
  have hbuild : buildPriofinity 0 1 &&& affinityMask = 0#32 := by decide
  rw [pAffinity, pAffinity, BitVec.and_comm, BitVec.and_or_distrib_left, BitVec.and_comm _ x,
    BitVec.and_comm _ (buildPriofinity 0 1), hbuild, BitVec.or_zero]

theorem or_build_ne_zero (x : Word) : x ||| buildPriofinity 0 1 ≠ 0 := by
  intro h
  have hbit := congrArg (fun y : Word => y[0]) h
  have hbuild : (buildPriofinity 0 1)[0] = true := by decide
  simp only [BitVec.getElem_or, hbuild, Bool.or_true] at hbit
  exact absurd hbit (by decide)

/-- **Priority and affinity determine the priofinity word.** -/
theorem priofinity_ext {x y : Word} (hp : pPriority x = pPriority y)
    (ha : pAffinity x = pAffinity y) : x = y := by
  have hlow : x &&& priorityMask = y &&& priorityMask := by
    apply BitVec.eq_of_toNat_eq
    have hval := congrArg Fin.val hp
    exact hval
  have hshift : ∀ z : Word, pAffinity z <<< 5 = z &&& affinityMask := by
    intro z
    ext i hi
    by_cases h5 : i < 5
    · simp [h5, getElem_affinityMask hi, Nat.not_le_of_lt h5]
    · have hsub : 5 + (i - 5) = i := by omega
      simp [pAffinity, h5, hsub, hi]
  have hhigh : x &&& affinityMask = y &&& affinityMask := by rw [← hshift, ← hshift, ha]
  have hsplit : ∀ z : Word, (z &&& affinityMask) ||| (z &&& priorityMask) = z := by
    intro z
    rw [← BitVec.and_or_distrib_left, show affinityMask ||| priorityMask = BitVec.allOnes 32 by
      decide, BitVec.and_allOnes]
  rw [← hsplit x, ← hsplit y, hlow, hhigh]

theorem Uniform.eq {prio : Wptr → Word} {l : List Wptr} (h : Uniform prio n l) {v w : Wptr}
    (hv : v ∈ l) (hw : w ∈ l) : prio v = prio w :=
  priofinity_ext ((h v hv).1.trans (h w hw).1.symm) ((h w hw).2 v hv)

/-! ## Pending batches -/

/-- Every run queue has a pending batch, which nobody works on. -/
def Attached (s : Sched) (L : Layout) : Prop := ∀ n, L.owner (s.rq n).pending = .pending n

theorem Inv.not_pending (h : Inv s L) {x : BatchPtr} (hx : x ≠ (s.rq n).pending) :
    L.owner x ≠ .pending n := fun hp =>
  hx (h.pending n x hp).symm

/-- Members a pending batch of priofinity `p` in queue `n` may have. -/
def Suits (prio : Wptr → Word) (n : Prio) (p : Word) (l : List Wptr) : Prop :=
  ∀ w ∈ l, pPriority (prio w) = n ∧ pAffinity (prio w) = pAffinity p

theorem Suits.uniform {prio : Wptr → Word} {p : Word} {l : List Wptr} (h : Suits prio n p l) :
    Uniform prio n l := fun w hw => ⟨(h w hw).1, fun v hv => (h v hv).2.trans (h w hw).2.symm⟩

/-- **`enqueue_to_batch (rq->pending, Wptr)`**, the pending batch being in hand. -/
theorem Inv.enqueueToPending (h : Inv s L) (hb : (s.rq n).pending = b) (hheld : L.owner b = .held)
    (hnone : ∀ x, L.owner x ≠ .pending n) (hw : IsWorkspace w) (haway : L.place w = .away)
    {p : Word} (hp : p ≠ 0) (hsuits : Suits s.prio n p (w :: L.procs b)) :
    Inv (s.enqueueToPending p n w) ((L.join b w).give b (.pending n)) := by
  subst hb
  have hset := h.setRq hnone { s.rq n with priofinity := p } rfl rfl
  have hbit := (hset.enqueueToBatch hheld hw haway).setBit n
  have hsuits' : Suits s.prio n p ((L.join (s.rq n).pending w).procs (s.rq n).pending) := by
    intro v hv
    simp only [Layout.join_procs, if_true, List.mem_append, List.mem_singleton] at hv
    exact hsuits v (List.mem_cons.mpr hv.symm)
  have hattach := hbit.attach (b := (s.rq n).pending) (n := n) hheld (by simp) (by simpa using hp)
    (fun v hv => by simpa using hsuits' v hv) (fun _ => by simp)
  have hslot : ((s.setRq n { s.rq n with priofinity := p }).rq n).pending = (s.rq n).pending := by
    simp
  unfold Sched.enqueueToPending
  dsimp only
  rw [hslot]
  exact { hattach with }

/-- **What an operation leaves to its caller**: a layout in which every queue has its pending batch,
the batches `P` new in hand, the batches `Q` no longer, and the others as they were. -/
structure Did (s : Sched) (L : Layout) (s' : Sched) (L' : Layout) (P Q : BatchPtr → Prop) :
    Prop where
  inv : Inv s' L'
  attached : Attached s' L'
  owner : ∀ x, L'.owner x = .held ↔ P x ∨ L.owner x = .held ∧ ¬ Q x
  fresh : ∀ x, P x → L.owner x ≠ .held
  procs : ∀ x, L.owner x = .held → ¬ Q x → L'.procs x = L.procs x
  prio : s'.prio = s.prio

/-- The pending batch of `n`, on its way to the run queue, is replaced by an empty one in hand. -/
theorem Inv.replacePending {s₁ : Sched} (h : Inv s L) (hattached : Attached s L)
    (h₁ : Inv s₁ ((L.give (s.rq n).pending .held).append n (s.rq n).pending))
    (hslot : ∀ m, (s₁.rq m).pending = (s.rq m).pending) :
    ∃ L' b, (s₁.allocateBatch.2.setRq n
        { s₁.allocateBatch.2.rq n with pending := s₁.allocateBatch.1 } |>.rq n).pending = b ∧
      Inv (s₁.allocateBatch.2.setRq n
        { s₁.allocateBatch.2.rq n with pending := s₁.allocateBatch.1 }) L' ∧
      L'.owner b = .held ∧ L'.procs b = [] ∧ L.owner b ≠ .held ∧
      (∀ x, L'.owner x ≠ .pending n) ∧
      (∀ x, x ≠ b → (L'.owner x = .held ↔ L.owner x = .held)) ∧
      (∀ m, m ≠ n → L'.owner (s.rq m).pending = .pending m ∧
        (s₁.allocateBatch.2.rq m).pending = (s.rq m).pending) ∧
      L'.place = L.place ∧ L'.procs = L.procs ∧ L'.curb = L.curb ∧
      SameSched s₁ s₁.allocateBatch.2 := by
  obtain ⟨L₂, h₂, hheld, hempty, hgrown, hsame⟩ := h₁.allocateBatch
  have hnone : ∀ x, L₂.owner x ≠ .pending n := fun x hx => by
    have := (hgrown.owner x _ (by simp) (by simp)).mp hx
    have := h.not_pending (x := x) (n := n)
    grind
  refine ⟨L₂, s₁.allocateBatch.1, by simp, h₂.setRq hnone _ rfl rfl, hheld, hempty, ?_, hnone,
    fun x hx => ?_, fun m hm => ⟨?_, ?_⟩, hgrown.place, hgrown.procs, hgrown.curb, hsame⟩
  · have := hgrown.fresh _ rfl
    have := hattached n
    grind
  · rw [hgrown.owner x _ (by simp) (by simp)]
    have := hattached n
    grind
  · rw [hgrown.owner _ _ (by simp) (by simp)]
    have := hattached m
    have := hattached n
    grind
  · rw [hsame.rq, hslot]

/-! ## `enqueue_process` -/

theorem enqueueToPending_pending (s : Sched) (p : Word) (n m : Prio) (w : Wptr) :
    ((s.enqueueToPending p n w).rq m).pending = (s.rq m).pending := by
  unfold Sched.enqueueToPending
  dsimp only
  rw [Sched.setRq_rq]
  split_ifs with hm
  · rw [hm]
  · rfl

/-- A far process joins the pending batch of its queue when it suits those that are there. -/
theorem Inv.enqueueFar_of_suits (h : Inv s L) (hattached : Attached s L) (hw : IsWorkspace w)
    (haway : L.place w = .away) {p : Word} (hp : p ≠ 0)
    (hsuits : Suits s.prio n p (w :: L.procs (s.rq n).pending)) :
    ∃ L' b, Did s L (s.enqueueToPending p n w) L' (fun _ => False) (fun _ => False) ∧
      L'.place = update L.place w (.batch b) ∧ L'.curb = L.curb := by
  have hb := hattached n
  have hnone : ∀ x, (L.give (s.rq n).pending .held).owner x ≠ .pending n := fun x => by
    have := h.not_pending (x := x) (n := n)
    grind
  have henq := (h.hold hb).enqueueToPending rfl (by simp) hnone hw haway hp hsuits
  refine ⟨_, (s.rq n).pending, ⟨henq, fun m => ?_, fun x => ?_, by simp, fun x hx _ => ?_, rfl⟩,
    rfl, rfl⟩
  · rw [enqueueToPending_pending]
    have := hattached m
    simp only [Layout.give_owner, Layout.join_owner]
    grind
  · simp only [Layout.give_owner, Layout.join_owner]
    grind
  · have hxb : x ≠ (s.rq n).pending := fun hxb => by simp [hxb, hb] at hx
    simp [hxb]

/-- A far process joins a new pending batch of its queue when the old one went to the queue. -/
theorem Inv.enqueueFar_of_replaced {s₁ : Sched} (h : Inv s L) (hattached : Attached s L)
    (h₁ : Inv s₁ ((L.give (s.rq n).pending .held).append n (s.rq n).pending))
    (hslot : ∀ m, (s₁.rq m).pending = (s.rq m).pending) (hprio : s₁.prio = s.prio)
    (hw : IsWorkspace w) (haway : L.place w = .away) {p : Word} (hp : p ≠ 0)
    (hsuits : Suits s.prio n p [w]) :
    ∃ L' b, Did s L ((s₁.allocateBatch.2.setRq n
        { s₁.allocateBatch.2.rq n with pending := s₁.allocateBatch.1 }).enqueueToPending p n w) L'
        (fun _ => False) (fun _ => False) ∧
      L'.place = update L.place w (.batch b) ∧ L'.curb = L.curb := by
  obtain ⟨L₂, b, hpend, h₂, hheld, hempty, hnew, hnone, hhands, hothers, hplace, hprocs, hcurb,
    hsame⟩ := h.replacePending hattached h₁ hslot
  have hprio₂ : s₁.allocateBatch.2.prio = s.prio := hsame.prio.trans hprio
  have henq := h₂.enqueueToPending hpend hheld hnone hw (by rw [hplace]; exact haway) hp
    (by rw [hempty, Sched.setRq_prio, hprio₂]; exact hsuits)
  refine ⟨_, b, ⟨henq, fun m => ?_, fun x => ?_, by simp, fun x hx _ => ?_, hprio₂⟩, ?_, hcurb⟩
  · rw [enqueueToPending_pending]
    by_cases hm : m = n
    · subst hm
      rw [hpend]
      simp
    · obtain ⟨ho, hp'⟩ := hothers m hm
      rw [Sched.setRq_rq, if_neg hm, hp']
      grind
  · by_cases hxb : x = b
    · subst hxb
      simpa using hnew
    · simpa [hxb] using hhands x hxb
  · have hxb : x ≠ b := fun hxb => hnew (hxb ▸ hx)
    simp [hxb, hprocs]
  · show update L₂.place w _ = _
    rw [hplace]

theorem build_zero_one : ¬ pHasAffinity (buildPriofinity 0 1) ∧ buildPriofinity 0 1 ≠ 0 := by decide

/-- The processes of a pending batch suit what its run queue remembers of them. -/
theorem Attached.suits (h : Attached s L) (hinv : Inv s L) (n : Prio) :
    Suits s.prio n (s.rq n).priofinity (L.procs (s.rq n).pending) :=
  hinv.pendingPrio n _ (h n)

/-- What adding to a run queue leaves alone, for the caller. -/
theorem addToRunqueue_same (s : Sched) (p : Word) (n : Prio) (b : BatchPtr) :
    (∀ m, ((s.addToRunqueue p n b).rq m).pending = (s.rq m).pending) ∧
      (s.addToRunqueue p n b).prio = s.prio ∧ (s.addToRunqueue p n b).curb = s.curb ∧
      (s.addToRunqueue p n b).priofinity = s.priofinity := by
  unfold Sched.addToRunqueue
  split_ifs
  · unfold Sched.addAffineBatchToRunqueue
    refine ⟨fun m => (Sched.addToLocalRunqueue_slot _ n m b).2, ?_, ?_, ?_⟩ <;>
      rw [Sched.addToLocalRunqueue_same]
  · unfold Sched.addToVisibleRunqueue
    dsimp only
    refine ⟨fun m => ?_, ?_, ?_, ?_⟩
    · rw [(Sched.addToLocalRunqueue_slot _ n m b).2]
      split_ifs <;> rfl
    all_goals
      rw [Sched.addToLocalRunqueue_same]
      dsimp only
      split_ifs <;> rfl

theorem Inv.retire (h : Inv s L) (hattached : Attached s L) (hne : (s.rq n).priofinity ≠ 0)
    (p : Word) :
    Inv (s.addToRunqueue p n (s.rq n).pending)
      ((L.give (s.rq n).pending .held).append n (s.rq n).pending) := by
  have hb := hattached n
  have hprocs : L.procs (s.rq n).pending ≠ [] := fun hz => hne ((h.pendingEmpty n _ hb).mpr hz)
  exact (h.hold hb).addToRunqueue (by simp) hprocs (hattached.suits h n).uniform
    (h.pendingBit n _ hb hprocs) p

theorem Inv.enqueueFarProcess (h : Inv s L) (hattached : Attached s L) (hw : IsWorkspace w)
    (haway : L.place w = .away) {s' : Sched}
    (hs' : s.enqueueFarProcess (s.prio w) w = some s') :
    ∃ L' b, Did s L s' L' (fun _ => False) (fun _ => False) ∧
      L'.place = update L.place w (.batch b) ∧ L'.curb = L.curb := by
  generalize hp : s.prio w = p at hs'
  have hself : ∀ q, pAffinity p = pAffinity q → Suits s.prio (pPriority p) q [w] := by
    intro q hq v hv
    rw [List.mem_singleton.mp hv, hp]
    exact ⟨rfl, hq⟩
  have hcons : ∀ q, pAffinity p = pAffinity q → Suits s.prio (pPriority p) q
      (L.procs (s.rq (pPriority p)).pending) →
        Suits s.prio (pPriority p) q (w :: L.procs (s.rq (pPriority p)).pending) := by
    intro q hq hold v hv
    rcases List.mem_cons.mp hv with rfl | hv
    · exact hself q hq v (by simp)
    · exact hold v hv
  have hsuits := hattached.suits h (pPriority p)
  obtain ⟨hslot, hprio, -, -⟩ := addToRunqueue_same s (s.rq (pPriority p)).priofinity (pPriority p)
    (s.rq (pPriority p)).pending
  unfold Sched.enqueueFarProcess at hs'
  dsimp only at hs'
  by_cases haff : pHasAffinity p
  · rw [if_neg (not_not.mpr haff)] at hs'
    have hp₀ : p ≠ 0 := by
      rintro rfl
      exact haff (by decide)
    split_ifs at hs' with hid hold
    · obtain rfl := Option.some.inj hs'
      exact h.enqueueFar_of_replaced hattached (h.retire hattached hold.1 _) hslot hprio hw haway
        hp₀ (hself p rfl)
    · obtain rfl := Option.some.inj hs'
      refine h.enqueueFar_of_suits hattached hw haway hp₀ (hcons p rfl fun v hv => ?_)
      refine ⟨(hsuits v hv).1,
        (hsuits v hv).2.trans (not_not.mp fun hne => hold ⟨fun hz => ?_, hne⟩)⟩
      rw [(h.pendingEmpty _ _ (hattached _)).mp hz] at hv
      exact absurd hv (List.not_mem_nil)
  · rw [if_pos haff] at hs'
    have hz : pAffinity p = pAffinity (buildPriofinity 0 1) := by
      rw [pAffinity_of_not_pHasAffinity haff, pAffinity_of_not_pHasAffinity build_zero_one.1]
    split_ifs at hs' with hold
    · obtain rfl := Option.some.inj hs'
      have hne : (s.rq (pPriority p)).priofinity ≠ 0 := fun h₀ => by
        rw [h₀] at hold
        exact hold (by decide)
      have haffine : s.addToRunqueue (s.rq (pPriority p)).priofinity (pPriority p)
          (s.rq (pPriority p)).pending =
            s.addAffineBatchToRunqueue (pPriority p) (s.rq (pPriority p)).pending := if_pos hold
      have hretire := h.retire hattached hne (s.rq (pPriority p)).priofinity
      rw [haffine] at hretire hslot hprio
      exact h.enqueueFar_of_replaced hattached hretire hslot hprio hw haway build_zero_one.2
        (hself _ hz)
    · obtain rfl := Option.some.inj hs'
      refine h.enqueueFar_of_suits hattached hw haway build_zero_one.2 (hcons _ hz fun v hv => ?_)
      refine ⟨(hsuits v hv).1, (hsuits v hv).2.trans ?_⟩
      rw [pAffinity_of_not_pHasAffinity hold, pAffinity_of_not_pHasAffinity build_zero_one.1]

/-- **`enqueue_process` puts the process on exactly one chain**, the current batch or a pending
one. -/
theorem Inv.enqueueProcess (h : Inv s L) (hattached : Attached s L) {l : List Wptr}
    (hl : L.curb = some l) (hw : IsWorkspace w) (haway : L.place w = .away) {s' : Sched}
    (hs' : s.enqueueProcess w = some s') :
    ∃ L' q, q ≠ .away ∧ Did s L s' L' (fun _ => False) (fun _ => False) ∧
      L'.place = update L.place w q ∧ L'.curb ≠ none := by
  unfold Sched.enqueueProcess at hs'
  dsimp only at hs'
  split_ifs at hs' with hp
  · obtain rfl := Option.some.inj hs'
    have henq := h.enqueueCurb hl hw haway hp.symm
    exact ⟨_, .curb, by simp, ⟨henq, hattached, by simp [Layout.joinCurb], by simp,
      fun _ _ _ => rfl, rfl⟩, rfl, by simp [Layout.joinCurb]⟩
  · obtain ⟨L', b, hdid, hplace, hcurb⟩ := h.enqueueFarProcess hattached hw haway hs'
    exact ⟨L', .batch b, by simp, hdid, hplace, by simp [hcurb, hl]⟩

/-! ## `push_batch` and `pick_batch` -/

/-- **`push_batch` hands the batch to the run queue of its priority.** -/
theorem Inv.pushBatch (h : Inv s L) (hattached : Attached s L) (hb : L.owner b = .held)
    (hne : L.procs b ≠ []) {p : Word} (hp : ∀ w ∈ L.procs b, s.prio w = p) :
    ∃ L', Did s L (s.pushBatch p b) L' (fun _ => False) (· = b) ∧ L'.place = L.place ∧
      L'.curb = L.curb ∧ (s.pushBatch p b).curb = s.curb ∧
      (s.pushBatch p b).priofinity = s.priofinity := by
  have hpend := hattached (pPriority p)
  have hbp : b ≠ (s.rq (pPriority p)).pending := fun hbp => by simp [← hbp, hb] at hpend
  have hnone : ∀ x, (L.give (s.rq (pPriority p)).pending .held).owner x ≠ .pending (pPriority p) :=
    fun x => by
      have := h.not_pending (x := x) (n := pPriority p)
      grind
  have hsuits : Suits s.prio (pPriority p) (p ||| buildPriofinity 0 1) (L.procs b) := by
    intro w hw
    rw [hp w hw, pAffinity_or_build]
    exact ⟨rfl, rfl⟩
  have hattach : ∀ m x, m ≠ pPriority p → x = (s.rq m).pending →
      x ≠ b ∧ x ≠ (s.rq (pPriority p)).pending := by
    rintro m x hm rfl
    have hm' := hattached m
    constructor
    · intro hx
      simp [hx, hb] at hm'
    · intro hx
      rw [hx, hpend] at hm'
      exact hm (by simpa using hm'.symm)
  unfold Sched.pushBatch
  dsimp only
  by_cases hz : (s.rq (pPriority p)).priofinity = 0
  · rw [if_neg (not_not.mpr hz)]
    have hempty := (h.pendingEmpty _ _ hpend).mp hz
    have hrel := (h.hold hpend).release (by simp) hempty
    have hnone' : ∀ x, ({ (L.give (s.rq (pPriority p)).pending .held).give
        (s.rq (pPriority p)).pending .free with
        free := (s.rq (pPriority p)).pending :: (L.give (s.rq (pPriority p)).pending .held).free } :
          Layout).owner x ≠ .pending (pPriority p) := fun x => by
      have := hnone x
      grind
    have hset := (hrel.setRq hnone' { s.rq (pPriority p) with
      priofinity := p ||| buildPriofinity 0 1
      pending := b } rfl rfl).setBit (pPriority p)
    have hfin := hset.attach (b := b) (n := pPriority p) (by simpa [hbp] using hb) (by simp)
      (by simpa using iff_of_false (or_build_ne_zero p) hne)
      (fun w hw => by simpa using hsuits w hw)
      (fun _ => by simp)
    refine ⟨_, ⟨hfin, fun m => ?_, fun x => ?_, by simp, fun x hx hxb => rfl, rfl⟩, rfl, rfl, rfl,
      rfl⟩
    · by_cases hm : m = pPriority p
      · subst hm
        simp
      · obtain ⟨h₁, h₂⟩ := hattach m _ hm rfl
        simpa [hm, h₁, h₂] using hattached m
    · simp only [Layout.give_owner]
      grind
  · rw [if_pos hz]
    have hprocs : L.procs (s.rq (pPriority p)).pending ≠ [] := fun hnil =>
      hz ((h.pendingEmpty _ _ hpend).mpr hnil)
    have hbit := h.pendingBit _ _ hpend hprocs
    have hset := (h.hold hpend).setRq hnone { s.rq (pPriority p) with
      priofinity := p ||| buildPriofinity 0 1
      pending := b } rfl rfl
    have hfin := (hset.attach (b := b) (n := pPriority p) (by simpa [hbp] using hb) (by simp)
      (by simpa using iff_of_false (or_build_ne_zero p) hne)
      (fun w hw => by simpa using hsuits w hw)
      (fun _ => hbit)).addToRunqueue (b := (s.rq (pPriority p)).pending) (n := pPriority p)
        (by simp [hbp.symm]) hprocs (hattached.suits h _).uniform hbit
        (s.rq (pPriority p)).priofinity
    obtain ⟨hslot, hprio, hcurb, hpf⟩ := addToRunqueue_same (s.setRq (pPriority p)
      { s.rq (pPriority p) with priofinity := p ||| buildPriofinity 0 1, pending := b })
      (s.rq (pPriority p)).priofinity (pPriority p) (s.rq (pPriority p)).pending
    refine ⟨_, ⟨hfin, fun m => ?_, fun x => ?_, by simp, fun x hx hxb => rfl, hprio⟩, rfl, rfl,
      hcurb, hpf⟩
    · rw [hslot]
      by_cases hm : m = pPriority p
      · subst hm
        simp [hbp]
      · obtain ⟨h₁, h₂⟩ := hattach m _ hm rfl
        simpa [hm, h₁, h₂] using hattached m
    · simp only [Layout.append_owner, Layout.give_owner]
      grind

/-- What pulling a queued batch leaves alone, for the caller. -/
theorem tryPull_same (s : Sched) (n : Prio) (hf : (s.rq n).fptr ≠ 0) :
    (∀ m, ((s.tryPullFromRunqueue n).2.rq m).pending = (s.rq m).pending) ∧
      (s.tryPullFromRunqueue n).2.prio = s.prio := by
  have hslot : ∀ m, ((s.setRq n { s.rq n with fptr := s.next (s.rq n).fptr }).rq m).pending =
      (s.rq m).pending := by
    intro m
    by_cases hm : m = n <;> simp [hm]
  unfold Sched.tryPullFromRunqueue
  dsimp only
  rw [if_pos hf]
  split_ifs <;> exact ⟨hslot, rfl⟩

/-- **`try_pull_from_runqueue` returns a batch unless the queue has nothing.** -/
theorem Inv.tryPullFromRunqueue (h : Inv s L) (hattached : Attached s L) (n : Prio) :
    (∃ L', (s.tryPullFromRunqueue n).1 ≠ 0 ∧
      Did s L (s.tryPullFromRunqueue n).2 L' (· = (s.tryPullFromRunqueue n).1) (fun _ => False) ∧
      L'.procs (s.tryPullFromRunqueue n).1 ≠ [] ∧
      Uniform s.prio n (L'.procs (s.tryPullFromRunqueue n).1) ∧
      L'.place = L.place ∧ L'.curb = L.curb) ∨
    (s.rq n).fptr = 0 ∧ (s.rq n).priofinity = 0 ∧ s.tryPullFromRunqueue n = (0, s) := by
  by_cases hf : (s.rq n).fptr = 0
  · by_cases hz : (s.rq n).priofinity = 0
    · refine .inr ⟨hf, hz, ?_⟩
      unfold Sched.tryPullFromRunqueue
      simp [hf, hz]
    · left
      have hpend := hattached n
      have hnone : ∀ x, (L.give (s.rq n).pending .held).owner x ≠ .pending n := fun x => by
        have := h.not_pending (x := x) (n := n)
        grind
      have hset := (h.hold hpend).setRq hnone { s.rq n with priofinity := 0 } rfl rfl
      obtain ⟨L₂, h₂, hheld, hempty, hgrown, hsame⟩ := hset.allocateBatch
      generalize hnew : (s.setRq n { s.rq n with priofinity := 0 }).allocateBatch.1 = new at *
      generalize hs₂ : (s.setRq n { s.rq n with priofinity := 0 }).allocateBatch.2 = s₂ at *
      have howner := hgrown.owner
      have hnone₂ : ∀ x, L₂.owner x ≠ .pending n := fun x hx => by
        have := (howner x _ (by simp) (by simp)).mp hx
        have := hnone x
        grind
      have hset₂ := h₂.setRq hnone₂ { s₂.rq n with pending := new } rfl rfl
      have hz₂ : (s₂.rq n).priofinity = 0 := by
        rw [hsame.rq]
        simp
      have hfin := hset₂.attach (b := new) (n := n) hheld (by simp) (by simpa [hz₂] using hempty)
        (by simp [hempty]) (by simp [hempty])
      have heq : s.tryPullFromRunqueue n = ((s.rq n).pending,
          s₂.setRq n { s₂.rq n with pending := new }) := by
        rw [← hnew, ← hs₂]
        unfold Sched.tryPullFromRunqueue
        dsimp only
        rw [if_neg (not_not.mpr hf), if_pos hz]
      have hfresh := hgrown.fresh new rfl
      rw [Layout.give_owner] at hfresh
      have hnp : new ≠ (s.rq n).pending := by
        rintro rfl
        simp at hfresh
      have hprocs : L₂.procs (s.rq n).pending ≠ [] := by
        rw [hgrown.procs]
        exact fun hnil => hz ((h.pendingEmpty n _ hpend).mpr hnil)
      rw [heq]
      refine ⟨_, h.ne_zero (by simp [hpend]), ⟨hfin, fun m => ?_, fun x => ?_, ?_, fun x hx _ => ?_,
        hsame.prio⟩, hprocs, ?_, hgrown.place, hgrown.curb⟩
      · by_cases hm : m = n
        · subst hm
          simp
        · have hm' := hattached m
          have hrq : (s₂.rq m).pending = (s.rq m).pending := by
            rw [hsame.rq]
            simp [hm]
          have hgive := (howner (s.rq m).pending (.pending m) (by simp) (by simp)).mpr
            (.inl (by grind))
          simp only [Sched.setRq_rq, if_neg hm, hrq, Layout.give_owner]
          grind
      · have := howner x .held (by simp) (by simp)
        simp only [Layout.give_owner] at this ⊢
        grind
      · rintro x rfl
        simp [hpend]
      · show L₂.procs x = L.procs x
        rw [hgrown.procs]
        rfl
      · show Uniform s.prio n (L₂.procs (s.rq n).pending)
        rw [hgrown.procs]
        exact (hattached.suits h n).uniform
  · left
    obtain ⟨q, hq, hfst, hinv⟩ := h.tryPullQueued hf
    have howner : L.owner (s.rq n).fptr = .queued n := (h.mem_queue n _).mp (by simp [hq])
    obtain ⟨hne, huniform⟩ := h.queuedPrio n _ howner
    obtain ⟨hslot, hprio⟩ := tryPull_same s n hf
    rw [hfst]
    refine ⟨_, hf, ⟨hinv, fun m => ?_, fun x => ?_, ?_, fun x hx _ => rfl, hprio⟩, hne, huniform,
      rfl, rfl⟩
    · have hm := hattached m
      rw [hslot, Layout.pull_owner]
      grind
    · rw [Layout.pull_owner]
      grind
    · rintro x rfl
      simp [howner]

/-- **`pick_batch` ends in its first round**: no batch is lost to another scheduler, so the pull
succeeds unless there is nothing to pull. -/
theorem Inv.pickBatch (h : Inv s L) (hattached : Attached s L) (n : Prio) (fuel : ℕ) :
    ∃ b s', s.pickBatch (fuel + 1) n = some (b, s') ∧
      ((∃ L', b ≠ 0 ∧ Did s L s' L' (· = b) (fun _ => False) ∧ L'.procs b ≠ [] ∧
        Uniform s.prio n (L'.procs b) ∧ L'.place = L.place ∧ L'.curb = L.curb) ∨
      b = 0 ∧ Did s L s' L (fun _ => False) (fun _ => False)) := by
  unfold Sched.pickBatch
  dsimp only
  rcases h.tryPullFromRunqueue hattached n with ⟨L', hne, hdid⟩ | ⟨hf, hz, heq⟩
  · rw [if_pos hne]
    exact ⟨_, _, rfl, .inl ⟨L', hne, hdid⟩⟩
  · rw [heq, if_neg (not_not.mpr rfl), if_pos ⟨hf, hz⟩]
    have hclear := h.clearBit hf hz
    exact ⟨_, _, rfl,
      .inr ⟨rfl, { hclear with }, hattached, by simp, by simp, fun _ _ _ => rfl, rfl⟩⟩

/-! ## Batches in the caller's hands -/

theorem Grown.did {s' : Sched} {L' : Layout} (hgrown : Grown L L' (· = b)) (hinv : Inv s' L')
    (hattached : Attached s L) (hsame : SameSched s s') :
    Did s L s' L' (· = b) (fun _ => False) where
  inv := hinv
  attached n := by
    rw [hsame.rq]
    exact (hgrown.owner _ _ (by simp) (by simp)).mpr (.inl (hattached n))
  owner x := by
    have := hgrown.owner x .held (by simp) (by simp)
    grind
  fresh := hgrown.fresh
  procs x _ _ := by rw [hgrown.procs]
  prio := hsame.prio

theorem Did.trans {s₁ s₂ : Sched} {L₁ L₂ : Layout}
    (h : Did s L s₁ L₁ (fun _ => False) (fun _ => False))
    (h' : Did s₁ L₁ s₂ L₂ (fun _ => False) (fun _ => False)) :
    Did s L s₂ L₂ (fun _ => False) (fun _ => False) where
  inv := h'.inv
  attached := h'.attached
  owner x := by
    have := h.owner x
    have := h'.owner x
    simp_all
  fresh := by simp
  procs x hx hq := by
    have hx₁ : L₁.owner x = .held := (h.owner x).mpr (.inr ⟨hx, hq⟩)
    rw [h'.procs x hx₁ hq, h.procs x hx hq]
  prio := h'.prio.trans h.prio

/-- What is taken in hand and then given away was never there for the caller. -/
theorem Did.giveBack {s₁ s₂ : Sched} {L₁ L₂ : Layout}
    (h : Did s L s₁ L₁ (· = b) (fun _ => False)) (h' : Did s₁ L₁ s₂ L₂ (fun _ => False) (· = b)) :
    Did s L s₂ L₂ (fun _ => False) (fun _ => False) where
  inv := h'.inv
  attached := h'.attached
  owner x := by
    have h₁ := h.owner x
    have h₂ := h'.owner x
    have h₃ := h.fresh x
    by_cases hxb : x = b
    · subst hxb
      simpa [h₂] using h₃ rfl
    · simp [h₂, h₁, hxb]
  fresh := by simp
  procs x hx hq := by
    have hx₁ : L₁.owner x = .held := (h.owner x).mpr (.inr ⟨hx, hq⟩)
    have hxb : x ≠ b := fun hxb => h.fresh x hxb hx
    rw [h'.procs x hx₁ hxb, h.procs x hx hq]
  prio := h'.prio.trans h.prio

/-- The process that starts a batch: `allocate_batch`, `enqueue_to_batch_with_hint (…, true)`. -/
theorem Inv.startBatch (h : Inv s L) (hattached : Attached s L) (hw : IsWorkspace w)
    (haway : L.place w = .away) :
    ∃ L', Did s L { s.allocateBatch.2 with
        link := (enqueueToBatchWithHint s.allocateBatch.2.link
          (s.allocateBatch.2.batch s.allocateBatch.1) w true).1
        batch := update s.allocateBatch.2.batch s.allocateBatch.1
          (enqueueToBatchWithHint s.allocateBatch.2.link
            (s.allocateBatch.2.batch s.allocateBatch.1) w true).2 } L'
        (· = s.allocateBatch.1) (fun _ => False) ∧
      L'.procs s.allocateBatch.1 = [w] ∧
      L'.place = update L.place w (.batch s.allocateBatch.1) ∧ L'.curb = L.curb := by
  obtain ⟨L₂, h₂, hheld, hempty, hgrown, hsame⟩ := h.allocateBatch
  have hdid := hgrown.did h₂ hattached hsame
  have hsingle := h₂.enqueueSingle hheld hempty hw (by rw [hgrown.place]; exact haway)
  refine ⟨_, ⟨hsingle, hdid.attached, hdid.owner, hdid.fresh, fun x hx hq => ?_, hdid.prio⟩, ?_, ?_,
    hgrown.curb⟩
  · have hne : x ≠ s.allocateBatch.1 := fun hxb => hdid.fresh x hxb hx
    rw [Layout.join_procs, if_neg hne]
    exact hdid.procs x hx hq
  · simp [hempty]
  · show update L₂.place w _ = _
    rw [hgrown.place]

/-- The process that joins a batch: `enqueue_to_batch_with_hint (…, false)`. -/
theorem Inv.growBatch (h : Inv s L) (hb : L.owner b = .held)
    (hne : L.procs b ≠ []) (hw : IsWorkspace w) (haway : L.place w = .away) :
    Inv { s with
      link := (enqueueToBatchWithHint s.link (s.batch b) w false).1
      batch := update s.batch b (enqueueToBatchWithHint s.link (s.batch b) w false).2 }
        (L.join b w) := by
  have hf : (s.batch b).fptr ≠ 0 := fun hz =>
    hne ((h.batch b (by simp [hb])).1.null_iff.mp hz)
  have heq : enqueueToBatchWithHint s.link (s.batch b) w false =
      Kroc.Ccsp.enqueueToBatch s.link (s.batch b) w := by
    unfold enqueueToBatchWithHint Kroc.Ccsp.enqueueToBatch
    simp [hf]
  rw [heq]
  exact h.enqueueToBatch hb hw haway

/-! ## The current batch -/

/-- **`save_curb` leaves the current batch in its caller's hands.** -/
theorem Inv.saveCurb (h : Inv s L) (hattached : Attached s L) {l : List Wptr}
    (hl : L.curb = some l) :
    ∃ L', Did s L s.saveCurb.2 L' (· = s.saveCurb.1) (fun _ => False) ∧
      L'.procs s.saveCurb.1 = l ∧ (∀ w, L'.place w = .away ↔ L.place w = .away) ∧
      L'.curb = none ∧ s.saveCurb.2.priofinity = s.priofinity := by
  obtain ⟨L₂, h₂, hheld, hempty, hgrown, hsame⟩ := h.allocateBatch
  have hdid := hgrown.did h₂ hattached hsame
  have hpour := h₂.pourOut (hgrown.curb.trans hl) hheld hempty
  refine ⟨_, ⟨hpour, hdid.attached, hdid.owner, hdid.fresh, fun x hx hq => ?_, hdid.prio⟩, ?_,
    fun w => ?_, rfl, hsame.priofinity⟩
  · have hne : x ≠ s.allocateBatch.1 := fun hxb => hdid.fresh x hxb hx
    show (L₂.pourOut _ l).procs x = _
    rw [Layout.pourOut_procs, if_neg hne]
    exact hdid.procs x hx hq
  · show (L₂.pourOut _ l).procs _ = _
    rw [Layout.pourOut_procs]
    exact if_pos rfl
  · show (if L₂.place w = .curb then _ else L₂.place w) = _ ↔ _
    rw [hgrown.place]
    grind

/-- **A current batch that is split has another process.** -/
theorem Batch.Holds.one_lt_length {link : Wptr → Wptr} {c : Batch} {l : List Wptr}
    (h : c.Holds link l) (hlen : l.length < 2 ^ 30)
    (hsplit : c.size ^^^ batchEmptied > batchEmptied + 1) : 1 < l.length := by
  by_contra hle
  have hcount := h.2
  rw [masked_size] at hcount
  have hcases := FlaggedCount.eq_or_eq_of_masked hlen hcount
  rw [← batchEmptied_eq_flag] at hcases
  have h01 : l.length = 0 ∨ l.length = 1 := by omega
  rcases h01 with h0 | h0 <;> rw [h0] at hcases <;> rcases hcases with hc | hc <;>
    rw [hc] at hsplit <;> exact absurd hsplit (by decide)

/-- **The split of `push_curb`** leaves the front of the current batch on the run queue. -/
theorem Inv.splitCurb (h : Inv s L) (hattached : Attached s L) {l : List Wptr}
    (hl : L.curb = some l) (hlen : 1 < l.length) :
    ∃ L' m, Did s L s.splitCurb L' (fun _ => False) (fun _ => False) ∧ L'.curb = some m ∧ m ≠ [] ∧
      (∀ x, L'.place x = .away ↔ L.place x = .away) ∧ s.splitCurb.priofinity = s.priofinity := by
  obtain ⟨La, ha, hheld, hempty, hgrown, hsame⟩ := h.allocateBatch
  have hdid := hgrown.did ha hattached hsame
  unfold Sched.splitCurb
  dsimp only
  generalize s.allocateBatch.1 = b at *
  generalize s.allocateBatch.2 = sa at *
  have hla : La.curb = some l := hgrown.curb.trans hl
  have hf : sa.curb.fptr ≠ 0 := by
    intro hz
    have := (ha.curb l hla).1.null_iff.mp hz
    simp [this] at hlen
  obtain ⟨m, hm, hwf, hdeq⟩ := ha.dequeueFromCurb hla hf
  rw [hwf]
  generalize sa.curb.fptr = w at *
  have hplace : La.place w = .curb := (ha.mem_curb w).mp (by simp [hla, hm])
  have hws : IsWorkspace w := ha.workspace w (by simp [hplace])
  have hsingle := hdeq.enqueueSingle (b := b) hheld hempty hws (by simp)
  have hattached₂ : Attached sa.dequeueFromCurb.2 ((La.leaveCurb w m).join b w) := hdid.attached
  have hprio : sa.prio w = sa.priofinity := by
    rw [hsame.prio, hsame.priofinity]
    exact h.curbPrio l hl w (by simp [hm])
  have hprocs : ((La.leaveCurb w m).join b w).procs b = [w] := by
    rw [Layout.join_procs, if_pos rfl]
    show La.procs _ ++ _ = _
    rw [hempty, List.nil_append]
  obtain ⟨L', hpush, hplace', hcurb', -, hpf'⟩ := hsingle.pushBatch hattached₂ hheld
    (by rw [hprocs]; simp) (p := sa.priofinity) (by
      intro v hv
      rw [hprocs, List.mem_singleton] at hv
      exact hv ▸ hprio)
  have hmid : Did s L _ ((La.leaveCurb w m).join b w) (· = b) (fun _ => False) :=
    ⟨hsingle, hattached₂, hdid.owner, hdid.fresh, fun x hx hq => ?_, hdid.prio⟩
  refine ⟨L', m, hmid.giveBack hpush, hcurb', ?_, fun x => ?_, hpf'.trans hsame.priofinity⟩
  · rintro rfl
    simp [hm] at hlen
  · rw [hplace', Layout.join_place, Layout.leaveCurb_place, ← hgrown.place]
    by_cases hxw : x = w
    · rw [hxw, hplace]
      simp
    · simp [hxw]
  · have hne : x ≠ b := fun hxb => hdid.fresh x hxb hx
    rw [Layout.join_procs, if_neg hne]
    exact hdid.procs x hx hq

/-- **`push_curb` leaves every process of the current batch on the run queue of its priofinity.** -/
theorem Inv.pushCurb (h : Inv s L) (hattached : Attached s L) {l : List Wptr}
    (hl : L.curb = some l) (hne : l ≠ []) :
    ∃ L', Did s L s.pushCurb L' (fun _ => False) (fun _ => False) ∧ L'.curb = none ∧
      (∀ x, L'.place x = .away ↔ L.place x = .away) := by
  have hlen : l.length < 2 ^ 30 := length_lt_of_isWorkspace (h.nodup_curb hl) fun w hw =>
    h.workspace w (by
      have := (h.mem_curb w).mp (by rw [hl]; exact hw)
      simp [this])
  unfold Sched.pushCurb
  dsimp only
  obtain ⟨L₁, m, hdid₁, hm, hmne, haway₁, hpf₁⟩ : ∃ L₁ m,
      Did s L (if s.dispatches ≤ 0 ∧ s.curb.size ^^^ batchEmptied > batchEmptied + 1 then
        s.splitCurb else s) L₁ (fun _ => False) (fun _ => False) ∧ L₁.curb = some m ∧ m ≠ [] ∧
      (∀ x, L₁.place x = .away ↔ L.place x = .away) ∧
      (if s.dispatches ≤ 0 ∧ s.curb.size ^^^ batchEmptied > batchEmptied + 1 then
        s.splitCurb else s).priofinity = s.priofinity := by
    split_ifs with hsplit
    · exact h.splitCurb hattached hl ((h.curb l hl).one_lt_length hlen hsplit.2)
    · exact ⟨L, l, ⟨h, hattached, by simp, by simp, fun _ _ _ => rfl, rfl⟩, hl, hne,
        fun _ => Iff.rfl, rfl⟩
  generalize (if s.dispatches ≤ 0 ∧ s.curb.size ^^^ batchEmptied > batchEmptied + 1 then
    s.splitCurb else s) = s₁ at *
  obtain ⟨L₂, hdid₂, hprocs₂, haway₂, hcurb₂, hpf₂⟩ := hdid₁.inv.saveCurb hdid₁.attached hm
  have hheld : L₂.owner s₁.saveCurb.1 = .held := (hdid₂.owner _).mpr (.inl rfl)
  obtain ⟨L₃, hdid₃, hplace₃, hcurb₃, -, -⟩ := hdid₂.inv.pushBatch hdid₂.attached hheld
    (by rw [hprocs₂]; exact hmne) (p := s₁.saveCurb.2.priofinity) (by
      intro v hv
      rw [hprocs₂] at hv
      rw [hdid₂.prio, hpf₂]
      exact hdid₁.inv.curbPrio m hm v hv)
  exact ⟨L₃, hdid₁.trans (hdid₂.giveBack hdid₃), hcurb₃.trans hcurb₂,
    fun x => by rw [hplace₃, haway₂, haway₁]⟩

/-- **`load_curb` makes the batch current**, with the priofinity of every one of its processes. -/
theorem Inv.loadCurb (h : Inv s L) (hattached : Attached s L) (hnone : L.curb.getD [] = [])
    (hb : L.owner b = .held) (hne : L.procs b ≠ [])
    (hsame : ∀ v ∈ L.procs b, ∀ w ∈ L.procs b, s.prio v = s.prio w) :
    ∃ L', Did s L (s.loadCurb b) L' (fun _ => False) (· = b) ∧ L'.curb ≠ none ∧
      (∀ w, L'.place w = .away ↔ L.place w = .away) := by
  have hfront : (s.batch b).fptr ∈ L.procs b := by
    have hholds := h.batch b (by simp [hb])
    obtain ⟨m, hm, -⟩ := hholds.1.exists_pop fun hz => hne (hholds.1.null_iff.mp hz)
    simp [hm]
  have hpour := h.pourIn hnone hb (fun w hw => hsame w hw _ hfront)
    (Sched.calculateDispatches ((s.batch b).size &&& ~~~batchEmptied))
  have hrel := hpour.release (b := b) hb (by simp)
  refine ⟨_, ⟨hrel, fun n => ?_, fun x => ?_, by simp, fun x hx hq => ?_, rfl⟩, ?_, fun w => ?_⟩
  · have hn := hattached n
    have hnb : (s.rq n).pending ≠ b := fun hnb => by simp [hnb, hb] at hn
    show ((L.pourIn b).give b .free).owner (s.rq n).pending = _
    rw [Layout.give_owner, if_neg hnb]
    exact hn
  · show ((L.pourIn b).give b .free).owner x = _ ↔ _
    rw [Layout.give_owner, Layout.pourIn_owner]
    grind
  · show (L.pourIn b).procs x = _
    rw [Layout.pourIn_procs, if_neg hq]
  · simp [Layout.pourIn]
  · show (if L.place w = .batch b then _ else L.place w) = _ ↔ _
    grind

/-- **`switch_priofinity` leaves an empty current batch of the new priofinity.** -/
theorem Inv.switchPriofinity (h : Inv s L) (hattached : Attached s L) {l : List Wptr}
    (hl : L.curb = some l) (p : Word) :
    ∃ L', Did s L (s.switchPriofinity p) L' (fun _ => False) (fun _ => False) ∧
      L'.curb ≠ none ∧ (∀ w, L'.place w = .away ↔ L.place w = .away) := by
  unfold Sched.switchPriofinity
  dsimp only
  split_ifs with hp hf
  · have hne : l ≠ [] := fun hnil => hf ((h.curb l hl).1.null_iff.mpr hnil)
    obtain ⟨L₁, hdid₁, hcurb₁, haway₁⟩ := h.pushCurb hattached hl hne
    exact ⟨_, hdid₁.trans ⟨hdid₁.inv.newCurb (by simp [hcurb₁]) p, hdid₁.attached, by simp, by simp,
      fun _ _ _ => rfl, rfl⟩, by simp, haway₁⟩
  · have hnil := (h.curb l hl).1.null_iff.mp (not_not.mp hf)
    exact ⟨_, ⟨h.newCurb (by simp [hl, hnil]) p,
      hattached, by simp, by simp, fun _ _ _ => rfl, rfl⟩,
      by simp, fun _ => Iff.rfl⟩
  · exact ⟨L, ⟨h,
      hattached, by simp, by simp, fun _ _ _ => rfl, rfl⟩, by simp [hl], fun _ => Iff.rfl⟩

theorem Inv.resumeCurb (h : Inv s L) : Inv s.resumeCurb L :=
  { h with curb := fun l hl => (h.curb l hl).masked }

/-- What happens to the slots of a process that is away is nobody's business. -/
theorem Inv.touch (h : Inv s L) (haway : L.place w = .away) (v : Wptr) (p : Word) :
    Inv { s with link := update s.link w v, prio := update s.prio w p } L := by
  have hcurb : ∀ l, L.curb = some l → ∀ x ∈ l, x ≠ w := by
    rintro l hl x hx rfl
    have := (h.mem_curb x).mp (by rw [hl]; exact hx)
    simp [haway] at this
  have hprocs : ∀ b, ∀ x ∈ L.procs b, x ≠ w := by
    rintro b x hx rfl
    have := (h.mem_procs b x).mp hx
    simp [haway] at this
  exact { h with
    curb := fun l hl => (h.curb l hl).congr fun x hx => by simp [hcurb l hl x hx]
    batch := fun b hb => (h.batch b hb).congr fun x hx => by simp [hprocs b x hx]
    curbPrio := fun l hl x hx => by simpa [hcurb l hl x hx] using h.curbPrio l hl x hx
    queuedPrio := fun n b hb => by
      refine ⟨(h.queuedPrio n b hb).1, fun x hx => ?_⟩
      simp only [Function.update_of_ne (hprocs b x hx)]
      refine ⟨((h.queuedPrio n b hb).2 x hx).1, fun y hy => ?_⟩
      rw [Function.update_of_ne (hprocs b y hy)]
      exact ((h.queuedPrio n b hb).2 x hx).2 y hy
    pendingPrio := fun n b hb x hx => by
      simpa [hprocs b x hx] using h.pendingPrio n b hb x hx }

end Ccsp

end Kroc
