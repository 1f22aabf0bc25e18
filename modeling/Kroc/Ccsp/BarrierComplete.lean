import Kroc.Ccsp.BarrierHead

/-!
# Ccsp/BarrierComplete — the completion of a barrier

`bar_complete_head` takes the batches that hang from a head one by one; what hangs after each is the
rest, and the processes of the batch are enqueued.  A batch whose processes have different
priofinities is emptied process by process.
-/

namespace Kroc

namespace Ccsp

open Function (update)

open Run (HasLayout withSched Untouched)

variable {r : Run} {L : Layout} {s s' : Sched} {pf : BatchPtr → Word} {head f b x : BatchPtr}
  {q : List BatchPtr} {procs : BatchPtr → List Wptr} {W l : List Wptr} {p w : Wptr}
  {K : Finset BatchPtr} {U : Finset Wptr} {m : BarMem} {fuel n : ℕ}

/-- A process that can run here is not refused. -/
theorem exists_enqueueProcess_of_runnable (hw : Runnable s.id (s.prio w)) :
    ∃ s', s.enqueueProcess w = some s' := by
  by_cases haff : pHasAffinity (s.prio w)
  · unfold Sched.enqueueProcess Sched.enqueueFarProcess
    dsimp only
    rw [if_neg (not_not.mpr haff), if_pos (hw haff)]
    split_ifs <;> exact ⟨_, rfl⟩
  · exact Run.exists_enqueueProcess haff

/-- The run with more processes enqueued. -/
def Run.released (r : Run) (s : Sched) (l : List Wptr) : Run :=
  ⟨s, r.stale, r.hand, fun v => r.enqueued v || decide (v ∈ l)⟩

theorem Run.released_cons (r : Run) (s t : Sched) (w : Wptr) (l : List Wptr) :
    Run.released ⟨s, r.stale, r.hand, update r.enqueued w true⟩ t l = r.released t (w :: l) := by
  refine congrArg (Run.mk t r.stale r.hand) (funext fun v => ?_)
  by_cases hv : v = w
  · subst hv
    simp
  · simp [hv]

theorem Run.released_append (r : Run) (s t : Sched) (l l' : List Wptr) :
    (r.released s l).released t l' = r.released t (l ++ l') := by
  refine congrArg (Run.mk t r.stale r.hand) (funext fun v => ?_)
  simp [Run.released, Bool.or_assoc]

theorem Run.released_nil (r : Run) (s : Sched) : r.released s [] = r.withSched s := by
  simp [Run.released, withSched]

theorem Run.Untouched.trans {s'' : Sched} {U' : Finset Wptr} (h : Untouched K U s s')
    (h' : Untouched K U' s' s'') (hU : U' ⊆ U) : Untouched K U' s s'' :=
  ⟨fun b hb => (h'.batch b hb).trans (h.batch b hb), fun b hb => (h'.next b hb).trans (h.next b hb),
    fun b hb => (h'.state b hb).trans (h.state b hb),
    fun w hw => (h'.link w hw).trans (h.link w (hU hw)),
    fun w hw => (h'.prio w hw).trans (h.prio w (hU hw))⟩

/-- **The processes of a dirty batch are enqueued**, one by one. -/
theorem enqueueProcesses_outside : ∀ {l : List Wptr} {r : Run} {L : Layout}
    {U : Finset Wptr} {p : Wptr}, r.HasLayout L → Outside K U r.sched L → r.stale = false →
    Linked 0 r.sched.link p l → l ≠ [] → l.Nodup → (∀ w ∈ l, w ∈ U) → (∀ w ∈ l, IsWorkspace w) →
    (∀ w ∈ l, Runnable r.sched.id (r.sched.prio w)) →
    ∃ s', (∀ fuel, l.length ≤ fuel → BarMem.enqueueProcesses fuel r.sched p = some s') ∧
      ∃ L', (r.released s' l).HasLayout L' ∧ Outside K (U \ l.toFinset) s' L' ∧
        Untouched K (U \ l.toFinset) r.sched s' ∧ s'.id = r.sched.id
  | [], _, _, _, _, _, _, _, _, hne, _, _, _, _ => absurd rfl hne
  | w :: l, r, L, U, p, h, ho, hst, hlink, _, hnd, hU, hws, hrun => by
    obtain ⟨rfl, -, hlink⟩ := hlink
    have hwl := (List.nodup_cons.mp hnd).1
    obtain ⟨s₁, hs₁⟩ := exists_enqueueProcess_of_runnable (hrun p List.mem_cons_self)
    obtain ⟨L₁, h₁, ho₁, hsame, hid⟩ := h.enqueue_outside ho hst (hU p List.mem_cons_self)
      (hws p List.mem_cons_self) hs₁
    have hset : U \ (p :: l).toFinset = U.erase p \ l.toFinset := by
      ext v
      simp only [List.toFinset_cons, Finset.mem_sdiff, Finset.mem_insert, Finset.mem_erase]
      tauto
    have hin : ∀ v ∈ l, v ∈ U.erase p := fun v hv =>
      Finset.mem_erase.mpr ⟨fun e => hwl (e ▸ hv), hU v (List.mem_cons_of_mem _ hv)⟩
    have hnull : r.sched.link p = 0 ↔ l = [] := hlink.null_iff
    have hround : ∀ fuel, BarMem.enqueueProcesses (fuel + 1) r.sched p =
        if r.sched.link p ≠ 0 then BarMem.enqueueProcesses fuel s₁ (r.sched.link p)
        else some s₁ := fun fuel => by
      rw [BarMem.enqueueProcesses, hs₁, Option.bind_some]
    rw [hset]
    rcases eq_or_ne l [] with rfl | hl
    · refine ⟨s₁, fun fuel hf => ?_, L₁, ?_, by simpa using ho₁, by simpa using hsame, hid⟩
      · obtain ⟨k, rfl⟩ := Nat.exists_eq_add_of_le' hf
        rw [List.length_singleton, hround, if_neg (not_not.mpr (hnull.mpr rfl))]
      · rw [← Run.released_cons r s₁]
        simpa [Run.released] using h₁
    · have hlink₁ : Linked 0 s₁.link (r.sched.link p) l :=
        hlink.congr fun v hv => hsame.link v (hin v hv)
      obtain ⟨s', hs', L', h', ho', hsame', hid'⟩ := enqueueProcesses_outside h₁ ho₁ hst hlink₁ hl
        hnd.of_cons hin (fun v hv => hws v (List.mem_cons_of_mem _ hv)) (fun v hv => by
          show Runnable s₁.id (s₁.prio v)
          rw [hid, hsame.prio v (hin v hv)]
          exact hrun v (List.mem_cons_of_mem _ hv))
      refine ⟨s', fun fuel hf => ?_, L', ?_, ho', hsame.trans hsame' Finset.sdiff_subset,
        hid'.trans hid⟩
      · obtain ⟨k, rfl⟩ := Nat.exists_eq_add_of_le' hf
        rw [List.length_cons, ← Nat.add_assoc, hround, if_pos fun hz => hl (hnull.mp hz)]
        exact hs' _ (Nat.le_add_left _ k)
      · rw [← Run.released_cons r s₁]
        exact h'

/-! ## One batch -/

/-- The batch is clean and holds processes, of its own priofinity. -/
def Pushed.Pure (p : Pushed) : Prop :=
  p.sched.state p.batch = .clean ∧ ∃ l, l ≠ [] ∧ (p.sched.batch p.batch).Holds p.sched.link l ∧
    ∀ w ∈ l, p.sched.prio w = p.priofinity

/-- What completing leaves alone, and what it adds to the history. -/
structure Completing (m m' : BarMem) : Prop where
  bar : m'.bar = m.bar
  index : m'.index = m.index
  barHead : m'.barHead = m.barHead
  id : m'.sched.id = m.sched.id
  pure : (∀ p ∈ m.pushed, p.Pure) → ∀ p ∈ m'.pushed, p.Pure

theorem Completing.trans {m m' m'' : BarMem} (h : Completing m m') (h' : Completing m' m'') :
    Completing m m'' :=
  ⟨h'.bar.trans h.bar, h'.index.trans h.index, h'.barHead.trans h.barHead, h'.id.trans h.id,
    fun hp => h'.pure (h.pure hp)⟩

namespace Hanging

/-- The batches behind the first one hang. -/
theorem tail (h : Hanging r L s pf head f b (x :: q) procs W) :
    Hanging r L s pf head (s.next x) b q procs (q.flatMap procs) := by
  have hin : ∀ y ∈ q, y ∈ x :: q := fun y hy => List.mem_cons_of_mem _ hy
  have hW : ∀ v ∈ q.flatMap procs, v ∈ W := fun v hv =>
    h.perm.mem_iff.mp (by rw [List.flatMap_cons]; exact List.mem_append_right _ hv)
  have hnodup : (procs x ++ q.flatMap procs).Nodup := h.perm.nodup_iff.mpr h.nodup
  have hlink : Linked 0 s.next (s.next x) q := by
    obtain ⟨rfl, -, hlink⟩ := h.chain.1
    exact hlink
  exact {
    layout := h.layout
    outside := h.outside.mono
      (Finset.insert_subset_insert _ fun y hy => by simp [List.mem_toFinset.mp hy])
      fun v hv => List.mem_toFinset.mpr (hW v (List.mem_toFinset.mp hv))
    pos := h.pos
    notMem := fun hmem => h.notMem (hin _ hmem)
    chain := ⟨hlink, fun y hy => h.chain.2 y (List.mem_getLast?_cons hy)⟩
    holds := fun y hy => h.holds y (hin y hy)
    nonempty := fun y hy => h.nonempty y (hin y hy)
    sorted := fun y hy => h.sorted y (hin y hy)
    perm := .refl _
    nodup := (List.nodup_append.mp hnodup).2.1
    workspace := fun v hv => h.workspace v (hW v hv)
    runnable := fun v hv => h.runnable v (hW v hv) }

/-- **What hangs from a head hangs on**, when it is untouched. -/
theorem untouched (h : Hanging r L s pf head f b q procs W) {r' : Run} {L' : Layout}
    (hlayout : (r'.withSched s').HasLayout L')
    (hout : Outside (insert head q.toFinset) W.toFinset s' L')
    (hsame : Untouched (insert head q.toFinset) W.toFinset s s') (hid : s'.id = s.id) :
    Hanging r' L' s' pf head f b q procs W := by
  have hin : ∀ y ∈ q, y ∈ insert head q.toFinset := fun y hy => by simp [hy]
  have hW : ∀ v ∈ W, v ∈ W.toFinset := fun v hv => List.mem_toFinset.mpr hv
  refine { h with
    layout := hlayout
    outside := hout
    chain := h.chain.congr fun y hy => hsame.next y (hin y hy)
    holds := fun y hy => ?_
    sorted := fun y hy => ?_
    runnable := fun v hv => ?_ }
  · rw [hsame.batch y (hin y hy)]
    exact (h.holds y hy).congr fun v hv => hsame.link v (hW v (h.mem hy hv))
  · have := h.sorted y hy
    unfold Sorted at this ⊢
    rw [hsame.state y (hin y hy)]
    refine this.imp_left fun ⟨hc, hp⟩ => ⟨hc, fun v hv => ?_⟩
    rw [hsame.prio v (hW v (h.mem hy hv))]
    exact hp v hv
  · rw [hid, hsame.prio v (hW v hv)]
    exact h.runnable v hv

/-- **`bar_complete_head`, one batch.** -/
theorem completeBatch (h : Hanging r L m.sched m.priofinity head f b (x :: q) procs W)
    (hst : r.stale = false) :
    ∃ m', (∀ fuel, (procs x).length ≤ fuel → m.completeBatch fuel x = some m') ∧ Completing m m' ∧
      m'.priofinity = m.priofinity ∧
      ∃ L', Hanging (r.released m'.sched (procs x)) L' m'.sched m'.priofinity head
        (m.sched.next x) b q procs (q.flatMap procs) := by
  have hx : x ∈ x :: q := List.mem_cons_self
  have hxq : x ∉ q := (List.nodup_cons.mp h.chain.1.nodup).1
  have hne : x ≠ head := fun e => h.notMem (e ▸ hx)
  have hnodup : (procs x ++ q.flatMap procs).Nodup := h.perm.nodup_iff.mpr h.nodup
  have hdisj := List.nodup_append.mp hnodup
  have hK : (insert head (x :: q).toFinset).erase x = insert head q.toFinset := by
    ext y
    simp only [List.toFinset_cons, Finset.mem_erase, Finset.mem_insert, List.mem_toFinset]
    constructor
    · tauto
    · rintro (rfl | hy)
      · exact ⟨hne.symm, .inl rfl⟩
      · exact ⟨fun e => hxq (e ▸ hy), .inr (.inr hy)⟩
  have hU : W.toFinset \ (procs x).toFinset = (q.flatMap procs).toFinset := by
    ext v
    have := h.perm.mem_iff (a := v)
    rw [List.flatMap_cons, List.mem_append] at this
    simp only [Finset.mem_sdiff, List.mem_toFinset]
    constructor
    · tauto
    · exact fun hv => ⟨this.mp (.inr hv), fun hvx => hdisj.2.2 v hvx v hv rfl⟩
  have hxK : x ∈ insert head (x :: q).toFinset := by simp
  have hsort := h.sorted x hx
  by_cases hdirty : pHasAffinity (m.priofinity x) ∧ (m.sched.state x).dirty = true
  · obtain ⟨s₁, hs₁, L₁, h₁, ho₁, hsame₁, hid₁⟩ := enqueueProcesses_outside h.layout h.outside hst
      (h.holds x hx).1.1 (h.nonempty x hx) (h.holds x hx).1.1.nodup
      (fun w hw => by simpa using h.mem hx hw) (fun w hw => h.workspace w (h.mem hx hw))
      fun w hw => h.runnable w (h.mem hx hw)
    obtain ⟨L', hL', hout⟩ := h₁.release_outside ho₁ hxK (h.ne_zero hx)
      (Batch.Holds.reinit s₁.link (s₁.batch x))
    have hsame : Untouched (insert head q.toFinset) (q.flatMap procs).toFinset m.sched
        (Sched.releaseCleanBatch { s₁ with
          batch := update s₁.batch x (s₁.batch x).reinit
          state := update s₁.state x .clean } x) := by
      rw [hU] at hsame₁
      have hoff : ∀ y ∈ insert head q.toFinset, y ≠ x ∧ y ∈ insert head (x :: q).toFinset :=
        fun y hy => by
          rw [← hK] at hy
          exact ⟨Finset.ne_of_mem_erase hy, Finset.mem_of_mem_erase hy⟩
      exact ⟨fun y hy =>
        (Function.update_of_ne (hoff y hy).1 ..).trans (hsame₁.batch y (hoff y hy).2),
        fun y hy => (Function.update_of_ne (hoff y hy).1 ..).trans (hsame₁.next y (hoff y hy).2),
        fun y hy => (Function.update_of_ne (hoff y hy).1 ..).trans (hsame₁.state y (hoff y hy).2),
        hsame₁.link, hsame₁.prio⟩
    have heq : ∀ fuel, (procs x).length ≤ fuel → m.completeBatch fuel x = some { m with
        sched := Sched.releaseCleanBatch { s₁ with
          batch := update s₁.batch x (s₁.batch x).reinit
          state := update s₁.state x .clean } x } := fun fuel hf => by
      unfold BarMem.completeBatch
      rw [if_pos hdirty.1, if_pos hdirty.2, show BarMem.enqueueProcesses fuel m.sched
        (m.sched.batch x).fptr = some s₁ from hs₁ fuel hf, Option.map_some]
    rw [hK, hU] at hout
    exact ⟨_, heq, ⟨rfl, rfl, rfl, hid₁, fun hp => hp⟩, rfl, L',
      h.tail.untouched hL' hout hsame hid₁⟩
  · have hclean : m.sched.state x = .clean ∧ ∀ w ∈ procs x, m.sched.prio w = m.priofinity x := by
      rcases hsort with hc | ⟨hd, haff⟩
      · exact hc
      · exact absurd ⟨haff, by rw [hd]⟩ hdirty
    have heq : ∀ fuel, m.completeBatch fuel x = some (m.pushBatch x) := fun fuel => by
      unfold BarMem.completeBatch
      split_ifs with haff hd
      · exact absurd ⟨haff, hd⟩ hdirty
      · rfl
      · rfl
    obtain ⟨L', hL', hout, hsame, hid⟩ :=
      h.layout.push_outside h.outside hxK (h.ne_zero hx) hclean.1
      (h.holds x hx) (h.nonempty x hx) (fun w hw => h.workspace w (h.mem hx hw))
      (fun w hw => by simpa using h.mem hx hw) hclean.2
    rw [hK, hU] at hout hsame
    refine ⟨m.pushBatch x, fun fuel _ => heq fuel, ⟨rfl, rfl, rfl, hid, fun hp p hmem => ?_⟩, rfl,
      L',
      h.tail.untouched hL' hout hsame hid⟩
    rcases List.mem_append.mp hmem with hmem | hmem
    · exact hp p hmem
    · obtain rfl := List.mem_singleton.mp hmem
      exact ⟨hclean.1, procs x, h.nonempty x hx, h.holds x hx, hclean.2⟩

/-- **The loop of `bar_complete_head`**, with enough fuel. -/
theorem completeBatches : ∀ {q : List BatchPtr} {r : Run} {L : Layout} {m : BarMem}
    {f : BatchPtr} {W : List Wptr}, Hanging r L m.sched m.priofinity head f b q procs W →
    q ≠ [] → r.stale = false →
    ∃ m', (∀ fuel n, q.length ≤ n → (∀ x ∈ q, (procs x).length ≤ fuel) →
        m.completeBatches fuel n f = some m') ∧
      Completing m m' ∧ m'.priofinity = m.priofinity ∧
      ∃ L' f', Hanging (r.released m'.sched (q.flatMap procs)) L' m'.sched m'.priofinity head f' b
        [] procs []
  | [], _, _, _, _, _, _, hq, _ => absurd rfl hq
  | x :: q, r, L, m, f, W, h, _, hst => by
    obtain rfl : f = x := h.chain.1.1
    have hnull : m.sched.next f = 0 ↔ q = [] := h.chain.1.2.2.null_iff
    obtain ⟨m₁, hm₁, hdone₁, hpf₁, L₁, h₁⟩ := h.completeBatch hst
    have hround : ∀ fuel n, (procs f).length ≤ fuel → m.completeBatches fuel (n + 1) f =
        if m.sched.next f ≠ 0 then m₁.completeBatches fuel n (m.sched.next f)
        else some m₁ := fun fuel n hf => by
      rw [BarMem.completeBatches, hm₁ fuel hf, Option.bind_some]
    rcases eq_or_ne q [] with rfl | hq
    · refine ⟨m₁, fun fuel n hn hf => ?_, hdone₁, hpf₁, L₁, _, by simpa using h₁⟩
      obtain ⟨k, rfl⟩ := Nat.exists_eq_add_of_le' hn
      rw [List.length_singleton, hround _ _ (hf f List.mem_cons_self),
        if_neg (not_not.mpr (hnull.mpr rfl))]
    · obtain ⟨m', hm', hdone', hpf', L', f', h'⟩ := completeBatches h₁ hq hst
      refine ⟨m', fun fuel n hn hf => ?_, hdone₁.trans hdone', hpf'.trans hpf₁, L', f', ?_⟩
      · obtain ⟨k, rfl⟩ := Nat.exists_eq_add_of_le' hn
        rw [List.length_cons, ← Nat.add_assoc, hround _ _ (hf f List.mem_cons_self),
          if_pos fun hz => hq (hnull.mp hz)]
        exact hm' _ _ (Nat.le_add_left _ k) fun y hy => hf y (List.mem_cons_of_mem _ hy)
      · rw [List.flatMap_cons, ← Run.released_append r m₁.sched]
        exact h'

end Hanging

/-! ## All of a head -/

theorem Hanging.length_le (h : Hanging r L s pf head f b q procs W) :
    q.length ≤ W.length ∧ ∀ x ∈ q, (procs x).length ≤ W.length := by
  have hlen : W.length = (q.map fun x => (procs x).length).sum := by
    rw [← h.perm.length_eq, List.length_flatMap]
  have hone : ∀ n ∈ q.map fun x => (procs x).length, 1 ≤ n := fun n hn => by
    obtain ⟨x, hx, rfl⟩ := List.mem_map.mp hn
    exact List.length_pos_iff.mpr (h.nonempty x hx)
  refine ⟨?_, fun x hx => ?_⟩
  · have := List.length_le_sum_of_one_le _ hone
    rwa [List.length_map, ← hlen] at this
  · rw [hlen]
    exact List.single_le_sum (fun _ _ => Nat.zero_le _) _ (List.mem_map_of_mem hx)

theorem Run.released_perm {l l' : List Wptr} (hl : l.Perm l') (r : Run) (s : Sched) :
    r.released s l = r.released s l' := by
  refine congrArg (Run.mk s r.stale r.hand) (funext fun v => ?_)
  simp [hl.mem_iff]

/-- **`bar_complete_head`**: the processes are enqueued, and the state word counts them. -/
theorem HeadInv.barCompleteHead (hi : HeadInv r L m head q procs W) (hq : q ≠ [])
    (hst : r.stale = false) :
    ∃ m', (∀ fuel, W.length ≤ fuel → m.barCompleteHead fuel head = some m') ∧
      Completing (m.setState (m.bar.state + (m.barHead head).count)) m' ∧
      ∃ L', (r.released m'.sched W).HasLayout L' := by
  obtain ⟨hlen, hprocs⟩ := hi.hanging.length_le
  have hstart : Hanging r L (m.setState (m.bar.state + (m.barHead head).count)).sched
      (m.setState (m.bar.state + (m.barHead head).count)).priofinity head (m.barHead head).fptr
      (m.barHead head).bptr q procs W := hi.hanging
  obtain ⟨m₁, hm₁, hdone, -, L₁, f', h₁⟩ := hstart.completeBatches hq hst
  have hout : Outside {head} ∅ m₁.sched L₁ := by simpa using h₁.outside
  obtain ⟨L', hL', -⟩ := h₁.layout.release_outside hout (Finset.mem_singleton_self head) h₁.pos
    (Batch.Holds.init m₁.sched.link)
  have heq : (m₁.releaseBarHead head).sched = Sched.releaseCleanBatch { m₁.sched with
      batch := update m₁.sched.batch head .init
      state := update m₁.sched.state head .clean } head := by
    simp only [BarMem.releaseBarHead, Sched.releaseCleanBatch, Function.update_idem]
  refine ⟨m₁.releaseBarHead head, fun fuel hf => ?_,
    ⟨hdone.bar, hdone.index, hdone.barHead, hdone.id, hdone.pure⟩,
    L', ?_⟩
  · unfold BarMem.barCompleteHead
    dsimp only
    rw [hm₁ fuel fuel (hlen.trans hf) fun x hx => (hprocs x hx).trans hf, Option.map_some]
  · rw [heq, ← Run.released_perm hi.hanging.perm]
    exact hL'

end Ccsp

end Kroc
