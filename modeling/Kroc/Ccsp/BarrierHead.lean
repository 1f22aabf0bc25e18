import Kroc.Lib.Buckets
import Kroc.Ccsp.Barrier
import Kroc.Ccsp.Hands

/-!
# Ccsp/BarrierHead — the batches that hang from a head

`Hanging` says which batches hang from a head and which processes are on them; the scheduler's
layout has none of them.  Each way in which `bar_sync` puts a process on a batch is one of three
moves: a process joins a batch, a batch becomes dirty, a batch of one process is appended.
-/

namespace Kroc

namespace Ccsp

open Function (update)

open Run (HasLayout withSched Untouched)

/-! ## Writing outside the layout -/

section Writing

variable {r : Run} {s s' : Sched} {L : Layout} {K : Finset BatchPtr} {W : Finset Wptr}

theorem piecewise_eq_left {α β : Type*} [DecidableEq α] {t : Finset α} {f g : α → β}
    (h : ∀ i, i ∉ t → f i = g i) : t.piecewise f g = f := by
  funext i
  by_cases hi : i ∈ t
  · exact Finset.piecewise_eq_of_mem _ _ _ hi
  · rw [Finset.piecewise_eq_of_notMem _ _ _ hi, h i hi]

/-- Only memory of `K` and `W` differs. -/
structure Writes (K : Finset BatchPtr) (W : Finset Wptr) (s s' : Sched) : Prop where
  same : s' = { s with
    batch := s'.batch, next := s'.next, state := s'.state, link := s'.link, prio := s'.prio }
  batch : ∀ x, x ∉ K → s'.batch x = s.batch x
  next : ∀ x, x ∉ K → s'.next x = s.next x
  state : ∀ x, x ∉ K → s'.state x = s.state x
  link : ∀ w, w ∉ W → s'.link w = s.link w
  prio : ∀ w, w ∉ W → s'.prio w = s.prio w

theorem Writes.eq_overlay (h : Writes K W s s') : s' = s.overlay K W s' := by
  rw [Sched.overlay, piecewise_eq_left h.batch, piecewise_eq_left h.next,
    piecewise_eq_left h.state, piecewise_eq_left h.link, piecewise_eq_left h.prio]
  exact h.same

/-- **Writing outside the layout keeps it.** -/
theorem Writes.hasLayout (h : Writes K W s s') (hr : (r.withSched s).HasLayout L)
    (ho : Outside K W s L) : (r.withSched s').HasLayout L ∧ Outside K W s' L := by
  have hlayout := hr.overlay ho s'
  rw [show (r.withSched s).sched.overlay K W s' = s' from h.eq_overlay.symm] at hlayout
  refine ⟨hlayout, ⟨?_, ho.unused, ho.away⟩⟩
  rw [h.same]
  exact ho.lt

end Writing

/-! ## Batches of a head -/

/-- A process of priofinity `p` can run on the scheduler `id`. -/
def Runnable (id p : Word) : Prop := pHasAffinity p → pAffinity p &&& id ≠ 0

/-- The batch `x` is clean, and its processes have its priofinity, or it is dirty and has an
affinity. -/
def Sorted (s : Sched) (priofinity : BatchPtr → Word) (x : BatchPtr) (l : List Wptr) : Prop :=
  (s.state x = .clean ∧ ∀ w ∈ l, s.prio w = priofinity x) ∨
    (s.state x = ⟨true, 0⟩ ∧ pHasAffinity (priofinity x))

/-- **The batches `q` hang from the head**, from `f` to `b`, with the processes `procs`, which are
`W`. -/
structure Hanging (r : Run) (L : Layout) (s : Sched) (priofinity : BatchPtr → Word)
    (head f b : BatchPtr) (q : List BatchPtr) (procs : BatchPtr → List Wptr) (W : List Wptr) :
    Prop where
  layout : (r.withSched s).HasLayout L
  outside : Outside (insert head q.toFinset) W.toFinset s L
  pos : head ≠ 0
  notMem : head ∉ q
  chain : Fifo 0 s.next f b q
  holds : ∀ x ∈ q, (s.batch x).Holds s.link (procs x)
  nonempty : ∀ x ∈ q, procs x ≠ []
  sorted : ∀ x ∈ q, Sorted s priofinity x (procs x)
  perm : (q.flatMap procs).Perm W
  nodup : W.Nodup
  workspace : ∀ w ∈ W, IsWorkspace w
  runnable : ∀ w ∈ W, Runnable s.id (s.prio w)

variable {r : Run} {L : Layout} {s : Sched} {pf pf' : BatchPtr → Word} {head f b x : BatchPtr}
  {q : List BatchPtr} {procs : BatchPtr → List Wptr} {W : List Wptr} {w : Wptr}

namespace Hanging

theorem mem (h : Hanging r L s pf head f b q procs W) (hx : x ∈ q) {v : Wptr}
    (hv : v ∈ procs x) : v ∈ W := h.perm.mem_iff.mp (List.mem_flatMap.mpr ⟨x, hx, hv⟩)

theorem disjoint (h : Hanging r L s pf head f b q procs W) {y : BatchPtr} (hx : x ∈ q) (hy : y ∈ q)
    (hne : x ≠ y) {v : Wptr} (hv : v ∈ procs x) : v ∉ procs y :=
  Buckets.notMem_of_ne (h.perm.nodup_iff.mpr h.nodup) hx hy hne hv

theorem ne_zero (h : Hanging r L s pf head f b q procs W) (hx : x ∈ q) : x ≠ 0 :=
  h.chain.1.ne_null x hx

/-- **A process joins a batch**, of its priofinity if the batch is clean. -/
theorem grow (h : Hanging r L s pf head f b q procs W) (hx : x ∈ q)
    (hclean : s.state x = .clean → s.prio w = pf x) (hws : IsWorkspace w) (hw : w ∉ W)
    (haway : L.place w = .away) (hrun : Runnable s.id (s.prio w)) :
    Hanging r L { s with
      link := (enqueueToBatchWithHint s.link (s.batch x) w false).1
      batch := update s.batch x (enqueueToBatchWithHint s.link (s.batch x) w false).2 }
      pf head f b q (update procs x (procs x ++ [w])) (w :: W) := by
  have hholds := h.holds x hx
  have hfront : (s.batch x).fptr ≠ 0 := fun hz => h.nonempty x hx (hholds.1.null_iff.mp hz)
  have heq : enqueueToBatchWithHint s.link (s.batch x) w false =
      enqueueToBatch s.link (s.batch x) w := by
    unfold enqueueToBatchWithHint enqueueToBatch
    simp [hfront]
  rw [heq]
  have hwx : w ∉ procs x := fun hmem => hw (h.mem hx hmem)
  have hlen : (procs x).length + 1 < 2 ^ 30 := by
    have := length_lt_of_isWorkspace (l := w :: procs x)
      (List.nodup_cons.mpr ⟨hwx, hholds.1.1.nodup⟩) fun v hv => by
        rcases List.mem_cons.mp hv with rfl | hv
        · exact hws
        · exact h.workspace v (h.mem hx hv)
    simpa using this
  have hframe : ∀ v, v ≠ w → v ∉ procs x → (enqueueToBatch s.link (s.batch x) w).1 v = s.link v :=
    fun v hvw hv => hholds.enqueue_frame hvw hv
  have hwrites : Writes (insert head q.toFinset) (w :: W).toFinset s { s with
      link := (enqueueToBatch s.link (s.batch x) w).1
      batch := update s.batch x (enqueueToBatch s.link (s.batch x) w).2 } := {
    same := rfl
    batch := fun y hy => by
      have hne : y ≠ x := fun e => hy (by simp [e, hx])
      exact Function.update_of_ne hne ..
    next := fun _ _ => rfl
    state := fun _ _ => rfl
    link := fun v hv => hframe v (fun e => hv (by simp [e])) fun hmem =>
      hv (by simp [h.mem hx hmem])
    prio := fun _ _ => rfl }
  have hout : Outside (insert head q.toFinset) (w :: W).toFinset s L := by
    refine ⟨h.outside.lt, h.outside.unused, fun v hv => ?_⟩
    rw [List.toFinset_cons, Finset.mem_insert] at hv
    rcases hv with rfl | hv
    · exact haway
    · exact h.outside.away v hv
  obtain ⟨hlayout, hout'⟩ := hwrites.hasLayout h.layout hout
  refine {
    layout := hlayout
    outside := hout'
    pos := h.pos
    notMem := h.notMem
    chain := h.chain
    holds := fun y hy => ?_
    nonempty := fun y hy => ?_
    sorted := fun y hy => ?_
    perm := (Buckets.flatMap_push_perm h.chain.1.nodup hx w).trans (h.perm.cons w)
    nodup := List.nodup_cons.mpr ⟨hw, h.nodup⟩
    workspace := fun v hv => ?_
    runnable := fun v hv => ?_ }
  · by_cases hyx : y = x
    · subst hyx
      simpa using hholds.enqueue hlen hws.1 hwx
    · simp only [Function.update_of_ne hyx]
      exact (h.holds y hy).congr fun v hv =>
        hframe v (fun e => hw (e ▸ h.mem hy hv)) fun hmem => h.disjoint hx hy (Ne.symm hyx) hmem hv
  · by_cases hyx : y = x
    · simp [hyx]
    · rw [Function.update_of_ne hyx]
      exact h.nonempty y hy
  · by_cases hyx : y = x
    · subst hyx
      rw [Function.update_self]
      rcases h.sorted y hy with ⟨hc, hp⟩ | hd
      · refine .inl ⟨hc, fun v hv => ?_⟩
        rcases List.mem_append.mp hv with hv | hv
        · exact hp v hv
        · exact List.mem_singleton.mp hv ▸ hclean hc
      · exact .inr hd
    · rw [Function.update_of_ne hyx]
      exact h.sorted y hy
  · rcases List.mem_cons.mp hv with rfl | hv
    · exact hws
    · exact h.workspace v hv
  · rcases List.mem_cons.mp hv with rfl | hv
    · exact hrun
    · exact h.runnable v hv

/-- **A batch with an affinity becomes dirty.** -/
theorem dirty (h : Hanging r L s pf head f b q procs W) (hx : x ∈ q) (haff : pHasAffinity (pf x)) :
    Hanging r L { s with state := update s.state x ⟨true, 0⟩ } pf head f b q procs W := by
  have hwrites : Writes (insert head q.toFinset) W.toFinset s
      { s with state := update s.state x ⟨true, 0⟩ } := {
    same := rfl
    batch := fun _ _ => rfl
    next := fun _ _ => rfl
    state := fun y hy => by
      have hne : y ≠ x := fun e => hy (by simp [e, hx])
      exact Function.update_of_ne hne ..
    link := fun _ _ => rfl
    prio := fun _ _ => rfl }
  obtain ⟨hlayout, hout⟩ := hwrites.hasLayout h.layout h.outside
  refine { h with
    layout := hlayout
    outside := hout
    sorted := fun y hy => ?_ }
  by_cases hyx : y = x
  · subst hyx
    exact .inr ⟨Function.update_self .., haff⟩
  · have hstate : update s.state x ⟨true, 0⟩ y = s.state y := Function.update_of_ne hyx ..
    have := h.sorted y hy
    unfold Sorted at this ⊢
    dsimp only
    rwa [hstate]

/-- **A batch of one process is appended**: `allocate_batch`, `enqueue_to_batch_with_hint (…, true)`
and the links. -/
theorem add (h : Hanging r L s pf head f b q procs W) {s₁ : Sched} (hs₁ : s.allocateBatch = (x, s₁))
    (hws : IsWorkspace w) (hw : w ∉ W) (haway : L.place w = .away)
    (hrun : Runnable s.id (s.prio w)) {next : BatchPtr → BatchPtr} (hnull : next x = 0)
    (hback : q ≠ [] → next b = x) (hnext : ∀ y, y ≠ x → (q ≠ [] → y ≠ b) → next y = s₁.next y)
    (hpf : ∀ y ∈ q, pf' y = pf y) (hx : pf' x = s.prio w) {f' : BatchPtr}
    (hf' : f' = if q = [] then x else f) :
    ∃ L', Hanging r L' { s₁ with
        link := (enqueueToBatchWithHint s₁.link (s₁.batch x) w true).1
        batch := update s₁.batch x (enqueueToBatchWithHint s₁.link (s₁.batch x) w true).2
        next := next } pf' head f' x (q ++ [x]) (update procs x [w]) (w :: W) ∧ x ∉ q ∧
      x ≠ head ∧ x ≠ 0 := by
  have hout : Outside (insert head q.toFinset) (w :: W).toFinset s L := by
    refine ⟨h.outside.lt, h.outside.unused, fun v hv => ?_⟩
    rw [List.toFinset_cons, Finset.mem_insert] at hv
    rcases hv with rfl | hv
    · exact haway
    · exact h.outside.away v hv
  obtain ⟨L', hlayout, hout', hsame, hxpos, hxnot, hxclean, hsched⟩ :=
    Run.HasLayout.allocate_outside h.layout hout
  have halloc : (r.withSched s).sched.allocateBatch = (x, s₁) := hs₁
  simp only [halloc] at hlayout hout' hsame hxpos hxnot hxclean hsched
  have hxq : x ∉ q := fun hmem => hxnot (by simp [hmem])
  have hxhead : x ≠ head := fun e => hxnot (by simp [e])
  have hin : ∀ y ∈ q, y ∈ insert head q.toFinset := fun y hy => by simp [hy]
  have hwrites : Writes (insert head (q ++ [x]).toFinset) (w :: W).toFinset s₁ { s₁ with
      link := (enqueueToBatchWithHint s₁.link (s₁.batch x) w true).1
      batch := update s₁.batch x (enqueueToBatchWithHint s₁.link (s₁.batch x) w true).2
      next := next } := {
    same := rfl
    batch := fun y hy => by
      have hne : y ≠ x := fun e => hy (by simp [e])
      exact Function.update_of_ne hne ..
    next := fun y hy => hnext y (fun e => hy (by simp [e])) fun hq e => hy (by
      simp [e, h.chain.back_mem hq])
    state := fun _ _ => rfl
    link := fun v hv => by
      have hne : v ≠ w := fun e => hv (by simp [e])
      simp only [enqueueToBatchWithHint, if_true]
      exact Function.update_of_ne hne ..
    prio := fun _ _ => rfl }
  have hsub : insert x (insert head q.toFinset) = insert head (q ++ [x]).toFinset := by
    ext y
    simp only [Finset.mem_insert, List.mem_toFinset, List.mem_append, List.mem_singleton]
    tauto
  rw [hsub] at hout'
  obtain ⟨hlayout', hout''⟩ := hwrites.hasLayout hlayout hout'
  refine ⟨L', {
    layout := hlayout'
    outside := hout''
    pos := h.pos
    notMem := fun hmem => ?_
    chain := ?_
    holds := fun y hy => ?_
    nonempty := fun y hy => ?_
    sorted := fun y hy => ?_
    perm := ?_
    nodup := List.nodup_cons.mpr ⟨hw, h.nodup⟩
    workspace := fun v hv => ?_
    runnable := fun v hv => ?_ }, hxq, hxhead, hxpos⟩
  · rcases List.mem_append.mp hmem with hmem | hmem
    · exact h.notMem hmem
    · exact hxhead (List.mem_singleton.mp hmem).symm
  · have hchain : Fifo 0 s₁.next f b q := h.chain.congr fun y hy => hsame.next y (hin y hy)
    refine hchain.push hxpos hnull (fun hf => hback fun hq => hf (hchain.null_iff.mpr hq))
      (fun y hy hyb => hnext y (fun e => hxq (e ▸ hy)) fun _ => hyb) (fun hf => ?_) fun hf => ?_
    · rw [hf', if_pos (hchain.null_iff.mp hf)]
    · rw [hf', if_neg fun hq => hf (hchain.null_iff.mpr hq)]
  · rcases List.mem_append.mp hy with hy | hy
    · have hyx : y ≠ x := fun e => hxq (e ▸ hy)
      simp only [Function.update_of_ne hyx]
      rw [hsame.batch y (hin y hy)]
      refine (h.holds y hy).congr fun v hv => ?_
      have hvw : v ≠ w := fun e => hw (e ▸ h.mem hy hv)
      simp only [enqueueToBatchWithHint, if_true, Function.update_of_ne hvw]
      exact hsame.link v (by simp [h.mem hy hv])
    · obtain rfl := List.mem_singleton.mp hy
      simp only [Function.update_self]
      exact .single s₁.link (s₁.batch y) hws.1
  · rcases List.mem_append.mp hy with hy | hy
    · have hyx : y ≠ x := fun e => hxq (e ▸ hy)
      rw [Function.update_of_ne hyx]
      exact h.nonempty y hy
    · obtain rfl := List.mem_singleton.mp hy
      simp
  · have hprio : s₁.prio = s.prio := hsched.prio
    rcases List.mem_append.mp hy with hy | hy
    · have hyx : y ≠ x := fun e => hxq (e ▸ hy)
      have := h.sorted y hy
      unfold Sorted at this ⊢
      dsimp only
      rwa [Function.update_of_ne hyx, hsame.state y (hin y hy), hprio, hpf y hy]
    · obtain rfl := List.mem_singleton.mp hy
      refine .inl ⟨hxclean, fun v hv => ?_⟩
      rw [Function.update_self, List.mem_singleton] at hv
      show s₁.prio v = _
      rw [hv, hprio, hx]
  · rw [Buckets.flatMap_concat hxq]
    exact (List.perm_append_singleton w _).trans (h.perm.cons w)
  · rcases List.mem_cons.mp hv with rfl | hv
    · exact hws
    · exact h.workspace v hv
  · show Runnable s₁.id (s₁.prio v)
    rw [hsched.id, hsched.prio]
    rcases List.mem_cons.mp hv with rfl | hv
    · exact hrun
    · exact h.runnable v hv

end Hanging

/-! ## The index of a head -/

/-- `y` is null, or one of the batches `q` whose priofinity is as `P` says. -/
def Leads (pf : BatchPtr → Word) (q : List BatchPtr) (P : Word → Prop) (y : BatchPtr) : Prop :=
  y = 0 ∨ y ∈ q ∧ P (pf y)

theorem Leads.mono {P : Word → Prop} {y : BatchPtr} {q' : List BatchPtr} (h : Leads pf q P y)
    (hq : ∀ x ∈ q, x ∈ q' ∧ pf' x = pf x) : Leads pf' q' P y :=
  h.imp_right fun ⟨hy, hP⟩ => ⟨(hq y hy).1, by rwa [(hq y hy).2]⟩

theorem Leads.of_mem {P : Word → Prop} {y : BatchPtr} (hy : y ∈ q) (hP : P (pf y)) :
    Leads pf q P y :=
  .inr ⟨hy, hP⟩

/-- A priofinity without affinity, with the priority `4 * j + c`. -/
def HasLevel (c : Fin 4) (j : Fin 8) (p : Word) : Prop :=
  ¬ pHasAffinity p ∧ barHeadPrio (pPriority p) = c ∧ batchPrio (pPriority p) = j

/-- **A level is one priofinity.** -/
theorem HasLevel.eq {c : Fin 4} {j : Fin 8} {p p' : Word} (h : HasLevel c j p)
    (h' : HasLevel c j p') : p = p' := by
  have hc := congrArg Fin.val (h.2.1.trans h'.2.1.symm)
  have hj := congrArg Fin.val (h.2.2.trans h'.2.2.symm)
  refine priofinity_ext (Fin.ext ?_) ?_
  · simp only [barHeadPrio, batchPrio] at hc hj
    omega
  · rw [pAffinity_of_not_pHasAffinity h.1, pAffinity_of_not_pHasAffinity h'.1]

/-- Where the pointers of a head and of its batches lead. -/
structure Indexed (h : BarHead) (pf : BatchPtr → Word) (ix : BatchPtr → Fin 8 → BatchPtr)
    (q : List BatchPtr) : Prop where
  affine : Leads pf q pHasAffinity h.affine
  current : Leads pf q (fun p => ¬ pHasAffinity p) h.current
  prio : ∀ c, Leads pf q (fun p => ¬ pHasAffinity p ∧ barHeadPrio (pPriority p) = c) (h.prio c)
  entry : ∀ x ∈ q, ¬ pHasAffinity (pf x) → ∀ j,
    Leads pf q (HasLevel (barHeadPrio (pPriority (pf x))) j) (ix x j)

variable {h h' : BarHead} {ix ix' : BatchPtr → Fin 8 → BatchPtr}

/-- **The index after a batch was appended** whose own index is in order. -/
theorem Indexed.add (hi : Indexed h pf ix q) (hpf : ∀ y ∈ q, pf' y = pf y)
    (hix : ∀ y ∈ q, ix' y = ix y)
    (haffine : Leads pf' (q ++ [x]) pHasAffinity h'.affine)
    (hcurrent : Leads pf' (q ++ [x]) (fun p => ¬ pHasAffinity p) h'.current)
    (hprio : h'.prio = h.prio)
    (hentry : ¬ pHasAffinity (pf' x) → ∀ j,
      Leads pf' (q ++ [x]) (HasLevel (barHeadPrio (pPriority (pf' x))) j) (ix' x j)) :
    Indexed h' pf' ix' (q ++ [x]) := by
  have hq : ∀ y ∈ q, y ∈ q ++ [x] ∧ pf' y = pf y := fun y hy => ⟨by simp [hy], hpf y hy⟩
  refine ⟨haffine, hcurrent, fun c => ?_, fun y hy haff j => ?_⟩
  · rw [hprio]
    exact (hi.prio c).mono hq
  · rcases List.mem_append.mp hy with hy | hy
    · rw [hix y hy, hpf y hy]
      exact (hi.entry y hy (by rwa [← hpf y hy]) j).mono hq
    · obtain rfl := List.mem_singleton.mp hy
      exact hentry haff j

/-- What putting a process on a batch leaves alone. -/
structure Kept (head : BatchPtr) (m m' : BarMem) : Prop where
  bar : m'.bar = m.bar
  index : m'.index = m.index
  pushed : m'.pushed = m.pushed
  count : (m'.barHead head).count = (m.barHead head).count
  id : m'.sched.id = m.sched.id
  priofinity : m'.sched.priofinity = m.sched.priofinity

/-- **A head with its batches**, in memory. -/
structure HeadInv (r : Run) (L : Layout) (m : BarMem) (head : BatchPtr) (q : List BatchPtr)
    (procs : BatchPtr → List Wptr) (W : List Wptr) : Prop where
  hanging : Hanging r L m.sched m.priofinity head (m.barHead head).fptr (m.barHead head).bptr q
    procs W
  indexed : Indexed (m.barHead head) m.priofinity m.prio q

theorem Kept.trans {m m' m'' : BarMem} (h : Kept head m m') (h' : Kept head m' m'') :
    Kept head m m'' :=
  ⟨h'.bar.trans h.bar, h'.index.trans h.index, h'.pushed.trans h.pushed, h'.count.trans h.count,
    h'.id.trans h.id, h'.priofinity.trans h.priofinity⟩

theorem Kept.setHead (m : BarMem) (head : BatchPtr) {h : BarHead}
    (hc : h.count = (m.barHead head).count) : Kept head m (m.setHead head h) :=
  ⟨rfl, rfl, rfl, by simpa [BarMem.setHead] using hc, rfl, rfl⟩

theorem barAddBatch_eq (m : BarMem) (head parent : BatchPtr) (front current : Bool) (w : Wptr) :
    m.barAddBatch head parent front current w = (m.sched.allocateBatch.1, { m with
      sched := { m.sched.allocateBatch.2 with
        link := (enqueueToBatchWithHint m.sched.allocateBatch.2.link
          (m.sched.allocateBatch.2.batch m.sched.allocateBatch.1) w true).1
        batch := update m.sched.allocateBatch.2.batch m.sched.allocateBatch.1
          (enqueueToBatchWithHint m.sched.allocateBatch.2.link
            (m.sched.allocateBatch.2.batch m.sched.allocateBatch.1) w true).2
        next := if front then update m.sched.allocateBatch.2.next m.sched.allocateBatch.1 0
          else update (update m.sched.allocateBatch.2.next m.sched.allocateBatch.1 0)
            (m.barHead head).bptr m.sched.allocateBatch.1 }
      priofinity := update m.priofinity m.sched.allocateBatch.1
        m.sched.allocateBatch.2.priofinity
      prio := update m.prio m.sched.allocateBatch.1
        (update (if parent = 0 then fun _ => 0 else m.prio parent)
          (batchPrio (pPriority m.sched.priofinity)) m.sched.allocateBatch.1)
      barHead := update m.barHead head { m.barHead head with
        fptr := if front then m.sched.allocateBatch.1 else (m.barHead head).fptr
        bptr := m.sched.allocateBatch.1
        current := if current then m.sched.allocateBatch.1 else (m.barHead head).current } }) := by
  cases front <;> cases current <;>
    simp [BarMem.barAddBatch, BarMem.allocateBatch, BarMem.enqueue, BarMem.setNext, BarMem.setHead]

/-- What one arrival does to the head. -/
structure Arrived (r : Run) (m m' : BarMem) (head : BatchPtr) (w : Wptr) (W : List Wptr) :
    Prop where
  kept : Kept head m m'
  inv : ∃ L' q' procs', q' ≠ [] ∧ HeadInv r L' m' head q' procs' (w :: W)

theorem Arrived.of_kept {m m' m'' : BarMem} (hk : Kept head m m') (ha : Arrived r m' m'' head w W) :
    Arrived r m m'' head w W := ⟨hk.trans ha.kept, ha.inv⟩

theorem Arrived.of_append {m m' : BarMem} {y : BatchPtr} (hk : Kept head m m')
    (hi : ∃ L', HeadInv r L' m' head (q ++ [y]) procs (w :: W)) : Arrived r m m' head w W :=
  let ⟨L', hi⟩ := hi
  ⟨hk, L', _, _, by simp, hi⟩

/-- The process `w` is about to arrive. -/
structure Arriving (m : BarMem) (L : Layout) (w : Wptr) (W : List Wptr) : Prop where
  workspace : IsWorkspace w
  new : w ∉ W
  away : L.place w = .away
  saved : m.sched.prio w = m.sched.priofinity
  runnable : Runnable m.sched.id m.sched.priofinity

variable {m : BarMem} {parent : BatchPtr} {front current : Bool}

namespace HeadInv

/-- Another index, with the same ends. -/
theorem setHead (hi : HeadInv r L m head q procs W) (hf : h'.fptr = (m.barHead head).fptr)
    (hb : h'.bptr = (m.barHead head).bptr) (hx : Indexed h' m.priofinity m.prio q) :
    HeadInv r L (m.setHead head h') head q procs W := by
  refine ⟨?_, ?_⟩
  · have := hi.hanging
    rw [← hf, ← hb] at this
    simpa [BarMem.setHead] using this
  · simpa [BarMem.setHead] using hx

/-- **A process joins a batch of the head.** -/
theorem join (hi : HeadInv r L m head q procs W) (ha : Arriving m L w W) (hx : x ∈ q)
    (hclean : m.sched.state x = .clean → m.sched.priofinity = m.priofinity x) :
    HeadInv r L (m.enqueue x w false) head q (update procs x (procs x ++ [w])) (w :: W) :=
  ⟨hi.hanging.grow hx (fun hc => ha.saved.trans (hclean hc)) ha.workspace ha.new ha.away
    (by rw [ha.saved]; exact ha.runnable), hi.indexed⟩

theorem allocate_notMem (hi : HeadInv r L m head q procs W) :
    m.sched.allocateBatch.1 ∉ insert head q.toFinset :=
  hi.hanging.layout.inv.allocateBatch_notMem hi.hanging.outside

/-- **A batch is appended** with the process alone on it. -/
theorem append (hi : HeadInv r L m head q procs W) (ha : Arriving m L w W) {m' : BarMem}
    (hx : m.sched.allocateBatch.1 = x) {next : BatchPtr → BatchPtr}
    (hsched : m'.sched = { m.sched.allocateBatch.2 with
      link := (enqueueToBatchWithHint m.sched.allocateBatch.2.link
        (m.sched.allocateBatch.2.batch x) w true).1
      batch := update m.sched.allocateBatch.2.batch x
        (enqueueToBatchWithHint m.sched.allocateBatch.2.link
          (m.sched.allocateBatch.2.batch x) w true).2
      next := next })
    (hnull : next x = 0) (hback : q ≠ [] → next (m.barHead head).bptr = x)
    (hnext : ∀ y, y ≠ x → (q ≠ [] → y ≠ (m.barHead head).bptr) →
      next y = m.sched.allocateBatch.2.next y)
    (hpf : m'.priofinity = update m.priofinity x m.sched.priofinity)
    (hix : ∀ y, y ≠ x → m'.prio y = m.prio y)
    (hf : (m'.barHead head).fptr = if q = [] then x else (m.barHead head).fptr)
    (hb : (m'.barHead head).bptr = x)
    (haffine : (m'.barHead head).affine = (m.barHead head).affine ∨
      (m'.barHead head).affine = x ∧ pHasAffinity m.sched.priofinity)
    (hcurrent : (m'.barHead head).current = (m.barHead head).current ∨
      (m'.barHead head).current = x ∧ ¬ pHasAffinity m.sched.priofinity)
    (hprio : (m'.barHead head).prio = (m.barHead head).prio)
    (hentry : ¬ pHasAffinity m.sched.priofinity → ∀ j,
      Leads m.priofinity q (HasLevel (barHeadPrio (pPriority m.sched.priofinity)) j) (m'.prio x j) ∨
        m'.prio x j = x ∧ batchPrio (pPriority m.sched.priofinity) = j) :
    x ∉ q ∧ x ≠ 0 ∧
      ∃ L', HeadInv r L' m' head (q ++ [x]) (update procs x [w]) (w :: W) := by
  have hnot := hi.allocate_notMem
  rw [hx] at hnot
  have hxq : x ∉ q := fun hmem => hnot (by simp [hmem])
  have hne : ∀ y ∈ q, y ≠ x := fun y hy e => hxq (e ▸ hy)
  have hold : ∀ y ∈ q, m'.priofinity y = m.priofinity y := fun y hy => by
    rw [hpf, Function.update_of_ne (hne y hy)]
  have hnew : m'.priofinity x = m.sched.priofinity := by rw [hpf, Function.update_self]
  have hq : ∀ y ∈ q, y ∈ q ++ [x] ∧ m'.priofinity y = m.priofinity y := fun y hy =>
    ⟨by simp [hy], hold y hy⟩
  have hself : x ∈ q ++ [x] := by simp
  obtain ⟨L', hhang, -, -, hxpos⟩ := hi.hanging.add
    (show m.sched.allocateBatch = (x, m.sched.allocateBatch.2) by rw [← hx]) ha.workspace ha.new
      ha.away
    (by rw [ha.saved]; exact ha.runnable) hnull hback hnext hold (hnew.trans ha.saved.symm) hf
  rw [← hsched] at hhang
  refine ⟨hxq, hxpos, L', by rw [hb]; exact hhang,
    hi.indexed.add hold (fun y hy => hix y (hne y hy)) ?_ ?_ hprio fun haff j => ?_⟩
  · rcases haffine with he | ⟨he, haff⟩
    · rw [he]
      exact hi.indexed.affine.mono hq
    · rw [he]
      exact .of_mem hself (by rwa [hnew])
  · rcases hcurrent with he | ⟨he, haff⟩
    · rw [he]
      exact hi.indexed.current.mono hq
    · rw [he]
      exact .of_mem hself (by rwa [hnew])
  · rw [hnew] at haff ⊢
    rcases hentry haff j with hlead | ⟨he, hj⟩
    · exact hlead.mono hq
    · rw [he]
      exact .of_mem hself (by rw [hnew]; exact ⟨haff, rfl, hj⟩)

/-- The head's index comes to lead to `x`. -/
theorem lead (hi : HeadInv r L m head q procs W) (hx : x ∈ q) {c : Fin 4}
    (haff : ¬ pHasAffinity (m.priofinity x)) (hc : barHeadPrio (pPriority (m.priofinity x)) = c) :
    HeadInv r L (m.setHead head { m.barHead head with
      prio := update (m.barHead head).prio c x }) head q procs W := by
  refine hi.setHead rfl rfl { hi.indexed with prio := fun c' => ?_ }
  dsimp only
  by_cases he : c' = c
  · subst he
    rw [Function.update_self]
    exact .of_mem hx ⟨haff, hc⟩
  · rw [Function.update_of_ne he]
    exact hi.indexed.prio c'

/-- **`bar_add_batch`** -/
theorem barAddBatch (parent : BatchPtr) (front current : Bool)
    (hi : HeadInv r L m head q procs W) (ha : Arriving m L w W)
    (haff : ¬ pHasAffinity m.sched.priofinity) (hfront : front = true ↔ q = [])
    (hparent : Leads m.priofinity q (fun p => ¬ pHasAffinity p ∧
      barHeadPrio (pPriority p) = barHeadPrio (pPriority m.sched.priofinity)) parent) :
    Kept head m (m.barAddBatch head parent front current w).2 ∧
      (m.barAddBatch head parent front current w).2.priofinity
        (m.barAddBatch head parent front current w).1 = m.sched.priofinity ∧
      ∃ L', HeadInv r L' (m.barAddBatch head parent front current w).2 head
        (q ++ [(m.barAddBatch head parent front current w).1])
        (update procs (m.barAddBatch head parent front current w).1 [w]) (w :: W) := by
  obtain ⟨L₀, -, -, -, -, hsame⟩ := hi.hanging.layout.inv.allocateBatch
  have hsame : SameSched m.sched m.sched.allocateBatch.2 := hsame
  have hnot := hi.allocate_notMem
  have hback : q ≠ [] → (m.barHead head).bptr ∈ q := hi.hanging.chain.back_mem
  rw [barAddBatch_eq]
  generalize hx : m.sched.allocateBatch.1 = x at hnot ⊢
  have hxq : x ∉ q := fun hmem => hnot (by simp [hmem])
  refine ⟨⟨rfl, rfl, rfl, by simp, hsame.id, hsame.priofinity⟩, ?_, ?_⟩
  · simp [hsame.priofinity]
  · refine (hi.append ha hx rfl ?_ (fun hq => ?_) (fun y hy hyb => ?_) ?_ (fun y hy => ?_) ?_ ?_ ?_
      ?_
      ?_ fun _ j => ?_).2.2
    · cases front with
      | true => simp
      | false =>
        have hxb : x ≠ (m.barHead head).bptr := fun e =>
          hxq (e ▸ hback fun hq => by simpa using hfront.mpr hq)
        simp [Function.update_of_ne hxb]
    · cases front with
      | true => exact absurd (hfront.mp rfl) hq
      | false => simp
    · cases front with
      | true => simp [Function.update_of_ne hy]
      | false =>
        have hyb := hyb fun hq => by simpa using hfront.mpr hq
        simp [Function.update_of_ne hyb, Function.update_of_ne hy]
    · rw [hsame.priofinity]
    · exact Function.update_of_ne hy ..
    · simp [hfront]
    · simp
    · exact .inl (by simp)
    · cases current with
      | true => exact .inr ⟨by simp, haff⟩
      | false => exact .inl (by simp)
    · simp
    · by_cases hj : j = batchPrio (pPriority m.sched.priofinity)
      · exact .inr ⟨by simp [hj], hj.symm⟩
      · refine .inl ?_
        dsimp only
        rw [Function.update_self, Function.update_of_ne hj]
        rcases hparent with rfl | ⟨hmem, hnaff, hc⟩
        · exact .inl (if_pos rfl ▸ rfl)
        · rw [if_neg (hi.hanging.ne_zero hmem), ← hc]
          exact hi.indexed.entry parent hmem hnaff j

end HeadInv

/-! ## Placing -/

theorem barAffine_eq (m : BarMem) (head : BatchPtr) (hdata : Bool) (bsize : Word) (w : Wptr)
    (hz : (m.barHead head).affine = 0) :
    m.barAffine head hdata bsize w = { m with
      sched := { m.sched.allocateBatch.2 with
        link := (enqueueToBatchWithHint m.sched.allocateBatch.2.link
          (m.sched.allocateBatch.2.batch m.sched.allocateBatch.1) w true).1
        batch := update m.sched.allocateBatch.2.batch m.sched.allocateBatch.1
          (enqueueToBatchWithHint m.sched.allocateBatch.2.link
            (m.sched.allocateBatch.2.batch m.sched.allocateBatch.1) w true).2
        next := if hdata then update (update m.sched.allocateBatch.2.next m.sched.allocateBatch.1 0)
            (m.barHead head).bptr m.sched.allocateBatch.1
          else update m.sched.allocateBatch.2.next m.sched.allocateBatch.1 0 }
      priofinity := update m.priofinity m.sched.allocateBatch.1
        m.sched.allocateBatch.2.priofinity
      barHead := update m.barHead head { m.barHead head with
        fptr := if hdata then (m.barHead head).fptr else m.sched.allocateBatch.1
        bptr := m.sched.allocateBatch.1
        affine := m.sched.allocateBatch.1 } } := by
  cases hdata <;>
    simp [BarMem.barAffine, hz, BarMem.allocateBatch, BarMem.enqueue, BarMem.setNext,
      BarMem.setHead]

namespace HeadInv

variable {hdata : Bool} {bsize : Word}

/-- **Joining the affine batch** of the head, which is then full or not. -/
theorem joinAffine (hi : HeadInv r L m head q procs W) (ha : Arriving m L w W) (hx : x ∈ q)
    (hclean : m.sched.state x = .clean → m.sched.priofinity = m.priofinity x) :
    Arrived r m (m.joinAffine head x bsize w) head w W := by
  have hq : q ≠ [] := List.ne_nil_of_mem hx
  have hjoin := hi.join ha hx hclean
  have hkept : Kept head m (m.enqueue x w false) := ⟨rfl, rfl, rfl, rfl, rfl, rfl⟩
  rw [BarMem.joinAffine]
  split_ifs
  · exact ⟨hkept.trans (.setHead _ head rfl), L, q, _, hq,
      hjoin.setHead rfl rfl { hjoin.indexed with affine := .inl rfl }⟩
  · exact ⟨hkept, L, q, _, hq, hjoin⟩

/-- **Joining the affine batch**, or starting it. -/
theorem barAffine (hi : HeadInv r L m head q procs W) (ha : Arriving m L w W)
    (haff : pHasAffinity m.sched.priofinity) (hdata_iff : hdata = true ↔ q ≠ []) :
    Arrived r m (m.barAffine head hdata bsize w) head w W := by
  rcases eq_or_ne (m.barHead head).affine 0 with hz | hnz
  · obtain ⟨L₀, -, -, -, -, hsame⟩ := hi.hanging.layout.inv.allocateBatch
    have hsame : SameSched m.sched m.sched.allocateBatch.2 := hsame
    have hnot := hi.allocate_notMem
    have hback : q ≠ [] → (m.barHead head).bptr ∈ q := hi.hanging.chain.back_mem
    rw [barAffine_eq m head hdata bsize w hz]
    generalize hx : m.sched.allocateBatch.1 = x at hnot ⊢
    have hxq : x ∉ q := fun hmem => hnot (by simp [hmem])
    refine .of_append ⟨rfl, rfl, rfl, by simp, hsame.id, hsame.priofinity⟩
      (hi.append ha hx rfl ?_ (fun hq => ?_) (fun y hy hyb => ?_) ?_ (fun y hy => ?_) ?_ ?_
        (.inr ⟨?_, haff⟩) (.inl ?_) ?_ fun hnaff => absurd haff hnaff).2.2
    · cases hdata with
      | true =>
        have hxb : x ≠ (m.barHead head).bptr := fun e => hxq (e ▸ hback (hdata_iff.mp rfl))
        simp [Function.update_of_ne hxb]
      | false => simp
    · simp [hdata_iff.mpr hq]
    · cases hdata with
      | true => simp [Function.update_of_ne (hyb (hdata_iff.mp rfl)), Function.update_of_ne hy]
      | false => simp [Function.update_of_ne hy]
    · rw [hsame.priofinity]
    · rfl
    · rcases eq_or_ne q [] with rfl | hq
      · have : hdata = false := by simpa using hdata_iff
        simp [this]
      · simp [hq, hdata_iff.mpr hq]
    · simp
    · simp
    · simp
    · simp
  · rcases hi.indexed.affine with hz | ⟨hmem, hbaff⟩
    · exact absurd hz hnz
    · rw [BarMem.barAffine, if_neg hnz]
      dsimp only
      by_cases hp : m.priofinity (m.barHead head).affine = m.sched.priofinity
      · rw [if_neg (not_not.mpr hp)]
        exact hi.joinAffine ha hmem fun _ => hp.symm
      · rw [if_pos hp]
        have hkept : Kept head m (m.setDirty (m.barHead head).affine) :=
          ⟨rfl, rfl, rfl, rfl, rfl, rfl⟩
        have hdirty : HeadInv r L (m.setDirty (m.barHead head).affine) head q procs W :=
          ⟨hi.hanging.dirty hmem hbaff, hi.indexed⟩
        exact .of_kept hkept (hdirty.joinAffine
          ⟨ha.workspace, ha.new, ha.away, ha.saved, ha.runnable⟩ hmem fun hc => by
            simp [BarMem.setDirty, BatchState.clean] at hc)

/-- **A batch is added** that the index of the head then leads to. -/
theorem addLead (hi : HeadInv r L m head q procs W) (ha : Arriving m L w W)
    (haff : ¬ pHasAffinity m.sched.priofinity) (hq : q ≠ [])
    (hparent : Leads m.priofinity q (fun p => ¬ pHasAffinity p ∧
      barHeadPrio (pPriority p) = barHeadPrio (pPriority m.sched.priofinity)) parent) :
    Arrived r m ((m.barAddBatch head parent false false w).2.setHead head
      { (m.barAddBatch head parent false false w).2.barHead head with
        prio := update ((m.barAddBatch head parent false false w).2.barHead head).prio
          (barHeadPrio (pPriority m.sched.priofinity))
          (m.barAddBatch head parent false false w).1 }) head w W := by
  obtain ⟨hkept, hpf, L', hL'⟩ := hi.barAddBatch parent false false ha haff
    (by simpa using hq) hparent
  have hlead := hL'.lead (x := (m.barAddBatch head parent false false w).1)
    (c := barHeadPrio (pPriority m.sched.priofinity)) (by simp) (by rwa [hpf]) (by rw [hpf])
  exact ⟨hkept.trans (.setHead _ head rfl), L', _, _, by simp, hlead⟩

/-- **Joining the current batch**, or adding one. -/
theorem barCurrent (hi : HeadInv r L m head q procs W) (ha : Arriving m L w W)
    (haff : ¬ pHasAffinity m.sched.priofinity) (hcur : (m.barHead head).current ≠ 0) :
    Arrived r m (m.barCurrent head bsize w) head w W := by
  rcases hi.indexed.current with hz | ⟨hmem, hbaff⟩
  · exact absurd hz hcur
  have hq : q ≠ [] := List.ne_nil_of_mem hmem
  unfold BarMem.barCurrent
  dsimp only
  split_ifs with hp hsize
  · obtain ⟨hkept, -, L', hL'⟩ := hi.barAddBatch 0 false true ha haff
      (by simpa using hq) (.inl rfl)
    exact ⟨hkept, L', _, _, by simp, hL'⟩
  · exact ⟨⟨rfl, rfl, rfl, rfl, rfl, rfl⟩, L, q, _, hq, hi.join ha hmem fun _ => hp.symm⟩
  · have hlead := (hi.lead hmem hbaff rfl).indexed
    simp only [BarMem.setHead, Function.update_self] at hlead
    have hleft : HeadInv r L (m.setHead head { m.barHead head with
        current := 0
        prio := update (m.barHead head).prio
          (barHeadPrio (pPriority (m.priofinity (m.barHead head).current)))
          (m.barHead head).current }) head q procs W :=
      hi.setHead rfl rfl { hlead with current := .inl rfl }
    have hadd := hleft.addLead ⟨ha.workspace, ha.new, ha.away, ha.saved, ha.runnable⟩ haff hq
      (hleft.indexed.prio _)
    refine .of_kept ?_ hadd
    exact ⟨rfl, rfl, rfl, by simp [BarMem.setHead], rfl, rfl⟩

/-- **Joining the batch the index leads to**, or adding one. -/
theorem barIndexed (hi : HeadInv r L m head q procs W) (ha : Arriving m L w W)
    (haff : ¬ pHasAffinity m.sched.priofinity) (hq : q ≠ []) :
    Arrived r m (m.barIndexed head bsize w) head w W := by
  have hprio := hi.indexed.prio (barHeadPrio (pPriority m.sched.priofinity))
  unfold BarMem.barIndexed
  dsimp only
  split_ifs with hz hp hnone hfull hfull
  · exact hi.addLead ha haff hq (.inl rfl)
  · exact hi.addLead ha haff hq hprio
  · exact hi.addLead ha haff hq hprio
  · obtain ⟨hmem, hbaff, hc⟩ := hprio.resolve_left hz
    obtain ⟨hmem', hlevel⟩ := (hi.indexed.entry _ hmem hbaff
      (batchPrio (pPriority m.sched.priofinity))).resolve_left hnone
    rw [hc] at hlevel
    have hjoin := hi.join ha hmem' fun _ => HasLevel.eq ⟨haff, rfl, rfl⟩ hlevel
    have hlead := hjoin.lead hmem' (c := barHeadPrio (pPriority m.sched.priofinity))
      hlevel.1 hlevel.2.1
    exact ⟨⟨rfl, rfl, rfl, by simp [BarMem.setHead, BarMem.enqueue], rfl, rfl⟩, L, q, _, hq, hlead⟩
  · exact hi.addLead ha haff hq hprio
  · obtain ⟨hmem, hbaff, hc⟩ := hprio.resolve_left hz
    exact ⟨⟨rfl, rfl, rfl, rfl, rfl, rfl⟩, L, q, _, hq,
      hi.join ha hmem fun _ => (not_not.mp hp).symm⟩

/-- **The process is put on a batch of the head.** -/
theorem barPlace (bsize : Word) (hi : HeadInv r L m head q procs W) (ha : Arriving m L w W)
    (hdata_iff : hdata = true ↔ q ≠ []) :
    Arrived r m (m.barPlace head hdata bsize w) head w W := by
  unfold BarMem.barPlace
  split_ifs with haff hd hcur
  · exact hi.barAffine ha haff hdata_iff
  · exact hi.barCurrent ha haff hcur
  · exact hi.barIndexed ha haff (hdata_iff.mp hd)
  · obtain ⟨hkept, -, L', hL'⟩ := hi.barAddBatch 0 true true ha haff
      (by simpa [hd] using hdata_iff) (.inl rfl)
    exact ⟨hkept, L', _, _, by simp, hL'⟩

end HeadInv

end Ccsp

end Kroc
