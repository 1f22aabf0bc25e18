import Kroc.Ccsp.Mobile
import Kroc.Lib.RefCount

/-!
# Ccsp/MobileHeap — every operation on mobiles keeps the counts

The memory as a `RefCount.Graph`: a bundle or barrier expects as many references as its count says,
an array or a block of data one.  `Good m R D` is `Balanced` with what the types promise.  Each
recursive function gets one lemma, by induction on its fuel: it works on a reference in hand, opens
the arrays it walks, and needs no more fuel than there are arrays to open.
-/

open RefCount Transition

namespace Kroc

namespace Ccsp

namespace Mobile

/-! ## The memory as a graph -/

/-- The references an object expects. -/
def Obj.due (o : Obj) : ℕ :=
  if mtType o.type = .cb ∨ mtType o.type = .barrier then o.refCount else 1

/-- The pointers among some words. -/
def ptrs (qs : List Ptr) : Multiset Ptr := qs.filter (· ≠ 0)

/-- The references an object holds. -/
def Obj.out (o : Obj) : Multiset Ptr := if o.HoldsPtrs then ptrs o.data else 0

/-- The null pointer is no reference. -/
@[simp] theorem mem_ptrs {q : Ptr} {qs : List Ptr} : q ∈ ptrs qs ↔ q ∈ qs ∧ q ≠ 0 := by
  simp [ptrs]

@[simp] theorem ptrs_nil : ptrs [] = 0 := rfl

theorem ptrs_cons_zero (qs : List Ptr) : ptrs (0 :: qs) = ptrs qs := by simp [ptrs]

theorem ptrs_cons {q : Ptr} (hq : q ≠ 0) (qs : List Ptr) : ptrs (q :: qs) = q ::ₘ ptrs qs := by
  simp [ptrs, hq]

theorem ptrs_append (qs rs : List Ptr) : ptrs (qs ++ rs) = ptrs qs + ptrs rs := by
  simp [ptrs, List.filter_append]

theorem ptrs_replicate (n : ℕ) : ptrs (List.replicate n 0) = 0 := by
  simp [ptrs]

namespace Mem

/-- **The graph of the heap**: how often an object is due to be released, and whom it refers to. -/
def graph (m : Mem) : Graph Ptr where
  nodes := (Finset.range m.next).filter fun p => (m.objs p).isSome
  due p := ((m.objs p).map Obj.due).getD 0
  out p := ((m.objs p).map Obj.out).getD 0

end Mem

/-- What `mt_alloc` sees to: a simple type of one of the four kinds. -/
structure Obj.Valid (o : Obj) : Prop where
  simple : mtSimple o.type = true
  kind : mtType o.type = .array ∨ mtType o.type = .cb ∨ mtType o.type = .barrier ∨
    mtType o.type = .data
  inner : mtType o.type = .array → mtSimple (mtArrayInnerType o.type) = true

/-- The elements of an array are what its type word says. -/
def Typed (m : Mem) (o : Obj) : Prop :=
  o.HoldsPtrs → ∀ q ∈ o.data, q ≠ 0 → ∃ o', m.objs q = some o' ∧ Fits (elemType o.type) o'

/-- **The counts are right and the types are kept**, with the references `R` in hand and the arrays
`D` open. -/
structure Good (m : Mem) (R : Multiset Ptr) (D : Finset Ptr) : Prop where
  balanced : m.graph.Balanced R D
  bound : ∀ p o, m.objs p = some o → 0 < p ∧ p < m.next
  next : 0 < m.next
  valid : ∀ p o, m.objs p = some o → o.Valid
  typed : ∀ p o, m.objs p = some o → p ∉ D → Typed m o
  opened : ∀ a ∈ D, ∀ o, m.objs a = some o → o.HoldsPtrs

variable {m m' m₁ : Mem} {R R' : Multiset Ptr} {D : Finset Ptr} {a p q : Ptr} {o o' : Obj}

/-- Every object is a node. -/
theorem Good.mem_nodes (h : Good m R D) (ho : m.objs p = some o) : p ∈ m.graph.nodes := by
  simp [Mem.graph, ho, (h.bound p o ho).2]

theorem mem_nodes_iff : p ∈ m.graph.nodes ↔ p < m.next ∧ ∃ o, m.objs p = some o := by
  simp [Mem.graph, Option.isSome_iff_exists]

@[simp] theorem graph_due (ho : m.objs p = some o) : m.graph.due p = o.due := by
  simp [Mem.graph, ho]

@[simp] theorem graph_out (ho : m.objs p = some o) : m.graph.out p = o.out := by
  simp [Mem.graph, ho]

/-- A reference in hand is to an object that is not open. -/
theorem Good.exists_obj (h : Good m R D) (hp : p ∈ R) : ∃ o, m.objs p = some o ∧ p ∉ D := by
  have := Finset.mem_sdiff.mp (h.balanced.live p (Multiset.mem_add.mpr (.inl hp)))
  obtain ⟨-, o, ho⟩ := mem_nodes_iff.mp this.1
  exact ⟨o, ho, this.2⟩

/-- Nor is a reference in an object that is not open. -/
theorem Good.exists_obj_out (h : Good m R D) (ho : m.objs a = some o) (ha : a ∉ D)
    (hq : q ∈ o.out) : ∃ o', m.objs q = some o' ∧ q ∉ D := by
  have hmem : q ∈ m.graph.inner D := by
    rw [Graph.inner_insert (Finset.mem_sdiff.mpr ⟨h.mem_nodes ho, ha⟩), graph_out ho]
    exact Multiset.mem_add.mpr (.inl hq)
  have := Finset.mem_sdiff.mp (h.balanced.live q (Multiset.mem_add.mpr (.inr hmem)))
  obtain ⟨-, o', ho'⟩ := mem_nodes_iff.mp this.1
  exact ⟨o', ho', this.2⟩

theorem Good.ne_zero (h : Good m R D) (hp : p ∈ R) : p ≠ 0 := by
  obtain ⟨o, ho, -⟩ := h.exists_obj hp
  exact Nat.ne_of_gt (h.bound p o ho).1

/-- An array of pointers has one owner. -/
theorem Obj.HoldsPtrs.due (h : o.HoldsPtrs) : o.due = 1 := by
  simp [Obj.due, h.1]

theorem Obj.HoldsPtrs.out (h : o.HoldsPtrs) : o.out = ptrs o.data := if_pos h

/-- Only arrays refer to others. -/
theorem out_of_not_array (h : mtType o.type ≠ .array) : o.out = 0 := if_neg fun hp => h hp.1

/-- **What survives**: the objects of `m'` are those of `m` but for their counts. -/
def Mem.Like (m m' : Mem) : Prop :=
  ∀ p o', m'.objs p = some o' → ∃ o, m.objs p = some o ∧ o'.type = o.type ∧ o'.data = o.data

theorem Obj.HoldsPtrs.congr (ht : o'.type = o.type) : o'.HoldsPtrs ↔ o.HoldsPtrs := by
  simp [Obj.HoldsPtrs, ht]

theorem Fits.congr {inner : ℕ} (h : Fits inner o) (ht : o'.type = o.type) : Fits inner o' := by
  unfold Fits at h ⊢
  split at h <;> simp_all

/-- The types are kept where objects only go away and counts change. -/
theorem Good.of_like {D' : Finset Ptr} (h : Good m R D) (hbal : m'.graph.Balanced R' D')
    (hlike : m.Like m') (hnext : m'.next = m.next)
    (hD : ∀ p o, m'.objs p = some o → (p ∈ D' ↔ p ∈ D)) : Good m' R' D' := by
  have hbound : ∀ p o, m'.objs p = some o → 0 < p ∧ p < m'.next := by
    intro p o' ho'
    obtain ⟨o, ho, -⟩ := hlike p o' ho'
    rw [hnext]
    exact h.bound p o ho
  refine ⟨hbal, hbound, hnext ▸ h.next, fun p o' ho' => ?_, fun p o' ho' hp hptrs q hq hq0 => ?_,
    fun a ha o' ho' => ?_⟩
  · obtain ⟨o, ho, ht, -⟩ := hlike p o' ho'
    have := h.valid p o ho
    exact ⟨ht ▸ this.simple, ht ▸ this.kind, ht ▸ this.inner⟩
  · obtain ⟨o, ho, ht, hd⟩ := hlike p o' ho'
    obtain ⟨r, hr, hfits⟩ := h.typed p o ho (fun hpD => hp ((hD p o' ho').mpr hpD))
      ((Obj.HoldsPtrs.congr ht).mp hptrs) q (hd ▸ hq) hq0
    have hmem : q ∈ m'.graph.inner D' := by
      have hnode : p ∈ m'.graph.nodes :=
        mem_nodes_iff.mpr ⟨(hbound p o' ho').2, o', ho'⟩
      rw [Graph.inner_insert (Finset.mem_sdiff.mpr ⟨hnode, hp⟩), graph_out ho', hptrs.out]
      exact Multiset.mem_add.mpr (.inl (mem_ptrs.mpr ⟨hq, hq0⟩))
    have := Finset.mem_sdiff.mp (hbal.live q (Multiset.mem_add.mpr (.inr hmem)))
    obtain ⟨-, r', hr'⟩ := mem_nodes_iff.mp this.1
    obtain ⟨r₁, hr₁, htr, -⟩ := hlike q r' hr'
    rw [hr] at hr₁
    cases hr₁
    exact ⟨r', hr', ht ▸ hfits.congr htr⟩
  · obtain ⟨o, ho, ht, -⟩ := hlike a o' ho'
    exact (Obj.HoldsPtrs.congr ht).mpr (h.opened a ((hD a o' ho').mp ha) o ho)

/-! ## Single steps -/

/-- **Opening an array.** -/
theorem Good.open (h : Good m (a ::ₘ R) D) (ho : m.objs a = some o) (hptrs : o.HoldsPtrs) :
    Good m (ptrs o.data + R) (insert a D) := by
  have hbal := h.balanced.open (by rw [graph_due ho, hptrs.due])
  rw [graph_out ho, hptrs.out] at hbal
  refine ⟨hbal, h.bound, h.next, h.valid, fun p o' ho' hp => ?_, fun b hb o' ho' => ?_⟩
  · exact h.typed p o' ho' fun hpD => hp (Finset.mem_insert_of_mem hpD)
  · rcases Finset.mem_insert.mp hb with rfl | hb
    · rw [ho] at ho'
      cases ho'
      exact hptrs
    · exact h.opened b hb o' ho'

/-- **Closing arrays** whose elements are what their types say. -/
theorem Good.close {C : Finset Ptr} (h : Good m R' D) (hC : C ⊆ D)
    (hR : R' + C.val = R + ∑ a ∈ C, m.graph.out a)
    (htyped : ∀ a ∈ C, ∀ o, m.objs a = some o → Typed m o) : Good m R (D \ C) := by
  have hdue : ∀ a ∈ C, m.graph.due a = 1 := by
    intro a ha
    obtain ⟨-, o, ho⟩ := mem_nodes_iff.mp (h.balanced.opened (hC ha))
    rw [graph_due ho, (h.opened a (hC ha) o ho).due]
  refine ⟨h.balanced.close hC hdue hR, h.bound, h.next, h.valid, fun p o ho hp => ?_,
    fun a ha o ho => h.opened a (Finset.mem_sdiff.mp ha).1 o ho⟩
  by_cases hpC : p ∈ C
  · exact htyped p hpC o ho
  · exact h.typed p o ho fun hpD => hp (Finset.mem_sdiff.mpr ⟨hpD, hpC⟩)

theorem Good.close_one (h : Good m (ptrs o.data + R) (insert a D)) (ha : a ∉ D)
    (ho : m.objs a = some o) (htyped : Typed m o) : Good m (a ::ₘ R) D := by
  have hptrs := h.opened a (Finset.mem_insert_self a D) o ho
  have hclose := h.close (R := a ::ₘ R) (Finset.singleton_subset_iff.mpr
    (Finset.mem_insert_self a D)) ?_ ?_
  · rwa [Finset.sdiff_singleton_eq_erase, Finset.erase_insert ha] at hclose
  · rw [Finset.sum_singleton, graph_out ho, hptrs.out, Finset.singleton_val,
      ← Multiset.singleton_add]
    abel
  · intro b hb o' ho'
    obtain rfl := Finset.mem_singleton.mp hb
    rw [ho] at ho'
    cases ho'
    exact htyped

/-- Freeing an object changes no other. -/
theorem Mem.like_free (m : Mem) (p : Ptr) : m.Like (m.free p) := by
  intro q o' ho'
  simp only [Mem.free, Function.update_apply] at ho'
  split_ifs at ho'
  exact ⟨o', ho', rfl, rfl⟩

/-- Nor does counting its references. -/
theorem Mem.like_set {k : ℕ} (ho : m.objs p = some o) :
    m.Like (m.set p { o with refCount := k }) := by
  intro q o' ho'
  simp only [Mem.set, Function.update_apply] at ho'
  split_ifs at ho' with hqp
  · cases ho'
    exact ⟨o, hqp ▸ ho, rfl, rfl⟩
  · exact ⟨o', ho', rfl, rfl⟩

theorem graph_free_nodes : (m.free p).graph.nodes = m.graph.nodes.erase p := by
  ext q
  rw [Finset.mem_erase, mem_nodes_iff, mem_nodes_iff]
  simp only [Mem.free, Function.update_apply]
  split_ifs with hqp <;> simp [hqp]

theorem graph_congr_obj (hp : m'.objs p = m.objs p) :
    m'.graph.due p = m.graph.due p ∧ m'.graph.out p = m.graph.out p := by
  simp [Mem.graph, hp]

/-- **Freeing an open array.** -/
theorem Good.free (h : Good m R (insert a D)) (ha : a ∉ D) : Good (m.free a) R D := by
  have hsame : ∀ p ∈ m.graph.nodes.erase a \ D, (m.free a).objs p = m.objs p := by
    intro p hp
    refine Function.update_of_ne ?_ _ _
    exact Finset.ne_of_mem_erase (Finset.mem_sdiff.mp hp).1
  have hbal := (h.balanced.free ha).congr (f := (m.free a).graph) graph_free_nodes
    (fun p hp => (graph_congr_obj (hsame p hp)).1) fun p hp => (graph_congr_obj (hsame p hp)).2
  refine h.of_like hbal (m.like_free a) rfl fun p o ho => ?_
  have hpa : p ≠ a := by
    rintro rfl
    simp [Mem.free] at ho
  simp [hpa]

/-- **The last reference** to an object that holds none. -/
theorem Good.free_last (h : Good m (p ::ₘ R) D) (ho : m.objs p = some o) (hdue : o.due = 1)
    (hout : o.out = 0) : Good (m.free p) R D := by
  have hlast := h.balanced.last (by rw [graph_due ho, hdue])
  rw [graph_out ho, hout, zero_add] at hlast
  have hsame : ∀ q ∈ m.graph.nodes.erase p \ D, (m.free p).objs q = m.objs q := by
    intro q hq
    refine Function.update_of_ne ?_ _ _
    exact Finset.ne_of_mem_erase (Finset.mem_sdiff.mp hq).1
  have hbal := hlast.congr (f := (m.free p).graph) graph_free_nodes
    (fun q hq => (graph_congr_obj (hsame q hq)).1) fun q hq => (graph_congr_obj (hsame q hq)).2
  exact h.of_like hbal (m.like_free p) rfl fun _ _ _ => Iff.rfl

theorem graph_set_nodes (ho : m.objs p = some o) (hp : p < m.next) :
    (m.set p o').graph.nodes = m.graph.nodes := by
  ext q
  rw [mem_nodes_iff, mem_nodes_iff]
  simp only [Mem.set, Function.update_apply]
  split_ifs with hqp
  · simp [hqp, ho, hp]
  · rfl

/-- Changing the count of a bundle or barrier changes what it expects and nothing else. -/
theorem graph_set_refCount {k : ℕ} (h : Good m R D) (ho : m.objs p = some o)
    (hkind : mtType o.type = .cb ∨ mtType o.type = .barrier)
    (hbal : (m.graph.setDue p k).Balanced R' D) :
    Good (m.set p { o with refCount := k }) R' D := by
  refine h.of_like (hbal.congr (graph_set_nodes ho (h.bound p o ho).2) (fun q _ => ?_)
    fun q _ => ?_) (Mem.like_set ho) rfl fun _ _ _ => Iff.rfl
  · simp only [Graph.setDue, Function.update_apply]
    split_ifs with hqp
    · subst hqp
      rw [graph_due (Function.update_self ..)]
      exact if_pos hkind
    · exact (graph_congr_obj (Function.update_of_ne hqp _ _)).1
  · by_cases hqp : q = p
    · subst hqp
      rw [graph_out (Function.update_self ..)]
      change _ = m.graph.out q
      rw [graph_out ho]
      rfl
    · exact (graph_congr_obj (Function.update_of_ne hqp _ _)).2

/-- A bundle or a barrier is due as often as its count says. -/
theorem due_of_counted (hkind : mtType o.type = .cb ∨ mtType o.type = .barrier) :
    o.due = o.refCount := if_pos hkind

theorem out_of_counted (hkind : mtType o.type = .cb ∨ mtType o.type = .barrier) : o.out = 0 := by
  refine out_of_not_array fun h => ?_
  rcases hkind with hk | hk <;> rw [h] at hk <;> exact Kind.noConfusion hk

/-- **A reference is given up**: `atw_dec_z`. -/
theorem Good.decRef (h : Good m (p ::ₘ R) D) (ho : m.objs p = some o)
    (hkind : mtType o.type = .cb ∨ mtType o.type = .barrier) : Good (m.decRef p o) R D := by
  have hdue := due_of_counted hkind
  have hpos := h.balanced.pos p h.balanced.mem
  rw [graph_due ho, hdue] at hpos
  unfold Mem.decRef
  split_ifs with hlast
  · exact h.free_last ho (by omega) (out_of_counted hkind)
  · have hdec := h.balanced.dec (by rw [graph_due ho, hdue]; omega)
    rw [graph_due ho, hdue] at hdec
    exact graph_set_refCount h ho hkind hdec

/-- **A reference is added**: `atw_inc`. -/
theorem Good.incRef (h : Good m R D) (ho : m.objs p = some o) (hp : p ∉ D)
    (hkind : mtType o.type = .cb ∨ mtType o.type = .barrier) :
    m.incRef p = some (m.set p { o with refCount := o.refCount + 1 }) ∧
      Good (m.set p { o with refCount := o.refCount + 1 }) (p ::ₘ R) D := by
  refine ⟨by rw [Mem.incRef, ho]; rfl, ?_⟩
  have hinc := h.balanced.inc (Finset.mem_sdiff.mpr ⟨h.mem_nodes ho, hp⟩)
  rw [graph_due ho, due_of_counted hkind] at hinc
  exact graph_set_refCount h ho hkind hinc

theorem Good.next_notMem (h : Good m R D) : m.objs m.next = none := by
  by_contra hne
  obtain ⟨o, ho⟩ := Option.ne_none_iff_exists'.mp hne
  exact absurd (h.bound _ o ho).2 (lt_irrefl _)

/-- **A new object** that holds no reference. -/
theorem Good.new (h : Good m R D) (hvalid : o.Valid) (hout : o.out = 0)
    (htyped : ∀ m, Typed m o) (hdue : 0 < o.due) :
    Good (m.new o).1 (Multiset.replicate o.due m.next + R) D := by
  have hfresh := h.next_notMem
  have hnew : m.next ∉ m.graph.nodes := fun hmem => by
    obtain ⟨-, o', ho'⟩ := mem_nodes_iff.mp hmem
    rw [hfresh] at ho'
    cases ho'
  have hself : (m.new o).1.objs m.next = some o := Function.update_self ..
  have hother : ∀ q, q ≠ m.next → (m.new o).1.objs q = m.objs q :=
    fun q hq => Function.update_of_ne hq _ _
  have hnodes : (m.new o).1.graph.nodes = insert m.next m.graph.nodes := by
    ext q
    rw [Finset.mem_insert, mem_nodes_iff, mem_nodes_iff]
    by_cases hq : q = m.next
    · subst hq
      simp [Mem.new]
    · rw [hother q hq]
      change q < m.next + 1 ∧ _ ↔ _
      refine ⟨fun ⟨hlt, hex⟩ => .inr ⟨lt_of_le_of_ne (Nat.le_of_lt_succ hlt) hq, hex⟩, ?_⟩
      rintro (hq' | ⟨hlt, hex⟩)
      · exact (hq hq').elim
      · exact ⟨Nat.lt_succ_of_lt hlt, hex⟩
  have hbal := (h.balanced.add hnew hdue).congr (f := (m.new o).1.graph) hnodes
    (fun q _ => by
      simp only [Graph.insert, Function.update_apply]
      split_ifs with hq
      · rw [hq, graph_due hself]
      · exact (graph_congr_obj (hother q hq)).1)
    (fun q _ => by
      simp only [Graph.insert, Function.update_apply]
      split_ifs with hq
      · rw [hq, graph_out hself, hout]
      · exact (graph_congr_obj (hother q hq)).2)
  refine ⟨hbal, fun p o' ho' => ?_, Nat.succ_pos _, fun p o' ho' => ?_, fun p o' ho' hp => ?_,
    fun a ha o' ho' => ?_⟩
  · by_cases hp : p = m.next
    · exact hp ▸ ⟨h.next, Nat.lt_succ_self _⟩
    · rw [hother p hp] at ho'
      exact ⟨(h.bound p o' ho').1, Nat.lt_succ_of_lt (h.bound p o' ho').2⟩
  · by_cases hp : p = m.next
    · rw [hp, hself] at ho'
      cases ho'
      exact hvalid
    · rw [hother p hp] at ho'
      exact h.valid p o' ho'
  · by_cases hpn : p = m.next
    · rw [hpn, hself] at ho'
      cases ho'
      exact htyped _
    · rw [hother p hpn] at ho'
      intro hptrs q hq hq0
      obtain ⟨r, hr, hfits⟩ := h.typed p o' ho' hp hptrs q hq hq0
      refine ⟨r, ?_, hfits⟩
      rw [hother q, hr]
      rintro rfl
      rw [hfresh] at hr
      cases hr
  · have han : a ≠ m.next := by
      rintro rfl
      exact hnew (h.balanced.opened ha)
    rw [hother a han] at ho'
    exact h.opened a ha o' ho'

/-- **The elements of an open array** change. -/
theorem Good.set_open (h : Good m R D) (ha : a ∈ D) (ho : m.objs a = some o)
    (ht : o'.type = o.type) : Good (m.set a o') R D := by
  have hself : (m.set a o').objs a = some o' := Function.update_self ..
  have hother : ∀ q, q ≠ a → (m.set a o').objs q = m.objs q :=
    fun q hq => Function.update_of_ne hq _ _
  have hne : ∀ q ∈ m.graph.nodes \ D, q ≠ a := by
    rintro q hq rfl
    exact (Finset.mem_sdiff.mp hq).2 ha
  have hbal := h.balanced.congr (f := (m.set a o').graph) (graph_set_nodes ho (h.bound a o ho).2)
    (fun q hq => (graph_congr_obj (hother q (hne q hq))).1)
    fun q hq => (graph_congr_obj (hother q (hne q hq))).2
  have hcases : ∀ p r, (m.set a o').objs p = some r →
      ∃ r', m.objs p = some r' ∧ r.type = r'.type := by
    intro p r hr
    by_cases hp : p = a
    · rw [hp, hself] at hr
      cases hr
      exact ⟨o, hp ▸ ho, ht⟩
    · rw [hother p hp] at hr
      exact ⟨r, hr, rfl⟩
  refine ⟨hbal, fun p r hr => ?_, h.next, fun p r hr => ?_, fun p r hr hp => ?_,
    fun b hb r hr => ?_⟩
  · obtain ⟨r', hr', -⟩ := hcases p r hr
    exact h.bound p r' hr'
  · obtain ⟨r', hr', htype⟩ := hcases p r hr
    have := h.valid p r' hr'
    exact ⟨htype ▸ this.simple, htype ▸ this.kind, htype ▸ this.inner⟩
  · have hpa : p ≠ a := fun hpa => hp (hpa ▸ ha)
    rw [hother p hpa] at hr
    intro hptrs q hq hq0
    obtain ⟨r', hr', hfits⟩ := h.typed p r hr hp hptrs q hq hq0
    by_cases hqa : q = a
    · subst hqa
      rw [ho] at hr'
      cases hr'
      exact ⟨o', hself, hfits.congr ht⟩
    · exact ⟨r', (hother q hqa).trans hr', hfits⟩
  · obtain ⟨r', hr', htype⟩ := hcases b r hr
    exact (Obj.HoldsPtrs.congr htype).mpr (h.opened b hb r' hr')

/-! ## Release -/

/-- Objects have gone and counts have changed; open arrays are as they were. -/
structure Mem.Shrunk (m m' : Mem) (D : Finset Ptr) : Prop where
  like : m.Like m'
  next : m'.next = m.next
  opened : ∀ a ∈ D, m'.objs a = m.objs a

theorem Mem.Shrunk.refl (m : Mem) (D : Finset Ptr) : m.Shrunk m D :=
  ⟨fun _ o ho => ⟨o, ho, rfl, rfl⟩, rfl, fun _ _ => rfl⟩

/-- One release after the other. -/
theorem Mem.Shrunk.trans (h : m.Shrunk m₁ D) (h' : m₁.Shrunk m' D) : m.Shrunk m' D := by
  refine ⟨fun p o' ho' => ?_, h'.next.trans h.next, fun a ha => (h'.opened a ha).trans
    (h.opened a ha)⟩
  obtain ⟨o₁, ho₁, ht₁, hd₁⟩ := h'.like p o' ho'
  obtain ⟨o, ho, ht, hd⟩ := h.like p o₁ ho₁
  exact ⟨o, ho, ht₁.trans ht, hd₁.trans hd⟩

theorem Mem.Shrunk.mono {D' : Finset Ptr} (h : m.Shrunk m' D') (hD : D ⊆ D') : m.Shrunk m' D :=
  ⟨h.like, h.next, fun a ha => h.opened a (hD ha)⟩

/-- Nothing is allocated. -/
theorem Mem.Shrunk.nodes (h : m.Shrunk m' D) : m'.graph.nodes ⊆ m.graph.nodes := by
  intro p hp
  obtain ⟨hlt, o', ho'⟩ := mem_nodes_iff.mp hp
  obtain ⟨o, ho, -⟩ := h.like p o' ho'
  exact mem_nodes_iff.mpr ⟨h.next ▸ hlt, o, ho⟩

theorem Mem.shrunk_free (m : Mem) (ha : a ∉ D) : m.Shrunk (m.free a) D :=
  ⟨m.like_free a, rfl, fun b hb => Function.update_of_ne (by rintro rfl; exact ha hb) _ _⟩

theorem Mem.shrunk_decRef (ho : m.objs p = some o) (hp : p ∉ D) : m.Shrunk (m.decRef p o) D := by
  unfold Mem.decRef
  split_ifs
  · exact m.shrunk_free hp
  · exact ⟨Mem.like_set ho, rfl, fun b hb =>
      Function.update_of_ne (by rintro rfl; exact hp hb) _ _⟩

/-- The walk over the elements of an array that is being released. -/
theorem mtRelease_all {fuel : ℕ}
    (ih : ∀ {m : Mem} {R : Multiset Ptr} {p : Ptr}, Good m (p ::ₘ R) D →
      (m.graph.nodes \ D).card < fuel →
      ∃ m', m.mtRelease fuel p = some m' ∧ Good m' R D ∧ m.Shrunk m' D) :
    ∀ (qs : List Ptr) {m : Mem} {R : Multiset Ptr}, Good m (ptrs qs + R) D →
      (m.graph.nodes \ D).card < fuel →
      ∃ m', qs.foldlM (fun m q => if q ≠ 0 then Mem.mtRelease fuel m q else some m) m = some m' ∧
        Good m' R D ∧ m.Shrunk m' D := by
  intro qs
  induction qs with
  | nil =>
    intro m R h _
    rw [ptrs_nil, zero_add] at h
    exact ⟨m, rfl, h, .refl m D⟩
  | cons q qs ihqs =>
    intro m R h hfuel
    rw [List.foldlM_cons]
    by_cases hq : q = 0
    · subst hq
      rw [ptrs_cons_zero] at h
      exact ihqs h hfuel
    · rw [ptrs_cons hq, Multiset.cons_add] at h
      obtain ⟨m₁, hm₁, h₁, hs₁⟩ := ih h hfuel
      have hcard := Finset.card_le_card (Finset.sdiff_subset_sdiff hs₁.nodes (Finset.Subset.refl D))
      obtain ⟨m₂, hm₂, h₂, hs₂⟩ := ihqs h₁ (hcard.trans_lt hfuel)
      refine ⟨m₂, ?_, h₂, hs₁.trans hs₂⟩
      rw [if_pos hq, hm₁]
      exact hm₂

/-- **Release**: the reference in hand is given up, with everything that only it led to. -/
theorem mtRelease_spec : ∀ {fuel : ℕ} {m : Mem} {R : Multiset Ptr} {D : Finset Ptr} {p : Ptr},
    Good m (p ::ₘ R) D → (m.graph.nodes \ D).card < fuel →
    ∃ m', m.mtRelease fuel p = some m' ∧ Good m' R D ∧ m.Shrunk m' D := by
  intro fuel
  induction fuel with
  | zero => exact fun _ hfuel => absurd hfuel (Nat.not_lt_zero _)
  | succ fuel ih =>
    intro m R D p h hfuel
    obtain ⟨o, ho, hp⟩ := h.exists_obj (Multiset.mem_cons_self p R)
    have hvalid := h.valid p o ho
    rw [Mem.mtRelease, ho]
    dsimp only
    rw [if_pos hvalid.simple]
    rcases hvalid.kind with hk | hk | hk | hk <;> rw [hk] <;> dsimp only
    · split_ifs with hnum
      · have hopen := h.open ho ⟨hk, hnum⟩
        have hlt := Graph.card_insert_lt (Finset.mem_sdiff.mp h.balanced.mem).1 hp
        obtain ⟨m₁, hm₁, h₁, hs₁⟩ := mtRelease_all ih o.data hopen (by omega)
        refine ⟨m₁.free p, by rw [hm₁]; rfl, h₁.free hp, ?_⟩
        exact (hs₁.mono (Finset.subset_insert p D)).trans (m₁.shrunk_free hp)
      · have hout : o.out = 0 := if_neg fun hptrs => hnum hptrs.2
        exact ⟨_, rfl, h.free_last ho (by simp [Obj.due, hk]) hout, m.shrunk_free hp⟩
    · exact ⟨_, rfl, h.decRef ho (.inl hk), Mem.shrunk_decRef ho hp⟩
    · exact ⟨_, rfl, h.decRef ho (.inr hk), Mem.shrunk_decRef ho hp⟩
    · have hout : o.out = 0 := out_of_not_array (by rw [hk]; exact Kind.noConfusion)
      exact ⟨_, rfl, h.free_last ho (by simp [Obj.due, hk]) hout, m.shrunk_free hp⟩

/-! ## Clone -/

/-- Objects have come and counts have changed; open arrays are as they were. -/
structure Mem.Grown (m m' : Mem) (D : Finset Ptr) : Prop where
  kept : ∀ p o, m.objs p = some o → ∃ o', m'.objs p = some o' ∧ o'.type = o.type ∧ o'.data = o.data
  next : m.next ≤ m'.next
  opened : ∀ a ∈ D, m'.objs a = m.objs a

theorem Mem.Grown.refl (m : Mem) (D : Finset Ptr) : m.Grown m D :=
  ⟨fun _ o ho => ⟨o, ho, rfl, rfl⟩, le_rfl, fun _ _ => rfl⟩

/-- One copy after the other. -/
theorem Mem.Grown.trans (h : m.Grown m₁ D) (h' : m₁.Grown m' D) : m.Grown m' D := by
  refine ⟨fun p o ho => ?_, h.next.trans h'.next, fun a ha => (h'.opened a ha).trans
    (h.opened a ha)⟩
  obtain ⟨o₁, ho₁, ht₁, hd₁⟩ := h.kept p o ho
  obtain ⟨o', ho', ht, hd⟩ := h'.kept p o₁ ho₁
  exact ⟨o', ho', ht.trans ht₁, hd.trans hd₁⟩

theorem Mem.Grown.mono {D' : Finset Ptr} (h : m.Grown m' D') (hD : D ⊆ D') : m.Grown m' D :=
  ⟨h.kept, h.next, fun a ha => h.opened a (hD ha)⟩

theorem Mem.grown_set {k : ℕ} (ho : m.objs p = some o) (hp : p ∉ D) :
    m.Grown (m.set p { o with refCount := k }) D := by
  refine ⟨fun q r hr => ?_, le_rfl, fun b hb =>
    Function.update_of_ne (by rintro rfl; exact hp hb) _ _⟩
  by_cases hqp : q = p
  · subst hqp
    rw [ho] at hr
    cases hr
    exact ⟨_, Function.update_self .., rfl, rfl⟩
  · exact ⟨r, (Function.update_of_ne hqp _ _).trans hr, rfl, rfl⟩

/-- A new object changes no other. -/
theorem Good.grown_new (h : Good m R D) (o : Obj) : m.Grown (m.new o).1 D := by
  have hfresh := h.next_notMem
  refine ⟨fun q r hr => ⟨r, ?_, rfl, rfl⟩, Nat.le_succ _, fun b hb =>
    Function.update_of_ne ?_ _ _⟩
  · refine (Function.update_of_ne ?_ _ _).trans hr
    rintro rfl
    rw [hfresh] at hr
    cases hr
  · rintro rfl
    obtain ⟨-, r, hr⟩ := mem_nodes_iff.mp (h.balanced.opened hb)
    rw [hfresh] at hr
    cases hr

/-- The types of elements outlive growth. -/
theorem Typed.grown (h : Typed m o) (hg : m.Grown m' D) : Typed m' o := by
  intro hptrs q hq hq0
  obtain ⟨r, hr, hfits⟩ := h hptrs q hq hq0
  obtain ⟨r', hr', ht, -⟩ := hg.kept q r hr
  exact ⟨r', hr', hfits.congr ht⟩

/-- A set of objects that holds what its arrays hold: those there are when a clone begins. -/
structure Old (m : Mem) (D K : Finset Ptr) : Prop where
  live : ∀ p ∈ K, ∃ o, m.objs p = some o
  closed : ∀ p ∈ K, p ∉ D → ∀ o, m.objs p = some o → o.HoldsPtrs → ∀ q ∈ ptrs o.data, q ∈ K

theorem Old.grown {D' K : Finset Ptr} (h : Old m D K) (hg : m.Grown m' D) (hD : D ⊆ D') :
    Old m' D' K := by
  refine ⟨fun p hp => ?_, fun p hp hpD o' ho' hptrs => ?_⟩
  · obtain ⟨o, ho⟩ := h.live p hp
    obtain ⟨o', ho', -⟩ := hg.kept p o ho
    exact ⟨o', ho'⟩
  · obtain ⟨o, ho⟩ := h.live p hp
    obtain ⟨r, hr, ht, hd⟩ := hg.kept p o ho
    rw [ho'] at hr
    cases hr
    rw [hd]
    exact h.closed p hp (fun hpD' => hpD (hD hpD')) o ho ((Obj.HoldsPtrs.congr ht).mp hptrs)

/-- What a clone promises: a further reference in hand, to an object of the same type. -/
structure Cloned (m m' : Mem) (R : Multiset Ptr) (D : Finset Ptr) (p q : Ptr) : Prop where
  good : Good m' (q ::ₘ p ::ₘ R) D
  grown : m.Grown m' D
  type : ∃ o o', m.objs p = some o ∧ m'.objs q = some o' ∧ o'.type = o.type

/-- Every pointer among the new elements is to an object of the type of an old one. -/
def ClonesOf (m : Mem) (qs rs : List Ptr) : Prop :=
  ∀ r ∈ rs, r ≠ 0 → ∃ q ∈ qs, q ≠ 0 ∧ ∃ o o', m.objs q = some o ∧ m.objs r = some o' ∧
    o'.type = o.type

/-- The walk over the elements of an array that is being cloned. -/
theorem mtClone_all {fuel : ℕ} {D K : Finset Ptr}
    (ih : ∀ {m : Mem} {R : Multiset Ptr} {p : Ptr}, Good m (p ::ₘ R) D → Old m D K → p ∈ K →
      (K \ D).card < fuel → ∃ m' q, m.mtClone fuel p = some (m', q) ∧ Cloned m m' R D p q) :
    ∀ (qs : List Ptr) {m : Mem} {R : Multiset Ptr} (acc : List Ptr), Good m (ptrs qs + R) D →
      Old m D K → (∀ q ∈ ptrs qs, q ∈ K) → (K \ D).card < fuel →
      ∃ m' rs, qs.foldlM (fun (acc : Mem × List Ptr) q =>
          if q ≠ 0 then (Mem.mtClone fuel acc.1 q).map fun r => (r.1, acc.2 ++ [r.2])
          else some (acc.1, acc.2 ++ [0])) (m, acc) = some (m', acc ++ rs) ∧
        Good m' (ptrs rs + ptrs qs + R) D ∧ m.Grown m' D ∧ ClonesOf m' qs rs := by
  intro qs
  induction qs with
  | nil =>
    intro m R acc h _ _ _
    refine ⟨m, [], by rw [List.append_nil]; rfl, ?_, .refl m D, fun r hr => by simp at hr⟩
    rwa [ptrs_nil, zero_add, zero_add] at *
  | cons q qs ihqs =>
    intro m R acc h hold hK hfuel
    rw [List.foldlM_cons]
    by_cases hq : q = 0
    · subst hq
      rw [ptrs_cons_zero] at h hK ⊢
      obtain ⟨m', rs, hm', h', hg, hrs⟩ := ihqs (acc ++ [0]) h hold hK hfuel
      refine ⟨m', 0 :: rs, ?_, by rwa [ptrs_cons_zero], hg, fun r hr hr0 => ?_⟩
      · rw [if_neg (by simp)]
        simpa using hm'
      · rcases List.mem_cons.mp hr with rfl | hr
        · exact (hr0 rfl).elim
        · obtain ⟨q', hq', hrest⟩ := hrs r hr hr0
          exact ⟨q', List.mem_cons_of_mem _ hq', hrest⟩
    · rw [ptrs_cons hq] at h hK ⊢
      rw [Multiset.cons_add] at h
      obtain ⟨m₁, r, hm₁, hcl⟩ := ih h hold (hK q (Multiset.mem_cons_self q _)) hfuel
      have h₁ : Good m₁ (ptrs qs + (r ::ₘ q ::ₘ R)) D := by
        rw [Multiset.add_cons, Multiset.add_cons]
        exact hcl.good
      obtain ⟨m', rs, hm', h', hg, hrs⟩ := ihqs (acc ++ [r]) h₁ (hold.grown hcl.grown subset_rfl)
        (fun q' hq' => hK q' (Multiset.mem_cons_of_mem hq')) hfuel
      have hr0 : r ≠ 0 := hcl.good.ne_zero (Multiset.mem_cons_self r _)
      refine ⟨m', r :: rs, ?_, ?_, hcl.grown.trans hg, fun r' hr' hr'0 => ?_⟩
      · rw [if_pos hq, hm₁]
        simpa using hm'
      · rw [ptrs_cons hr0]
        simpa [Multiset.cons_add, Multiset.add_cons, Multiset.cons_swap, add_assoc] using h'
      · rcases List.mem_cons.mp hr' with rfl | hr'
        · obtain ⟨o, o', ho, ho', ht⟩ := hcl.type
          obtain ⟨o₂, ho₂, ht₂, -⟩ := (hcl.grown.trans hg).kept _ o ho
          obtain ⟨o₃, ho₃, ht₃, -⟩ := hg.kept _ o' ho'
          exact ⟨q, List.mem_cons_self, hq, o₂, o₃, ho₂, ho₃, by rw [ht₃, ht, ht₂]⟩
        · obtain ⟨q', hq', hrest⟩ := hrs r' hr' hr'0
          exact ⟨q', List.mem_cons_of_mem _ hq', hrest⟩

/-- The new array, before its elements are cloned. -/
def emptyArray (type size : ℕ) : Obj :=
  ⟨type, 0, List.replicate (mtArrayDim type) 0, List.replicate size 0⟩

/-- An empty array holds nothing of a wrong type. -/
theorem typed_emptyArray (m : Mem) (type size : ℕ) : Typed m (emptyArray type size) := by
  intro _ q hq hq0
  exact (hq0 (List.eq_of_mem_replicate hq)).elim

theorem emptyArray_valid (h : o.Valid) (hk : mtType o.type = .array) :
    (emptyArray o.type o.data.length).Valid := ⟨h.simple, .inl hk, h.inner⟩

/-- **Cloning an array of pointers**, given its elements can be cloned. -/
theorem mtClone_array {fuel : ℕ} {K : Finset Ptr} (h : Good m (p ::ₘ R) D) (hold : Old m D K)
    (hpK : p ∈ K) (ho : m.objs p = some o) (hptrs : o.HoldsPtrs)
    (ih : ∀ {D : Finset Ptr} {m : Mem} {R : Multiset Ptr} {p : Ptr}, Good m (p ::ₘ R) D →
      Old m D K → p ∈ K → (K \ D).card < fuel →
      ∃ m' q, m.mtClone fuel p = some (m', q) ∧ Cloned m m' R D p q)
    (hfuel : (K \ D).card < fuel + 1) :
    ∃ m' q, m.mtClone (fuel + 1) p = some (m', q) ∧ Cloned m m' R D p q := by
  have hvalid := h.valid p o ho
  have hpD := (Finset.mem_sdiff.mp h.balanced.mem).2
  let z := emptyArray o.type o.data.length
  have hz : z.HoldsPtrs := hptrs
  have hzout : z.out = 0 := by
    rw [hz.out]
    exact ptrs_replicate _
  have h₁ := h.new (emptyArray_valid hvalid hptrs.1) hzout (fun m => typed_emptyArray m _ _)
    (by rw [hz.due]; exact Nat.one_pos)
  have hgrown₁ := h.grown_new z
  set m₁ := (m.new z).1 with hm₁
  have hself : m₁.objs m.next = some z := Function.update_self ..
  have hp : m₁.objs p = some o := by
    refine (Function.update_of_ne ?_ _ _).trans ho
    rintro rfl
    rw [h.next_notMem] at ho
    cases ho
  -- the new array and the one it is cloned from are open while their elements are worked on
  rw [hz.due, Multiset.replicate_one, Multiset.singleton_add] at h₁
  have h₂ := h₁.open hself hz
  rw [show ptrs z.data = 0 from ptrs_replicate _, zero_add] at h₂
  have hdst : m.next ∉ D := (Finset.mem_sdiff.mp h₁.balanced.mem).2
  have hpn : p ∉ insert m.next D := (Finset.mem_sdiff.mp h₂.balanced.mem).2
  have h₃ := h₂.open hp hptrs
  have hD : D ⊆ insert p (insert m.next D) :=
    (Finset.subset_insert _ _).trans (Finset.subset_insert _ _)
  have hcard : (K \ insert p (insert m.next D)).card < fuel := by
    have hlt := Graph.card_insert_lt hpK hpD
    have hle : (K \ insert p (insert m.next D)).card ≤ (K \ insert p D).card :=
      Finset.card_le_card (Finset.sdiff_subset_sdiff subset_rfl
        (Finset.insert_subset_insert p (Finset.subset_insert _ _)))
    omega
  have hK : ∀ q ∈ ptrs o.data, q ∈ K := hold.closed p hpK hpD o ho hptrs
  obtain ⟨m₂, rs, hm₂, h₄, hg, hrs⟩ := mtClone_all ih o.data [] h₃ (hold.grown hgrown₁ hD) hK hcard
  have hp₂ : m₂.objs p = some o := (hg.opened p (Finset.mem_insert_self _ _)).trans hp
  have hdst₂ : m₂.objs m.next = some z :=
    (hg.opened _ (Finset.mem_insert_of_mem (Finset.mem_insert_self _ _))).trans hself
  have htyped : Typed m₂ o := ((h.typed p o ho hpD).grown hgrown₁).grown hg
  have h₅ : Good m₂ (p ::ₘ (ptrs rs + R)) (insert m.next D) := by
    refine Good.close_one ?_ hpn hp₂ htyped
    rwa [← add_assoc, add_comm (ptrs o.data)]
  have h₆ : Good (m₂.set m.next { o with data := rs }) (p ::ₘ (ptrs rs + R)) (insert m.next D) :=
    h₅.set_open (Finset.mem_insert_self _ _) hdst₂ rfl
  have hdst₃ : (m₂.set m.next { o with data := rs }).objs m.next = some { o with data := rs } :=
    Function.update_self ..
  have hother : ∀ q, q ≠ m.next → (m₂.set m.next { o with data := rs }).objs q = m₂.objs q :=
    fun q hq => Function.update_of_ne hq _ _
  have hnot : ∀ q ∈ ptrs rs + ptrs o.data + R, q ≠ m.next := by
    rintro q hq rfl
    obtain ⟨-, -, hqD⟩ := h₄.exists_obj hq
    exact hqD (Finset.mem_insert_of_mem (Finset.mem_insert_self _ _))
  refine ⟨m₂.set m.next { o with data := rs }, m.next, ?_, ?_, ?_, ?_⟩
  · rw [Mem.mtClone, ho]
    dsimp only
    rw [if_pos hvalid.simple, hptrs.1]
    dsimp only
    rw [Mem.mtAllocArray, if_pos (hvalid.inner hptrs.1)]
    dsimp only
    rw [if_pos hptrs.2]
    change Option.map _ (List.foldlM _ (m₁, []) o.data) = _
    rw [hm₂]
    rfl
  · refine Good.close_one (o := { o with data := rs }) ?_ hdst hdst₃ fun _ r hr hr0 => ?_
    · rw [Multiset.add_cons]
      exact h₆
    · obtain ⟨q, hq, hq0, o₁, o₂, ho₁, ho₂, ht⟩ := hrs r hr hr0
      obtain ⟨o₃, ho₃, hfits⟩ := htyped hptrs q hq hq0
      rw [ho₁] at ho₃
      cases ho₃
      refine ⟨o₂, (hother r (hnot r ?_)).trans ho₂, hfits.congr ht⟩
      exact Multiset.mem_add.mpr (.inl (Multiset.mem_add.mpr (.inl (mem_ptrs.mpr ⟨hr, hr0⟩))))
  · have hg' := hgrown₁.trans (hg.mono hD)
    refine ⟨fun q r hr => ?_, hg'.next, fun a ha => ?_⟩
    · obtain ⟨r', hr', hrest⟩ := hg'.kept q r hr
      refine ⟨r', (hother q ?_).trans hr', hrest⟩
      rintro rfl
      rw [h.next_notMem] at hr
      cases hr
    · exact (hother a (fun han => hdst (han ▸ ha))).trans (hg'.opened a ha)
  · exact ⟨o, { o with data := rs }, ho, hdst₃, rfl⟩

/-- **Clone**: a further reference in hand, to the same bundle or barrier or to a copy. -/
theorem mtClone_spec {K : Finset Ptr} : ∀ {fuel : ℕ} {D : Finset Ptr} {m : Mem} {R : Multiset Ptr}
    {p : Ptr}, Good m (p ::ₘ R) D → Old m D K → p ∈ K → (K \ D).card < fuel →
    ∃ m' q, m.mtClone fuel p = some (m', q) ∧ Cloned m m' R D p q := by
  intro fuel
  induction fuel with
  | zero => exact fun _ _ _ hfuel => absurd hfuel (Nat.not_lt_zero _)
  | succ fuel ih =>
    intro D m R p h hold hpK hfuel
    obtain ⟨o, ho, hp⟩ := h.exists_obj (Multiset.mem_cons_self p R)
    have hvalid := h.valid p o ho
    by_cases hptrs : o.HoldsPtrs
    · exact mtClone_array h hold hpK ho hptrs ih hfuel
    have hout : o.out = 0 := if_neg hptrs
    have hcopy (hdue : o.due = 1) : Cloned m (m.new o).1 R D p m.next := by
      have hnew := h.new hvalid hout (fun _ hp => (hptrs hp).elim) (by rw [hdue]; exact Nat.one_pos)
      rw [hdue, Multiset.replicate_one, Multiset.singleton_add] at hnew
      exact ⟨hnew, h.grown_new o, o, o, ho, Function.update_self .., rfl⟩
    have hcount (hk : mtType o.type = .cb ∨ mtType o.type = .barrier) :
        ∃ m', (m.incRef p).map (fun m => (m, p)) = some (m', p) ∧ Cloned m m' R D p p := by
      obtain ⟨hinc, hgood⟩ := h.incRef ho hp hk
      exact ⟨_, by rw [hinc]; rfl, hgood, Mem.grown_set ho hp, o, _, ho, Function.update_self ..,
        rfl⟩
    rw [Mem.mtClone, ho]
    dsimp only
    rw [if_pos hvalid.simple]
    rcases hvalid.kind with hk | hk | hk | hk <;> rw [hk] <;> dsimp only
    · have hnum : mtType (elemType o.type) = .num := by
        by_contra hne
        exact hptrs ⟨hk, hne⟩
      refine ⟨(m.new o).1, m.next, ?_, hcopy (by simp [Obj.due, hk])⟩
      rw [Mem.mtAllocArray, if_pos (hvalid.inner hk)]
      dsimp only
      rw [if_neg (by simp [hnum])]
      simp [Mem.new, Mem.set]
    · obtain ⟨m', hm', hcl⟩ := hcount (.inl hk)
      exact ⟨m', p, hm', hcl⟩
    · obtain ⟨m', hm', hcl⟩ := hcount (.inr hk)
      exact ⟨m', p, hm', hcl⟩
    · exact ⟨(m.new o).1, m.next, rfl, hcopy (by simp [Obj.due, hk])⟩

/-! ## Input and output -/

theorem foldlM_some {β : Type} (f : Mem → β → Option Mem) (qs : List β)
    (h : ∀ q ∈ qs, f m q = some m) : qs.foldlM f m = some m := by
  induction qs with
  | nil => rfl
  | cons q qs ih =>
    rw [List.foldlM_cons, h q List.mem_cons_self]
    exact ih fun q' hq' => h q' (List.mem_cons_of_mem _ hq')

/-- An element of an open array, with the rest of what is in hand. -/
theorem Good.elem (h : Good m (ptrs o.data + R) D) (hq : q ∈ o.data) (hq0 : q ≠ 0) :
    ∃ R', Good m (q ::ₘ R') D := by
  obtain ⟨R', hR'⟩ := Multiset.exists_cons_of_mem (mem_ptrs.mpr ⟨hq, hq0⟩)
  exact ⟨R' + R, by rwa [hR', Multiset.cons_add] at h⟩

theorem elemType_of_ne {x : ℕ} (h : mtType (mtArrayInnerType x) ≠ .arrayOpts) :
    elemType x = mtArrayInnerType x := if_neg h

/-- The pointers of a list that has none. -/
theorem zero_of_filter_nil {qs : List Ptr} (h : qs.filter (· ≠ 0) = []) : ∀ q ∈ qs, q = 0 := by
  simpa [List.filter_eq_nil_iff] using h

/-- **An update that comes to nothing shared** leaves the memory alone and moves the object. -/
theorem mtIoUpdate_clean : ∀ fuel : ℕ,
    (∀ {R : Multiset Ptr} {D : Finset Ptr} {p : Ptr}, Good m (p ::ₘ R) D →
      2 * (m.graph.nodes \ D).card < fuel → Mem.reached m fuel p = [] →
      m.mtIoUpdate fuel p = some (m, true)) ∧
    (∀ {R : Multiset Ptr} {D : Finset Ptr} {p : Ptr} {o : Obj}, Good m (p ::ₘ R) D →
      m.objs p = some o → mtType o.type = .array → 2 * (m.graph.nodes \ D).card ≤ fuel →
      Mem.reachedArray m fuel p (mtArrayInnerType o.type) = [] →
      m.mtIoUpdateArray fuel p (mtArrayInnerType o.type) = some m) := by
  intro fuel
  induction fuel with
  | zero =>
    refine ⟨fun _ hfuel => absurd hfuel (Nat.not_lt_zero _), fun h _ _ hfuel => ?_⟩
    have := Finset.card_pos.mpr ⟨_, h.balanced.mem⟩
    omega
  | succ fuel ih =>
    obtain ⟨ihUpdate, ihArray⟩ := ih
    refine ⟨fun {R D p} h hfuel hnone => ?_, fun {R D p o} h ho hk hfuel hnone => ?_⟩
    · obtain ⟨o, ho, -⟩ := h.exists_obj (Multiset.mem_cons_self p R)
      have hvalid := h.valid p o ho
      rw [Mem.reached, ho] at hnone
      rw [Mem.mtIoUpdate, ho]
      dsimp only at hnone ⊢
      rw [if_pos hvalid.simple]
      rcases hvalid.kind with hk | hk | hk | hk <;> rw [hk] at hnone ⊢ <;> dsimp only at hnone ⊢
      · split_ifs at hnone ⊢
        · rfl
        · rw [ihArray h ho hk (by omega) hnone]
          rfl
      · split_ifs at hnone ⊢
        rfl
      · cases hnone
    · obtain ⟨-, hp⟩ := Finset.mem_sdiff.mp h.balanced.mem
      have hlt := Graph.card_insert_lt (h.mem_nodes ho) hp
      have hopen (hinner : mtType (mtArrayInnerType o.type) ≠ .arrayOpts)
          (hnum : mtType (mtArrayInnerType o.type) ≠ .num) {q : Ptr} (hq : q ∈ o.data)
          (hq0 : q ≠ 0) : (∃ R', Good m (q ::ₘ R') (insert p D)) ∧
            ∃ o', m.objs q = some o' ∧ Fits (mtArrayInnerType o.type) o' := by
        have hptrs : o.HoldsPtrs := ⟨hk, by rwa [elemType_of_ne hinner]⟩
        have hfits := h.typed p o ho hp hptrs q hq hq0
        rw [elemType_of_ne hinner] at hfits
        exact ⟨(h.open ho hptrs).elem hq hq0, hfits⟩
      rw [Mem.reachedArray, ho] at hnone
      rw [Mem.mtIoUpdateArray, ho]
      dsimp only at hnone ⊢
      generalize hinner : mtArrayInnerType o.type = inner at *
      cases hki : mtType inner <;> rw [hki] at hnone hopen <;> dsimp only at hnone ⊢
      case array =>
        refine foldlM_some _ _ fun q hq => ?_
        by_cases hq0 : q = 0
        · rw [if_neg (not_not.mpr hq0)]
        obtain ⟨⟨R', hgood⟩, o', ho', hfits⟩ := hopen (by simp) (by simp) hq hq0
        have ht : o'.type = inner := by
          rw [Fits, hki] at hfits
          exact hfits
        rw [if_pos hq0, ← ht]
        refine ihArray hgood ho' (by rw [ht, hki]) (by omega) ?_
        rw [ht]
        exact List.flatMap_eq_nil_iff.mp hnone q (by simp [hq, hq0])
      case cb =>
        split_ifs at hnone ⊢
        · exact foldlM_some _ _ fun q hq => if_neg (not_not.mpr (zero_of_filter_nil hnone q hq))
        · rfl
      case barrier =>
        exact foldlM_some _ _ fun q hq => if_neg (not_not.mpr (zero_of_filter_nil hnone q hq))
      case mt =>
        refine foldlM_some _ _ fun q hq => ?_
        by_cases hq0 : q = 0
        · rw [if_neg (not_not.mpr hq0)]
        obtain ⟨⟨R', hgood⟩, -⟩ := hopen (by simp) (by simp) hq hq0
        have hnil := List.flatMap_eq_nil_iff.mp hnone q (by simp [hq, hq0])
        rw [if_pos hq0, ihUpdate hgood (by omega) hnil]
        rfl

/-- **What the update of a mobile does**, where its walk comes to nothing shared in an array: the
object moves, or there is a further reference to it. -/
theorem mtIoUpdate_spec {fuel : ℕ} (h : Good m (p ::ₘ R) D)
    (hfuel : 2 * (m.graph.nodes \ D).card + 1 < fuel)
    (hclean : ∀ o, m.objs p = some o → mtType o.type = .array → Mem.reached m fuel p = []) :
    m.mtIoUpdate fuel p = some (m, true) ∨
      ∃ o m', m.objs p = some o ∧ (mtType o.type = .cb ∨ mtType o.type = .barrier) ∧
        m.incRef p = some m' ∧ m.mtIoUpdate fuel p = some (m', false) := by
  obtain ⟨o, ho, hp⟩ := h.exists_obj (Multiset.mem_cons_self p R)
  by_cases hnone : Mem.reached m fuel p = []
  · exact .inl ((mtIoUpdate_clean fuel).1 h (by omega) hnone)
  obtain ⟨fuel, rfl⟩ : ∃ k, fuel = k + 1 := ⟨fuel - 1, by omega⟩
  have hvalid := h.valid p o ho
  have hcount (hk : mtType o.type = .cb ∨ mtType o.type = .barrier) :=
    (h.incRef ho hp hk).1
  rw [Mem.reached, ho] at hnone
  rw [Mem.mtIoUpdate, ho]
  dsimp only at hnone ⊢
  rw [if_pos hvalid.simple]
  rcases hvalid.kind with hk | hk | hk | hk
  · exact (hnone (by have := hclean o ho hk; rwa [Mem.reached, ho] at this)).elim
  all_goals rw [hk] at hnone ⊢; dsimp only at hnone ⊢
  · split_ifs at hnone ⊢
    · exact .inr ⟨o, _, rfl, .inl hk, hcount (.inl hk), by rw [hcount (.inl hk)]; rfl⟩
    · exact (hnone rfl).elim
  · exact .inr ⟨o, _, rfl, .inr hk, hcount (.inr hk), by rw [hcount (.inr hk)]; rfl⟩
  · exact (hnone rfl).elim

end Mobile

end Ccsp

end Kroc
