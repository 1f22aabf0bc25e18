import Kroc.Ccsp.MobileHeap

/-!
# Ccsp/MobileRun — when reference counting is exact

The invariant is `Good` with the references of the slots in hand.  A place deep in nested arrays is
worked on with the arrays on the way to it open (`Focus`).  Every step keeps the invariant but one:
the communication or move of an array in which the update comes to a shared bundle or a barrier,
which is counted again although the array that holds it moves.
-/

open RefCount Transition

namespace Kroc

namespace Ccsp

namespace Mobile

/-- **The invariant**, with `X` in the hands of the step under way. -/
def Sys.Holds (s : Sys) (X : Multiset Ptr) : Prop := Good s.mem (ptrs s.vars + X) ∅

variable {s t : Sys} {m m' : Mem} {R R' X Y : Multiset Ptr} {D : Finset Ptr} {a p q : Ptr}
  {l l' : Loc} {pl : Place} {o : Obj} {i x : ℕ}

/-! ## Reading and writing places -/

theorem ptrs_cons_eq (q : Ptr) (qs : List Ptr) : ptrs (q :: qs) = ptrs [q] + ptrs qs :=
  ptrs_append [q] qs

theorem ptrs_set {qs : List Ptr} (h : qs[i]? = some q) (p : Ptr) :
    ptrs (qs.set i p) + ptrs [q] = ptrs qs + ptrs [p] := by
  induction qs generalizing i with
  | nil => simp at h
  | cons r qs ih =>
    rw [ptrs_cons_eq r qs]
    cases i with
    | zero =>
      obtain rfl : r = q := by simpa using h
      rw [List.set_cons_zero, ptrs_cons_eq p qs]
      abel
    | succ i =>
      rw [List.set_cons_succ, ptrs_cons_eq r, add_assoc, ih (by simpa using h), add_assoc]

/-- Exchanging one reference for another on both sides. -/
theorem exchange_eq {V V' P Q : Multiset Ptr} (hV : V' + Q = V + P) (hX : X + Q = Y + P) :
    V' + Y = V + X := by
  have h : V' + Y + (Q + P) = V + X + (Q + P) := by
    calc V' + Y + (Q + P) = (V' + Q) + (Y + P) := by abel
      _ = (V + P) + (X + Q) := by rw [hV, hX]
      _ = V + X + (Q + P) := by abel
  exact add_right_cancel h

theorem exists_array (h : s.read (.elem a i) = some q) :
    ∃ o, s.mem.objs a = some o ∧ o.HoldsPtrs ∧ o.data[i]? = some q := by
  unfold Sys.read at h
  dsimp only at h
  split at h
  · cases h
  · rename_i o ho
    split_ifs at h with hptrs
    exact ⟨o, ho, hptrs, h⟩

/-- **An element changes**, for another that the type allows. -/
theorem Good.set_elem (h : Good m R D) (ho : m.objs a = some o) (ha : a ∉ D)
    (hptrs : o.HoldsPtrs) (hq : o.data[i]? = some q)
    (hfits : p = 0 ∨ ∃ o', m.objs p = some o' ∧ Fits (elemType o.type) o')
    (hR : R + ptrs [q] = R' + ptrs [p]) :
    Good (m.set a { o with data := o.data.set i p }) R' D := by
  have hself : (m.set a { o with data := o.data.set i p }).objs a =
      some { o with data := o.data.set i p } := Function.update_self ..
  have hother : ∀ q, q ≠ a → (m.set a { o with data := o.data.set i p }).objs q = m.objs q :=
    fun q hq => Function.update_of_ne hq _ _
  have hback : ∀ q r, (m.set a { o with data := o.data.set i p }).objs q = some r →
      ∃ r', m.objs q = some r' ∧ r.type = r'.type := by
    intro q r hr
    by_cases hq : q = a
    · rw [hq, hself] at hr
      cases hr
      exact ⟨o, hq ▸ ho, rfl⟩
    · exact ⟨r, (hother q hq) ▸ hr, rfl⟩
  have hkept : ∀ {inner : ℕ} {q : Ptr}, (∃ r, m.objs q = some r ∧ Fits inner r) →
      ∃ r, (m.set a { o with data := o.data.set i p }).objs q = some r ∧ Fits inner r := by
    rintro inner q ⟨r, hr, hf⟩
    by_cases hq : q = a
    · rw [hq, ho] at hr
      cases hr
      exact ⟨{ o with data := o.data.set i p }, by rw [hq, hself], hf.congr rfl⟩
    · exact ⟨r, (hother q hq).trans hr, hf⟩
  have hbal := h.balanced.rewire (f := (m.set a { o with data := o.data.set i p }).graph)
    (Finset.mem_sdiff.mpr ⟨h.mem_nodes ho, ha⟩) (graph_set_nodes ho (h.bound a o ho).2) ?_
    (fun b _ hb => (graph_congr_obj (hother b hb)).2) (S := R') ?_
  · refine ⟨hbal, fun q r hr => ?_, h.next, fun q r hr => ?_, fun b r hr hb hbp => ?_,
      fun b hb r hr => ?_⟩
    · obtain ⟨r', hr', -⟩ := hback q r hr
      exact h.bound q r' hr'
    · obtain ⟨r', hr', ht⟩ := hback q r hr
      have := h.valid q r' hr'
      exact ⟨ht ▸ this.simple, ht ▸ this.kind, ht ▸ this.inner⟩
    · intro e he he0
      by_cases hba : b = a
      · subst hba
        rw [hself] at hr
        cases hr
        rcases List.mem_or_eq_of_mem_set he with he | rfl
        · exact hkept (h.typed b o ho ha hptrs e he he0)
        · exact hkept (hfits.resolve_left he0)
      · rw [hother b hba] at hr
        exact hkept (h.typed b r hr hb hbp e he he0)
    · obtain ⟨r', hr', ht⟩ := hback b r hr
      exact (Obj.HoldsPtrs.congr ht).mpr (h.opened b hb r' hr')
  · funext b
    by_cases hb : b = a
    · subst hb
      rw [graph_due hself, graph_due ho]
      rfl
    · exact (graph_congr_obj (hother b hb)).1
  · rw [graph_out hself, graph_out ho]
    rw [Obj.HoldsPtrs.out (o := { o with data := o.data.set i p }) hptrs, hptrs.out, add_comm R',
      add_comm R]
    exact exchange_eq (ptrs_set hq p) hR

/-- **A place changes** what it holds. -/
theorem Sys.Holds.write (h : s.Holds X) (hread : s.read l = some q)
    (hfits : p = 0 ∨ s.Accepts l p) (hX : X + ptrs [q] = Y + ptrs [p]) :
    (s.write l p).Holds Y := by
  cases l with
  | var x =>
    unfold Sys.Holds Sys.write
    dsimp only
    rw [exchange_eq (ptrs_set hread p) hX]
    exact h
  | elem a i =>
    obtain ⟨o, ho, hptrs, hq⟩ := exists_array hread
    unfold Sys.Holds Sys.write
    dsimp only
    rw [ho]
    refine Good.set_elem h ho (Finset.notMem_empty a) hptrs hq ?_ (by rw [add_assoc, hX, add_assoc])
    refine hfits.imp_right fun hacc => ?_
    unfold Sys.Accepts at hacc
    dsimp only at hacc
    rw [ho] at hacc
    cases hp : s.mem.objs p with
    | none => rw [hp] at hacc; exact hacc.elim
    | some o' => rw [hp] at hacc; exact ⟨o', rfl, hacc⟩

/-- The reference in a place is taken in hand. -/
theorem Sys.Holds.take (h : s.Holds X) (hread : s.read l = some q) :
    (s.write l 0).Holds (X + ptrs [q]) :=
  h.write hread (.inl rfl) (by rw [ptrs_cons_zero, ptrs_nil, add_zero])

theorem Sys.lookup_eq (h : s.lookup pl = some (l, p)) :
    s.address pl = some l ∧ s.read l = some p := by
  obtain ⟨l₁, hl₁, h⟩ := Option.bind_eq_some_iff.mp h
  obtain ⟨p₁, hp₁, h⟩ := Option.map_eq_some_iff.mp h
  cases h
  exact ⟨hl₁, hp₁⟩

/-- **The reference in hand is stored.** -/
theorem Sys.Holds.store (h : s.Holds (X + ptrs [p])) (ht : s.store pl p = some t) : t.Holds X := by
  unfold Sys.store at ht
  split at ht
  · cases ht
  · rename_i l q hl
    split_ifs at ht with hok
    cases ht
    obtain ⟨rfl, hfits⟩ := hok
    exact h.write (s.lookup_eq hl).2 hfits (by rw [ptrs_cons_zero, ptrs_nil, add_zero])

/-! ## Two places -/

theorem Sys.write_write (s : Sys) (l : Loc) (p q : Ptr) :
    (s.write l p).write l q = s.write l q := by
  cases l with
  | var x => simp only [Sys.write, List.set_set]
  | elem a i =>
    unfold Sys.write
    dsimp only
    cases ho : s.mem.objs a with
    | none => dsimp only; rw [ho]
    | some o =>
      dsimp only [Mem.set]
      rw [Function.update_self]
      dsimp only
      rw [List.set_set, Function.update_idem]

theorem Sys.write_comm (s : Sys) (h : l ≠ l') (p q : Ptr) :
    (s.write l p).write l' q = (s.write l' q).write l p := by
  cases l with
  | var x =>
    cases l' with
    | var y =>
      have hxy : x ≠ y := fun hxy => h (hxy ▸ rfl)
      simp only [Sys.write, List.set_comm _ _ hxy]
    | elem b j =>
      simp only [Sys.write]
      cases s.mem.objs b <;> rfl
  | elem a i =>
    cases l' with
    | var y =>
      simp only [Sys.write]
      cases s.mem.objs a <;> rfl
    | elem b j =>
      simp only [Sys.write]
      by_cases hab : a = b
      · subst hab
        have hij : i ≠ j := fun hij => h (hij ▸ rfl)
        cases ho : s.mem.objs a with
        | none => simp only [ho]
        | some o =>
          simp only [Mem.set, Function.update_self, Function.update_idem, List.set_comm _ _ hij]
      · cases ho : s.mem.objs a <;> cases hb : s.mem.objs b <;>
          simp only [Mem.set, ho, hb, Function.update_of_ne hab,
            Function.update_of_ne (Ne.symm hab)]
        rw [Function.update_comm (Ne.symm hab)]

theorem Sys.read_write_self (h : s.read l = some q) (p : Ptr) : (s.write l p).read l = some p := by
  cases l with
  | var x =>
    obtain ⟨hx, -⟩ := List.getElem?_eq_some_iff.mp h
    exact List.getElem?_set_self hx
  | elem a i =>
    obtain ⟨o, ho, hptrs, hq⟩ := exists_array h
    obtain ⟨hi, -⟩ := List.getElem?_eq_some_iff.mp hq
    have hptrs' : Obj.HoldsPtrs { o with data := o.data.set i p } := hptrs
    simp only [Sys.write, Sys.read, ho, Mem.set, Function.update_self, if_pos hptrs']
    exact List.getElem?_set_self hi

theorem Sys.read_write_of_ne (h : l ≠ l') (p : Ptr) : (s.write l p).read l' = s.read l' := by
  cases l with
  | var x =>
    cases l' with
    | var y => exact List.getElem?_set_ne fun hxy => h (congrArg Loc.var hxy)
    | elem b j => rfl
  | elem a i =>
    cases ho : s.mem.objs a with
    | none => simp only [Sys.write, ho]
    | some o =>
      cases l' with
      | var y => simp only [Sys.write, ho, Sys.read]
      | elem b j =>
        simp only [Sys.write, ho, Sys.read, Mem.set]
        by_cases hab : b = a
        · subst hab
          have hij : i ≠ j := fun hij => h (hij ▸ rfl)
          rw [Function.update_self, ho]
          dsimp only
          rw [List.getElem?_set_ne hij]
          rfl
        · rw [Function.update_of_ne hab]

/-- Writing an element changes no type. -/
theorem Sys.type_write (s : Sys) (l : Loc) (p a : Ptr) :
    ((s.write l p).mem.objs a).map Obj.type = (s.mem.objs a).map Obj.type := by
  cases l with
  | var x => rfl
  | elem b i =>
    simp only [Sys.write]
    cases hb : s.mem.objs b with
    | none => rfl
    | some o =>
      simp only [Mem.set, Function.update_apply]
      split_ifs with hab
      · rw [hab, hb]
        rfl
      · rfl

theorem Sys.Accepts.write (h : s.Accepts l' q) (l : Loc) (p : Ptr) :
    (s.write l p).Accepts l' q := by
  cases l' with
  | var x => trivial
  | elem a i =>
    have ha := s.type_write l p a
    have hq := s.type_write l p q
    unfold Sys.Accepts at h ⊢
    dsimp only at h ⊢
    cases hoa : s.mem.objs a <;> rw [hoa] at h ha
    · exact h.elim
    cases hoq : s.mem.objs q <;> rw [hoq] at h hq
    · exact h.elim
    obtain ⟨o, ho, hta⟩ := Option.map_eq_some_iff.mp ha
    obtain ⟨o', ho', htq⟩ := Option.map_eq_some_iff.mp hq
    rw [ho, ho']
    dsimp only at h ⊢
    rw [hta]
    exact h.congr htq

/-- **Both places change.** -/
theorem Sys.Holds.write₂ (h : s.Holds X) (hp : s.read l = some p) (hq : s.read l' = some q)
    (hlq : q = 0 ∨ s.Accepts l q) (hlp : p = 0 ∨ s.Accepts l' p) :
    ((s.write l' p).write l q).Holds X := by
  by_cases hl : l = l'
  · subst hl
    obtain rfl : p = q := Option.some.inj (hp.symm.trans hq)
    rw [Sys.write_write]
    exact h.write hp hlq rfl
  · have h₁ := h.take hp
    have hq₁ : (s.write l 0).read l' = some q := (Sys.read_write_of_ne hl 0).trans hq
    have h₂ := h₁.write hq₁ (hlp.imp_right fun hacc => hacc.write l 0) (Y := X + ptrs [q])
      (add_right_comm ..)
    have hp₂ : ((s.write l 0).write l' p).read l = some 0 := by
      rw [Sys.read_write_of_ne (Ne.symm hl)]
      exact Sys.read_write_self hp 0
    have h₃ := h₂.write hp₂ (hlq.imp_right fun hacc => (hacc.write l 0).write l' p) (Y := X)
      (by rw [ptrs_cons_zero, ptrs_nil, add_zero])
    rwa [s.write_comm hl, Sys.write_write] at h₃

/-! ## Focus -/

/-- The arrays on the way to a reference are open, and the reference is in hand. -/
def Focus (m : Mem) (S : Multiset Ptr) (p : Ptr) (R : Multiset Ptr) (D : Finset Ptr) : Prop :=
  Good m (ptrs [p] + R) D ∧ ptrs [p] + R + D.val = S + ∑ a ∈ D, m.graph.out a

theorem ptrs_getElem? {qs : List Ptr} (h : qs[i]? = some q) :
    ptrs qs = ptrs [q] + ptrs (qs.set i 0) := by
  have := ptrs_set h 0
  rw [ptrs_cons_zero, ptrs_nil, add_zero] at this
  rw [← this, add_comm]

theorem Good.bound_zero (h : Good m R D) : m.objs 0 = none := by
  by_contra hne
  obtain ⟨o, ho⟩ := Option.ne_none_iff_exists'.mp hne
  exact absurd (h.bound 0 o ho).1 (lt_irrefl 0)

theorem Sys.read_of_descend {path : List ℕ} (h : s.descend l path = some l')
    (hread : s.read l' = some p) : ∃ q, s.read l = some q := by
  cases path with
  | nil =>
    cases h
    exact ⟨p, hread⟩
  | cons i path =>
    obtain ⟨q, hq, -⟩ := Option.bind_eq_some_iff.mp h
    exact ⟨q, hq⟩

/-- The step of `focus_descend`: the array in focus is opened, and one of its elements is in
focus. -/
theorem Focus.elem {S : Multiset Ptr} {e : Ptr} (h : Focus s.mem S q R D)
    (hread : s.read (.elem q i) = some e) : ∃ R' D', Focus s.mem S e R' D' := by
  obtain ⟨hgood, hsum⟩ := h
  obtain ⟨o, ho, hptrs, he⟩ := exists_array hread
  have hq : q ≠ 0 := by
    rintro rfl
    rw [hgood.bound_zero] at ho
    cases ho
  rw [ptrs_cons hq, ptrs_nil, Multiset.cons_add, zero_add] at hgood hsum
  have hqD := (Finset.mem_sdiff.mp hgood.balanced.mem).2
  have hopen := hgood.open ho hptrs
  refine ⟨ptrs (o.data.set i 0) + R, insert q D, ?_, ?_⟩
  · rwa [← add_assoc, ← ptrs_getElem? he]
  · rw [← add_assoc, ← ptrs_getElem? he, Finset.insert_val_of_notMem hqD, Finset.sum_insert hqD,
      graph_out ho, hptrs.out, add_left_comm S, ← hsum, add_assoc, Multiset.cons_add,
      Multiset.add_cons]

theorem focus_descend {S : Multiset Ptr} : ∀ {path : List ℕ} {l : Loc} {q : Ptr}
    {R : Multiset Ptr} {D : Finset Ptr}, Focus s.mem S q R D → s.read l = some q →
    s.descend l path = some l' → s.read l' = some p → ∃ R' D', Focus s.mem S p R' D' := by
  intro path
  induction path with
  | nil =>
    intro l q R D h hq hl hp
    cases hl
    obtain rfl : q = p := Option.some.inj (hq.symm.trans hp)
    exact ⟨R, D, h⟩
  | cons i path ih =>
    intro l q R D h hq hl hp
    obtain ⟨q', hq', hl⟩ := Option.bind_eq_some_iff.mp hl
    obtain rfl : q = q' := Option.some.inj (hq.symm.trans hq')
    obtain ⟨e, he⟩ := Sys.read_of_descend hl hp
    obtain ⟨R', D', h'⟩ := h.elem he
    exact ih h' he hl hp

/-- **A place comes into focus.** -/
theorem Sys.Holds.focus (h : s.Holds X) (hl : s.lookup pl = some (l, p)) :
    ∃ R D, Focus s.mem (ptrs s.vars + X) p R D := by
  obtain ⟨haddr, hp⟩ := Sys.lookup_eq hl
  obtain ⟨q, hq⟩ := Sys.read_of_descend haddr hp
  refine focus_descend (R := ptrs (s.vars.set pl.var 0) + X) (D := ∅) ⟨?_, ?_⟩ hq haddr hp
  · rw [← add_assoc, ← ptrs_getElem? hq]
    exact h
  · rw [← add_assoc, ← ptrs_getElem? hq, Finset.sum_empty, Finset.empty_val, add_zero]

/-! ## Steps -/

theorem card_nodes_le (m : Mem) (D : Finset Ptr) : (m.graph.nodes \ D).card ≤ m.next := by
  calc (m.graph.nodes \ D).card ≤ m.graph.nodes.card := Finset.card_le_card Finset.sdiff_subset
    _ ≤ (Finset.range m.next).card := Finset.card_le_card (Finset.filter_subset _ _)
    _ = m.next := Finset.card_range _

theorem Sys.holds_cons (hp : p ≠ 0) : s.Holds (X + ptrs [p]) ↔
    Good s.mem (p ::ₘ (ptrs s.vars + X)) ∅ := by
  unfold Sys.Holds
  rw [ptrs_cons hp, ptrs_nil, ← add_assoc, Multiset.add_cons, add_zero]

/-- **`mt_clone`** adds a reference, which is in hand. -/
theorem Sys.Holds.mtClone (h : s.Holds X) (hl : s.lookup pl = some (l, p)) (hp : p ≠ 0) :
    ∃ m q, s.mem.mtClone s.mem.fuel p = some (m, q) ∧
      Sys.Holds { s with mem := m } (X + ptrs [q]) := by
  obtain ⟨R, D, hgood, hsum⟩ := h.focus hl
  rw [ptrs_cons hp, ptrs_nil, Multiset.cons_add, zero_add] at hgood hsum
  have hcard := card_nodes_le s.mem D
  have hfuel : (s.mem.graph.nodes \ D).card < s.mem.fuel := by
    unfold Mem.fuel
    omega
  have hold : Old s.mem D s.mem.graph.nodes := by
    refine ⟨fun q hq => (mem_nodes_iff.mp hq).2, fun a ha haD o ho hptrs q hq => ?_⟩
    obtain ⟨o', ho', -⟩ := hgood.exists_obj_out ho haD (hptrs.out ▸ hq)
    exact hgood.mem_nodes ho'
  obtain ⟨m, q, hm, hcl⟩ := mtClone_spec hgood hold (Finset.mem_sdiff.mp hgood.balanced.mem).1
    hfuel
  have hq : q ≠ 0 := hcl.good.ne_zero (Multiset.mem_cons_self q _)
  refine ⟨m, q, hm, (Sys.holds_cons hq).mpr ?_⟩
  have hout : ∑ a ∈ D, m.graph.out a = ∑ a ∈ D, s.mem.graph.out a :=
    Finset.sum_congr rfl fun a ha => (graph_congr_obj (hcl.grown.opened a ha)).2
  have hclose := hcl.good.close (R := q ::ₘ (ptrs s.vars + X)) Finset.Subset.rfl ?_ ?_
  · rwa [Finset.sdiff_self] at hclose
  · rw [hout, Multiset.cons_add, hsum, Multiset.cons_add]
  · intro a ha o ho
    rw [hcl.grown.opened a ha] at ho
    exact (h.typed a o ho (Finset.notMem_empty a)).grown hcl.grown

/-- The update of the mobile in a place comes to nothing that an array shares. -/
def Sys.Clean (s : Sys) (pl : Place) : Prop :=
  ∀ l p, s.lookup pl = some (l, p) → ∀ o, s.mem.objs p = some o → mtType o.type = .array →
    Mem.reached s.mem s.mem.fuel p = []

/-- **`mt_io_update`**: the mobile can be taken out of its place, or there is a further reference
in hand. -/
theorem Sys.Holds.mtIoUpdate (h : s.Holds X) (hl : s.lookup pl = some (l, p)) (hp : p ≠ 0)
    (hclean : s.Clean pl) :
    s.mem.mtIoUpdate s.mem.fuel p = some (s.mem, true) ∨
      ∃ m, s.mem.mtIoUpdate s.mem.fuel p = some (m, false) ∧
        Sys.Holds { s with mem := m } (X + ptrs [p]) := by
  obtain ⟨R, D, hgood, -⟩ := h.focus hl
  rw [ptrs_cons hp, ptrs_nil, Multiset.cons_add, zero_add] at hgood
  have hcard := card_nodes_le s.mem D
  have hfuel : 2 * (s.mem.graph.nodes \ D).card + 1 < s.mem.fuel := by
    unfold Mem.fuel
    omega
  rcases mtIoUpdate_spec hgood hfuel (hclean l p hl) with
    hmoved | ⟨o, m, ho, hk, hinc, hshared⟩
  · exact .inl hmoved
  · obtain ⟨hinc', hgood'⟩ := Good.incRef h ho (Finset.notMem_empty p) hk
    rw [hinc] at hinc'
    cases hinc'
    exact .inr ⟨_, hshared, (Sys.holds_cons hp).mpr hgood'⟩

theorem mtType_or_shift (x y : ℕ) : mtType (x ||| (y <<< 8)) = mtType x := by
  have h : (x ||| (y <<< 8)) >>> 1 &&& 0xf = x >>> 1 &&& 0xf := by
    refine Nat.eq_of_testBit_eq fun i => ?_
    rw [Nat.testBit_and, Nat.testBit_and, Nat.testBit_shiftRight, Nat.testBit_shiftRight,
      Nat.testBit_or, Nat.testBit_shiftLeft]
    by_cases hi : i < 4
    · have : ¬ 1 + i ≥ 8 := by omega
      simp [this]
    · have : (0xf).testBit i = false := by
        refine Nat.testBit_lt_two_pow (lt_of_lt_of_le (by decide : 0xf < 2 ^ 4) ?_)
        exact Nat.pow_le_pow_right (by decide) (by omega)
      simp [this]
  unfold mtType
  rw [h]

theorem mtSimple_or_shift (x y : ℕ) : mtSimple (x ||| (y <<< 8)) = mtSimple x := by
  simp [mtSimple]

/-- **`mt_alloc`**: a bundle has two references in hand, anything else one. -/
theorem mtAlloc_spec {type size : ℕ} (h : Good m R D) (ha : m.mtAlloc type size = some (m', p)) :
    p ≠ 0 ∧ Good m' (Multiset.replicate (if mtType type = .cb then 2 else 1) p + R) D := by
  have hnext : m.next ≠ 0 := Nat.ne_of_gt h.next
  unfold Mem.mtAlloc at ha
  split_ifs at ha with hsimple
  cases hk : mtType type <;> rw [hk] at ha <;> dsimp only at ha
  case array =>
    unfold Mem.mtAllocArray at ha
    split_ifs at ha with hinner
    cases ha
    refine ⟨hnext, ?_⟩
    have hvalid : Obj.Valid (emptyArray type size) := ⟨hsimple, .inl hk, fun _ => hinner⟩
    have hdue : Obj.due (emptyArray type size) = 1 := by simp [Obj.due, emptyArray, hk]
    have hout : Obj.out (emptyArray type size) = 0 := by simp [Obj.out, emptyArray, ptrs_replicate]
    have := h.new hvalid hout (fun m => typed_emptyArray m _ _) (by rw [hdue]; exact Nat.one_pos)
    rwa [hdue] at this
  case cb =>
    cases ha
    refine ⟨hnext, ?_⟩
    have hk' : mtType (type ||| (size <<< 8)) = .cb := (mtType_or_shift _ _).trans hk
    have hvalid : Obj.Valid ⟨type ||| (size <<< 8), 2, [], []⟩ := by
      refine ⟨(mtSimple_or_shift _ _).trans hsimple, .inr (.inl hk'), fun ha => ?_⟩
      exact absurd (hk'.symm.trans ha) (by decide)
    have hdue := due_of_counted (o := ⟨type ||| (size <<< 8), 2, [], []⟩) (.inl hk')
    have := h.new hvalid (out_of_counted (.inl hk')) (fun _ _ q hq => absurd hq List.not_mem_nil)
      (by rw [hdue]; exact Nat.two_pos)
    rwa [hdue] at this
  case barrier =>
    unfold Mem.mtAllocBarrier at ha
    split_ifs at ha
    cases ha
    refine ⟨hnext, ?_⟩
    have hvalid : Obj.Valid ⟨type, 1, [], []⟩ := by
      refine ⟨hsimple, .inr (.inr (.inl hk)), fun ha => ?_⟩
      exact absurd (hk.symm.trans ha) (by decide)
    have hdue := due_of_counted (o := ⟨type, 1, [], []⟩) (.inr hk)
    have := h.new hvalid (out_of_counted (.inr hk)) (fun _ _ q hq => absurd hq List.not_mem_nil)
      (by rw [hdue]; exact Nat.one_pos)
    rwa [hdue] at this
  case data =>
    cases ha
    refine ⟨hnext, ?_⟩
    have hvalid : Obj.Valid ⟨type, 0, [], List.replicate size 0⟩ := by
      refine ⟨hsimple, .inr (.inr (.inr hk)), fun ha => ?_⟩
      exact absurd (hk.symm.trans ha) (by decide)
    have hdue : Obj.due ⟨type, 0, [], List.replicate size 0⟩ = 1 := by simp [Obj.due, hk]
    have := h.new hvalid (out_of_not_array (by rw [hk]; exact Kind.noConfusion))
      (fun _ hptrs => absurd (hk.symm.trans hptrs.1) (by decide)) (by rw [hdue]; exact Nat.one_pos)
    rwa [hdue] at this
  all_goals cases ha

theorem Sys.Holds.alloc {type size : ℕ} {dst other : Place} (h : s.Holds 0)
    (ht : s.alloc type size dst other = some t) : t.Holds 0 := by
  unfold Sys.alloc at ht
  split at ht
  · cases ht
  · rename_i m p hm
    obtain ⟨hp, hgood⟩ := mtAlloc_spec h hm
    obtain ⟨s₁, hs₁, ht⟩ := Option.bind_eq_some_iff.mp ht
    split_ifs at hgood ht
    · refine Sys.Holds.store (X := 0) (Sys.Holds.store (X := 0 + ptrs [p]) ?_ hs₁) ht
      unfold Sys.Holds
      convert hgood using 1
      rw [ptrs_cons hp, ptrs_nil, Multiset.replicate_succ, Multiset.replicate_one]
      simp [add_comm]
    · cases ht
      refine Sys.Holds.store (X := 0) ?_ hs₁
      unfold Sys.Holds
      convert hgood using 1
      rw [ptrs_cons hp, ptrs_nil, Multiset.replicate_one]
      simp [add_comm]

theorem Sys.Holds.store_zero (h : s.Holds X) (ht : s.store pl 0 = some t) : t.Holds X :=
  Sys.Holds.store (p := 0) (by rwa [ptrs_cons_zero, ptrs_nil, add_zero]) ht

theorem Sys.Holds.clone {src dst : Place} (h : s.Holds 0) (ht : s.clone src dst = some t) :
    t.Holds 0 := by
  unfold Sys.clone at ht
  split at ht
  · cases ht
  · rename_i l p hl
    split_ifs at ht with hp
    · obtain ⟨m, q, hm, hgood⟩ := h.mtClone hl hp
      rw [hm] at ht
      exact hgood.store ht
    · exact h.store_zero ht

/-- **A mobile moves or is shared**, where the update of an array comes to nothing shared. -/
theorem Sys.Holds.move {src dst : Place} (h : s.Holds 0) (hclean : s.Clean src)
    (ht : s.move src dst = some t) : t.Holds 0 := by
  unfold Sys.move at ht
  split at ht
  · cases ht
  · rename_i l p hl
    split_ifs at ht with hp
    · rcases h.mtIoUpdate hl hp hclean with hm | ⟨m, hm, hgood⟩ <;> rw [hm] at ht
      · exact (h.take (Sys.lookup_eq hl).2).store ht
      · exact hgood.store ht
    · exact h.store_zero ht

theorem Sys.Holds.exchange {src dst : Place} (h : s.Holds 0) (ht : s.exchange src dst = some t) :
    t.Holds 0 := by
  unfold Sys.exchange at ht
  split at ht
  · rename_i l p l' q hl hl'
    split_ifs at ht with hok
    cases ht
    exact h.write₂ (Sys.lookup_eq hl).2 (Sys.lookup_eq hl').2 hok.1 hok.2
  · cases ht

theorem Sys.Holds.release (h : s.Holds 0) (ht : s.release pl = some t) : t.Holds 0 := by
  unfold Sys.release at ht
  split at ht
  · cases ht
  · rename_i l p hl
    split_ifs at ht with hp
    have htake := (Sys.holds_cons hp).mp (h.take (Sys.lookup_eq hl).2)
    have hnext : (s.write l 0).mem.next = s.mem.next := by
      cases l with
      | var x => rfl
      | elem a i =>
        simp only [Sys.write]
        cases s.mem.objs a <;> rfl
    have hcard := card_nodes_le (s.write l 0).mem ∅
    rw [hnext] at hcard
    have hfuel : ((s.write l 0).mem.graph.nodes \ ∅).card < s.mem.fuel := by
      unfold Mem.fuel
      omega
    obtain ⟨m, hm, hgood, -⟩ := mtRelease_spec htake hfuel
    rw [hm] at ht
    cases ht
    exact hgood

/-! ## Runs -/

/-- The place a step takes a mobile from, where `mt_io_update` decides what becomes of it. -/
def Sys.source (s : Sys) : Act → Option Place
  | .move src _ => some src
  | .io c dir pl =>
    match s.chans c, dir with
    | some (.out, src), .inp => some src
    | some (.inp, _), .out => some pl
    | _, _ => none
  | _ => none

/-- **The condition**: where the step moves or communicates an array, the walk of `mt_io_update`
comes to no shared bundle and no barrier. -/
def Sys.Meets (s : Sys) (a : Act) : Prop := ∀ pl, s.source a = some pl → s.Clean pl

theorem Sys.descend_chans (s : Sys) (f : ℕ → Option (Dir × Place)) : ∀ (path : List ℕ) (l : Loc),
    Sys.descend { s with chans := f } l path = s.descend l path := by
  intro path
  induction path with
  | nil => exact fun _ => rfl
  | cons i path ih =>
    intro l
    unfold Sys.descend
    rw [show Sys.read { s with chans := f } l = s.read l by cases l <;> rfl]
    exact congrArg _ (funext fun p => ih (.elem p i))

/-- Who waits in which channel does not matter to what a place holds. -/
theorem Sys.Clean.chans (h : s.Clean pl) (f : ℕ → Option (Dir × Place)) :
    Sys.Clean { s with chans := f } pl := by
  intro l p hl
  unfold Sys.lookup Sys.address at hl
  rw [s.descend_chans f] at hl
  refine h l p (Eq.trans ?_ hl)
  unfold Sys.lookup Sys.address
  exact congrArg _ (funext fun l => congrArg _ (by cases l <;> rfl))

theorem Sys.Holds.io {c : ℕ} {dir : Dir} (h : s.Holds 0) (hok : s.Meets (.io c dir pl))
    (ht : s.io c dir pl = some t) : t.Holds 0 := by
  have hdone : Sys.Holds { s with chans := Function.update s.chans c none } 0 := h
  have hclean : ∀ src, s.source (.io c dir pl) = some src →
      Sys.Clean { s with chans := Function.update s.chans c none } src :=
    fun src hsrc => (hok src hsrc).chans _
  unfold Sys.io at ht
  unfold Sys.source at hclean
  dsimp only at ht hclean
  split at ht
  · cases ht
    exact h
  · rename_i src hc
    rw [hc] at hclean
    exact hdone.move (hclean src rfl) ht
  · rename_i dst hc
    rw [hc] at hclean
    exact hdone.move (hclean pl rfl) ht
  · exact hdone.exchange ht
  · cases ht

instance (s : Sys) (pl : Place) : Decidable (s.Clean pl) :=
  match hl : s.lookup pl with
  | none => isTrue fun l p h => by rw [hl] at h; cases h
  | some (l, p) =>
    match ho : s.mem.objs p with
    | none => isTrue fun l' p' h o ho' => by rw [hl] at h; cases h; rw [ho] at ho'; cases ho'
    | some o =>
      decidable_of_iff (mtType o.type = .array → Mem.reached s.mem s.mem.fuel p = [])
        ⟨fun h l' p' hl' o' ho' => by
          rw [hl] at hl'
          cases hl'
          rw [ho] at ho'
          cases ho'
          exact h, fun h => h l p hl o ho⟩

instance (s : Sys) (a : Act) : Decidable (s.Meets a) :=
  match hsrc : s.source a with
  | none => isTrue fun pl h => by rw [hsrc] at h; cases h
  | some pl =>
    decidable_of_iff (s.Clean pl) ⟨fun h pl' h' => by rw [hsrc] at h'; cases h'; exact h,
      fun h => h pl hsrc⟩

/-- **Every step keeps the invariant.** -/
theorem Sys.Holds.step {a : Act} (h : s.Holds 0) (hok : s.Meets a) (ht : s.step a = some t) :
    t.Holds 0 := by
  cases a with
  | alloc type size dst other => exact h.alloc ht
  | clone src dst => exact h.clone ht
  | move src dst => exact h.move (hok src rfl) ht
  | io c dir pl => exact h.io hok ht
  | release pl => exact h.release ht

theorem holds_init (n : ℕ) : (Sys.init n).Holds 0 := by
  have hnodes : (Sys.init n).mem.graph.nodes = ∅ := by
    refine Finset.eq_empty_of_forall_notMem fun p hp => ?_
    obtain ⟨-, o, ho⟩ := mem_nodes_iff.mp hp
    cases ho
  have hempty : ptrs (Sys.init n).vars + 0 + (Sys.init n).mem.graph.inner ∅ = 0 := by
    unfold Graph.inner
    rw [hnodes]
    simp [Sys.init, ptrs_replicate]
  refine ⟨⟨Finset.empty_subset _, ?_, ?_, ?_⟩, ?_, Nat.one_pos, ?_, ?_, ?_⟩
  · rw [hempty]
    exact fun p hp => absurd hp (Multiset.notMem_zero p)
  · rw [hnodes]
    exact fun p hp => absurd hp (by simp)
  · rw [hnodes]
    exact fun p hp => absurd hp (by simp)
  all_goals intro p
  · intro o ho
    cases ho
  · intro o ho
    cases ho
  · intro o ho
    cases ho
  · exact fun hp => absurd hp (Finset.notMem_empty p)

/-- The references to an object are those in the slots and those held by objects. -/
theorem refs_eq (s : Sys) (hp : p ≠ 0) :
    s.refs p = (ptrs s.vars + s.mem.graph.inner ∅).count p := by
  have hptrs : ∀ qs : List Ptr, (ptrs qs).count p = qs.count p := by
    intro qs
    rw [ptrs, Multiset.coe_count, List.count_filter (by simpa using hp)]
  rw [Multiset.count_add, hptrs, Graph.inner, Finset.sdiff_empty, Multiset.count_sum']
  unfold Sys.refs Mem.graph
  dsimp only
  rw [Finset.sum_filter]
  congr 1
  refine Finset.sum_congr rfl fun a _ => ?_
  cases ho : s.mem.objs a with
  | none => simp
  | some o =>
    simp only [Option.isSome_some, if_true, Option.map_some, Option.getD_some, Obj.out]
    split_ifs
    · rw [hptrs]
    · simp

/-- **The invariant is what is promised.** -/
theorem Sys.Holds.sound (h : s.Holds 0) : s.Sound := by
  have hrefs : ∀ p, p ≠ 0 → s.refs p = (ptrs s.vars + 0 + s.mem.graph.inner ∅).count p := by
    intro p hp
    rw [refs_eq s hp, add_zero]
  have hnode : ∀ p o, s.mem.objs p = some o → p ≠ 0 ∧ o.due = s.refs p ∧ 0 < o.due := by
    intro p o ho
    have hp : p ≠ 0 := Nat.ne_of_gt (h.bound p o ho).1
    have hmem : p ∈ s.mem.graph.nodes \ ∅ := by
      rw [Finset.sdiff_empty]
      exact h.mem_nodes ho
    have hdue := h.balanced.due p hmem
    have hpos := h.balanced.pos p hmem
    rw [graph_due ho] at hdue hpos
    exact ⟨hp, hdue.trans (hrefs p hp).symm, hpos⟩
  refine ⟨fun p o ho hk => ?_, fun p hp hpos => ?_, fun p hzero => ?_, fun p o ho hk => ?_⟩
  · rw [← due_of_counted hk]
    exact (hnode p o ho).2.1
  · rw [hrefs p hp] at hpos
    have := h.balanced.live p (Multiset.count_pos.mp hpos)
    obtain ⟨-, o, ho⟩ := mem_nodes_iff.mp (Finset.mem_sdiff.mp this).1
    rw [ho]
    exact Option.some_ne_none o
  · by_contra hne
    obtain ⟨o, ho⟩ := Option.ne_none_iff_exists'.mp hne
    obtain ⟨-, hdue, hpos⟩ := hnode p o ho
    omega
  · rw [← (hnode p o ho).2.1]
    refine if_neg fun hk' => ?_
    rcases hk with hk | hk <;> rw [hk] at hk' <;> simp at hk'

/-- **Reference counting is exact in every run whose steps all meet the condition.** -/
theorem counts_exact {n : ℕ} (h : Reach Sys.step Sys.Meets (Sys.init n) s) : s.Sound := by
  have hinv := h.invariant (I := fun s => s.Holds 0) (holds_init n)
    fun hs hok ht => hs.step hok ht
  exact hinv.sound

/-- A type word: bundles with shared ends. -/
def sharedBundle : ℕ := 37

/-- Arrays of such bundles. -/
def bundleArray : ℕ := 3 + sharedBundle <<< 8

/-- A bundle is communicated, stored in an array and cloned with it; the array and one end are
released. -/
def bundleInArray : List Act :=
  [.alloc sharedBundle 2 ⟨0, []⟩ ⟨1, []⟩, .io 0 .inp ⟨2, []⟩, .io 0 .out ⟨1, []⟩,
    .alloc bundleArray 2 ⟨3, []⟩ ⟨3, []⟩, .move ⟨3, []⟩ ⟨4, []⟩, .move ⟨2, []⟩ ⟨4, [1]⟩,
    .clone ⟨4, []⟩ ⟨5, []⟩, .release ⟨4, []⟩, .release ⟨0, []⟩]

theorem counts_exact_bundleInArray :
    ∃ s, Reach Sys.step Sys.Meets (Sys.init 6) s ∧ s.vars = [0, 1, 1, 0, 0, 3] ∧
      (s.mem.objs 1).map Obj.refCount = some 3 ∧ s.mem.objs 2 = none ∧ s.Sound := by
  have hrun : ((exec Sys.step Sys.Meets (Sys.init 6) bundleInArray).map fun s =>
      (s.vars, (s.mem.objs 1).map Obj.refCount, s.mem.objs 2)) =
      some ([0, 1, 1, 0, 0, 3], some 3, none) := by decide +kernel
  obtain ⟨s, hs, hst⟩ := Option.map_eq_some_iff.mp hrun
  obtain ⟨hvars, hst⟩ := Prod.mk.inj hst
  obtain ⟨hcount, hfreed⟩ := Prod.mk.inj hst
  have hreach := reach_of_exec hs .start
  exact ⟨s, hreach, hvars, hcount, hfreed, counts_exact hreach⟩

/-! ## The run that breaks it

An array that holds a shared bundle is moved: the array moves, and its element is counted once
more. -/

def arrayMoved : List Act :=
  [.alloc bundleArray 1 ⟨0, []⟩ ⟨0, []⟩, .alloc sharedBundle 2 ⟨1, []⟩ ⟨2, []⟩,
    .io 0 .out ⟨1, []⟩, .io 0 .inp ⟨0, [0]⟩, .move ⟨0, []⟩ ⟨3, []⟩]

theorem not_sound_arrayMoved : ∃ s, Reach Sys.step Any (Sys.init 4) s ∧ ¬ s.Sound := by
  have hrun : ((exec Sys.step Any (Sys.init 4) arrayMoved).map fun s => (s.mem.objs 2, s.refs 2)) =
      some (some ⟨sharedBundle ||| 2 <<< 8, 4, [], []⟩, 3) := by decide +kernel
  obtain ⟨s, hs, hst⟩ := Option.map_eq_some_iff.mp hrun
  obtain ⟨hobj, hrefs⟩ := Prod.mk.inj hst
  refine ⟨s, reach_of_exec hs .start, fun hsound => ?_⟩
  have := hsound.count 2 _ hobj (.inl (by decide))
  rw [hrefs] at this
  exact absurd this (by decide)

end Mobile

end Ccsp

end Kroc
