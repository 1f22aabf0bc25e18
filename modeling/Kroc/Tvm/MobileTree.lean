import Kroc.Tvm.Mobile

/-!
# Tvm/MobileTree — the mobiles that hang from a pointer

An array and a block of data have one owner, a bundle and a barrier count their references.  A heap
shows at a pointer the tree of what hangs from it; a call that only writes counts, and makes new
objects, leaves every tree as it was.
-/

namespace Kroc

namespace Tvm

namespace Mobile

open Owned (Tree View)

open Ccsp.Mobile (mtType mtSimple mtArrayDim mtBarrierType elemType)

/-! ## Objects by themselves -/

/-- What an array or a block of data is, apart from the pointers in it. -/
structure Label where
  type : ℕ
  size : ℕ
  dimensions : List ℕ
  bytes : List ℕ
  deriving DecidableEq

namespace Obj

variable (o : Obj)

/-- How many words or bytes there are behind the header. -/
def cells : ℕ :=
  match mtType o.type with
  | .array => if mtType (elemType o.type) = .num then o.size <<< sizeShift o.type else o.size
  | _ => o.size

/-- An array or a block of data that is as its type and its size say. -/
def WellFormed : Prop :=
  mtSimple o.type ∧ o.elems.length = o.cells ∧
    match mtType o.type with
    | .array => arrayBytes o.type o.size < 2 ^ 32 ∧ o.dimensions.length = mtArrayDim o.type
    | .data => dataBytes o.size < 2 ^ 32 ∧ o.dimensions = []
    | _ => False

instance : Decidable o.WellFormed := by
  unfold WellFormed
  split <;> infer_instance

/-- A bundle or a barrier. -/
def Shared : Prop := mtSimple o.type ∧ (mtType o.type = .cb ∨ mtType o.type = .barrier)

instance : Decidable o.Shared := inferInstanceAs (Decidable (_ ∧ _))

/-- A barrier that counts who is enrolled and who has still to synchronise. -/
def FullBarrier : Prop := mtType o.type = .barrier ∧ mtBarrierType o.type = 0

instance : Decidable o.FullBarrier := inferInstanceAs (Decidable (_ ∧ _))

/-- What a clone has in common with the object. -/
def label : Label := ⟨o.type, o.size, o.dimensions, if o.HoldsPtrs then [] else o.elems⟩

/-- The objects below. -/
def ptrs : List Ptr := if o.HoldsPtrs then o.elems else []

/-- So many more references. -/
def bump (k : ℕ) : Obj :=
  { o with
    refCount := o.refCount + BitVec.ofNat 32 k
    enrolled := if o.FullBarrier then o.enrolled + BitVec.ofNat 32 k else o.enrolled
    count := if o.FullBarrier then o.count + BitVec.ofNat 32 k else o.count }

variable {o}

/-- Neither is an array nor a block of data. -/
theorem WellFormed.not_shared (hw : o.WellFormed) : ¬ o.Shared := by
  rintro ⟨-, hk⟩
  obtain ⟨-, -, hw⟩ := hw
  rcases hk with hk | hk <;> rw [hk] at hw <;> exact hw

/-- The reference count and the state of a barrier are not part of it. -/
theorem label_congr {o' : Obj} (ht : o'.type = o.type) (hs : o'.size = o.size)
    (hd : o'.dimensions = o.dimensions) (he : o'.elems = o.elems) : o'.label = o.label := by
  obtain ⟨_, _, _, _, _, _, _, _, _, _, _⟩ := o
  obtain ⟨_, _, _, _, _, _, _, _, _, _, _⟩ := o'
  dsimp only at ht hs hd he
  subst ht hs hd he
  rfl

theorem wellFormed_data (hk : mtType o.type = .data) : o.WellFormed ↔
    mtSimple o.type ∧ o.elems.length = o.size ∧ dataBytes o.size < 2 ^ 32 ∧ o.dimensions = [] := by
  simp only [WellFormed, cells, hk]

theorem wellFormed_array (hk : mtType o.type = .array) : o.WellFormed ↔
    mtSimple o.type ∧
      o.elems.length = (if mtType (elemType o.type) = .num then o.size <<< sizeShift o.type
        else o.size) ∧
      arrayBytes o.type o.size < 2 ^ 32 ∧ o.dimensions.length = mtArrayDim o.type := by
  simp only [WellFormed, cells, hk]

/-- An array of pointers has one for each element. -/
theorem WellFormed.length_eq_size (hw : o.WellFormed) (hptrs : o.HoldsPtrs) :
    o.elems.length = o.size := by
  have hlen := ((wellFormed_array hptrs.1).mp hw).2.1
  rwa [if_neg hptrs.2] at hlen

/-- With as many other elements. -/
theorem WellFormed.elems (hw : o.WellFormed) {e : List ℕ} (he : e.length = o.elems.length) :
    ({ o with elems := e } : Obj).WellFormed := ⟨hw.1, he.trans hw.2.1, hw.2.2⟩

/-- What is not data is an array. -/
theorem WellFormed.kind (hw : o.WellFormed) : mtType o.type = .array ∨ mtType o.type = .data := by
  have hk := hw.2.2
  split at hk
  · exact .inl ‹_›
  · exact .inr ‹_›
  · exact hk.elim

@[simp] theorem bump_zero : o.bump 0 = o := by
  unfold bump
  simp

/-- With a reference to a full barrier comes an enrolment. -/
theorem bump_of_full (hf : o.FullBarrier) (k : ℕ) : o.bump k =
    { o with
      refCount := o.refCount + BitVec.ofNat 32 k
      enrolled := o.enrolled + BitVec.ofNat 32 k
      count := o.count + BitVec.ofNat 32 k } := by
  unfold bump
  rw [if_pos hf, if_pos hf]

/-- Of everything else only the references are counted. -/
theorem bump_of_not_full (hf : ¬ o.FullBarrier) (k : ℕ) :
    o.bump k = { o with refCount := o.refCount + BitVec.ofNat 32 k } := by
  unfold bump
  rw [if_neg hf, if_neg hf]

@[simp] theorem bump_fullBarrier (k : ℕ) : (o.bump k).FullBarrier ↔ o.FullBarrier := Iff.rfl

/-- References are added up. -/
theorem bump_bump (j k : ℕ) : (o.bump j).bump k = o.bump (j + k) := by
  by_cases hf : o.FullBarrier
  · rw [bump_of_full ((bump_fullBarrier j).mpr hf), bump_of_full hf, bump_of_full hf]
    simp [BitVec.add_assoc, BitVec.ofNat_add]
  · rw [bump_of_not_full (mt (bump_fullBarrier j).mp hf), bump_of_not_full hf, bump_of_not_full hf]
    simp [BitVec.add_assoc, BitVec.ofNat_add]

@[simp] theorem bump_type (k : ℕ) : (o.bump k).type = o.type := rfl

@[simp] theorem bump_elems (k : ℕ) : (o.bump k).elems = o.elems := rfl

@[simp] theorem bump_wellFormed (k : ℕ) : (o.bump k).WellFormed ↔ o.WellFormed := Iff.rfl

@[simp] theorem bump_shared (k : ℕ) : (o.bump k).Shared ↔ o.Shared := Iff.rfl

@[simp] theorem bump_label (k : ℕ) : (o.bump k).label = o.label := rfl

@[simp] theorem bump_ptrs (k : ℕ) : (o.bump k).ptrs = o.ptrs := rfl

end Obj

/-! ## Heaps -/

namespace Heap

/-- The heap as a memory of trees. -/
def view (h : Heap) : View Ptr Label where
  node p := (h.objs p).bind fun o => if o.WellFormed then some (o.label, o.ptrs) else none
  live p := ∃ o, h.objs p = some o ∧ o.Shared

/-- No pointer has an object before it is given out. -/
structure Ok (h : Heap) : Prop where
  bound : ∀ {p o}, h.objs p = some o → 0 < p ∧ p < h.next
  pos : 0 < h.next

variable {h h' h'' : Heap} {p q x : Ptr} {o : Obj} {t : Tree Ptr Label} {c d : Ptr → ℕ}

/-- A well-formed object is a node of the trees. -/
theorem node_of_objs (ho : h.objs p = some o) (hw : o.WellFormed) :
    h.view.node p = some (o.label, o.ptrs) := by
  simp [view, ho, hw]

/-- Every node is a well-formed object. -/
theorem exists_of_node {label : Label} {ps : List Ptr} (hn : h.view.node p = some (label, ps)) :
    ∃ o, h.objs p = some o ∧ o.WellFormed ∧ o.label = label ∧ o.ptrs = ps := by
  obtain ⟨o, ho, hn⟩ := Option.bind_eq_some_iff.mp hn
  split_ifs at hn with hw
  obtain ⟨rfl, rfl⟩ := Prod.mk.inj (Option.some.inj hn)
  exact ⟨o, ho, hw, rfl, rfl⟩

theorem node_congr (hp : h'.objs p = h.objs p) : h'.view.node p = h.view.node p := by
  simp only [view, hp]

/-- What is owned is there. -/
theorem exists_of_owned (hs : h.view.Shows p t) (hq : q ∈ h.view.owned p t) :
    ∃ o, h.objs q = some o ∧ o.WellFormed := by
  obtain ⟨⟨label, ps⟩, hn⟩ := Option.isSome_iff_exists.mp (hs.node_isSome hq).1
  obtain ⟨o, ho, hw, -⟩ := exists_of_node hn
  exact ⟨o, ho, hw⟩

/-- The null pointer shows the empty tree only. -/
theorem shows_zero_iff : h.view.Shows 0 t ↔ t = .null := by
  cases t with
  | null => exact ⟨fun _ => rfl, fun _ => rfl⟩
  | shared q => exact ⟨fun hs => absurd rfl hs.2.1, fun e => by cases e⟩
  | node label n kids => exact ⟨fun hs => absurd rfl hs.1, fun e => by cases e⟩

@[simp] theorem set_objs : (h.set p o).objs p = some o := Function.update_self ..

theorem modify_objs {f : Obj → Obj} (ho : h.objs p = some o) :
    (h.modify p f).objs p = some (f o) := by
  simp [modify, ho]

theorem setElem_objs {i : ℕ} (ho : h.objs p = some o) :
    (h.setElem p i q).objs p = some { o with elems := o.elems.set i q } :=
  modify_objs ho

theorem modify_objs_ne {f : Obj → Obj} (hq : q ≠ p) : (h.modify p f).objs q = h.objs q :=
  Function.update_of_ne hq ..

theorem modify_eq_set {f : Obj → Obj} (ho : h.objs p = some o) : h.modify p f = h.set p (f o) := by
  unfold modify set
  rw [ho, Option.map_some]

theorem modify_modify {f g : Obj → Obj} :
    (h.modify p f).modify p g = h.modify p fun o => g (f o) := by
  simp [modify, Function.comp_def]

theorem set_set {o' : Obj} : (h.set p o).set p o' = h.set p o' := by
  simp [set]

theorem free_objs_ne (hq : q ≠ p) : (h.free p).objs q = h.objs q := Function.update_of_ne hq ..

@[simp] theorem free_objs : (h.free p).objs p = none := Function.update_self ..

@[simp] theorem modify_next {f : Obj → Obj} : (h.modify p f).next = h.next := rfl

/-- A heap stays in order when an object changes, -/
theorem Ok.modify (hok : h.Ok) {f : Obj → Obj} : (h.modify p f).Ok where
  bound {q o} hq := by
    by_cases he : q = p
    · subst he
      have hq : (h.objs q).map f = some o := by simpa [Heap.modify] using hq
      obtain ⟨o', ho', -⟩ := Option.map_eq_some_iff.mp hq
      exact hok.bound ho'
    · rw [modify_objs_ne he] at hq
      exact hok.bound hq
  pos := hok.pos

/-- There is no object at the null pointer. -/
theorem Ok.zero (hok : h.Ok) : h.objs 0 = none := by
  by_contra hne
  obtain ⟨o, ho⟩ := Option.ne_none_iff_exists'.mp hne
  exact absurd (hok.bound ho).1 (lt_irrefl 0)

/-- There is none yet where the next one will be. -/
theorem Ok.next (hok : h.Ok) (hp : h.next ≤ p) : h.objs p = none := by
  by_contra hne
  obtain ⟨o, ho⟩ := Option.ne_none_iff_exists'.mp hne
  exact absurd (hok.bound ho).2 (Nat.not_lt.mpr hp)

/-- and when there is one more. -/
theorem Ok.new (hok : h.Ok) : (h.new o).2.Ok where
  bound {q o'} hq := by
    by_cases he : q = h.next
    · exact he ▸ ⟨hok.pos, Nat.lt_succ_self _⟩
    · have hq : h.objs q = some o' := by simpa [Heap.new, he] using hq
      exact ⟨(hok.bound hq).1, (hok.bound hq).2.trans (Nat.lt_succ_self _)⟩
  pos := Nat.succ_pos _

/-! ## More references -/

/-- The heap has grown: but for the object at `x` there are new objects only, and references more of
the old ones. -/
structure Grown (x : Ptr) (c : Ptr → ℕ) (h h' : Heap) : Prop where
  old : ∀ {p o}, p ≠ x → h.objs p = some o → h'.objs p = some (o.bump (c p))
  next : h.next ≤ h'.next
  ready : h'.ready = h.ready
  closed : h'.closed = h.closed

namespace Grown

theorem refl (h : Heap) : Grown x (fun _ => 0) h h :=
  ⟨fun _ ho => by rw [ho, Obj.bump_zero], le_rfl, rfl, rfl⟩

/-- What two calls add is the sum. -/
theorem trans (hg : Grown x c h h') (hg' : Grown x d h' h'') :
    Grown x (fun p => c p + d p) h h'' :=
  ⟨fun hp ho => by rw [hg'.old hp (hg.old hp ho), Obj.bump_bump], hg.next.trans hg'.next,
    hg'.ready.trans hg.ready, hg'.closed.trans hg.closed⟩

theorem congr (hg : Grown x c h h') (hc : ∀ p, d p = c p) : Grown x d h h' :=
  ⟨fun hp ho => by rw [hc, hg.old hp ho], hg.next, hg.ready, hg.closed⟩

/-- Nothing is excepted where there is no object. -/
theorem weaken (hg : Grown 0 c h h') (hok : h.Ok) : Grown x c h h' :=
  ⟨fun _ ho => hg.old (Nat.pos_iff_ne_zero.mp (hok.bound ho).1) ho, hg.next, hg.ready, hg.closed⟩

/-- The object at `p` itself may change. -/
theorem modify {f : Obj → Obj} : Grown p (fun _ => 0) h (h.modify p f) :=
  ⟨fun hq ho => by rw [modify_objs_ne hq, ho, Obj.bump_zero], le_rfl, rfl, rfl⟩

/-- A new object is no reference to the others. -/
theorem new (hok : h.Ok) : Grown 0 (fun _ => 0) h (h.new o).2 := by
  refine ⟨fun {q o'} _ ho => ?_, Nat.le_succ _, rfl, rfl⟩
  have hne : q ≠ h.next := (hok.bound ho).2.ne
  simp [Heap.new, hne, ho]

/-- The excepted object is new. -/
theorem drop (hg : Grown x c h h') (hok : h.Ok) (hx : h.next ≤ x) : Grown 0 c h h' :=
  ⟨fun _ ho => hg.old (((hok.bound ho).2.trans_le hx).ne) ho, hg.next, hg.ready, hg.closed⟩

/-- References do not change a node. -/
theorem node (hg : Grown x c h h') (hp : p ≠ x) (ho : h.objs p = some o) :
    h'.view.node p = h.view.node p := by
  simp only [view, hg.old hp ho, ho, Option.bind_some, Obj.bump_wellFormed, Obj.bump_label,
    Obj.bump_ptrs]

/-- What was shared and alive is so still. -/
theorem live (hg : Grown x c h h') (hp : p ≠ x) (hl : h.view.live p) : h'.view.live p := by
  obtain ⟨o, ho, hs⟩ := hl
  exact ⟨_, hg.old hp ho, hs⟩

/-- **Trees stay as they were**. -/
theorem shows (hg : Grown x c h h') (hs : h.view.Shows p t) (hx : x ∉ h.view.owned p t)
    (hcount : t.count x = 0) :
    h'.view.Shows p t ∧ h'.view.owned p t = h.view.owned p t := by
  refine hs.congr (fun q hq => ?_) fun q hq hl => ?_
  · obtain ⟨o, ho, -⟩ := exists_of_owned hs hq
    exact hg.node (fun e => hx (e ▸ hq)) ho
  · exact hg.live (fun e => absurd hcount (e ▸ hq).ne') hl

/-- **Trees stay as they were** where nothing is excepted. -/
theorem keeps (hg : Grown 0 c h h') (hok : h.Ok) (hs : h.view.Shows p t) :
    h'.view.Shows p t ∧ h'.view.owned p t = h.view.owned p t := by
  refine hg.shows hs (fun hx => absurd rfl (hs.node_isSome hx).2) ?_
  by_contra hne
  obtain ⟨o, ho, -⟩ := hs.live (Nat.pos_of_ne_zero hne)
  exact absurd (hok.bound ho).1 (lt_irrefl 0)

end Grown

/-- No tree has an object of one owner among the shared ones. -/
theorem count_eq_zero (hs : h.view.Shows p t) (ho : h.objs x = some o) (hw : o.WellFormed) :
    t.count x = 0 := by
  by_contra hne
  obtain ⟨o', ho', hshared⟩ := hs.live (Nat.pos_of_ne_zero hne)
  obtain rfl := Option.some.inj (ho.symm.trans ho')
  exact hw.not_shared hshared

end Heap

end Mobile

end Tvm

end Kroc
