import Kroc.Tvm.MobileTree

/-!
# Tvm/MobileClone — a clone is a deep copy

`mt_clone` makes new arrays and new data, and counts one more reference to each bundle and barrier
for each place it has in the tree.  The induction is over the tree; the loop of an array has its
own, over the elements that are left.
-/

open Finset (range)

namespace Kroc

namespace Tvm

namespace Mobile

open Ectx (Ret)

open Owned (Tree View)

open Ccsp.Mobile (mtType mtSimple mtArrayDim mtBarrierType elemType)

namespace Heap

variable {h h' : Heap} {p q ret x dst src : Ptr} {o od os : Obj} {t : Tree Ptr Label} {fuel : ℕ}
  {kids : ℕ → Tree Ptr Label} {clone : Heap → Ptr → Ptr → Option (Ret × Ptr × Heap)}

/-- The full barriers can take so many more. -/
def Room (h : Heap) (c : Ptr → ℕ) : Prop :=
  ∀ b o, 0 < c b → h.objs b = some o → o.FullBarrier → o.enrolled.toNat + c b < 2 ^ 32

/-- What a clone comes to. -/
structure Copied (h : Heap) (t : Tree Ptr Label) (q : Ptr) (h' : Heap) : Prop where
  ok : h'.Ok
  grown : Grown 0 (t.count ·) h h'
  shows : h'.view.Shows q t
  fresh : ∀ x ∈ h'.view.owned q t, h.next ≤ x

/-- What the call does with a tree. -/
def Clones (clone : Heap → Ptr → Ptr → Option (Ret × Ptr × Heap)) (t : Tree Ptr Label) : Prop :=
  ∀ {h : Heap} {p ret : Ptr}, h.Ok → h.view.Shows p t → p ≠ 0 → Room h (t.count ·) →
    (∀ o, h.objs p = some o → o.FullBarrier → ret = p) →
    ∃ q h', clone h p ret = some (.cont, q, h') ∧ Copied h t q h'

theorem Room.mono {c d : Ptr → ℕ} (hr : Room h c) (hle : ∀ p, d p ≤ c p) : Room h d := by
  intro b o hpos ho hfull
  have hroom := hr b o (hpos.trans_le (hle b)) ho hfull
  exact (Nat.add_le_add_left (hle b) _).trans_lt hroom

theorem Room.grown {c d : Ptr → ℕ} (hr : Room h fun p => c p + d p) (hg : Grown x c h h')
    (hx : x ≠ 0 → ∃ o, h'.objs x = some o ∧ ¬ o.FullBarrier) (hok : h'.Ok)
    (hlive : ∀ b, 0 < d b → h.view.live b) : Room h' d := by
  intro b o' hpos ho' hfull
  have hne : b ≠ x := by
    rintro rfl
    have hb : b ≠ 0 := (Nat.pos_iff_ne_zero.mp (hok.bound ho').1)
    obtain ⟨o, ho, hnot⟩ := hx hb
    exact hnot (Option.some.inj (ho.symm.trans ho') ▸ hfull)
  obtain ⟨o, ho, -⟩ := hlive b hpos
  obtain rfl : o.bump (c b) = o' := Option.some.inj ((hg.old hne ho).symm.trans ho')
  have hfull : o.FullBarrier := hfull
  have hroom : o.enrolled.toNat + (c b + d b) < 2 ^ 32 := hr b o (Nat.add_pos_right _ hpos) ho hfull
  rw [Obj.bump_of_full hfull]
  dsimp only
  rw [BitVec.toNat_add, BitVec.toNat_ofNat, Nat.add_mod_mod, Nat.mod_eq_of_lt (by omega)]
  omega

theorem elem_eq {i : ℕ} (ho : h.objs src = some o) : h.elem src i = o.elems.getD i 0 := by
  simp [elem, ho]

/-! ## The loop of an array -/

/-- Where the loop of `mt_clone_array` stands: `n` elements are left, behind those before `i`. -/
structure Midway (src dst : Ptr) (os od : Obj) (done left : List Ptr) (kids : ℕ → Tree Ptr Label)
    (n i : ℕ) (h : Heap) : Prop where
  ok : h.Ok
  srcObj : h.objs src = some os
  dstObj : h.objs dst = some { od with elems := done ++ left }
  array : ∀ elems : List ℕ, elems.length = i + n → ({ od with elems := elems } : Obj).WellFormed
  source : os.WellFormed
  ne : src ≠ dst
  lengthDone : done.length = i
  lengthLeft : left.length = n
  elems : ∀ j < n, h.view.Shows (os.elems.getD (i + j) 0) (kids (i + j)) ∧
    dst ∉ h.view.owned (os.elems.getD (i + j) 0) (kids (i + j))

/-- What the loop comes to: the elements `qs`. -/
structure Filled (dst : Ptr) (od : Obj) (done : List Ptr) (kids : ℕ → Tree Ptr Label)
    (n i : ℕ) (h : Heap) (qs : List Ptr) (h' : Heap) : Prop where
  ok : h'.Ok
  length : qs.length = n
  grown : Grown dst (fun p => ∑ j ∈ range n, (kids (i + j)).count p) h h'
  dstObj : h'.objs dst = some { od with elems := done ++ qs }
  shows : ∀ j (hj : j < qs.length), h'.view.Shows qs[j] (kids (i + j)) ∧
    ∀ x ∈ h'.view.owned qs[j] (kids (i + j)), h.next ≤ x
  apart : ∀ j k (hj : j < qs.length) (hk : k < qs.length), j ≠ k →
    Disjoint (h'.view.owned qs[j] (kids (i + j))) (h'.view.owned qs[k] (kids (i + k)))

theorem set_at (done : List Ptr) (r q : Ptr) (left : List Ptr) :
    (done ++ r :: left).set done.length q = (done ++ [q]) ++ left := by
  simp

variable {done left : List Ptr} {n i : ℕ}

theorem Midway.dst_wellFormed (hm : Midway src dst os od done left kids n i h) :
    ({ od with elems := done ++ left } : Obj).WellFormed :=
  hm.array _ (by rw [List.length_append, hm.lengthDone, hm.lengthLeft])

/-- One turn, after the element is cloned, or is null. -/
theorem Midway.next {r : Ptr} {left : List Ptr}
    (hm : Midway src dst os od done (r :: left) kids (n + 1) i h)
    (hok : h'.Ok) (hg : Grown 0 ((kids i).count ·) h h') (q : Ptr) :
    Midway src dst os od (done ++ [q]) left kids n (i + 1) (h'.setElem dst i q) ∧
      Grown dst ((kids i).count ·) h (h'.setElem dst i q) := by
  have hd : dst ≠ 0 := Nat.pos_iff_ne_zero.mp (hm.ok.bound hm.dstObj).1
  have hs : src ≠ 0 := Nat.pos_iff_ne_zero.mp (hm.ok.bound hm.srcObj).1
  have hzero : (kids i).count dst = 0 := count_eq_zero (hm.elems 0 n.succ_pos).1 hm.dstObj
    hm.dst_wellFormed
  have hzero' : (kids i).count src = 0 :=
    count_eq_zero (hm.elems 0 n.succ_pos).1 hm.srcObj hm.source
  have hdst : h'.objs dst = some { od with elems := done ++ r :: left } := by
    rw [hg.old hd hm.dstObj, hzero, Obj.bump_zero]
  have hgrown : Grown dst ((kids i).count ·) h (h'.setElem dst i q) :=
    ((hg.weaken hm.ok).trans .modify).congr fun _ => (Nat.add_zero _).symm
  refine ⟨⟨hok.modify, ?_, ?_, ?_, hm.source, hm.ne, by simp [hm.lengthDone],
    Nat.succ.inj hm.lengthLeft, fun j hj => ?_⟩, hgrown⟩
  · rw [hgrown.old hm.ne hm.srcObj, hzero', Obj.bump_zero]
  · rw [setElem_objs hdst]
    dsimp only
    rw [← hm.lengthDone, set_at]
  · intro elems hlen
    exact hm.array elems (by omega)
  · have hj' : j + 1 < n + 1 := Nat.succ_lt_succ hj
    obtain ⟨hshow, hnot⟩ := hm.elems (j + 1) hj'
    rw [← Nat.add_assoc, Nat.add_right_comm] at hshow hnot
    have hcount : (kids (i + 1 + j)).count dst = 0 :=
      count_eq_zero hshow hm.dstObj hm.dst_wellFormed
    obtain ⟨hshow', howned⟩ := hgrown.shows hshow hnot hcount
    exact ⟨hshow', howned ▸ hnot⟩

/-- **The loop of an array** clones each element. -/
theorem cloneElems_spec {od : Obj} {done left : List Ptr}
    (hclone : ∀ j < n, Clones clone (kids (i + j)))
    (hm : Midway src dst os od done left kids n i h)
    (hroom : Room h fun p => ∑ j ∈ range n, (kids (i + j)).count p) :
    ∃ qs h', cloneElems clone src dst n i h = some (.cont, h') ∧
      Filled dst od done kids n i h qs h' := by
  induction n generalizing i h done left with
  | zero =>
    obtain rfl : left = [] := List.eq_nil_of_length_eq_zero hm.lengthLeft
    exact ⟨[], h, rfl, hm.ok, rfl, (Grown.refl h).congr fun _ => rfl, hm.dstObj,
      fun j hj => absurd hj (Nat.not_lt_zero j), fun j _ hj => absurd hj (Nat.not_lt_zero j)⟩
  | succ n ih =>
    obtain ⟨r, left, rfl⟩ : ∃ r l, left = r :: l :=
      List.exists_cons_of_length_eq_add_one hm.lengthLeft
    have helem : h.elem src i = os.elems.getD i 0 := elem_eq hm.srcObj
    have hshow : h.view.Shows (h.elem src i) (kids i) := by
      rw [helem]
      exact (hm.elems 0 n.succ_pos).1
    have hsum : ∀ p, ∑ j ∈ range (n + 1), (kids (i + j)).count p =
        (kids i).count p + ∑ j ∈ range n, (kids (i + 1 + j)).count p := by
      intro p
      rw [Finset.sum_range_succ', Nat.add_comm, Nat.add_zero]
      exact congrArg _ (Finset.sum_congr rfl fun j _ => by rw [Nat.add_right_comm, Nat.add_assoc])
    replace hroom : Room h fun p =>
        (kids i).count p + ∑ j ∈ range n, (kids (i + 1 + j)).count p := by
      simpa only [hsum] using hroom
    -- the element comes to `q`, in `h₁`
    obtain ⟨q, h₁, hstep, hcopied⟩ : ∃ q h₁, cloneElems clone src dst (n + 1) i h =
        cloneElems clone src dst n (i + 1) (h₁.setElem dst i q) ∧ Copied h (kids i) q h₁ := by
      by_cases hzero : h.elem src i = 0
      · have hnull : kids i = .null := shows_zero_iff.mp (hzero ▸ hshow)
        refine ⟨0, h, ?_, hm.ok, ?_, hnull ▸ rfl, ?_⟩
        · rw [cloneElems]
          dsimp only
          rw [hzero, if_neg (by simp)]
        · exact (Grown.refl h).congr fun _ => by rw [hnull]; rfl
        · rw [hnull]
          exact fun x hx => absurd hx (Set.notMem_empty x)
      · have hroom₀ : Room h ((kids i).count ·) := hroom.mono fun p => Nat.le_add_right _ _
        obtain ⟨q, h₁, hcall, hc⟩ := hclone 0 n.succ_pos hm.ok hshow hzero hroom₀ fun _ _ _ => rfl
        refine ⟨q, h₁, ?_, hc⟩
        rw [cloneElems]
        dsimp only
        rw [if_pos hzero, hcall]
        rfl
    obtain ⟨hnext, hgrown⟩ := hm.next hcopied.ok hcopied.grown q
    have hroom₁ : Room (h₁.setElem dst i q) fun p => ∑ j ∈ range n, (kids (i + 1 + j)).count p := by
      refine hroom.grown hgrown (fun _ => ⟨_, hnext.dstObj, ?_⟩) hnext.ok fun b hb => ?_
      · exact fun hf => hnext.dst_wellFormed.not_shared ⟨hnext.dst_wellFormed.1, .inr hf.1⟩
      · obtain ⟨j, hj, hpos⟩ : ∃ j ∈ range n, 0 < (kids (i + 1 + j)).count b :=
          Finset.exists_lt_of_sum_lt (by simpa using hb)
        have hj' : j + 1 < n + 1 := Nat.succ_lt_succ (Finset.mem_range.mp hj)
        obtain ⟨hshow, -⟩ := hm.elems (j + 1) hj'
        rw [← Nat.add_assoc, Nat.add_right_comm] at hshow
        exact hshow.live hpos
    obtain ⟨qs, h', hrest, hfilled⟩ := ih (fun j hj => by
      rw [Nat.add_right_comm, Nat.add_assoc]
      exact hclone (j + 1) (Nat.succ_lt_succ hj)) hnext hroom₁
    have hne : dst < h.next := (hm.ok.bound hm.dstObj).2
    -- the first element is as it was after its clone
    have hdst : dst ∉ h₁.view.owned q (kids i) := fun hx =>
      absurd (hcopied.fresh dst hx) (Nat.not_le.mpr hne)
    have hcount : (kids i).count dst = 0 :=
      count_eq_zero (hm.elems 0 n.succ_pos).1 hm.dstObj hm.dst_wellFormed
    obtain ⟨hfirst, howned⟩ :=
      ((Grown.modify (p := dst)).trans hfilled.grown).shows hcopied.shows hdst hcount
    have hlt : ∀ y ∈ h₁.view.owned q (kids i), y < h₁.next := by
      intro y hy
      obtain ⟨o, ho, -⟩ := exists_of_owned hcopied.shows hy
      exact (hcopied.ok.bound ho).2
    refine ⟨q :: qs, h', hstep.trans hrest, hfilled.ok, by simp [hfilled.length],
      (hgrown.trans hfilled.grown).congr hsum, ?_, ?_, ?_⟩
    · rw [hfilled.dstObj, List.append_assoc]
      rfl
    · rintro (_ | j) hj
      · exact ⟨hfirst, fun x hx => hcopied.fresh x (howned ▸ hx)⟩
      · obtain ⟨hs, hf⟩ := hfilled.shows j (Nat.lt_of_succ_lt_succ hj)
        rw [Nat.add_right_comm, Nat.add_assoc] at hs hf
        exact ⟨hs, fun x hx => hgrown.next.trans (hf x hx)⟩
    · have hsplit : ∀ k (hk : k < qs.length),
          Disjoint (h'.view.owned q (kids i)) (h'.view.owned qs[k] (kids (i + 1 + k))) := by
        intro k hk
        refine Set.disjoint_left.mpr fun x hx hx' => ?_
        exact absurd (hlt x (howned ▸ hx)) (Nat.not_lt.mpr ((hfilled.shows k hk).2 x hx'))
      rintro (_ | j) (_ | k) hj hk hjk
      · exact absurd rfl hjk
      · have := hsplit k (Nat.lt_of_succ_lt_succ hk)
        rwa [Nat.add_right_comm, Nat.add_assoc] at this
      · have := (hsplit j (Nat.lt_of_succ_lt_succ hj)).symm
        rwa [Nat.add_right_comm, Nat.add_assoc] at this
      · have := hfilled.apart j k (Nat.lt_of_succ_lt_succ hj) (Nat.lt_of_succ_lt_succ hk)
          fun e => hjk (congrArg Nat.succ e)
        rwa [Nat.add_right_comm, Nat.add_assoc, Nat.add_right_comm i 1 k,
          Nat.add_assoc i k 1] at this

/-! ## The call -/

theorem setRefCount_bump (ho : h.objs p = some o) (hf : ¬ o.FullBarrier) :
    h.setRefCount p (o.refCount + 1) = h.modify p (·.bump 1) := by
  rw [setRefCount, modify_eq_set ho, modify_eq_set ho, Obj.bump_of_not_full hf]
  rfl

/-- A full barrier counts one more reference and enrols one more process. -/
theorem barEnroll_bump (ho : h.objs p = some o) (hf : o.FullBarrier)
    (hroom : o.enrolled.toNat + 1 < 2 ^ 32) :
    (h.setRefCount p (o.refCount + 1)).barEnroll p 1 = some (.cont, h.modify p (·.bump 1)) := by
  have hlt : ¬ o.enrolled + 1 < o.enrolled := by
    rw [BitVec.lt_def, BitVec.toNat_add, show (1 : Word).toNat = 1 from rfl,
      Nat.mod_eq_of_lt hroom]
    exact Nat.not_lt.mpr (Nat.le_succ _)
  unfold barEnroll
  rw [setRefCount, modify_objs ho, Option.map_some]
  dsimp only
  rw [if_neg hlt, modify_eq_set ho, set_set, modify_eq_set ho, Obj.bump_of_full hf]
  rfl

/-- One more reference. -/
theorem copied_bump (hok : h.Ok) (hs : h.view.Shows p (.shared p)) :
    Copied h (.shared p) p (h.modify p (·.bump 1)) := by
  have hne : p ≠ 0 := hs.2.1
  have hg : Grown 0 ((Tree.shared p : Tree Ptr Label).count ·) h (h.modify p (·.bump 1)) := by
    refine ⟨fun {q o} _ ho => ?_, le_rfl, rfl, rfl⟩
    by_cases hq : p = q
    · subst hq
      simp [modify_objs ho, Tree.count]
    · simp [modify_objs_ne (Ne.symm hq), ho, Tree.count, hq]
  obtain ⟨hshow, -⟩ := hg.shows hs (Set.notMem_empty 0) (by simp [Tree.count, hne])
  exact ⟨hok.modify, hg, hshow, fun x hx => absurd hx (Set.notMem_empty x)⟩

theorem mtClone_shared (hok : h.Ok) (hs : h.view.Shows p (.shared p))
    (hroom : Room h ((Tree.shared p : Tree Ptr Label).count ·))
    (hret : ∀ o, h.objs p = some o → o.FullBarrier → ret = p) :
    ∃ q h', h.mtClone (fuel + 1) p ret = some (.cont, q, h') ∧ Copied h (.shared p) q h' := by
  obtain ⟨-, -, o, ho, hsimple, hkind⟩ := id hs
  refine ⟨p, h.modify p (·.bump 1), ?_, copied_bump hok hs⟩
  rw [mtClone, ho]
  dsimp only
  rw [if_pos hsimple]
  rcases hkind with hk | hk
  · have hnot : ¬ o.FullBarrier := fun hf => by
      rw [Obj.FullBarrier, hk] at hf
      exact absurd hf.1 (by decide)
    rw [hk]
    dsimp only
    rw [setRefCount_bump ho hnot]
  · rw [hk]
    dsimp only
    by_cases hz : mtBarrierType o.type = 0
    · have hf : o.FullBarrier := ⟨hk, hz⟩
      have hroom := hroom p o (by simp [Tree.count]) ho hf
      simp only [Tree.count, if_true] at hroom
      rw [if_pos hz, barEnroll_bump ho hf hroom, Option.map_some, hret o ho hf]
    · rw [if_neg hz, setRefCount_bump ho fun hf => hz hf.2]

/-- A new object, and what is then written to it. -/
theorem grown_new (hok : h.Ok) {f : Obj → Obj} :
    ((h.new o).2.modify h.next f).Ok ∧
      Grown 0 (fun _ => 0) h ((h.new o).2.modify h.next f) ∧
      ((h.new o).2.modify h.next f).objs h.next = some (f o) := by
  refine ⟨hok.new.modify, ?_, modify_objs (by simp [Heap.new])⟩
  exact ((((Grown.new hok).weaken hok).trans .modify).drop hok le_rfl).congr fun _ => rfl

/-- An object without pointers is copied. -/
theorem copied_leaf {label : Label} (hg : Grown 0 (fun _ => 0) h h') (hok' : h'.Ok)
    (ho : h'.objs h.next = some o) (hw : o.WellFormed) (hl : o.label = label) (hp : o.ptrs = []) :
    Copied h (.node label 0 kids) h.next h' := by
  have hnode : h'.view.node h.next = some (label, []) := by
    rw [node_of_objs ho hw, hl, hp]
  refine ⟨hok', hg.congr fun _ => rfl, ?_, fun x hx => ?_⟩
  · exact Owned.View.Shows.of_kids (hok'.bound ho).1.ne' hnode
      (fun i hi => absurd hi (Nat.not_lt_zero i)) fun i _ hi => absurd hi (Nat.not_lt_zero i)
  · rcases Owned.View.mem_owned_node.mp hx with rfl | ⟨i, hi, -⟩
    · exact le_rfl
    · exact absurd hi (Nat.not_lt_zero i)

theorem mtClone_data (hok : h.Ok) (ho : h.objs p = some o) (hw : o.WellFormed)
    (hk : mtType o.type = .data) :
    ∃ q h', h.mtClone (fuel + 1) p ret = some (.cont, q, h') ∧
      Copied h (.node o.label 0 kids) q h' := by
  obtain ⟨hsimple, hlen, hbytes, hdims⟩ := (Obj.wellFormed_data hk).mp hw
  obtain ⟨hok', hg, hobj⟩ := grown_new (f := fun o' => { o' with elems := o.elems.take o.size })
    (o := ⟨o.type, 0, 0, 0, [], 0, o.size, [], .null, .null, h.fresh o.size⟩) hok
  have htake : o.elems.take o.size = o.elems := List.take_of_length_le hlen.le
  refine ⟨h.next, _, ?_, copied_leaf hg hok' hobj ?_ ?_ ?_⟩
  · rw [mtClone, ho]
    dsimp only
    rw [if_pos hsimple, hk]
    dsimp only
    rw [mtAllocData, if_pos hbytes]
    rfl
  · refine (Obj.wellFormed_data (by exact hk)).mpr ⟨hsimple, ?_, hbytes, rfl⟩
    rw [htake, hlen]
  · exact Obj.label_congr rfl rfl hdims.symm htake
  · simp [Obj.ptrs, Obj.HoldsPtrs, hk]

theorem mtClone_numbers (hok : h.Ok) (ho : h.objs p = some o) (hw : o.WellFormed)
    (hk : mtType o.type = .array) (hnum : mtType (elemType o.type) = .num) :
    ∃ q h', h.mtClone (fuel + 1) p ret = some (.cont, q, h') ∧
      Copied h (.node o.label 0 kids) q h' := by
  obtain ⟨hsimple, hlen, hbytes, hdims⟩ := (Obj.wellFormed_array hk).mp hw
  rw [if_pos hnum] at hlen
  have htake : o.elems.take (o.size <<< sizeShift o.type) = o.elems :=
    List.take_of_length_le hlen.le
  have htake' : o.dimensions.take (mtArrayDim o.type) = o.dimensions :=
    List.take_of_length_le hdims.le
  obtain ⟨hok', hg, hobj⟩ := grown_new
    (f := fun o' => { o' with dimensions := o.dimensions, elems := o.elems })
    (o := h.arrayObj o.type o.size false) hok
  refine ⟨h.next, _, ?_, copied_leaf hg hok' hobj ?_ ?_ ?_⟩
  · rw [mtClone, ho]
    dsimp only
    rw [if_pos hsimple, hk]
    dsimp only
    rw [mtAllocArrayInt, if_pos hbytes, Option.bind_some]
    dsimp only [new]
    rw [if_pos hnum, htake, htake', setElems, setDimensions, modify_modify]
  · refine (Obj.wellFormed_array (by exact hk)).mpr ⟨hsimple, ?_, hbytes, hdims⟩
    exact hlen.trans (if_pos hnum).symm
  · exact Obj.label_congr rfl rfl rfl rfl
  · simp [Obj.ptrs, Obj.HoldsPtrs, arrayObj, hnum]

theorem mtClone_array (hok : h.Ok) (ho : h.objs p = some o) (hw : o.WellFormed)
    (hptrs : o.HoldsPtrs) (hs : h.view.Shows p (.node o.label o.elems.length kids))
    (hclone : ∀ j < o.elems.length, Clones (mtClone fuel) (kids j))
    (hroom : Room h fun p => ∑ j ∈ range o.elems.length, (kids j).count p) :
    ∃ q h', h.mtClone (fuel + 1) p ret = some (.cont, q, h') ∧
      Copied h (.node o.label o.elems.length kids) q h' := by
  obtain ⟨hk, hnum⟩ := hptrs
  obtain ⟨hsimple, hlen, hbytes, hdims⟩ := (Obj.wellFormed_array hk).mp hw
  rw [if_neg hnum] at hlen
  have htake : o.dimensions.take (mtArrayDim o.type) = o.dimensions :=
    List.take_of_length_le hdims.le
  -- the new array, with its dimensions
  obtain ⟨hok₁, hg₁, hobj₁⟩ := grown_new (f := fun o' => { o' with dimensions := o.dimensions })
    (o := h.arrayObj o.type o.size false) hok
  generalize hh₁ : (h.new (h.arrayObj o.type o.size false)).2.modify h.next
    (fun o' => { o' with dimensions := o.dimensions }) = h₁ at hok₁ hg₁ hobj₁
  let od : Obj := { h.arrayObj o.type o.size false with dimensions := o.dimensions }
  have hfresh : od.elems.length = o.elems.length := by
    simp [od, arrayObj, hnum, fresh, hlen]
  have harray : ∀ elems : List ℕ, elems.length = o.elems.length →
      ({ od with elems := elems } : Obj).WellFormed := by
    intro elems he
    refine (Obj.wellFormed_array (by exact hk)).mpr ⟨hsimple, ?_, hbytes, hdims⟩
    exact (he.trans hlen).trans (if_neg hnum).symm
  have hold : ∀ {x}, x ∈ h.view.owned p (.node o.label o.elems.length kids) → x < h.next := by
    intro x hx
    obtain ⟨o', ho', -⟩ := exists_of_owned hs hx
    exact (hok.bound ho').2
  have hkid : ∀ j < o.elems.length, h.view.kid p j = o.elems.getD j 0 := by
    intro j hj
    have hps : h.view.node p = some (o.label, o.elems) := by
      rw [node_of_objs ho hw, Obj.ptrs, if_pos ⟨hk, hnum⟩]
    rw [Owned.View.kid_eq hps hj]
    simp [hj]
  have hkids : ∀ j < o.elems.length, h₁.view.Shows (o.elems.getD j 0) (kids j) ∧
      h.next ∉ h₁.view.owned (o.elems.getD j 0) (kids j) := by
    intro j hj
    rw [← hkid j hj]
    have hnot : h.next ∉ h.view.owned (h.view.kid p j) (kids j) := fun hx =>
      absurd (hold (Owned.View.mem_owned_node.mpr (.inr ⟨j, hj, hx⟩))) (lt_irrefl _)
    obtain ⟨hshow, howned⟩ := hg₁.keeps hok (hs.kid hj)
    exact ⟨hshow, howned ▸ hnot⟩
  have hm : Midway p h.next o od [] od.elems kids o.elems.length 0 h₁ :=
    ⟨hok₁, by simpa using hg₁.old (hok.bound ho).1.ne' ho, hobj₁, fun elems he =>
      harray elems (he.trans (Nat.zero_add _)), hw, (hok.bound ho).2.ne, rfl, hfresh, fun j hj => by
        rw [Nat.zero_add]
        exact hkids j hj⟩
  have hroom₁ : Room h₁ fun p => ∑ j ∈ range o.elems.length, (kids (0 + j)).count p := by
    simp only [Nat.zero_add]
    refine Room.grown (h := h) (hroom.mono fun p => (Nat.zero_add _).le) hg₁ (fun e => absurd rfl e)
      hok₁ fun b hb => ?_
    exact hs.live hb
  obtain ⟨qs, h', hloop, hfilled⟩ :=
    cloneElems_spec (fun j hj => by rw [Nat.zero_add]; exact hclone j hj) hm hroom₁
  have hlength : qs.length = o.elems.length := hfilled.length
  have hnode : h'.view.node h.next = some (o.label, qs) := by
    rw [node_of_objs hfilled.dstObj (harray _ (by simpa using hlength)), Obj.ptrs,
      if_pos (by exact ⟨hk, hnum⟩)]
    refine congrArg some (Prod.ext ?_ rfl)
    have hq : ({ od with elems := [] ++ qs } : Obj).HoldsPtrs := ⟨hk, hnum⟩
    simp only [Obj.label, if_pos hq, if_pos (show o.HoldsPtrs from ⟨hk, hnum⟩)]
    rfl
  have hnext : h.next < h₁.next := (hok₁.bound hobj₁).2
  have hnew : (h.new (h.arrayObj o.type o.size false)).1 = h.next := rfl
  refine ⟨h.next, h', ?_, hfilled.ok, ?_, ?_, fun x hx => ?_⟩
  · rw [mtClone, ho]
    dsimp only
    rw [if_pos hsimple, hk]
    dsimp only
    rw [mtAllocArrayInt, if_pos hbytes, Option.bind_some]
    rw [hlen] at hloop
    change (if _ then _ else _) = _
    rw [if_neg hnum, htake, setDimensions, hnew, hh₁, hloop]
    rfl
  · refine (((hg₁.weaken hok).trans hfilled.grown).drop hok le_rfl).congr fun q => ?_
    simp [Tree.count]
  · rw [← hlength]
    refine Owned.View.Shows.of_kids (hok₁.bound hobj₁).1.ne' hnode (fun i hi => ⟨?_, fun hx => ?_⟩)
      fun i j hi hj hij => ?_
    · simpa using (hfilled.shows i hi).1
    · exact absurd ((hfilled.shows i hi).2 _ (by simpa using hx)) (Nat.not_le.mpr hnext)
    · simpa using hfilled.apart i j hi hj hij
  · rcases Owned.View.mem_owned_node.mp hx with rfl | ⟨i, hi, hx⟩
    · exact le_rfl
    · have hi' : i < qs.length := hlength ▸ hi
      rw [Owned.View.kid_eq hnode hi'] at hx
      exact hnext.le.trans ((hfilled.shows i hi').2 x (by simpa using hx))

/-- **A clone of what the heap shows** is made, with fuel for how deep it is nested. -/
theorem mtClone_clones (hfuel : t.depth < fuel) : Clones (mtClone fuel) t := by
  induction t generalizing fuel with
  | null => exact fun _ hs hp => absurd hs hp
  | shared q =>
    obtain ⟨fuel, rfl⟩ := Nat.exists_eq_succ_of_ne_zero (Nat.ne_of_gt hfuel)
    intro h p ret hok hs _ hroom hret
    obtain rfl : p = q := hs.1
    exact mtClone_shared hok hs hroom hret
  | node label n kids ih =>
    obtain ⟨fuel, rfl⟩ := Nat.exists_eq_succ_of_ne_zero (Nat.ne_zero_of_lt hfuel)
    intro h p ret hok hs _ hroom _
    obtain ⟨ps, hps, rfl⟩ := hs.2.1
    obtain ⟨o, ho, hw, rfl, rfl⟩ := exists_of_node hps
    by_cases hptrs : o.HoldsPtrs
    · have he : o.ptrs = o.elems := if_pos hptrs
      rw [he] at hs hroom hfuel ⊢
      exact mtClone_array hok ho hw hptrs hs
        (fun j hj => ih j (Nat.lt_of_lt_of_le (Tree.depth_lt hj) (Nat.le_of_lt_succ hfuel))) hroom
    · have he : o.ptrs = [] := if_neg hptrs
      rw [he]
      rcases hw.kind with hk | hk
      · exact mtClone_numbers hok ho hw hk (not_not.mp fun hn => hptrs ⟨hk, hn⟩)
      · exact mtClone_data hok ho hw hk

theorem cloneElems_mono {clone' : Heap → Ptr → Ptr → Option (Ret × Ptr × Heap)}
    (hle : ∀ {h p ret r}, clone h p ret = some r → clone' h p ret = some r) {n i : ℕ}
    {r : Ret × Heap} (hr : cloneElems clone src dst n i h = some r) :
    cloneElems clone' src dst n i h = some r := by
  induction n generalizing i h with
  | zero => exact hr
  | succ n ih =>
    rw [cloneElems] at hr ⊢
    dsimp only at hr ⊢
    split_ifs at hr ⊢
    · obtain ⟨⟨eret, q, h₁⟩, hc, hr⟩ := Option.bind_eq_some_iff.mp hr
      rw [hle hc, Option.bind_some]
      dsimp only at hr ⊢
      split_ifs at hr ⊢
      · exact hr
      · exact ih hr
    · exact ih hr

/-- More fuel does not change what a clone comes to. -/
theorem mtClone_mono {r : Ret × Ptr × Heap} (hr : mtClone fuel h p ret = some r) :
    mtClone (fuel + 1) h p ret = some r := by
  induction fuel generalizing h p ret r with
  | zero => exact absurd hr (by simp [mtClone])
  | succ fuel ih =>
    rw [mtClone] at hr ⊢
    cases ho : h.objs p with
    | none => simp [ho] at hr
    | some o =>
      rw [ho] at hr
      dsimp only at hr ⊢
      by_cases hsimple : mtSimple o.type = true
      · rw [if_pos hsimple] at hr ⊢
        cases hk : mtType o.type <;> rw [hk] at hr <;> dsimp only at hr ⊢
        case array =>
          obtain ⟨⟨dst, h₁⟩, ha, hr⟩ := Option.bind_eq_some_iff.mp hr
          rw [ha, Option.bind_some]
          dsimp only at hr ⊢
          by_cases hnum : mtType (elemType o.type) = .num
          · rwa [if_pos hnum] at hr ⊢
          · rw [if_neg hnum] at hr ⊢
            obtain ⟨x, hx, rfl⟩ := Option.map_eq_some_iff.mp hr
            rw [cloneElems_mono ih hx, Option.map_some]
        all_goals exact hr
      · rwa [if_neg hsimple] at hr ⊢

theorem ret_of_fullBarrier (ho : h.objs p = some o) (hf : o.FullBarrier)
    (hcall : mtClone (fuel + 1) h p ret = some (.cont, q, h')) : q = ret := by
  rw [mtClone, ho] at hcall
  dsimp only at hcall
  by_cases hsimple : mtSimple o.type = true
  · rw [if_pos hsimple, hf.1] at hcall
    dsimp only at hcall
    rw [if_pos hf.2] at hcall
    obtain ⟨x, -, hx⟩ := Option.map_eq_some_iff.mp hcall
    exact (Prod.mk.inj (Prod.mk.inj hx).2).1.symm
  · rw [if_neg hsimple] at hcall
    exact absurd (Prod.mk.inj (Option.some.inj hcall)).1 (by decide)

/-- A bundle or a barrier is where its tree hangs. -/
theorem shows_shared (hs : h.view.Shows p t) (ho : h.objs p = some o) (hf : o.FullBarrier)
    (hs' : h'.view.Shows q t) : q = p := by
  cases t with
  | null => exact hs'.trans hs.symm
  | shared b => exact hs'.1.trans hs.1.symm
  | node label n kids =>
    obtain ⟨ps, hps, -⟩ := hs.2.1
    obtain ⟨o', ho', hw, -⟩ := exists_of_node hps
    obtain rfl := Option.some.inj (ho.symm.trans ho')
    exact absurd ⟨hw.1, .inr hf.1⟩ hw.not_shared

/-! ## A faithful copy -/

/-- An object with so many more references, where the counters have room. -/
structure Counted (k : ℕ) (o o' : Obj) : Prop where
  same : { o' with refCount := o.refCount, enrolled := o.enrolled, count := o.count } = o
  refCount : o'.refCount.toNat = o.refCount.toNat + k
  enrolled : o'.enrolled.toNat = o.enrolled.toNat + if o.FullBarrier then k else 0
  count : o'.count = o.count + BitVec.ofNat 32 (if o.FullBarrier then k else 0)

/-- **A faithful copy** of the tree at `p` is made at `q`, and pushed: new arrays and new data with
what the old ones have, the bundles and barriers themselves with one reference more for each place
they have, and nothing else is changed. -/
structure Cloned (h : Heap) (p ret : Ptr) (t : Tree Ptr Label) (q : Ptr) (h' : Heap) : Prop where
  clone : Returns (fun fuel => h.mtClone fuel p ret) (.cont, q, h')
  ins : Returns (fun fuel => h.insMtClone fuel p ret) (.cont, q, h')
  shows : h'.view.Shows q t
  fresh : ∀ x ∈ h'.view.owned q t, h.objs x = none
  old : ∀ x o, h.objs x = some o → ∃ o', h'.objs x = some o' ∧ Counted (t.count x) o o'
  source : h'.view.Shows p t

/-- The counters of an object have room for so many more. -/
def Obj.HasRoom (o : Obj) (k : ℕ) : Prop :=
  o.refCount.toNat + k < 2 ^ 32 ∧ (o.FullBarrier → o.enrolled.toNat + k < 2 ^ 32)

theorem counted_bump {k : ℕ} (hroom : Obj.HasRoom o k) : Counted k o (o.bump k) := by
  have hnat : ∀ w : Word, w.toNat + k < 2 ^ 32 → (w + BitVec.ofNat 32 k).toNat = w.toNat + k := by
    intro w hw
    rw [BitVec.toNat_add, BitVec.toNat_ofNat, Nat.add_mod_mod, Nat.mod_eq_of_lt hw]
  by_cases hf : o.FullBarrier
  · rw [Obj.bump_of_full hf]
    exact ⟨rfl, hnat _ hroom.1, by rw [if_pos hf]; exact hnat _ (hroom.2 hf), by rw [if_pos hf]⟩
  · rw [Obj.bump_of_not_full hf]
    exact ⟨rfl, hnat _ hroom.1, by rw [if_neg hf]; rfl, by rw [if_neg hf]; simp⟩

theorem Counted.hasRoom {k : ℕ} {o' : Obj} (hc : Counted k o o') : Obj.HasRoom o k := by
  refine ⟨hc.refCount ▸ o'.refCount.isLt, fun hf => ?_⟩
  have henr := hc.enrolled
  rw [if_pos hf] at henr
  exact henr ▸ o'.enrolled.isLt

/-- The variable for the pointer is left alone where the object is a full barrier. -/
theorem Cloned.ret_eq (hc : Cloned h p ret t q h') (hs : h.view.Shows p t) (ho : h.objs p = some o)
    (hf : o.FullBarrier) : ret = p := by
  obtain ⟨k, hk⟩ := hc.clone
  exact (ret_of_fullBarrier ho hf (hk (k + 1) (Nat.le_succ k))).symm.trans
    (shows_shared hs ho hf hc.shows)

/-- **A clone is a faithful copy** if and only if the object is not itself a full barrier, or the
variable for the pointer happens to hold the pointer already, and no counter wraps round. -/
theorem mt_clone_faithful (hok : h.Ok) (hs : h.view.Shows p t) (hp : p ≠ 0) :
    (∃ q h', Cloned h p ret t q h') ↔
      (∀ o, h.objs p = some o → o.FullBarrier → ret = p) ∧
        ∀ x o, h.objs x = some o → Obj.HasRoom o (t.count x) := by
  constructor
  · rintro ⟨q, h', hc⟩
    refine ⟨fun o ho hf => hc.ret_eq hs ho hf, fun x o ho => ?_⟩
    obtain ⟨o', -, hcount⟩ := hc.old x o ho
    exact hcount.hasRoom
  · rintro ⟨hret, hroom⟩
    obtain ⟨q, h', hcall, hc⟩ := mtClone_clones (Nat.lt_succ_self t.depth) hok hs hp
      (fun b o _ ho hf => (hroom b o ho).2 hf) hret
    have hclone : Returns (fun fuel => h.mtClone fuel p ret) (.cont, q, h') :=
      .of_mono (fun _ => mtClone_mono) hcall
    refine ⟨q, h', hclone, ?_, hc.shows, fun x hx => hok.next (hc.fresh x hx), fun x o ho => ?_, ?_⟩
    · exact hclone.map fun r => if r.1 ≠ .cont then (r.1, p, r.2.2) else (.cont, r.2.1, r.2.2)
    · exact ⟨_, hc.grown.old (hok.bound ho).1.ne' ho, counted_bump (hroom x o ho)⟩
    · exact (hc.grown.keeps hok hs).1

/-- A full barrier at 1, and at 2 an array of a reference to it and of none. -/
def barriers : Heap where
  objs p :=
    if p = 1 then some ⟨7, 2, 2, 2, [], 0, 0, [], .null, .null, []⟩
    else if p = 2 then some ⟨1795, 0, 0, 0, [], 0, 2, [2], .null, .block, [1, 0]⟩
    else none
  next := 3
  junk _ := 0
  ready := []
  closed := []

theorem barriers_ok : barriers.Ok where
  bound {p o} ho := by
    by_cases h₁ : p = 1
    · exact h₁ ▸ ⟨by decide, by decide⟩
    · by_cases h₂ : p = 2
      · exact h₂ ▸ ⟨by decide, by decide⟩
      · simp [barriers, h₁, h₂] at ho
  pos := by decide

theorem barriers_shared : barriers.view.Shows 1 (.shared 1) :=
  ⟨rfl, by decide, _, rfl, by decide⟩

/-- What hangs from the array. -/
def barriersTree : Tree Ptr Label :=
  .node ⟨1795, 2, [2], []⟩ 2 fun i => if i = 0 then .shared 1 else .null

theorem barriers_shows : barriers.view.Shows 2 barriersTree := by
  have hnode : barriers.view.node 2 = some (⟨1795, 2, [2], []⟩, [1, 0]) := rfl
  refine Owned.View.Shows.of_kids (by decide) hnode (fun i hi => ?_) fun i j hi hj _ => ?_
  · match i, hi with
    | 0, _ => exact ⟨barriers_shared, Set.notMem_empty 2⟩
    | 1, _ => exact ⟨rfl, Set.notMem_empty 2⟩
  · match i, hi with
    | 0, _ => exact Set.empty_disjoint _
    | 1, _ => exact Set.empty_disjoint _

theorem barriers_hasRoom (hle : t.count 1 ≤ 1) (hzero : t.count 2 = 0) {x : Ptr}
    (ho : barriers.objs x = some o) : Obj.HasRoom o (t.count x) := by
  by_cases h₁ : x = 1
  · subst h₁
    obtain rfl := Option.some.inj ho
    refine ⟨?_, fun _ => ?_⟩
    · exact (Nat.add_le_add_left hle _).trans_lt (by decide)
    · exact (Nat.add_le_add_left hle _).trans_lt (by decide)
  · by_cases h₂ : x = 2
    · subst h₂
      rw [hzero]
      exact ⟨o.refCount.isLt, fun _ => o.enrolled.isLt⟩
    · simp [barriers, h₁, h₂] at ho

/-- A barrier within an array is counted. -/
theorem mt_clone_faithful_barriers : ∃ q h', Cloned barriers 2 0 barriersTree q h' := by
  refine (mt_clone_faithful barriers_ok barriers_shows (by decide)).mpr ⟨fun o ho hf => ?_,
    fun x o ho => barriers_hasRoom (by decide) (by decide) ho⟩
  obtain rfl := Option.some.inj ho
  exact absurd hf (by decide)

/-- Of a full barrier itself the pointer is not set. -/
theorem mt_clone_unset : ¬ ∀ (h : Heap) (p ret : Ptr) (t : Tree Ptr Label), h.Ok →
    h.view.Shows p t → p ≠ 0 → (∀ x o, h.objs x = some o → Obj.HasRoom o (t.count x)) →
    ∃ q h', Cloned h p ret t q h' := by
  intro hall
  obtain ⟨q, h', hc⟩ := hall barriers 1 0 (.shared 1) barriers_ok barriers_shared (by decide)
    fun x o ho => barriers_hasRoom (by decide) (by decide) ho
  exact absurd (hc.ret_eq barriers_shared rfl (by decide)) (by decide)

end Heap

end Mobile

end Tvm

end Kroc
