import Kroc.Tvm.MobileClone
import Kroc.Tvm.MobileResize
import Mathlib.Data.List.GetD

/-!
# Tvm/MobileResized — what is left of an array of another size

Whether the array moves or stays, its first elements are to be the old ones, and each of the others
is to be released once.  The two implementations are one call with two parameters: the releaser, and
the element from which elements are released where they are.
-/

open Finset (range)

namespace Kroc

namespace Tvm

namespace Mobile

open Ectx (Ret)

open Owned (Tree View)

open Ccsp.Mobile (mtType mtSimple mtArrayDim mtBarrierType elemType)

namespace Heap

variable {h h' h₁ : Heap} {p q x src dst : Ptr} {o o' os od : Obj} {n i k m a : ℕ}
  {kids : ℕ → Tree Ptr Label} {t : Tree Ptr Label} {label : Label} {S : Set Ptr} {c : Ptr → ℕ}
  {allowed : ℕ → Prop} {r : Releaser} {first : ℕ}

/-! ## The releasers -/

theorem tvmReleaser_exact : tvmReleaser.Exact fun _ => True where
  toSound := tvmReleaser_sound
  bundle _ := trivial
  strict _ _ := trivial

theorem ccspReleaser_exact : ccspReleaser.Exact fun type => mtType type ≠ .barrier where
  cb {h p o} ho _ hpos := by
    refine ⟨.cont, _, rfl, ?_⟩
    by_cases hone : o.refCount.toNat = 1
    · have hz : o.refCount - 1 = 0 := by
        rw [BitVec.eq_of_toNat_eq (y := 1) hone]
        rfl
      rw [if_pos hz]
      exact dropped_last rfl rfl ho hone
    · have hnz : ¬ o.refCount - 1 = 0 := fun hz => hone (by
        rw [BitVec.sub_eq_iff_eq_add] at hz
        rw [hz]
        rfl)
      rw [if_neg hnz, setRefCount, modify_eq_set ho]
      exact dropped_lower rfl rfl ho (lowered_refCount _ _ _ hpos) (by omega)
  barrier _ hk _ hall := absurd hk hall
  bundle hk := by
    rw [hk]
    decide
  strict _ hx := by cases hx

/-! ## An array -/

theorem elemsCount_eq_Ico (x : Ptr) :
    elemsCount kids m a x = ∑ i ∈ Finset.Ico a (a + m), (kids i).count x := by
  rw [Finset.sum_Ico_eq_sum_range, Nat.add_sub_cancel_left]
  rfl

/-- There is an array at `p`, with what hangs from it; the bundles and barriers count at least the
references it has. -/
structure HasArray (h : Heap) (p : Ptr) (o : Obj) (kids : ℕ → Tree Ptr Label) : Prop where
  ok : h.Ok
  obj : h.objs p = some o
  array : mtType o.type = .array
  shows : h.view.Shows p (.node o.label o.ptrs.length kids)
  refs : Enough (fun _ => True) h ((Owned.Tree.node o.label o.ptrs.length kids).count ·)

namespace HasArray

theorem wellFormed (ha : HasArray h p o kids) : o.WellFormed := by
  obtain ⟨ps, hps, -⟩ := ha.shows.2.1
  obtain ⟨o', ho', hw, -⟩ := exists_of_node hps
  exact Option.some.inj (ho'.symm.trans ha.obj) ▸ hw

/-- The elements from `a` on. -/
theorem hung (ha : HasArray h p o kids) (hptrs : o.HoldsPtrs) (hle : a + m ≤ o.size) :
    Hung p o kids m a h := by
  have hlen : o.elems.length = o.size := ha.wellFormed.length_eq_size hptrs
  have hs := ha.shows
  rw [show o.ptrs = o.elems from if_pos hptrs] at hs
  obtain ⟨hh, -⟩ := hung_of_shows ha.ok ha.obj ha.wellFormed hptrs hs
  refine ⟨ha.ok, ha.obj, ha.wellFormed, fun j hj => ?_, fun j hj k hk hjk => ?_⟩
  · have := hh.shows (a + j) (by omega)
    rwa [Nat.zero_add] at this
  · have := hh.apart (a + j) (by omega) (a + k) (by omega) (by omega)
    rwa [Nat.zero_add, Nat.zero_add] at this

/-- There are references enough for the elements from `a` on. -/
theorem enough (ha : HasArray h p o kids) (hptrs : o.HoldsPtrs) (hle : a + m ≤ o.size) :
    Enough (fun _ => True) h (elemsCount kids m a) := by
  have hlen : o.elems.length = o.size := ha.wellFormed.length_eq_size hptrs
  have hrefs := ha.refs
  rw [show o.ptrs = o.elems from if_pos hptrs, hlen] at hrefs
  intro b ob hb hob
  have htotal : elemsCount kids m a b ≤ (Owned.Tree.node o.label o.size kids).count b := by
    rw [elemsCount_eq_Ico, Tree.count, Finset.range_eq_Ico]
    exact Finset.sum_le_sum_of_subset (Finset.Ico_subset_Ico (Nat.zero_le a) hle)
  exact ⟨htotal.trans (hrefs b ob (hb.trans_le htotal) hob).1, trivial⟩

end HasArray

/-! ## The array where it is -/

/-- The heap with the array moved from `p` to `q`, before anything is released. -/
def moved (h : Heap) (p q : Ptr) (o : Obj) : Heap :=
  { h with
    objs := Function.update (Function.update h.objs p none) q (some o)
    next := max h.next (q + 1) }

theorem moved_self (hok : h.Ok) (ho : h.objs p = some o) {e : List ℕ} :
    h.moved p p { o with elems := e } = h.setElems p e := by
  have hnext : max h.next (p + 1) = h.next := Nat.max_eq_left (hok.bound ho).2
  rw [moved, setElems, modify_eq_set ho, Function.update_idem, hnext]
  rfl

theorem resize_of_array (ha : HasArray h p o kids) (fuel : ℕ) :
    h.resize r first fuel p n =
      if Reallocates o.size n then
        (h.mtAllocArrayInt o.type n false).bind fun (dst, h) =>
          let h := h.setDimensions dst (o.dimensions.take (mtArrayDim o.type))
          (r.simple fuel (h.moveData p dst o n) p o.type).map fun r => (.cont, dst, r.2)
      else if n < o.size ∧ mtType (elemType o.type) ≠ .num then
        (dropElems (r.release fuel) p (o.size - n) first h).map fun h => (.cont, p, h)
      else some (.cont, p, h) := by
  rw [resize, ha.obj]
  dsimp only
  rw [if_pos ⟨ha.wellFormed.1, ha.array⟩]

/-- How deep the elements are nested. -/
theorem HasArray.depth_lt (hptrs : o.HoldsPtrs) (ha : HasArray h p o kids) {j : ℕ}
    (hj : j < o.size) :
    (kids j).depth < (Owned.Tree.node o.label o.ptrs.length kids).depth + 1 := by
  have hlen : o.ptrs.length = o.size := by
    rw [show o.ptrs = o.elems from if_pos hptrs, ha.wellFormed.length_eq_size hptrs]
  exact Nat.lt_succ_of_lt (Tree.depth_lt (by rwa [hlen]))

/-- The elements from `first` on are released. -/
theorem resize_drops (hr : r.Exact allowed) (ha : HasArray h p o kids) (hptrs : o.HoldsPtrs)
    (hstay : ¬ Reallocates o.size n) (hn : n < o.size) (hfirst : first ≤ n)
    (hall : Allows allowed h (elemsCount kids (o.size - n) first)) :
    ∃ h', Returns (fun fuel => h.resize r first fuel p n) (.cont, p, h') ∧
      Dropped (elemsOwned o kids (o.size - n) first h) (elemsCount kids (o.size - n) first)
        (h.moved p p { o with elems := cleared o.elems first (o.size - n) }) h' := by
  have hle : first + (o.size - n) ≤ o.size := by omega
  obtain ⟨h', hcall, hd⟩ := dropElems_spec
    (fun j hj => release_releases hr.toSound (ha.depth_lt hptrs (show first + j < o.size by omega)))
    (ha.hung hptrs hle) ((ha.enough hptrs hle).allows hall)
    (hle.trans (ha.wellFormed.length_eq_size hptrs).ge)
  refine ⟨h', .of_mono (k := (Owned.Tree.node o.label o.ptrs.length kids).depth + 1)
    (fun _ => resize_mono) ?_, ?_⟩
  · rw [resize_of_array ha, if_neg hstay, if_pos ⟨hn, hptrs.2⟩, hcall, Option.map_some]
  · rwa [moved_self ha.ok ha.obj]

/-- Nothing is released. -/
theorem resize_stays (ha : HasArray h p o kids) (hstay : ¬ Reallocates o.size n)
    (hn : ¬ (n < o.size ∧ o.HoldsPtrs)) :
    Returns (fun fuel => h.resize r first fuel p n) (.cont, p, h) := by
  refine .of_some fun fuel => ?_
  rw [resize_of_array ha, if_neg hstay, if_neg fun hd => hn ⟨hd.1, ha.array, hd.2⟩]

/-! ## The array in a new block -/

/-- The array in its new block. -/
def movedObj (h : Heap) (o : Obj) (n : ℕ) : Obj :=
  { h.arrayObj o.type n false with
    dimensions := o.dimensions
    elems :=
      if o.HoldsPtrs then o.elems.take n ++ List.replicate (n - o.size) 0
      else o.elems.take (min o.size n <<< sizeShift o.type) ++
        (h.fresh (n <<< sizeShift o.type)).drop (min o.size n <<< sizeShift o.type) }

/-- What is left of the old one. -/
def leftObj (o : Obj) (n : ℕ) : Obj :=
  { o with elems := if o.HoldsPtrs then cleared o.elems 0 (min o.size n) else o.elems }

/-- The heap with the new block, which has the dimensions. -/
def allocated (h : Heap) (o : Obj) (n : ℕ) : Heap :=
  (h.new (h.arrayObj o.type n false)).2.setDimensions h.next
    (o.dimensions.take (mtArrayDim o.type))

theorem allocated_spec (ha : HasArray h p o kids) :
    (h.allocated o n).Ok ∧ (h.allocated o n).next = h.next + 1 ∧
      (h.allocated o n).objs h.next =
        some { h.arrayObj o.type n false with dimensions := o.dimensions } ∧
      ∀ x, x ≠ h.next → (h.allocated o n).objs x = h.objs x := by
  have hdims : o.dimensions.take (mtArrayDim o.type) = o.dimensions :=
    List.take_of_length_le ((Obj.wellFormed_array ha.array).mp ha.wellFormed).2.2.2.le
  refine ⟨ha.ok.new.modify, rfl, ?_, fun x hx => ?_⟩
  · rw [allocated, hdims]
    exact modify_objs (by simp [Heap.new])
  · rw [allocated, setDimensions, modify_objs_ne hx]
    simp [Heap.new, hx]

/-- The pointers are moved. -/
theorem moveData_ptrs (ha : HasArray h p o kids) (hptrs : o.HoldsPtrs) :
    (h.allocated o n).moveData p h.next o n =
      ((h.allocated o n).setElems p (cleared o.elems 0 (min o.size n))).setElems h.next
        (o.elems.take n ++ List.replicate (n - o.size) 0) := by
  obtain ⟨-, -, hdst, hold⟩ := allocated_spec (n := n) ha
  have hne : p ≠ h.next := (ha.ok.bound ha.obj).2.ne
  have hlen : o.elems.length = o.size := ha.wellFormed.length_eq_size hptrs
  have hcount : (if o.size < n then o.size else n) = min o.size n := by
    split_ifs <;> omega
  obtain ⟨k, hk⟩ : ∃ k, k = min o.size n := ⟨_, rfl⟩
  let od : Obj := { h.arrayObj o.type n false with dimensions := o.dimensions }
  have hfresh : od.elems.length = n := by
    simp [od, arrayObj, hptrs.2, fresh]
  have hs : (h.allocated o n).objs p =
      some { o with elems := [] ++ o.elems.take k ++ o.elems.drop k } := by
    rw [hold p hne, ha.obj, List.nil_append, List.take_append_drop]
  have hd : (h.allocated o n).objs h.next =
      some { od with elems := [] ++ od.elems.take k ++ od.elems.drop k } := by
    rw [hdst, List.nil_append, List.take_append_drop]
  have hmove : moveElems p h.next k 0 (h.allocated o n) =
      ((h.allocated o n).setElems h.next (o.elems.take k ++ od.elems.drop k)).setElems p
        (cleared o.elems 0 k) := by
    have heq := moveElems_eq (n := k) (i := 0) hne hs hd rfl rfl (by rw [List.length_take]; omega)
      (by rw [List.length_take]; omega)
    rw [heq, cleared, Nat.zero_add]
    rfl
  have hd' : (((h.allocated o n).setElems h.next (o.elems.take k ++ od.elems.drop k)).setElems p
      (cleared o.elems 0 k)).objs h.next =
      some { od with elems := o.elems.take k ++ od.elems.drop k } :=
    (modify_objs_ne hne.symm).trans (setElems_objs (by exact hd) _)
  have htake : o.elems.take k = o.elems.take n := by
    rw [List.take_eq_take_min, List.take_eq_take_min (i := n)]
    congr 1
    omega
  unfold moveData
  dsimp only
  rw [if_neg hptrs.2, hcount, ← hk, hmove, nullElems_eq hd' (by rw [List.length_take]; omega)
    (by rw [List.length_drop]; omega), htake]
  unfold setElems
  rw [modify_comm hne.symm, modify_modify]

/-- The numbers are copied. -/
theorem moveData_numbers (ha : HasArray h p o kids) (hptrs : ¬ o.HoldsPtrs) :
    (h.allocated o n).moveData p h.next o n =
      (h.allocated o n).setElems h.next (h.movedObj o n).elems := by
  obtain ⟨-, -, hdst, -⟩ := allocated_spec (n := n) ha
  have hcount : (if o.size < n then o.size else n) = min o.size n := by
    split_ifs <;> omega
  have hnum : mtType (elemType o.type) = .num := not_not.mp fun hn => hptrs ⟨ha.array, hn⟩
  unfold moveData
  dsimp only
  rw [if_pos hnum, hcount, modify_eq_set hdst, setElems, modify_eq_set hdst]
  simp [movedObj, hptrs, arrayObj, hnum]

/-- **The array is moved**. -/
theorem moveData_spec (ha : HasArray h p o kids) :
    ((h.allocated o n).moveData p h.next o n).Ok ∧
      ((h.allocated o n).moveData p h.next o n).next = h.next + 1 ∧
      ((h.allocated o n).moveData p h.next o n).objs =
        Function.update (Function.update h.objs p (some (leftObj o n))) h.next
          (some (h.movedObj o n)) := by
  obtain ⟨hok, hnext, hdst, hold⟩ := allocated_spec (n := n) ha
  have hne : p ≠ h.next := (ha.ok.bound ha.obj).2.ne
  by_cases hptrs : o.HoldsPtrs
  · rw [moveData_ptrs ha hptrs]
    refine ⟨hok.modify.modify, hnext, funext fun x => ?_⟩
    by_cases hx : x = h.next
    · have hdst' : ((h.allocated o n).setElems p (cleared o.elems 0 (min o.size n))).objs h.next =
          _ := (modify_objs_ne hne.symm).trans hdst
      rw [hx, Function.update_self, setElems, modify_objs hdst']
      simp [movedObj, hptrs]
    · rw [Function.update_of_ne hx, setElems, modify_objs_ne hx]
      by_cases hp : x = p
      · rw [hp, Function.update_self, setElems, modify_objs ((hold p hne).trans ha.obj)]
        simp [leftObj, hptrs]
      · rw [Function.update_of_ne hp, setElems, modify_objs_ne hp, hold x hx]
  · rw [moveData_numbers ha hptrs]
    refine ⟨hok.modify, hnext, funext fun x => ?_⟩
    by_cases hx : x = h.next
    · rw [hx, Function.update_self, setElems, modify_objs hdst]
      rfl
    · rw [Function.update_of_ne hx, setElems, modify_objs_ne hx, hold x hx]
      by_cases hp : x = p
      · rw [hp, Function.update_self, ha.obj]
        simp [leftObj, hptrs]
      · rw [Function.update_of_ne hp]

theorem elem_of_objs (ho : h.objs p = some o) : h.elem p i = o.elems.getD i 0 := by
  simp [elem, ho]

theorem getD_cleared {e : List ℕ} (hle : a + m ≤ e.length) (i : ℕ) :
    (cleared e a m).getD i 0 = if a ≤ i ∧ i < a + m then 0 else e.getD i 0 := by
  have hlen : (e.take a ++ List.replicate m 0).length = a + m := by
    simp
    omega
  unfold cleared
  rw [List.getD_eq_getElem?_getD, List.getD_eq_getElem?_getD]
  by_cases hi : i < a + m
  · rw [List.getElem?_append_left (by omega)]
    by_cases ha : a ≤ i
    · rw [if_pos ⟨ha, hi⟩, List.getElem?_append_right (by simp; omega),
        List.getElem?_replicate_of_lt (by simp; omega)]
      rfl
    · rw [if_neg fun h => ha h.1, List.getElem?_append_left (by simp; omega),
        List.getElem?_take_of_lt (by omega)]
  · rw [if_neg fun h => hi h.2, List.getElem?_append_right (by omega), hlen, List.getElem?_drop]
    congr 2
    omega

/-- The elements that are dropped, in the old block. -/
theorem left_hung (ha : HasArray h p o kids) (hptrs : o.HoldsPtrs) :
    let h₁ := (h.allocated o n).moveData p h.next o n
    Hung p (leftObj o n) kids (o.size - n) (min o.size n) h₁ ∧
      elemsOwned (leftObj o n) kids (o.size - n) (min o.size n) h₁ =
        elemsOwned o kids (o.size - n) (min o.size n) h := by
  intro h₁
  obtain ⟨hok, -, hobjs⟩ := moveData_spec (n := n) ha
  have hne : p ≠ h.next := (ha.ok.bound ha.obj).2.ne
  have hlen : o.elems.length = o.size := ha.wellFormed.length_eq_size hptrs
  have hleft : leftObj o n = { o with elems := cleared o.elems 0 (min o.size n) } := by
    rw [leftObj, if_pos hptrs]
  rw [hleft]
  refine (ha.hung hptrs (by omega)).congr hok ?_ (length_cleared (by omega)) (fun j hj => ?_)
    fun {x ox} hx hox => ?_
  · rw [hobjs, Function.update_of_ne hne, Function.update_self, hleft]
  · rw [getD_cleared (by omega), if_neg (by omega)]
  · have hx' : x ≠ h.next := (ha.ok.bound hox).2.ne
    rw [hobjs, Function.update_of_ne hx', Function.update_of_ne hx, hox]

/-- Where the elements start that are dropped makes no difference where there are none. -/
theorem elems_start (h : Heap) (o : Obj) (kids : ℕ → Tree Ptr Label) (s n : ℕ) :
    elemsOwned o kids (s - n) (min s n) h = elemsOwned o kids (s - n) n h ∧
      elemsCount kids (s - n) (min s n) = elemsCount kids (s - n) n := by
  by_cases hle : n ≤ s
  · rw [Nat.min_eq_right hle]
    exact ⟨rfl, rfl⟩
  · have hnone : s - n = 0 := by omega
    rw [hnone]
    refine ⟨Set.ext fun x => ?_, rfl⟩
    exact ⟨fun ⟨j, hj, _⟩ => absurd hj (Nat.not_lt_zero j),
      fun ⟨j, hj, _⟩ => absurd hj (Nat.not_lt_zero j)⟩

/-- The loop over the old block passes over what has been moved. -/
theorem simple_left (ha : HasArray h p o kids) (hptrs : o.HoldsPtrs) (fuel : ℕ) :
    r.simple (fuel + 1) ((h.allocated o n).moveData p h.next o n) p o.type =
      (releaseElems (r.release fuel) p (o.size - n) (min o.size n)
        ((h.allocated o n).moveData p h.next o n)).map fun h => (.cont, h.free p) := by
  obtain ⟨-, -, hobjs⟩ := moveData_spec (n := n) ha
  have hne : p ≠ h.next := (ha.ok.bound ha.obj).2.ne
  have hlen : o.elems.length = o.size := ha.wellFormed.length_eq_size hptrs
  have hobj : ((h.allocated o n).moveData p h.next o n).objs p = some (leftObj o n) := by
    rw [hobjs, Function.update_of_ne hne, Function.update_self]
  have hnull : ∀ j < min o.size n, ((h.allocated o n).moveData p h.next o n).elem p (0 + j) =
    0 := by
    intro j hj
    rw [elem_of_objs hobj, leftObj, if_pos hptrs]
    dsimp only
    rw [getD_cleared (by omega), if_pos (by omega)]
  have hsize : min o.size n + (o.size - n) = o.size := by omega
  have hskip : releaseElems (r.release fuel) p (min o.size n + (o.size - n)) 0 _ = _ :=
    releaseElems_skip hnull
  rw [hsize, Nat.zero_add] at hskip
  rw [← hskip]
  exact simple_array (o := leftObj o n) hobj hptrs

/-- The bundles and barriers that are counted are as they were. -/
theorem left_old (ha : HasArray h p o kids) (hptrs : o.HoldsPtrs) {b : Ptr}
    (hb : 0 < elemsCount kids (o.size - n) n b) :
    ∃ ob, h.objs b = some ob ∧ ((h.allocated o n).moveData p h.next o n).objs b = some ob := by
  obtain ⟨-, -, hobjs⟩ := moveData_spec (n := n) ha
  rw [← (elems_start h o kids o.size n).2] at hb
  have hh : Hung p o kids (o.size - n) (min o.size n) h := ha.hung hptrs (by omega)
  obtain ⟨j, hj, hpos⟩ : ∃ j ∈ range (o.size - n), 0 < (kids (min o.size n + j)).count b :=
    Finset.exists_lt_of_sum_lt (by simpa [elemsCount] using hb)
  obtain ⟨ob, hob, -⟩ := (hh.shows j (Finset.mem_range.mp hj)).1.live hpos
  have hne : b ≠ p := fun e => by
    rw [e, hh.elemsCount_eq_zero ha.obj ha.wellFormed] at hb
    exact absurd hb (lt_irrefl 0)
  refine ⟨ob, hob, ?_⟩
  rw [hobjs, Function.update_of_ne (ha.ok.bound hob).2.ne, Function.update_of_ne hne, hob]

/-- **The array moves**, and the elements that do not are released. -/
theorem resize_moves (hr : r.Exact allowed) (ha : HasArray h p o kids)
    (hmove : Reallocates o.size n) (hbytes : arrayBytes o.type n < 2 ^ 32)
    (hall : o.HoldsPtrs → Allows allowed h (elemsCount kids (o.size - n) n)) :
    ∃ h', Returns (fun fuel => h.resize r first fuel p n) (.cont, h.next, h') ∧
      Dropped (elemsOwned o kids (o.ptrs.length - n) n h) (elemsCount kids (o.ptrs.length - n) n)
        (h.moved p h.next (h.movedObj o n)) h' := by
  obtain ⟨hok₁, hnext₁, hobjs⟩ := moveData_spec (n := n) ha
  have hne : p ≠ h.next := (ha.ok.bound ha.obj).2.ne
  have hobj₁ : ((h.allocated o n).moveData p h.next o n).objs p = some (leftObj o n) := by
    rw [hobjs, Function.update_of_ne hne, Function.update_self]
  -- what is released, before the old block is
  obtain ⟨h₂, fuel, hcall, hd, hp, hz⟩ : ∃ h₂ fuel,
      r.simple fuel ((h.allocated o n).moveData p h.next o n) p o.type = some (.cont, h₂.free p) ∧
      Dropped (elemsOwned o kids (o.ptrs.length - n) n h) (elemsCount kids (o.ptrs.length - n) n)
        ((h.allocated o n).moveData p h.next o n) h₂ ∧
      p ∉ elemsOwned o kids (o.ptrs.length - n) n h ∧
      elemsCount kids (o.ptrs.length - n) n p = 0 := by
    by_cases hptrs : o.HoldsPtrs
    · have hsize : o.ptrs.length = o.size := by
        rw [show o.ptrs = o.elems from if_pos hptrs, ha.wellFormed.length_eq_size hptrs]
      obtain ⟨hh, howned⟩ := left_hung (n := n) ha hptrs
      obtain ⟨hstart, hstart'⟩ := elems_start h o kids o.size n
      have henough := ((ha.enough hptrs (show min o.size n + (o.size - n) ≤ o.size by omega)).allows
        (hstart' ▸ hall hptrs))
      obtain ⟨h₂, hloop, hd⟩ := releaseElems_spec (fun j hj => release_releases hr.toSound
        (ha.depth_lt hptrs (show min o.size n + j < o.size by omega))) hh fun b ob hb hob => by
          obtain ⟨ob', hob', hob₁⟩ := left_old (n := n) ha hptrs (hstart' ▸ hb)
          exact henough b ob hb (Option.some.inj (hob₁.symm.trans hob) ▸ hob')
      rw [howned, hstart, hstart'] at hd
      rw [hsize]
      have hh' : Hung p o kids (o.size - n) (min o.size n) h := ha.hung hptrs (by omega)
      refine ⟨h₂, (Owned.Tree.node o.label o.ptrs.length kids).depth + 1 + 1, ?_, hd, ?_, ?_⟩
      · rw [simple_left ha hptrs, hloop, Option.map_some]
      · rw [← hstart]
        rintro ⟨j, hj, hx⟩
        exact (hh'.shows j hj).2 hx
      · rw [← hstart']
        exact hh'.elemsCount_eq_zero ha.obj ha.wellFormed
    · have hnone : o.ptrs.length - n = 0 := by
        rw [show o.ptrs = [] from if_neg hptrs]
        exact Nat.zero_sub n
      rw [hnone]
      refine ⟨_, 1, ?_, .no_elems, fun ⟨j, hj, _⟩ => absurd hj (Nat.not_lt_zero j), rfl⟩
      have hleft : leftObj o n = o := by
        rw [leftObj, if_neg hptrs]
      exact simple_leaf (hobj₁.trans (congrArg some hleft)) ha.wellFormed hptrs
  refine ⟨h₂.free p, .of_mono (k := fuel) (fun _ => resize_mono) ?_, ?_⟩
  · rw [resize_of_array ha, if_pos hmove, mtAllocArrayInt, if_pos hbytes, Option.bind_some]
    change Option.map _ (r.simple fuel ((h.allocated o n).moveData p h.next o n) p o.type) = _
    rw [hcall, Option.map_some]
  · have hnext : h₂.next = h.next + 1 := hd.next.trans hnext₁
    refine hd.update hp hz (v := none) ?_ rfl ?_
    · rw [hobjs]
      conv_rhs => rw [Function.update_comm hne, Function.update_idem]
      exact Function.update_comm hne ..
    · change h₂.next = max h.next (h.next + 1)
      rw [hnext, Nat.max_eq_right (Nat.le_succ _)]

/-! ## What is left -/

theorem HasArray.length_ptrs (ha : HasArray h p o kids) (hptrs : o.HoldsPtrs) :
    o.ptrs.length = o.size := by
  rw [show o.ptrs = o.elems from if_pos hptrs, ha.wellFormed.length_eq_size hptrs]

theorem length_ptrs_of_not (hptrs : ¬ o.HoldsPtrs) : o.ptrs.length = 0 := by
  rw [show o.ptrs = [] from if_neg hptrs, List.length_nil]

/-- The array itself, and what is new, is not within the elements that are dropped. -/
theorem HasArray.not_dropped (ha : HasArray h p o kids) (n : ℕ) (hq : q = p ∨ q = h.next) :
    q ∉ elemsOwned o kids (o.ptrs.length - n) n h ∧
      elemsCount kids (o.ptrs.length - n) n q = 0 := by
  by_cases hptrs : o.HoldsPtrs
  · have hh : Hung p o kids (o.size - n) (min o.size n) h := ha.hung hptrs (by omega)
    obtain ⟨hstart, hstart'⟩ := elems_start h o kids o.size n
    rw [ha.length_ptrs hptrs, ← hstart, ← hstart']
    rcases hq with rfl | rfl
    · refine ⟨fun ⟨j, hj, hx⟩ => (hh.shows j hj).2 hx, ?_⟩
      exact hh.elemsCount_eq_zero ha.obj ha.wellFormed
    · have hnone : h.objs h.next = none := ha.ok.next le_rfl
      refine ⟨fun ⟨j, hj, hx⟩ => ?_, Finset.sum_eq_zero fun j hj => ?_⟩
      · obtain ⟨ox, hox, -⟩ := exists_of_owned (hh.shows j hj).1 hx
        exact absurd hox (by rw [hnone]; exact nofun)
      · by_contra hpos
        obtain ⟨ox, hox, -⟩ :=
          (hh.shows j (Finset.mem_range.mp hj)).1.live (Nat.pos_of_ne_zero hpos)
        exact absurd hox (by rw [hnone]; exact nofun)
  · rw [length_ptrs_of_not hptrs, Nat.zero_sub]
    exact ⟨fun ⟨j, hj, _⟩ => absurd hj (Nat.not_lt_zero j), rfl⟩

/-- An element that is kept is counted beside those that are dropped. -/
theorem count_add_le (hi : i < k) (hn : i < n) (x : Ptr) :
    (kids i).count x + elemsCount kids (k - n) n x ≤ elemsCount kids k 0 x := by
  by_cases hle : n ≤ k
  · have hsplit : elemsCount kids k 0 x = elemsCount kids n 0 x + elemsCount kids (k - n) n x := by
      rw [elemsCount_eq_Ico, elemsCount_eq_Ico, elemsCount_eq_Ico, Nat.zero_add, Nat.zero_add,
        Nat.add_sub_cancel' hle, Finset.sum_Ico_consecutive _ (Nat.zero_le n) hle]
    have hle' := le_elemsCount kids 0 x hn
    rw [Nat.zero_add] at hle'
    omega
  · have hle' := le_elemsCount kids 0 x hi
    rw [Nat.zero_add] at hle'
    rw [show k - n = 0 by omega]
    exact hle'

/-- **The array has been resized**: at `q` its first elements are the old ones, still with all that
hangs from them; a pointer behind them is null; and what has been released is each of the other
elements, once. -/
structure Resized (h : Heap) (p : Ptr) (o : Obj) (kids : ℕ → Tree Ptr Label) (n : ℕ) (o' : Obj)
    (q : Ptr) (h' : Heap) : Prop where
  obj : h'.objs q = some o'
  type : o'.type = o.type
  dimensions : o'.dimensions = o.dimensions
  size : n ≤ o'.size
  wellFormed : o'.WellFormed
  kept : o'.elems.take ({ o with size := min o.size n } : Obj).cells =
    o.elems.take ({ o with size := min o.size n } : Obj).cells
  null : o.HoldsPtrs → ∀ i, min o.size n ≤ i → o'.elems.getD i 0 = 0
  dropped : Dropped (elemsOwned o kids (o.ptrs.length - n) n h)
    (elemsCount kids (o.ptrs.length - n) n) (h.moved p q o') h'
  shows : o.HoldsPtrs → ∀ i < o.size, i < n → h'.view.Shows (o'.elems.getD i 0) (kids i)

/-- What is kept is left alone. -/
theorem Dropped.kept (hd : Dropped (elemsOwned o kids (o.ptrs.length - n) n h)
      (elemsCount kids (o.ptrs.length - n) n) (h.moved p q o') h')
    (ha : HasArray h p o kids) (hq : q = p ∨ q = h.next) (hptrs : o.HoldsPtrs) (hi : i < o.size)
    (hn : i < n) :
    h'.view.Shows (o.elems.getD i 0) (kids i) := by
  have hh : Hung p o kids o.size 0 h := ha.hung hptrs (by omega)
  have hrefs := ha.enough hptrs (show 0 + o.size ≤ o.size by omega)
  obtain ⟨hs, hnot⟩ := hh.shows i hi
  rw [Nat.zero_add] at hs hnot
  have hzero : (kids i).count p = 0 := by
    have := hh.count_eq_zero hi ha.obj ha.wellFormed
    rwa [Nat.zero_add] at this
  have hmoved : ∀ {x ox}, x ≠ p → h.objs x = some ox → (h.moved p q o').objs x = some ox := by
    intro x ox hx hox
    have hxq : x ≠ q := by
      rcases hq with rfl | rfl
      · exact hx
      · exact (ha.ok.bound hox).2.ne
    rw [moved]
    dsimp only
    rw [Function.update_of_ne hxq, Function.update_of_ne hx, hox]
  -- the moved heap shows the element
  obtain ⟨hs₁, howned⟩ : (h.moved p q o').view.Shows (o.elems.getD i 0) (kids i) ∧
      (h.moved p q o').view.owned (o.elems.getD i 0) (kids i) =
        h.view.owned (o.elems.getD i 0) (kids i) := by
    refine hs.congr (fun x hx => ?_) fun x hx hshared => ?_
    · obtain ⟨ox, hox, -⟩ := exists_of_owned hs hx
      exact node_congr ((hmoved (fun e => hnot (e ▸ hx)) hox).trans hox.symm)
    · obtain ⟨ox, hox, hl⟩ := hshared
      exact ⟨ox, hmoved (fun e => absurd (e ▸ hzero) hx.ne') hox, hl⟩
  have hlen := ha.length_ptrs hptrs
  -- what is counted is a bundle or a barrier, as it was
  have hold : ∀ {b ob}, 0 < elemsCount kids o.size 0 b → (h.moved p q o').objs b = some ob →
      h.objs b = some ob ∧ ob.Shared := by
    intro b ob hb hob
    obtain ⟨j, hj, hpos⟩ : ∃ j ∈ range o.size, 0 < (kids (0 + j)).count b :=
      Finset.exists_lt_of_sum_lt (by simpa [elemsCount] using hb)
    obtain ⟨ob', hob', hl⟩ := (hh.shows j (Finset.mem_range.mp hj)).1.live hpos
    have hne : b ≠ p := fun e => by
      rw [e, hh.elemsCount_eq_zero ha.obj ha.wellFormed] at hb
      exact absurd hb (lt_irrefl 0)
    obtain rfl := Option.some.inj ((hmoved hne hob').symm.trans hob)
    exact ⟨hob', hl⟩
  have hcount : ∀ b, (kids i).count b + elemsCount kids (o.size - n) n b ≤
    elemsCount kids o.size 0 b :=
    count_add_le hi hn
  refine (hd.shows hs₁ ?_ (fun b ob hob hw => ?_) fun b ob hb hob => ⟨fun hmem => ?_, ?_⟩).1
  · rw [howned]
    refine Set.disjoint_left.mpr fun x hx hmem => ?_
    obtain ⟨j, hj, hx'⟩ := hmem
    rw [hlen] at hj
    have hapart := hh.apart i hi (n + j) (by omega) (by omega)
    rw [Nat.zero_add, Nat.zero_add] at hapart
    exact Set.disjoint_left.mp hapart hx hx'
  · rw [hlen]
    by_contra hne
    have hb := Nat.pos_of_ne_zero hne
    exact hw.not_shared (hold (hb.trans_le ((Nat.le_add_left _ _).trans (hcount b))) hob).2
  · obtain ⟨j, hj, hx⟩ := hmem
    rw [hlen] at hj
    have hj' := (hh.shows (n + j) (by omega)).1
    rw [Nat.zero_add] at hj'
    obtain ⟨ob', hob', hw⟩ := exists_of_owned hj' hx
    exact absurd (Heap.count_eq_zero hs hob' hw) hb.ne'
  · rw [hlen]
    obtain ⟨hob', -⟩ := hold (hb.trans_le ((Nat.le_add_right _ _).trans (hcount b))) hob
    have htotal := (hrefs b ob (hb.trans_le ((Nat.le_add_right _ _).trans (hcount b))) hob').1
    exact lt_of_lt_of_le (Nat.lt_add_of_pos_left hb) ((hcount b).trans htotal)

/-- Where the array stays, and elements are released from `first` on, the others that are to be
dropped are null, and so are those of the first that are released with them. -/
def Covers (o : Obj) (first n : ℕ) : Prop :=
  ∀ i < o.size, (i < n ∧ first ≤ i ∧ i < first + (o.size - n)) ∨
    (n ≤ i ∧ ¬ (first ≤ i ∧ i < first + (o.size - n))) → o.elems.getD i 0 = 0

theorem HasArray.null_iff (ha : HasArray h p o kids) (hptrs : o.HoldsPtrs) (hi : i < o.size) :
    o.elems.getD i 0 = 0 ↔ kids i = .null := by
  obtain ⟨hs, -⟩ := (ha.hung hptrs (show 0 + o.size ≤ o.size by omega)).shows i hi
  rw [Nat.zero_add] at hs
  constructor
  · intro hz
    rw [hz] at hs
    exact shows_zero_iff.mp hs
  · intro hnull
    rw [hnull] at hs
    exact hs

/-- Then the elements that are released are those that are dropped. -/
theorem Covers.elems (hc : Covers o first n) (ha : HasArray h p o kids) (hptrs : o.HoldsPtrs)
    (hfirst : first ≤ n) (hn : n ≤ o.size) :
    elemsOwned o kids (o.size - n) first h = elemsOwned o kids (o.size - n) n h ∧
      elemsCount kids (o.size - n) first = elemsCount kids (o.size - n) n := by
  have hnull : ∀ i < o.size, (i < n ∧ first ≤ i ∧ i < first + (o.size - n)) ∨
      (n ≤ i ∧ ¬ (first ≤ i ∧ i < first + (o.size - n))) → kids i = .null :=
    fun i hi hor => (ha.null_iff hptrs hi).mp (hc i hi hor)
  constructor
  · ext x
    constructor
    · rintro ⟨j, hj, hx⟩
      by_cases hle : n ≤ first + j
      · exact ⟨first + j - n, by omega, by rwa [Nat.add_sub_cancel' hle]⟩
      · rw [hnull (first + j) (by omega) (.inl (by omega))] at hx
        exact absurd hx (Set.notMem_empty x)
    · rintro ⟨j, hj, hx⟩
      by_cases hle : n + j < first + (o.size - n)
      · exact ⟨n + j - first, by omega, by rwa [Nat.add_sub_cancel' (by omega)]⟩
      · rw [hnull (n + j) (by omega) (.inr (by omega))] at hx
        exact absurd hx (Set.notMem_empty x)
  · funext x
    rw [elemsCount_eq_Ico, elemsCount_eq_Ico]
    refine Finset.sum_congr_of_eq_on_inter (fun i hi hni => ?_) (fun i hi hni => ?_)
      fun _ _ _ => rfl
    · rw [Finset.mem_Ico] at hi hni
      rw [hnull i (by omega) (.inl (by omega))]
      rfl
    · rw [Finset.mem_Ico] at hi hni
      rw [hnull i (by omega) (.inr (by omega))]
      rfl

theorem cells_ptrs (hptrs : o.HoldsPtrs) (m : ℕ) : ({ o with size := m } : Obj).cells = m := by
  unfold Obj.cells
  dsimp only
  rw [hptrs.1]
  exact if_neg hptrs.2

theorem take_eq_of_getD {a b : List ℕ} (ha : m ≤ a.length) (hb : m ≤ b.length)
    (hab : ∀ i < m, a.getD i 0 = b.getD i 0) : a.take m = b.take m := by
  refine List.ext_getElem (by simp; omega) fun i hi _ => ?_
  have hi' : i < m := by
    rw [List.length_take] at hi
    omega
  have := hab i hi'
  rw [List.getElem_take, List.getElem_take]
  rwa [List.getD_eq_getElem _ _ (by omega), List.getD_eq_getElem _ _ (by omega)] at this

theorem getD_of_take_eq {a b : List ℕ} (hab : a.take m = b.take m) (hi : i < m) :
    a.getD i 0 = b.getD i 0 := by
  have hget := congrArg (·[i]?.getD 0) hab
  rwa [List.getElem?_take_of_lt hi, List.getElem?_take_of_lt hi] at hget

/-- It is enough to know the elements, and what is released. -/
theorem Resized.of_dropped (ha : HasArray h p o kids) (hq : q = p ∨ q = h.next)
    (ht : o'.type = o.type) (hdims : o'.dimensions = o.dimensions) (hsize : n ≤ o'.size)
    (hw : o'.WellFormed)
    (hkept : o'.elems.take ({ o with size := min o.size n } : Obj).cells =
      o.elems.take ({ o with size := min o.size n } : Obj).cells)
    (hnull : o.HoldsPtrs → ∀ i, min o.size n ≤ i → o'.elems.getD i 0 = 0)
    (hget : o.HoldsPtrs → ∀ i < o.size, i < n → o'.elems.getD i 0 = o.elems.getD i 0)
    (hd : Dropped (elemsOwned o kids (o.ptrs.length - n) n h)
      (elemsCount kids (o.ptrs.length - n) n) (h.moved p q o') h') :
    Resized h p o kids n o' q h' := by
  obtain ⟨hnot, hzero⟩ := ha.not_dropped n hq
  refine ⟨?_, ht, hdims, hsize, hw, hkept, hnull, hd, fun hptrs i hi hn => ?_⟩
  · rw [hd.same hnot hzero]
    exact Function.update_self ..
  · rw [hget hptrs i hi hn]
    exact hd.kept ha hq hptrs hi hn

theorem resized_in_place (hr : r.Exact allowed) (ha : HasArray h p o kids) (hptrs : o.HoldsPtrs)
    (hstay : ¬ Reallocates o.size n) (hn : n < o.size) (hfirst : first ≤ n)
    (hall : Allows allowed h (elemsCount kids (o.size - n) first)) (hc : Covers o first n) :
    ∃ h' o', Returns (fun fuel => h.resize r first fuel p n) (.cont, p, h') ∧
      Resized h p o kids n o' p h' := by
  obtain ⟨h', hcall, hd⟩ := resize_drops hr ha hptrs hstay hn hfirst hall
  obtain ⟨howned, hcount⟩ := hc.elems ha hptrs hfirst hn.le
  rw [howned, hcount] at hd
  have hlen : o.elems.length = o.size := ha.wellFormed.length_eq_size hptrs
  have hle : first + (o.size - n) ≤ o.elems.length := by omega
  have hget : ∀ i < n, (cleared o.elems first (o.size - n)).getD i 0 = o.elems.getD i 0 := by
    intro i hi
    rw [getD_cleared hle]
    split_ifs with hin
    · exact (hc i (by omega) (.inl ⟨hi, hin⟩)).symm
    · rfl
  refine ⟨h', { o with elems := cleared o.elems first (o.size - n) }, hcall,
    .of_dropped ha (.inl rfl) rfl rfl hn.le (ha.wellFormed.elems (length_cleared hle)) ?_
      (fun _ i hi => ?_) (fun _ i _ hi => hget i hi) ?_⟩
  · rw [cells_ptrs hptrs, Nat.min_eq_right hn.le]
    exact take_eq_of_getD (by rw [length_cleared hle]; omega) (by omega) hget
  · dsimp only
    rw [getD_cleared hle]
    split_ifs with hin
    · rfl
    · by_cases hi' : i < o.size
      · exact hc i hi' (.inr ⟨by omega, hin⟩)
      · exact List.getD_eq_default _ _ (by omega)
  · rwa [ha.length_ptrs hptrs]

theorem resized_stays (ha : HasArray h p o kids) (hstay : ¬ Reallocates o.size n)
    (hn : ¬ (n < o.size ∧ o.HoldsPtrs)) : Resized h p o kids n o p h := by
  have hle : n ≤ o.size := Nat.not_lt.mp fun hlt => hstay (.inl hlt)
  have hself : h.moved p p o = h := by
    have := moved_self ha.ok ha.obj (e := o.elems)
    rwa [setElems_self (by exact ha.obj)] at this
  have hnone : o.ptrs.length - n = 0 := by
    by_cases hptrs : o.HoldsPtrs
    · have hlen := ha.length_ptrs hptrs
      have : ¬ n < o.size := fun hlt => hn ⟨hlt, hptrs⟩
      omega
    · rw [length_ptrs_of_not hptrs, Nat.zero_sub]
  refine .of_dropped ha (.inl rfl) rfl rfl hle ha.wellFormed rfl (fun hptrs i hi => ?_)
    (fun _ _ _ _ => rfl) ?_
  · have hlen : o.elems.length = o.size := ha.wellFormed.length_eq_size hptrs
    have : ¬ n < o.size := fun hlt => hn ⟨hlt, hptrs⟩
    exact List.getD_eq_default _ _ (by omega)
  · rw [hnone, hself]
    exact .no_elems

theorem movedObj_wellFormed (ha : HasArray h p o kids) (hbytes : arrayBytes o.type n < 2 ^ 32) :
    (h.movedObj o n).WellFormed := by
  obtain ⟨hsimple, hlen, -, hdims⟩ := (Obj.wellFormed_array ha.array).mp ha.wellFormed
  refine (Obj.wellFormed_array (by exact ha.array)).mpr ⟨hsimple, ?_, hbytes, hdims⟩
  change (movedObj h o n).elems.length =
    if mtType (elemType o.type) = .num then n <<< sizeShift o.type else n
  by_cases hnum : mtType (elemType o.type) = .num
  · have hptrs : ¬ o.HoldsPtrs := fun hp => hp.2 hnum
    rw [if_pos hnum] at hlen ⊢
    have hle : min o.size n <<< sizeShift o.type ≤ n <<< sizeShift o.type := by
      rw [Nat.shiftLeft_eq, Nat.shiftLeft_eq]
      exact Nat.mul_le_mul_right _ (Nat.min_le_right _ _)
    have hle' : min o.size n <<< sizeShift o.type ≤ o.size <<< sizeShift o.type := by
      rw [Nat.shiftLeft_eq, Nat.shiftLeft_eq]
      exact Nat.mul_le_mul_right _ (Nat.min_le_left _ _)
    simp only [movedObj, if_neg hptrs, List.length_append, List.length_take, List.length_drop,
      hlen, fresh, List.length_map, List.length_range]
    omega
  · have hptrs : o.HoldsPtrs := ⟨ha.array, hnum⟩
    rw [if_neg hnum] at hlen ⊢
    simp only [movedObj, if_pos hptrs, List.length_append, List.length_take, List.length_replicate,
      hlen]
    omega

theorem resized_moves (hr : r.Exact allowed) (ha : HasArray h p o kids)
    (hmove : Reallocates o.size n) (hbytes : arrayBytes o.type n < 2 ^ 32)
    (hall : o.HoldsPtrs → Allows allowed h (elemsCount kids (o.size - n) n)) :
    ∃ h' o', Returns (fun fuel => h.resize r first fuel p n) (.cont, h.next, h') ∧
      Resized h p o kids n o' h.next h' := by
  obtain ⟨h', hcall, hd⟩ := resize_moves hr ha hmove hbytes hall
  have hlen : o.HoldsPtrs → o.elems.length = o.size := ha.wellFormed.length_eq_size
  refine ⟨h', h.movedObj o n, hcall, .of_dropped ha (.inr rfl) rfl rfl le_rfl
    (movedObj_wellFormed ha hbytes) ?_ (fun hptrs i hi => ?_) (fun hptrs i hi hn => ?_) hd⟩
  · by_cases hptrs : o.HoldsPtrs
    · rw [cells_ptrs hptrs]
      have := hlen hptrs
      simp only [movedObj, if_pos hptrs]
      rw [List.take_append_of_le_length (by rw [List.length_take]; omega), List.take_take]
      congr 1
      omega
    · have hnum : mtType (elemType o.type) = .num := not_not.mp fun hn => hptrs ⟨ha.array, hn⟩
      have hcells : ({ o with size := min o.size n } : Obj).cells =
          min o.size n <<< sizeShift o.type := by
        unfold Obj.cells
        dsimp only
        rw [ha.array]
        exact if_pos hnum
      have hsize := ((Obj.wellFormed_array ha.array).mp ha.wellFormed).2.1
      rw [if_pos hnum] at hsize
      have hle : min o.size n <<< sizeShift o.type ≤ o.elems.length := by
        rw [hsize, Nat.shiftLeft_eq, Nat.shiftLeft_eq]
        exact Nat.mul_le_mul_right _ (Nat.min_le_left _ _)
      rw [hcells]
      simp only [movedObj, if_neg hptrs]
      rw [List.take_append_of_le_length (by rw [List.length_take, Nat.min_eq_left hle]),
        List.take_take, Nat.min_self]
  · have := hlen hptrs
    simp only [movedObj, if_pos hptrs]
    by_cases hle : n ≤ o.size
    · refine List.getD_eq_default _ _ ?_
      simp
      omega
    · rw [List.take_of_length_le (by omega), List.getD_append_right _ _ _ _ (by omega),
        List.getD_eq_getElem?_getD, List.getElem?_getD_replicate_default_eq]
  · have := hlen hptrs
    simp only [movedObj, if_pos hptrs]
    rw [List.getD_append _ _ _ _ (by rw [List.length_take]; omega),
      List.getD_eq_getElem?_getD, List.getElem?_take_of_lt hn, ← List.getD_eq_getElem?_getD]

/-! ## When the array is resized -/

/-- A call that returns has released only what may be. -/
theorem allows_of_returns (hr : r.Exact allowed) (ha : HasArray h p o kids) (hptrs : o.HoldsPtrs)
    (hfirst : first ≤ n) {x : Ret × Ptr × Heap}
    (hcall : Returns (fun fuel => h.resize r first fuel p n) x) :
    Allows allowed h
      (elemsCount kids (o.size - n) (if Reallocates o.size n then n else first)) := by
  obtain ⟨k, hk⟩ := hcall
  dsimp only at hk
  have hdepth : ∀ {j}, j < o.size → (kids j).depth <
      k + ((Owned.Tree.node o.label o.ptrs.length kids).depth + 1) := fun hj =>
    (ha.depth_lt hptrs hj).trans_le (Nat.le_add_left _ _)
  by_cases hmove : Reallocates o.size n
  · rw [if_pos hmove]
    have hx := hk (k + ((Owned.Tree.node o.label o.ptrs.length kids).depth + 1) + 1) (by omega)
    rw [resize_of_array ha, if_pos hmove] at hx
    obtain ⟨⟨dst, h₀⟩, hnew, hx⟩ := Option.bind_eq_some_iff.mp hx
    obtain ⟨-, hnew⟩ : arrayBytes o.type n < 2 ^ 32 ∧
        h.new (h.arrayObj o.type n false) = (dst, h₀) := by
      unfold mtAllocArrayInt at hnew
      split_ifs at hnew with hbytes
      exact ⟨hbytes, Option.some.inj hnew⟩
    obtain ⟨rfl, rfl⟩ := Prod.mk.inj hnew
    obtain ⟨y, hy, -⟩ := Option.map_eq_some_iff.mp hx
    change r.simple _ ((h.allocated o n).moveData p h.next o n) p o.type = _ at hy
    rw [simple_left ha hptrs] at hy
    obtain ⟨h₂, hloop, -⟩ := Option.map_eq_some_iff.mp hy
    obtain ⟨hh, -⟩ := left_hung (n := n) ha hptrs
    obtain ⟨-, hstart⟩ := elems_start h o kids o.size n
    have henough := ha.enough hptrs (show min o.size n + (o.size - n) ≤ o.size by omega)
    have hall := releaseElems_returned
      (fun j hj => release_returned hr (hdepth (show min o.size n + j < o.size by omega)))
      (fun j hj => release_releases hr.toSound (hdepth (show min o.size n + j < o.size by omega)))
        hh
      (fun b ob hb hob => by
        obtain ⟨ob', hob', hob₁⟩ := left_old (n := n) ha hptrs (hstart ▸ hb)
        exact henough b ob hb (Option.some.inj (hob₁.symm.trans hob) ▸ hob')) hloop
    intro b ob hb hob
    obtain ⟨ob', hob', hob₁⟩ := left_old (n := n) ha hptrs hb
    obtain rfl := Option.some.inj (hob.symm.trans hob')
    exact hall b ob (hstart.symm ▸ hb) hob₁
  · rw [if_neg hmove]
    by_cases hn : n < o.size
    · have hx := hk (k + ((Owned.Tree.node o.label o.ptrs.length kids).depth + 1)) (by omega)
      rw [resize_of_array ha, if_neg hmove, if_pos ⟨hn, hptrs.2⟩] at hx
      obtain ⟨h₂, hloop, -⟩ := Option.map_eq_some_iff.mp hx
      have hle : first + (o.size - n) ≤ o.size := by omega
      exact dropElems_returned
        (fun j hj => release_returned hr (hdepth (show first + j < o.size by omega)))
        (fun j hj => release_releases hr.toSound (hdepth (show first + j < o.size by omega)))
        (ha.hung hptrs hle) (ha.enough hptrs hle)
        (hle.trans (ha.wellFormed.length_eq_size hptrs).ge) hloop
    · rw [show o.size - n = 0 by omega]
      exact fun b ob hb => absurd hb (lt_irrefl 0)

/-- Where the array stays, the elements that are released are those that are dropped. -/
theorem Resized.covers (hr : r.Exact allowed) (ha : HasArray h p o kids) (hptrs : o.HoldsPtrs)
    (hstay : ¬ Reallocates o.size n) (hfirst : first ≤ n)
    (hall : Allows allowed h (elemsCount kids (o.size - n) first))
    (hcall : Returns (fun fuel => h.resize r first fuel p n) (.cont, q, h'))
    (hres : Resized h p o kids n o' q h') : Covers o first n := by
  by_cases hn : n < o.size
  · obtain ⟨h'', hcall', hd⟩ := resize_drops hr ha hptrs hstay hn hfirst hall
    obtain ⟨-, hsame⟩ := Prod.mk.inj (hcall.eq hcall')
    obtain ⟨rfl, rfl⟩ := Prod.mk.inj hsame
    have hlen : o.elems.length = o.size := ha.wellFormed.length_eq_size hptrs
    have hle : first + (o.size - n) ≤ o.size := by omega
    have hobj : h'.objs q = some { o with elems := cleared o.elems first (o.size - n) } := by
      have hh := ha.hung hptrs hle
      rw [hd.same (fun ⟨j, hj, hx⟩ => (hh.shows j hj).2 hx)
        (hh.elemsCount_eq_zero ha.obj ha.wellFormed)]
      exact Function.update_self ..
    obtain rfl := Option.some.inj (hres.obj.symm.trans hobj)
    have hkept := hres.kept
    have hnull := hres.null hptrs
    dsimp only at hkept hnull
    rw [cells_ptrs hptrs, Nat.min_eq_right hn.le] at hkept
    rintro i hi (⟨hin, hrange⟩ | ⟨hin, hrange⟩)
    · have hget := getD_cleared (hle.trans hlen.ge) i
      rw [if_pos hrange] at hget
      exact (getD_of_take_eq hkept hin).symm.trans hget
    · have hget := getD_cleared (hle.trans hlen.ge) i
      rw [if_neg hrange] at hget
      exact hget.symm.trans (hnull i (by omega))
  · rintro i hi (⟨_, _⟩ | ⟨_, _⟩)
    · omega
    · omega

/-- **The array is resized** if and only if a block that is needed has a size that fits a word, what
is released where it is covers what is dropped, and no barrier is released where that is an error.
-/
theorem resize_iff (hr : r.Exact allowed) (ha : HasArray h p o kids) (hfirst : first ≤ n) :
    (∃ q h' o', Returns (fun fuel => h.resize r first fuel p n) (.cont, q, h') ∧
        Resized h p o kids n o' q h') ↔
      (Reallocates o.size n → arrayBytes o.type n < 2 ^ 32) ∧
        (o.HoldsPtrs → ¬ Reallocates o.size n → Covers o first n) ∧
        (o.HoldsPtrs → Allows allowed h
          (elemsCount kids (o.size - n) (if Reallocates o.size n then n else first))) := by
  constructor
  · rintro ⟨q, h', o', hcall, hres⟩
    have hall := fun hptrs => allows_of_returns hr ha hptrs hfirst hcall
    refine ⟨fun hmove => ?_, fun hptrs hstay => ?_, hall⟩
    · by_contra hbytes
      obtain ⟨k, hk⟩ := hcall
      have hx := hk k le_rfl
      dsimp only at hx
      rw [resize_of_array ha, if_pos hmove, mtAllocArrayInt, if_neg hbytes] at hx
      cases hx
    · have hall := hall hptrs
      rw [if_neg hstay] at hall
      exact hres.covers hr ha hptrs hstay hfirst hall hcall
  · rintro ⟨hbytes, hcovers, hall⟩
    by_cases hmove : Reallocates o.size n
    · simp only [if_pos hmove] at hall
      obtain ⟨h', o', hcall, hres⟩ := resized_moves hr ha hmove (hbytes hmove) hall
      exact ⟨_, h', o', hcall, hres⟩
    · simp only [if_neg hmove] at hall
      by_cases hn : n < o.size ∧ o.HoldsPtrs
      · obtain ⟨h', o', hcall, hres⟩ := resized_in_place hr ha hn.2 hmove hn.1 hfirst (hall hn.2)
          (hcovers hn.2 hmove)
        exact ⟨_, h', o', hcall, hres⟩
      · exact ⟨p, h, o, resize_stays ha hmove hn, resized_stays ha hmove hn⟩

/-! ## The two calls -/

/-- The two calls leave the same elements, and each of them the first ones of the old array. -/
structure Agrees (h : Heap) (p : Ptr) (o : Obj) (kids : ℕ → Tree Ptr Label) (n : ℕ) : Prop where
  tvm : ∃ q h' o', Returns (fun fuel => h.insMtResize fuel mtResizeData p n) (.cont, q, h') ∧
    Resized h p o kids n o' q h'
  ccsp : ∃ q h' o', Returns (fun fuel => h.mtResize fuel mtResizeData p n) (.cont, q, h') ∧
    Resized h p o kids n o' q h'
  same : ∀ q h' o' q' h'' o'',
    Returns (fun fuel => h.insMtResize fuel mtResizeData p n) (.cont, q, h') →
    Returns (fun fuel => h.mtResize fuel mtResizeData p n) (.cont, q', h'') →
    h'.objs q = some o' → h''.objs q' = some o'' →
    o'.elems.take ({ o with size := min o.size n } : Obj).cells =
        o''.elems.take ({ o with size := min o.size n } : Obj).cells ∧
      (o.HoldsPtrs → ∀ i, o'.elems.getD i 0 = o''.elems.getD i 0)

theorem insMtResize_eq (ha : HasArray h p o kids) (fuel : ℕ) :
    h.insMtResize fuel mtResizeData p n = h.resize tvmReleaser 0 fuel p n :=
  if_pos ⟨rfl, (ha.ok.bound ha.obj).1.ne'⟩

theorem mtResize_eq (ha : HasArray h p o kids) (fuel : ℕ) :
    h.mtResize fuel mtResizeData p n = h.resize ccspReleaser n fuel p n :=
  if_pos ⟨rfl, (ha.ok.bound ha.obj).1.ne'⟩

/-- What is left in two heaps is the same. -/
theorem Resized.same {o'' : Obj} {q' : Ptr} {h'' : Heap} (hres : Resized h p o kids n o' q h')
    (hres' : Resized h p o kids n o'' q' h'') :
    o'.elems.take ({ o with size := min o.size n } : Obj).cells =
        o''.elems.take ({ o with size := min o.size n } : Obj).cells ∧
      (o.HoldsPtrs → ∀ i, o'.elems.getD i 0 = o''.elems.getD i 0) := by
  have hkept := hres.kept.trans hres'.kept.symm
  refine ⟨hkept, fun hptrs i => ?_⟩
  rw [cells_ptrs hptrs] at hkept
  by_cases hi : i < min o.size n
  · exact getD_of_take_eq hkept hi
  · rw [hres.null hptrs i (Nat.not_lt.mp hi), hres'.null hptrs i (Nat.not_lt.mp hi)]

theorem agrees_iff (ha : HasArray h p o kids) : Agrees h p o kids n ↔
    (∃ q h' o', Returns (fun fuel => h.resize tvmReleaser 0 fuel p n) (.cont, q, h') ∧
        Resized h p o kids n o' q h') ∧
      ∃ q h' o', Returns (fun fuel => h.resize ccspReleaser n fuel p n) (.cont, q, h') ∧
        Resized h p o kids n o' q h' := by
  have htvm := funext fun fuel => insMtResize_eq (n := n) ha fuel
  have hccsp := funext fun fuel => mtResize_eq (n := n) ha fuel
  constructor
  · rintro ⟨ht, hc, -⟩
    rw [htvm] at ht
    rw [hccsp] at hc
    exact ⟨ht, hc⟩
  · rintro ⟨ht, hc⟩
    rw [← htvm] at ht
    rw [← hccsp] at hc
    refine ⟨ht, hc, fun q h' o' q' h'' o'' hcall hcall' ho ho' => ?_⟩
    obtain ⟨q₁, h₁, o₁, ht, hres⟩ := ht
    obtain ⟨q₂, h₂, o₂, hc, hres'⟩ := hc
    obtain ⟨rfl, rfl⟩ := Prod.mk.inj (Prod.mk.inj (hcall.eq ht)).2
    obtain ⟨rfl, rfl⟩ := Prod.mk.inj (Prod.mk.inj (hcall'.eq hc)).2
    obtain rfl := Option.some.inj (ho.symm.trans hres.obj)
    obtain rfl := Option.some.inj (ho'.symm.trans hres'.obj)
    exact hres.same hres'

/-- What is dropped counts what one of its elements counts. -/
theorem elemsCount_pos {b : Ptr} :
    0 < elemsCount kids (k - n) n b ↔ ∃ i < k, n ≤ i ∧ 0 < (kids i).count b := by
  unfold elemsCount
  rw [Finset.sum_pos_iff]
  constructor
  · rintro ⟨j, hj, hpos⟩
    rw [Finset.mem_range] at hj
    exact ⟨n + j, by omega, Nat.le_add_right n j, hpos⟩
  · rintro ⟨i, hi, hn, hpos⟩
    refine ⟨i - n, Finset.mem_range.mpr (by omega), ?_⟩
    rwa [Nat.add_sub_cancel' hn]

/-- **An array keeps its first elements** in both calls if and only if a block that is needed has a
size that fits a word; where the array stays, those elements that libtvm releases from the first on
are the dropped ones or null, and the other dropped ones are null; and no barrier hangs from what is
dropped. -/
theorem mt_resize_keeps (ha : HasArray h p o kids) :
    Agrees h p o kids n ↔
      (Reallocates o.size n → arrayBytes o.type n < 2 ^ 32) ∧
        (o.HoldsPtrs → ¬ Reallocates o.size n → ∀ i < o.size,
          i < min n (o.size - n) ∨ max n (o.size - n) ≤ i → o.elems.getD i 0 = 0) ∧
        (o.HoldsPtrs → ∀ i < o.size, n ≤ i → ∀ b ob, 0 < (kids i).count b → h.objs b = some ob →
          mtType ob.type ≠ .barrier) := by
  rw [agrees_iff ha, resize_iff tvmReleaser_exact ha (Nat.zero_le n),
    resize_iff ccspReleaser_exact ha le_rfl]
  constructor
  · rintro ⟨⟨hbytes, hcovers, -⟩, -, -, hall⟩
    refine ⟨hbytes, fun hptrs hstay i hi hor => hcovers hptrs hstay i hi ?_,
      fun hptrs i hi hn b ob hb hob => ?_⟩
    · omega
    · have hall := hall hptrs
      rw [ite_self] at hall
      exact hall b ob (elemsCount_pos.mpr ⟨i, hi, hn, hb⟩) hob
  · rintro ⟨hbytes, hcovers, hall⟩
    refine ⟨⟨hbytes, fun hptrs hstay i hi hor => hcovers hptrs hstay i hi (by omega), fun _ => ?_⟩,
      hbytes, fun _ _ i hi hor => by omega, fun hptrs b ob hb hob => ?_⟩
    · exact fun _ _ _ _ => trivial
    · rw [ite_self] at hb
      obtain ⟨i, hi, hn, hb⟩ := elemsCount_pos.mp hb
      exact hall hptrs i hi hn b ob hb hob

/-- The array of two pointers, of which one is null. -/
theorem barriers_hasArray : barriers.HasArray 2
    ⟨1795, 0, 0, 0, [], 0, 2, [2], .null, .block, [1, 0]⟩
    (fun i => if i = 0 then .shared 1 else .null) where
  ok := barriers_ok
  obj := rfl
  array := by decide
  shows := barriers_shows
  refs := by
    intro b o hb ho
    have hcount : barriersTree.count b = if 1 = b then 1 else 0 := by
      simp [barriersTree, Tree.count, Finset.sum_range_succ]
    change 0 < barriersTree.count b at hb
    change barriersTree.count b ≤ _ ∧ _
    rw [hcount] at hb ⊢
    obtain rfl : 1 = b := by
      by_contra hne
      rw [if_neg hne] at hb
      exact absurd hb (lt_irrefl 0)
    obtain rfl := Option.some.inj ho
    exact ⟨by decide, trivial⟩

/-- The array grows. -/
theorem mt_resize_keeps_barriers : Agrees barriers 2
    ⟨1795, 0, 0, 0, [], 0, 2, [2], .null, .block, [1, 0]⟩
    (fun i => if i = 0 then .shared 1 else .null) 3 := by
  refine (mt_resize_keeps barriers_hasArray).mpr ⟨fun _ => by decide, fun _ hstay => ?_,
    fun _ i hi hn => ?_⟩
  · exact absurd (by decide) hstay
  · exact absurd (hn.trans_lt hi) (by decide)

/-- Where the array shrinks by one, libtvm releases the first element, and not the last. -/
theorem mt_resize_first : ¬ ∀ (h : Heap) (p : Ptr) (o : Obj) (kids : ℕ → Tree Ptr Label) (n : ℕ),
    HasArray h p o kids → Agrees h p o kids n := by
  intro hall
  have hagrees := hall _ _ _ _ 1 barriers_hasArray
  have htvm := ((agrees_iff barriers_hasArray).mp hagrees).1
  obtain ⟨-, hcovers, -⟩ :=
    (resize_iff tvmReleaser_exact barriers_hasArray (Nat.zero_le 1)).mp htvm
  exact absurd (hcovers (by decide) (by decide) 0 (by decide) (by decide)) (by decide)

end Heap

end Mobile

end Tvm

end Kroc
