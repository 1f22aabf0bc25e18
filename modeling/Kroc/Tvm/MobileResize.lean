import Kroc.Tvm.MobileRelease

/-!
# Tvm/MobileResize — arrays of another size

`ins_mt_resize` of `ins_mobile.c`, and `mt_resize` of `runtime/ccsp/kernel/sched.c`.  An array that
grows, or shrinks to less than half, moves to a new block; else elements are released where they
are. The two calls differ in which elements these are, and in the release, which CCSP calls without
a scheduler.
-/

open Finset (range)

namespace Kroc

namespace Tvm

namespace Mobile

open Ectx (Ret)

open Owned (Tree View)

open Ccsp.Mobile (mtType mtSimple mtArrayDim mtBarrierType elemType)

/-! ## The calls -/

/-- `MT_RESIZE_DATA` -/
def mtResizeData : ℕ := 1

namespace Heap

variable (h : Heap)

/-- The loop that moves pointers to the new block, from element `i`. -/
def moveElems (src dst : Ptr) : ℕ → ℕ → Heap → Heap
  | 0, _, h => h
  | n + 1, i, h => moveElems src dst n (i + 1) ((h.setElem dst i (h.elem src i)).setElem src i 0)

/-- The loop that clears the rest of it. -/
def nullElems (dst : Ptr) : ℕ → ℕ → Heap → Heap
  | 0, _, h => h
  | n + 1, i, h => nullElems dst n (i + 1) (h.setElem dst i 0)

/-- The loop that releases elements where they are. -/
def dropElems (release : Heap → Ptr → Option (Ret × Heap)) (ptr : Ptr) :
    ℕ → ℕ → Heap → Option Heap
  | 0, _, h => some h
  | n + 1, i, h =>
    let p := h.elem ptr i
    if p ≠ 0 then
      (release h p).bind fun r => dropElems release ptr n (i + 1) (r.2.setElem ptr i 0)
    else dropElems release ptr n (i + 1) h

/-- An array is moved for which so much more, or so much less, is asked. -/
def Reallocates (oldSize newSize : ℕ) : Prop := oldSize < newSize ∨ newSize < oldSize >>> 1

instance (oldSize newSize : ℕ) : Decidable (Reallocates oldSize newSize) :=
  inferInstanceAs (Decidable (_ ∨ _))

/-- What is moved from the array `o` at `src` to `dst`. -/
def moveData (src dst : Ptr) (o : Obj) (newSize : ℕ) : Heap :=
  let count := if o.size < newSize then o.size else newSize
  if mtType (elemType o.type) = .num then
    h.modify dst fun o' =>
      { o' with
        elems := o.elems.take (count <<< sizeShift o.type) ++
          o'.elems.drop (count <<< sizeShift o.type) }
  else nullElems dst (newSize - o.size) count (moveElems src dst count 0 h)

/-- A call to resize, with the element from which it releases where it does not move the array. -/
def resize (r : Releaser) (first fuel : ℕ) (ptr : Ptr) (newSize : ℕ) : Option (Ret × Ptr × Heap) :=
  match h.objs ptr with
  | none => none
  | some o =>
    if mtSimple o.type ∧ mtType o.type = .array then
      if Reallocates o.size newSize then
        (h.mtAllocArrayInt o.type newSize false).bind fun (dst, h) =>
          let h := h.setDimensions dst (o.dimensions.take (mtArrayDim o.type))
          (r.simple fuel (h.moveData ptr dst o newSize) ptr o.type).map fun r => (.cont, dst, r.2)
      else if newSize < o.size ∧ mtType (elemType o.type) ≠ .num then
        (dropElems (r.release fuel) ptr (o.size - newSize) first h).map fun h => (.cont, ptr, h)
      else some (.cont, ptr, h)
    else (r.unknown h).map fun r => (r.1, 0, r.2)

/-- `ins_mt_resize`: what it returns, and what is then in `AREG`. -/
def insMtResize (fuel resizeType : ℕ) (ptr : Ptr) (newSize : ℕ) : Option (Ret × Ptr × Heap) :=
  if resizeType = mtResizeData ∧ ptr ≠ 0 then h.resize tvmReleaser 0 fuel ptr newSize
  else some (.error, 0, h)

/-- What CCSP does without a scheduler: a barrier is an error, with which the kernel exits. -/
def ccspReleaser : Releaser where
  cb h ptr o :=
    some (.cont, if o.refCount - 1 = 0 then h.free ptr else h.setRefCount ptr (o.refCount - 1))
  barrier _ _ _ := none
  unknown _ := none

/-- `mt_resize` of CCSP. -/
def mtResize (fuel resizeType : ℕ) (ptr : Ptr) (newSize : ℕ) : Option (Ret × Ptr × Heap) :=
  if resizeType = mtResizeData ∧ ptr ≠ 0 then h.resize ccspReleaser newSize fuel ptr newSize
  else none

variable {h} {h' : Heap} {p q src dst : Ptr} {o os od : Obj} {n i k : ℕ}
  {kids : ℕ → Tree Ptr Label} {t : Tree Ptr Label} {label : Label}

/-! ## What is moved -/

theorem modify_comm {f g : Obj → Obj} (hne : p ≠ q) :
    (h.modify p f).modify q g = (h.modify q g).modify p f := by
  unfold modify
  dsimp only
  rw [Function.update_of_ne hne.symm, Function.update_of_ne hne, Function.update_comm hne]

theorem setElem_eq (ho : h.objs p = some o) (i : ℕ) (q : Ptr) :
    h.setElem p i q = h.setElems p (o.elems.set i q) := by
  rw [setElem, setElems, modify_eq_set ho, modify_eq_set ho]

theorem setElems_setElems (a b : List ℕ) : (h.setElems p a).setElems p b = h.setElems p b :=
  modify_modify

theorem setElems_self {e : List ℕ} (ho : h.objs p = some { o with elems := e }) :
    h.setElems p e = h := by
  rw [setElems, modify_eq_set ho]
  unfold set
  rw [Function.update_eq_self_iff.mpr ho.symm]

theorem setElems_objs {e : List ℕ} (ho : h.objs p = some { o with elems := e }) (e' : List ℕ) :
    (h.setElems p e').objs p = some { o with elems := e' } := (modify_objs ho).trans rfl

theorem moveElems_eq (hne : src ≠ dst) {sa sl sr da dl dr : List ℕ}
    (hs : h.objs src = some { os with elems := sa ++ sl ++ sr })
    (hd : h.objs dst = some { od with elems := da ++ dl ++ dr })
    (hsa : sa.length = i) (hda : da.length = i) (hsl : sl.length = n) (hdl : dl.length = n) :
    moveElems src dst n i h =
      (h.setElems dst (da ++ sl ++ dr)).setElems src (sa ++ List.replicate n 0 ++ sr) := by
  induction n generalizing h i sa sl da dl with
  | zero =>
    obtain rfl := List.eq_nil_of_length_eq_zero hsl
    obtain rfl := List.eq_nil_of_length_eq_zero hdl
    rw [moveElems, List.replicate_zero, setElems_self hd, setElems_self hs]
  | succ n ih =>
    obtain ⟨x, sl, rfl⟩ := List.exists_cons_of_length_eq_add_one hsl
    obtain ⟨y, dl, rfl⟩ := List.exists_cons_of_length_eq_add_one hdl
    subst hsa
    have hx : h.elem src sa.length = x := by
      simp [elem, hs]
    rw [moveElems, hx, setElem_eq hd, setElem_eq (o := { os with elems := sa ++ x :: sl ++ sr })
      (by rw [setElems, modify_objs_ne hne, hs])]
    have hset : (da ++ y :: dl ++ dr).set sa.length x = (da ++ [x]) ++ dl ++ dr := by
      rw [← hda]
      simp
    have hset' : (sa ++ x :: sl ++ sr).set sa.length 0 = (sa ++ [0]) ++ sl ++ sr := by
      simp
    dsimp only
    rw [hset, hset']
    have hs' := setElems_objs (h := h.setElems dst (da ++ [x] ++ dl ++ dr))
      ((modify_objs_ne hne).trans hs) (sa ++ [0] ++ sl ++ sr)
    have hd' := (modify_objs_ne (f := fun o => { o with elems := sa ++ [0] ++ sl ++ sr })
      (p := src) hne.symm).trans (setElems_objs hd (da ++ [x] ++ dl ++ dr))
    rw [ih hs' hd' (by simp) (by simp [hda]) (Nat.succ.inj hsl) (Nat.succ.inj hdl)]
    unfold setElems
    rw [modify_comm hne, modify_modify, modify_modify]
    simp only [List.append_assoc, List.cons_append, List.nil_append, List.replicate_succ]

theorem nullElems_eq {da dl : List ℕ} (hd : h.objs dst = some { od with elems := da ++ dl })
    (hda : da.length = i) (hdl : dl.length = n) :
    nullElems dst n i h = h.setElems dst (da ++ List.replicate n 0) := by
  induction n generalizing h i da dl with
  | zero =>
    obtain rfl := List.eq_nil_of_length_eq_zero hdl
    rw [nullElems, List.replicate_zero, setElems_self hd]
  | succ n ih =>
    obtain ⟨y, dl, rfl⟩ := List.exists_cons_of_length_eq_add_one hdl
    subst hda
    have hset : (da ++ y :: dl).set da.length 0 = (da ++ [0]) ++ dl := by
      simp
    rw [nullElems, setElem_eq hd, hset, ih (setElems_objs hd _) (by simp) (Nat.succ.inj hdl),
      setElems_setElems]
    simp [List.replicate_succ]

/-! ## What is released where it is -/

variable {S : Set Ptr} {c : Ptr → ℕ} {allowed : ℕ → Prop} {r : Releaser}

/-- A release does not meet an object that it does not own, or count. -/
theorem Dropped.update {g g' : Heap} {v : Option Obj} (hd : Dropped S c h h') (hp : p ∉ S)
    (hc : c p = 0) (hg : g.objs = Function.update h.objs p v)
    (hg' : g'.objs = Function.update h'.objs p v) (hnext : g'.next = g.next) :
      Dropped S c g g' := by
  have hne : ∀ {x}, x ≠ p → g.objs x = h.objs x ∧ g'.objs x = h'.objs x := fun he => by
    rw [hg, hg', Function.update_of_ne he, Function.update_of_ne he]
    exact ⟨rfl, rfl⟩
  have heq : g'.objs p = g.objs p := by
    rw [hg, hg', Function.update_self, Function.update_self]
  refine ⟨fun {x} hx => ?_, fun {x} hx hz => ?_, fun {x o} hx ho hpos hlt => ?_,
    fun {x o} hx ho hpos hlast => ?_, fun {x} hx => ?_, hnext⟩
  · rw [(hne fun e => hp (e ▸ hx)).2]
    exact hd.gone hx
  · by_cases he : x = p
    · rw [he, heq]
    · rw [(hne he).1, (hne he).2]
      exact hd.same hx hz
  · have he : x ≠ p := fun e => absurd hc (e ▸ hpos).ne'
    rw [(hne he).1] at ho
    rw [(hne he).2]
    exact hd.lower hx ho hpos hlt
  · have he : x ≠ p := fun e => absurd hc (e ▸ hpos).ne'
    rw [(hne he).1] at ho
    rw [(hne he).2]
    exact hd.last hx ho hpos hlast
  · by_cases he : x = p
    · rw [he] at hx ⊢
      rw [heq, hx]
    · rw [(hne he).1] at hx
      rw [(hne he).2]
      exact hd.none hx

theorem Dropped.setElems (hd : Dropped S c h h') (hp : p ∉ S) (hc : c p = 0) (e : List ℕ) :
    Dropped S c (h.setElems p e) (h'.setElems p e) :=
  hd.update hp hc rfl (by rw [← hd.same hp hc]; rfl) hd.next

theorem Enough.modify {f : Obj → Obj} (henough : Enough allowed h c) (ho : h.objs p = some o)
    (hrefs : (f o).refCount = o.refCount) (htype : (f o).type = o.type) :
    Enough allowed (h.modify p f) c := by
  intro b ob hb hob
  by_cases he : b = p
  · subst he
    obtain rfl := Option.some.inj ((modify_objs ho).symm.trans hob)
    rw [hrefs, htype]
    exact henough b o hb ho
  · exact henough b ob hb ((modify_objs_ne he).symm.trans hob)

/-- The elements with some of them null. -/
def cleared (elems : List ℕ) (i n : ℕ) : List ℕ :=
  elems.take i ++ List.replicate n 0 ++ elems.drop (i + n)

theorem cleared_zero (elems : List ℕ) (i : ℕ) : cleared elems i 0 = elems := by
  simp [cleared]

theorem cleared_set {elems : List ℕ} (hi : i < elems.length) :
    cleared (elems.set i 0) (i + 1) n = cleared elems i (n + 1) := by
  have htake : (elems.set i 0).take (i + 1) = elems.take i ++ [0] := by
    rw [List.take_succ_eq_append_getElem (by rwa [List.length_set]), List.take_set_of_le le_rfl,
      List.getElem_set_self]
  unfold cleared
  rw [htake, List.drop_set_of_lt (by omega), Nat.add_right_comm, Nat.add_assoc]
  simp [List.replicate_succ]

theorem length_cleared {elems : List ℕ} (hlen : i + n ≤ elems.length) :
    (cleared elems i n).length = elems.length := by
  simp [cleared]
  omega

/-- The elements from `i` on are as they were. -/
theorem Hung.congr (hh : Hung p os kids n i h) (hok : h'.Ok) {e : List ℕ}
    (hobj : h'.objs p = some { os with elems := e }) (hlen : e.length = os.elems.length)
    (hget : ∀ j < n, e.getD (i + j) 0 = os.elems.getD (i + j) 0)
    (hold : ∀ {x o}, x ≠ p → h.objs x = some o → h'.objs x = some o) :
    Hung p { os with elems := e } kids n i h' ∧
      elemsOwned { os with elems := e } kids n i h' = elemsOwned os kids n i h := by
  have hkeep : ∀ j < n, h'.view.Shows (os.elems.getD (i + j) 0) (kids (i + j)) ∧
      h'.view.owned (os.elems.getD (i + j) 0) (kids (i + j)) =
        h.view.owned (os.elems.getD (i + j) 0) (kids (i + j)) := by
    intro j hj
    obtain ⟨hs, hnot⟩ := hh.shows j hj
    refine hs.congr (fun q hq => ?_) fun q hq ⟨o, ho, hl⟩ => ⟨o, hold (fun e => ?_) ho, hl⟩
    · obtain ⟨o, ho, -⟩ := exists_of_owned hs hq
      exact node_congr ((hold (fun e => hnot (e ▸ hq)) ho).trans ho.symm)
    · rw [e, hh.count_eq_zero hj hh.obj hh.wellFormed] at hq
      exact absurd hq (lt_irrefl 0)
  refine ⟨⟨hok, hobj, hh.wellFormed.elems hlen, fun j hj => ?_, fun j hj k hk hjk => ?_⟩, ?_⟩
  · dsimp only
    rw [hget j hj, (hkeep j hj).2]
    exact ⟨(hkeep j hj).1, (hh.shows j hj).2⟩
  · dsimp only
    rw [hget j hj, hget k hk, (hkeep j hj).2, (hkeep k hk).2]
    exact hh.apart j hj k hk hjk
  · ext x
    refine exists_congr fun j => and_congr_right fun hj => ?_
    dsimp only
    rw [hget j hj, (hkeep j hj).2]

/-- An element is null that has been released. -/
theorem Hung.setElem (hh : Hung p os kids n (i + 1) h) :
    Hung p { os with elems := os.elems.set i 0 } kids n (i + 1) (h.setElem p i 0) ∧
      elemsOwned { os with elems := os.elems.set i 0 } kids n (i + 1) (h.setElem p i 0) =
        elemsOwned os kids n (i + 1) h := by
  refine hh.congr hh.ok.modify (setElem_objs hh.obj) (List.length_set ..) (fun j _ => ?_)
    fun hne ho => (modify_objs_ne hne).trans ho
  simp [List.getD_eq_getElem?_getD, List.getElem?_set_ne (show i ≠ i + 1 + j by omega)]

theorem setElem_null (ho : h.objs p = some o) (hi : i < o.elems.length)
    (hz : o.elems.getD i 0 = 0) : h.setElem p i 0 = h := by
  have hget : o.elems[i] = 0 := by
    simpa [hi] using hz
  rw [setElem_eq ho, ← hget, List.set_getElem_self, setElems_self (by exact ho)]

theorem dropElems_spec {release : Heap → Ptr → Option (Ret × Heap)}
    (hrel : ∀ j < n, Releases allowed release (kids (i + j))) (hh : Hung p os kids n i h)
    (henough : Enough allowed h (elemsCount kids n i)) (hlen : i + n ≤ os.elems.length) :
    ∃ h', dropElems release p n i h = some h' ∧
      Dropped (elemsOwned os kids n i h) (elemsCount kids n i)
        (h.setElems p (cleared os.elems i n)) h' := by
  induction n generalizing i h os with
  | zero =>
    refine ⟨h, rfl, ?_⟩
    rw [cleared_zero, setElems_self (by exact hh.obj)]
    exact .no_elems
  | succ n ih =>
    have helem : h.elem p i = os.elems.getD i 0 := by
      simp [elem, hh.obj]
    obtain ⟨h₁, hstep, hd⟩ := hh.first (hrel 0 n.succ_pos) henough.first
    obtain ⟨hnext, howned⟩ := hh.next hd henough
    obtain ⟨hset, howned'⟩ := hnext.setElem
    have hp : p ∉ h.view.owned (os.elems.getD i 0) (kids i) := (hh.shows 0 n.succ_pos).2
    have hzero : (kids i).count p = 0 := hh.count_eq_zero n.succ_pos hh.obj hh.wellFormed
    have henough₁ : Enough allowed (h₁.setElem p i 0) (elemsCount kids n (i + 1)) :=
      (henough.next hd).modify hnext.obj rfl rfl
    obtain ⟨h', hrest, hd'⟩ := ih (releases_succ hrel) hset henough₁ (by
      dsimp only
      rw [List.length_set]
      omega)
    have hcleared : (h₁.setElem p i 0).setElems p (cleared (os.elems.set i 0) (i + 1) n) =
        h₁.setElems p (cleared os.elems i (n + 1)) := by
      rw [cleared_set (by omega), setElem_eq hnext.obj, setElems_setElems]
    dsimp only at hd'
    rw [howned', howned, hcleared] at hd'
    refine ⟨h', ?_, (hd.setElems hp hzero _).elems hd'⟩
    rw [dropElems, helem]
    rcases hstep with ⟨hz, rfl⟩ | ⟨hne, ret, hcall⟩
    · rw [hz, if_neg (by simp), ← setElem_null hh.obj (by omega) hz, hrest]
    · rw [if_pos hne, hcall, Option.bind_some, hrest]

/-! ## More fuel -/

theorem dropElems_mono {release release' : Heap → Ptr → Option (Ret × Heap)}
    (hle : ∀ {h p x}, release h p = some x → release' h p = some x)
    (hx : dropElems release p n i h = some h') : dropElems release' p n i h = some h' := by
  induction n generalizing i h with
  | zero => exact hx
  | succ n ih =>
    rw [dropElems] at hx ⊢
    by_cases hz : h.elem p i ≠ 0
    · rw [if_pos hz] at hx ⊢
      obtain ⟨x, hcall, hx⟩ := Option.bind_eq_some_iff.mp hx
      rw [hle hcall, Option.bind_some]
      exact ih hx
    · rw [if_neg hz] at hx ⊢
      exact ih hx

/-- More fuel does not change what a call comes to. -/
theorem resize_mono {first fuel newSize : ℕ} {x : Ret × Ptr × Heap}
    (hx : h.resize r first fuel p newSize = some x) :
    h.resize r first (fuel + 1) p newSize = some x := by
  unfold resize at hx ⊢
  cases ho : h.objs p with
  | none => simp [ho] at hx
  | some o =>
    rw [ho] at hx
    dsimp only at hx ⊢
    by_cases harray : mtSimple o.type ∧ mtType o.type = .array
    · rw [if_pos harray] at hx ⊢
      by_cases hmove : Reallocates o.size newSize
      · rw [if_pos hmove] at hx ⊢
        obtain ⟨⟨dst, h₁⟩, hnew, hx⟩ := Option.bind_eq_some_iff.mp hx
        obtain ⟨y, hy, rfl⟩ := Option.map_eq_some_iff.mp hx
        rw [hnew, Option.bind_some]
        dsimp only
        rw [simple_mono hy, Option.map_some]
      · rw [if_neg hmove] at hx ⊢
        by_cases hdrop : newSize < o.size ∧ mtType (elemType o.type) ≠ .num
        · rw [if_pos hdrop] at hx ⊢
          obtain ⟨y, hy, rfl⟩ := Option.map_eq_some_iff.mp hx
          rw [dropElems_mono release_mono hy, Option.map_some]
        · rwa [if_neg hdrop] at hx ⊢
    · rwa [if_neg harray] at hx ⊢

/-! ## What may be released -/

/-- A releaser that returns from a barrier only where that is allowed. -/
structure Releaser.Exact (r : Releaser) (allowed : ℕ → Prop) : Prop extends r.Sound allowed where
  bundle : ∀ {type}, mtType type = .cb → allowed type
  strict : ∀ {h p o x}, mtType o.type = .barrier → r.barrier h p o = some x → allowed o.type

/-- Only what may be released is counted. -/
def Allows (allowed : ℕ → Prop) (h : Heap) (c : Ptr → ℕ) : Prop :=
  ∀ b o, 0 < c b → h.objs b = some o → allowed o.type

theorem Enough.allows (henough : Enough (fun _ => True) h c) (hall : Allows allowed h c) :
    Enough allowed h c := fun b o hb ho => ⟨(henough b o hb ho).1, hall b o hb ho⟩

/-- What the call returns from. -/
def Returned (allowed : ℕ → Prop) (release : Heap → Ptr → Option (Ret × Heap))
    (t : Tree Ptr Label) : Prop :=
  ∀ {h : Heap} {p : Ptr} {x : Ret × Heap}, h.Ok → h.view.Shows p t → p ≠ 0 →
    Enough (fun _ => True) h (t.count ·) → release h p = some x → Allows allowed h (t.count ·)

/-- What may be released of the first element and, after that, of those behind it, may be released
of them all. -/
theorem Allows.of_next (hh : Hung p os kids (n + 1) i h)
    (henough : Enough (fun _ => True) h (elemsCount kids (n + 1) i))
    (hd : Dropped (h.view.owned (os.elems.getD i 0) (kids i)) ((kids i).count ·) h h')
    (hfirst : Allows allowed h ((kids i).count ·))
    (hrest : Allows allowed h' (elemsCount kids n (i + 1))) :
    Allows allowed h (elemsCount kids (n + 1) i) := by
  intro b o hb ho
  have htotal : elemsCount kids (n + 1) i b = (kids i).count b + elemsCount kids n (i + 1) b :=
    elemsCount_succ kids n i b
  have hrefs := (henough b o hb ho).1
  rcases Nat.eq_zero_or_pos ((kids i).count b) with hz | hz
  · have hpos : 0 < elemsCount kids n (i + 1) b := by omega
    have hmem : b ∉ h.view.owned (os.elems.getD i 0) (kids i) := fun hmem => by
      obtain ⟨o', ho', hw⟩ := exists_of_owned (hh.shows 0 n.succ_pos).1 hmem
      obtain ⟨j, hj, hcount⟩ : ∃ j ∈ range n, 0 < (kids (i + 1 + j)).count b :=
        Finset.exists_lt_of_sum_lt (by simpa [elemsCount] using hpos)
      have hj' : j + 1 < n + 1 := Nat.succ_lt_succ (Finset.mem_range.mp hj)
      have hzero := hh.count_eq_zero hj' ho' hw
      rw [← Nat.add_assoc, Nat.add_right_comm] at hzero
      exact absurd hzero hcount.ne'
    exact hrest b o hpos ((hd.same hmem hz).trans ho)
  · exact hfirst b o hz ho

/-- The first element, where the call returns from it. -/
theorem Hung.first_returned {release : Heap → Ptr → Option (Ret × Heap)}
    (hh : Hung p os kids (n + 1) i h) (hret : Returned allowed release (kids i))
    (hrel : Releases allowed release (kids i))
    (henough : Enough (fun _ => True) h (elemsCount kids (n + 1) i))
    (hcall : os.elems.getD i 0 ≠ 0 → ∃ x, release h (os.elems.getD i 0) = some x) :
    Allows allowed h ((kids i).count ·) ∧
      ∃ h', (os.elems.getD i 0 = 0 ∧ h' = h ∨
          os.elems.getD i 0 ≠ 0 ∧ ∃ ret, release h (os.elems.getD i 0) = some (ret, h')) ∧
        Dropped (h.view.owned (os.elems.getD i 0) (kids i)) ((kids i).count ·) h h' := by
  have hshow : h.view.Shows (os.elems.getD i 0) (kids i) := (hh.shows 0 n.succ_pos).1
  have hall : Allows allowed h ((kids i).count ·) := by
    by_cases hzero : os.elems.getD i 0 = 0
    · have hnull : kids i = .null := shows_zero_iff.mp (hzero ▸ hshow)
      rw [hnull]
      exact fun b o hb => absurd hb (lt_irrefl 0)
    · obtain ⟨x, hx⟩ := hcall hzero
      exact hret hh.ok hshow hzero henough.first hx
  exact ⟨hall, hh.first hrel (henough.first.allows hall)⟩

/-- The loop returns only from what may be released. -/
theorem releaseElems_returned {release : Heap → Ptr → Option (Ret × Heap)}
    (hret : ∀ j < n, Returned allowed release (kids (i + j)))
    (hrel : ∀ j < n, Releases allowed release (kids (i + j))) (hh : Hung p os kids n i h)
    (henough : Enough (fun _ => True) h (elemsCount kids n i))
    (hcall : releaseElems release p n i h = some h') : Allows allowed h (elemsCount kids n i) := by
  induction n generalizing i h with
  | zero => exact fun b o hb => absurd hb (lt_irrefl 0)
  | succ n ih =>
    have helem : h.elem p i = os.elems.getD i 0 := by
      simp [elem, hh.obj]
    rw [releaseElems, helem] at hcall
    obtain ⟨hall, h₁, hstep, hd⟩ :=
      hh.first_returned (hret 0 n.succ_pos) (hrel 0 n.succ_pos) henough
      fun hne => by
        rw [if_pos hne] at hcall
        obtain ⟨x, hx, -⟩ := Option.bind_eq_some_iff.mp hcall
        exact ⟨x, hx⟩
    have hrest : releaseElems release p n (i + 1) h₁ = some h' := by
      rcases hstep with ⟨hzero, rfl⟩ | ⟨hne, ret, hx⟩
      · rwa [hzero, if_neg (by simp)] at hcall
      · rwa [if_pos hne, hx, Option.bind_some] at hcall
    refine .of_next hh henough hd hall (ih (fun j hj => ?_) (releases_succ hrel)
      (hh.next hd henough).1 (henough.next hd) hrest)
    rw [Nat.add_right_comm, Nat.add_assoc]
    exact hret (j + 1) (Nat.succ_lt_succ hj)

theorem dropElems_returned {release : Heap → Ptr → Option (Ret × Heap)}
    (hret : ∀ j < n, Returned allowed release (kids (i + j)))
    (hrel : ∀ j < n, Releases allowed release (kids (i + j))) (hh : Hung p os kids n i h)
    (henough : Enough (fun _ => True) h (elemsCount kids n i)) (hlen : i + n ≤ os.elems.length)
    (hcall : dropElems release p n i h = some h') : Allows allowed h (elemsCount kids n i) := by
  induction n generalizing i h os with
  | zero => exact fun b o hb => absurd hb (lt_irrefl 0)
  | succ n ih =>
    have helem : h.elem p i = os.elems.getD i 0 := by
      simp [elem, hh.obj]
    rw [dropElems, helem] at hcall
    obtain ⟨hall, h₁, hstep, hd⟩ :=
      hh.first_returned (hret 0 n.succ_pos) (hrel 0 n.succ_pos) henough
      fun hne => by
        rw [if_pos hne] at hcall
        obtain ⟨x, hx, -⟩ := Option.bind_eq_some_iff.mp hcall
        exact ⟨x, hx⟩
    have hnext := (hh.next hd henough).1
    have hrest : dropElems release p n (i + 1) (h₁.setElem p i 0) = some h' := by
      rcases hstep with ⟨hzero, rfl⟩ | ⟨hne, ret, hx⟩
      · rw [hzero, if_neg (by simp)] at hcall
        rwa [setElem_null hh.obj (by omega) hzero]
      · rwa [if_pos hne, hx, Option.bind_some] at hcall
    have hall' := ih (fun j hj => by
        rw [Nat.add_right_comm, Nat.add_assoc]
        exact hret (j + 1) (Nat.succ_lt_succ hj)) (releases_succ hrel) (hnext.setElem).1
      ((henough.next hd).modify hnext.obj rfl rfl) (by
        dsimp only
        rw [List.length_set]
        omega) hrest
    refine .of_next hh henough hd hall fun b o hb ho => ?_
    have hne : b ≠ p := fun e => by
      rw [e, hnext.elemsCount_eq_zero hnext.obj hnext.wellFormed] at hb
      exact absurd hb (lt_irrefl 0)
    exact hall' b o hb ((modify_objs_ne hne).trans ho)

/-- **A release returns** only from what may be released. -/
theorem release_returned (hr : r.Exact allowed) {fuel : ℕ} (hfuel : t.depth < fuel) :
    Returned allowed (r.release fuel) t := by
  induction t generalizing fuel with
  | null => exact fun _ hs hp => absurd hs hp
  | shared q =>
    obtain ⟨fuel, rfl⟩ := Nat.exists_eq_succ_of_ne_zero (Nat.ne_of_gt hfuel)
    intro h p x hok hs hp henough hcall b o hb ho
    obtain ⟨rfl, -, o', ho', hsimple, hk⟩ := hs
    obtain rfl : p = b := by
      by_contra hne
      simp [Tree.count, hne] at hb
    obtain rfl := Option.some.inj (ho.symm.trans ho')
    rcases hk with hk | hk
    · exact hr.bundle hk
    · unfold Releaser.release at hcall
      rw [ho, Option.bind_some, if_pos hsimple, Releaser.simple, ho] at hcall
      dsimp only at hcall
      rw [hk] at hcall
      exact hr.strict hk hcall
  | node label n kids ih =>
    obtain ⟨fuel, rfl⟩ := Nat.exists_eq_succ_of_ne_zero (Nat.ne_zero_of_lt hfuel)
    intro h p x hok hs hp henough hcall
    obtain ⟨ps, hps, rfl⟩ := hs.2.1
    obtain ⟨o, ho, hw, rfl, rfl⟩ := exists_of_node hps
    have hzero : ∀ x, elemsCount kids o.ptrs.length 0 x =
        (Owned.Tree.node o.label o.ptrs.length kids).count x := by
      intro x
      simp [elemsCount, Tree.count]
    by_cases hptrs : o.HoldsPtrs
    · have he : o.ptrs = o.elems := if_pos hptrs
      rw [he] at hs henough hfuel hzero ⊢
      obtain ⟨hh, -⟩ := hung_of_shows hok ho hw hptrs hs
      rw [release_eq_simple ho hw.1, simple_array ho hptrs] at hcall
      obtain ⟨h', hloop, -⟩ := Option.map_eq_some_iff.mp hcall
      have hdepth : ∀ j < o.elems.length, (kids (0 + j)).depth < fuel := fun j hj => by
        rw [Nat.zero_add]
        exact Nat.lt_of_lt_of_le (Tree.depth_lt hj) (Nat.le_of_lt_succ hfuel)
      have hlen : o.elems.length = o.size := hw.length_eq_size hptrs
      have hall := releaseElems_returned (fun j hj => ih (0 + j) (hdepth j hj))
        (fun j hj => release_releases hr.toSound (hdepth j hj)) hh (by rwa [funext hzero])
        (hlen ▸ hloop)
      rwa [funext hzero] at hall
    · have he : o.ptrs = [] := if_neg hptrs
      rw [he]
      exact fun b o hb => absurd hb (lt_irrefl 0)

end Heap

end Mobile

end Tvm

end Kroc
