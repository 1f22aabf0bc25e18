import Kroc.Tvm.MobileTree

/-!
# Tvm/MobileRelease — what a release takes away

`mt_release` frees the arrays and the data of a tree, and takes from each bundle and barrier one
reference for each place it has in the tree; with the last one it is freed.  The proof is once for
all releasers that do so with a single bundle or barrier.
-/

open Finset (range)

namespace Kroc

namespace Tvm

namespace Mobile

open Ectx (Ret)

open Owned (Tree View)

open Ccsp.Mobile (mtType mtSimple mtBarrierType elemType)

namespace Heap

variable {h h' h'' : Heap} {p q x : Ptr} {o o' o'' os : Obj} {t : Tree Ptr Label} {fuel : ℕ}
  {S T : Set Ptr} {c d : Ptr → ℕ} {allowed : ℕ → Prop} {kids : ℕ → Tree Ptr Label}

/-- An object with so many references fewer.  A barrier may have other numbers as well. -/
structure Lowered (k : ℕ) (o o' : Obj) : Prop where
  same : { o' with
    refCount := o.refCount, enrolled := o.enrolled, count := o.count, waiting := o.waiting } = o
  refCount : o'.refCount.toNat + k = o.refCount.toNat

theorem Lowered.trans {j k : ℕ} (hl : Lowered j o o') (hl' : Lowered k o' o'') :
    Lowered (j + k) o o'' := by
  refine ⟨?_, by rw [← hl.refCount, ← hl'.refCount, Nat.add_comm j, Nat.add_assoc]⟩
  have hsame := hl.same
  rw [← hl'.same] at hsame
  exact hsame

theorem Lowered.type_eq {k : ℕ} (hl : Lowered k o o') : o'.type = o.type := by
  rw [← hl.same]

/-- What a release comes to: the objects of `S` are freed, and `c` says how many references to each
bundle and barrier are gone. -/
structure Dropped (S : Set Ptr) (c : Ptr → ℕ) (h h' : Heap) : Prop where
  gone : ∀ {x}, x ∈ S → h'.objs x = none
  same : ∀ {x}, x ∉ S → c x = 0 → h'.objs x = h.objs x
  lower : ∀ {x o}, x ∉ S → h.objs x = some o → 0 < c x → c x < o.refCount.toNat →
    ∃ o', h'.objs x = some o' ∧ Lowered (c x) o o'
  last : ∀ {x o}, x ∉ S → h.objs x = some o → 0 < c x → c x = o.refCount.toNat → h'.objs x = none
  none : ∀ {x}, h.objs x = none → h'.objs x = none
  next : h'.next = h.next

/-- Each bundle and barrier has so many references, and may be released. -/
def Enough (allowed : ℕ → Prop) (h : Heap) (c : Ptr → ℕ) : Prop :=
  ∀ b o, 0 < c b → h.objs b = some o → c b ≤ o.refCount.toNat ∧ allowed o.type

namespace Dropped

theorem refl (h : Heap) : Dropped ∅ (fun _ => 0) h h :=
  ⟨fun hx => absurd hx (Set.notMem_empty _), fun _ _ => rfl, fun _ _ hc => absurd hc (lt_irrefl 0),
    fun _ _ hc => absurd hc (lt_irrefl 0), id, rfl⟩

theorem congr (hd : Dropped S c h h') (hS : ∀ x, x ∈ T ↔ x ∈ S) (hc : ∀ x, d x = c x) :
    Dropped T d h h' := by
  obtain rfl : T = S := Set.ext hS
  obtain rfl : d = c := funext hc
  exact hd

/-- **One release after another**. -/
theorem trans (hd : Dropped S c h h') (hd' : Dropped T d h' h'') :
    Dropped (S ∪ T) (fun x => c x + d x) h h'' where
  gone {x} hx := hx.elim (fun hx => hd'.none (hd.gone hx)) fun hx => hd'.gone hx
  same {x} hx hz := by
    obtain ⟨hS, hT⟩ := not_or.mp hx
    obtain ⟨hc, hd₀⟩ := Nat.add_eq_zero_iff.mp hz
    rw [hd'.same hT hd₀, hd.same hS hc]
  lower {x o} hx ho hpos hlt := by
    obtain ⟨hS, hT⟩ := not_or.mp hx
    rcases Nat.eq_zero_or_pos (c x) with hc | hc
    · rw [hc, Nat.zero_add] at hpos hlt ⊢
      exact hd'.lower hT ((hd.same hS hc).trans ho) hpos hlt
    · obtain ⟨o', ho', hl⟩ := hd.lower hS ho hc (Nat.lt_of_le_of_lt (Nat.le_add_right _ _) hlt)
      rcases Nat.eq_zero_or_pos (d x) with hz | hz
      · rw [hz, Nat.add_zero]
        exact ⟨o', (hd'.same hT hz).trans ho', hl⟩
      · have hrefs := hl.refCount
        obtain ⟨o'', ho'', hl'⟩ := hd'.lower hT ho' hz (by omega)
        exact ⟨o'', ho'', hl.trans hl'⟩
  last {x o} hx ho hpos heq := by
    obtain ⟨hS, hT⟩ := not_or.mp hx
    rcases Nat.eq_zero_or_pos (d x) with hz | hz
    · rw [hz, Nat.add_zero] at hpos heq
      exact hd'.none (hd.last hS ho hpos heq)
    · rcases Nat.eq_zero_or_pos (c x) with hc | hc
      · rw [hc, Nat.zero_add] at heq
        exact hd'.last hT ((hd.same hS hc).trans ho) hz heq
      · obtain ⟨o', ho', hl⟩ := hd.lower hS ho hc (by omega)
        have hrefs := hl.refCount
        exact hd'.last hT ho' hz (by omega)
  none hx := hd'.none (hd.none hx)
  next := hd'.next.trans hd.next

theorem free (h : Heap) (p : Ptr) : Dropped {p} (fun _ => 0) h (h.free p) where
  gone {x} hx := hx ▸ free_objs
  same {x} hx _ := free_objs_ne hx
  lower _ _ hc := absurd hc (lt_irrefl 0)
  last _ _ hc := absurd hc (lt_irrefl 0)
  none {x} hx := by
    by_cases he : x = p
    · exact he ▸ free_objs
    · rw [free_objs_ne he, hx]
  next := rfl

theorem ok (hd : Dropped S c h h') (hok : h.Ok) : h'.Ok where
  bound {x o} ho := by
    rw [hd.next]
    cases hx : h.objs x with
    | none => exact absurd ho (by rw [hd.none hx]; exact nofun)
    | some o' => exact hok.bound hx
  pos := hd.next ▸ hok.pos

/-- **The other trees stay as they were**, where references to the bundles and barriers in them are
left. -/
theorem shows (hd : Dropped S c h h') (hs : h.view.Shows p t)
    (hS : Disjoint (h.view.owned p t) S)
    (hc : ∀ b o, h.objs b = some o → o.WellFormed → c b = 0)
    (hleft : ∀ b o, 0 < t.count b → h.objs b = some o → b ∉ S ∧ c b < o.refCount.toNat) :
    h'.view.Shows p t ∧ h'.view.owned p t = h.view.owned p t := by
  refine hs.congr (fun q hq => ?_) fun b hb hl => ?_
  · obtain ⟨o, ho, hw⟩ := exists_of_owned hs hq
    exact node_congr (hd.same (Set.disjoint_left.mp hS hq) (hc q o ho hw))
  · obtain ⟨o, ho, hshared⟩ := hl
    obtain ⟨hnot, hlt⟩ := hleft b o hb ho
    rcases Nat.eq_zero_or_pos (c b) with hz | hz
    · exact ⟨o, (hd.same hnot hz).trans ho, hshared⟩
    · obtain ⟨o', ho', hlow⟩ := hd.lower hnot ho hz hlt
      refine ⟨o', ho', ?_⟩
      unfold Obj.Shared
      rwa [hlow.type_eq]

end Dropped

/-! ## The loop of an array -/

/-- What the call does with a tree. -/
def Releases (allowed : ℕ → Prop) (release : Heap → Ptr → Option (Ret × Heap))
    (t : Tree Ptr Label) : Prop :=
  ∀ {h : Heap} {p : Ptr}, h.Ok → h.view.Shows p t → p ≠ 0 → Enough allowed h (t.count ·) →
    ∃ ret h', release h p = some (ret, h') ∧ Dropped (h.view.owned p t) (t.count ·) h h'

/-- The last `n` elements of the array at `p`, from element `i`. -/
structure Hung (p : Ptr) (os : Obj) (kids : ℕ → Tree Ptr Label) (n i : ℕ) (h : Heap) : Prop where
  ok : h.Ok
  obj : h.objs p = some os
  wellFormed : os.WellFormed
  shows : ∀ j < n, h.view.Shows (os.elems.getD (i + j) 0) (kids (i + j)) ∧
    p ∉ h.view.owned (os.elems.getD (i + j) 0) (kids (i + j))
  apart : ∀ j < n, ∀ k < n, j ≠ k →
    Disjoint (h.view.owned (os.elems.getD (i + j) 0) (kids (i + j)))
      (h.view.owned (os.elems.getD (i + k) 0) (kids (i + k)))

/-- What these elements own. -/
def elemsOwned (os : Obj) (kids : ℕ → Tree Ptr Label) (n i : ℕ) (h : Heap) : Set Ptr :=
  {x | ∃ j < n, x ∈ h.view.owned (os.elems.getD (i + j) 0) (kids (i + j))}

/-- How many references to a bundle or a barrier they have. -/
def elemsCount (kids : ℕ → Tree Ptr Label) (n i : ℕ) (x : Ptr) : ℕ :=
  ∑ j ∈ range n, (kids (i + j)).count x

theorem elemsCount_succ (kids : ℕ → Tree Ptr Label) (n i : ℕ) (x : Ptr) :
    elemsCount kids (n + 1) i x = (kids i).count x + elemsCount kids n (i + 1) x := by
  unfold elemsCount
  rw [Finset.sum_range_succ', Nat.add_comm, Nat.add_zero]
  exact congrArg _ (Finset.sum_congr rfl fun j _ => by rw [Nat.add_right_comm, Nat.add_assoc])

variable {n i : ℕ}

theorem le_elemsCount {j : ℕ} (kids : ℕ → Tree Ptr Label) (i : ℕ) (x : Ptr) (hj : j < n) :
    (kids (i + j)).count x ≤ elemsCount kids n i x :=
  Finset.single_le_sum (f := fun j => (kids (i + j)).count x) (fun _ _ => Nat.zero_le _)
    (Finset.mem_range.mpr hj)

theorem mem_elemsOwned_succ : x ∈ elemsOwned os kids (n + 1) i h ↔
    x ∈ h.view.owned (os.elems.getD i 0) (kids i) ∪ elemsOwned os kids n (i + 1) h := by
  constructor
  · rintro ⟨_ | j, hj, hx⟩
    · exact .inl hx
    · refine .inr ⟨j, Nat.lt_of_succ_lt_succ hj, ?_⟩
      rwa [Nat.add_right_comm, Nat.add_assoc]
  · rintro (hx | ⟨j, hj, hx⟩)
    · exact ⟨0, n.succ_pos, hx⟩
    · refine ⟨j + 1, Nat.succ_lt_succ hj, ?_⟩
      rwa [Nat.add_right_comm, Nat.add_assoc] at hx

/-- An element's tree counts no object of one owner. -/
theorem Hung.count_eq_zero (hh : Hung p os kids n i h) {j : ℕ} (hj : j < n)
    (ho : h.objs x = some o) (hw : o.WellFormed) : (kids (i + j)).count x = 0 :=
  Heap.count_eq_zero (hh.shows j hj).1 ho hw

theorem Hung.elemsCount_eq_zero (hh : Hung p os kids n i h) (ho : h.objs x = some o)
    (hw : o.WellFormed) : elemsCount kids n i x = 0 :=
  Finset.sum_eq_zero fun _ hj => hh.count_eq_zero (Finset.mem_range.mp hj) ho hw

/-- One turn, after the element is released. -/
theorem Hung.next (hh : Hung p os kids (n + 1) i h)
    (hd : Dropped (h.view.owned (os.elems.getD i 0) (kids i)) ((kids i).count ·) h h')
    (henough : Enough allowed h (elemsCount kids (n + 1) i)) :
    Hung p os kids n (i + 1) h' ∧ elemsOwned os kids n (i + 1) h' =
      elemsOwned os kids n (i + 1) h := by
  have hkeep : ∀ j < n, h'.view.Shows (os.elems.getD (i + 1 + j) 0) (kids (i + 1 + j)) ∧
      h'.view.owned (os.elems.getD (i + 1 + j) 0) (kids (i + 1 + j)) =
        h.view.owned (os.elems.getD (i + 1 + j) 0) (kids (i + 1 + j)) := by
    intro j hj
    have hj' : j + 1 < n + 1 := Nat.succ_lt_succ hj
    have hshow := (hh.shows (j + 1) hj').1
    have hdisj := hh.apart (j + 1) hj' 0 n.succ_pos (Nat.succ_ne_zero j)
    rw [← Nat.add_assoc, Nat.add_right_comm] at hshow hdisj
    refine hd.shows hshow hdisj (fun b o ho hw => hh.count_eq_zero n.succ_pos ho hw)
      fun b o hb ho => ⟨fun hmem => ?_, ?_⟩
    · obtain ⟨o', ho', hw⟩ := exists_of_owned (hh.shows 0 n.succ_pos).1 hmem
      exact absurd (Heap.count_eq_zero hshow ho' hw) hb.ne'
    · have hle := le_elemsCount kids (i + 1) b hj
      have htotal := elemsCount_succ kids n i b
      have hrefs := (henough b o (by omega) ho).1
      omega
  have hp : p ∉ h.view.owned (os.elems.getD i 0) (kids i) := (hh.shows 0 n.succ_pos).2
  have hobj : h'.objs p = some os :=
    (hd.same hp (hh.count_eq_zero n.succ_pos hh.obj hh.wellFormed)).trans hh.obj
  refine ⟨⟨hd.ok hh.ok, hobj, hh.wellFormed, fun j hj => ⟨(hkeep j hj).1, ?_⟩,
    fun j hj k hk hjk => ?_⟩, ?_⟩
  · rw [(hkeep j hj).2, Nat.add_right_comm, Nat.add_assoc]
    exact (hh.shows (j + 1) (Nat.succ_lt_succ hj)).2
  · rw [(hkeep j hj).2, (hkeep k hk).2, Nat.add_right_comm i 1 j, Nat.add_assoc i j 1,
      Nat.add_right_comm i 1 k, Nat.add_assoc i k 1]
    exact hh.apart (j + 1) (Nat.succ_lt_succ hj) (k + 1) (Nat.succ_lt_succ hk)
      fun e => hjk (Nat.succ.inj e)
  · ext x
    exact exists_congr fun j => and_congr_right fun hj => by rw [(hkeep j hj).2]

theorem Enough.first (henough : Enough allowed h (elemsCount kids (n + 1) i)) :
    Enough allowed h ((kids i).count ·) := fun b o hb ho => by
  have hle := le_elemsCount kids i b n.succ_pos
  obtain ⟨hrefs, hall⟩ := henough b o (hb.trans_le hle) ho
  exact ⟨hle.trans hrefs, hall⟩

/-- The first element is released, if there is one. -/
theorem Hung.first {release : Heap → Ptr → Option (Ret × Heap)}
    (hh : Hung p os kids (n + 1) i h) (hrel : Releases allowed release (kids i))
    (henough : Enough allowed h ((kids i).count ·)) :
    ∃ h', (os.elems.getD i 0 = 0 ∧ h' = h ∨
        os.elems.getD i 0 ≠ 0 ∧ ∃ ret, release h (os.elems.getD i 0) = some (ret, h')) ∧
      Dropped (h.view.owned (os.elems.getD i 0) (kids i)) ((kids i).count ·) h h' := by
  have hshow : h.view.Shows (os.elems.getD i 0) (kids i) := (hh.shows 0 n.succ_pos).1
  by_cases hzero : os.elems.getD i 0 = 0
  · have hnull : kids i = .null := shows_zero_iff.mp (hzero ▸ hshow)
    refine ⟨h, .inl ⟨hzero, rfl⟩, (Dropped.refl h).congr (fun x => ?_) fun x => ?_⟩
    · rw [hnull]
      exact Iff.rfl
    · rw [hnull]
      rfl
  · obtain ⟨ret, h', hcall, hd⟩ := hrel hh.ok hshow hzero henough
    exact ⟨h', .inr ⟨hzero, ret, hcall⟩, hd⟩

/-- There are references enough for the elements that are left. -/
theorem Enough.next (henough : Enough allowed h (elemsCount kids (n + 1) i))
    (hd : Dropped S ((kids i).count ·) h h') : Enough allowed h' (elemsCount kids n (i + 1)) := by
  intro b o' hb ho'
  have htotal := elemsCount_succ kids n i b
  cases ho : h.objs b with
  | none => exact absurd ho' (by rw [hd.none ho]; exact nofun)
  | some o =>
    obtain ⟨hrefs, hall⟩ := henough b o (by omega) ho
    by_cases hmem : b ∈ S
    · exact absurd ho' (by rw [hd.gone hmem]; exact nofun)
    · rcases Nat.eq_zero_or_pos ((kids i).count b) with hz | hz
      · obtain rfl := Option.some.inj (((hd.same hmem hz).trans ho).symm.trans ho')
        exact ⟨by omega, hall⟩
      · obtain ⟨o'', ho'', hl⟩ := hd.lower hmem ho hz (by omega)
        obtain rfl := Option.some.inj (ho''.symm.trans ho')
        have hlow := hl.refCount
        exact ⟨by omega, hl.type_eq ▸ hall⟩

/-- The release of an element, and that of those behind it. -/
theorem Dropped.elems {g : Heap}
    (hd : Dropped (g.view.owned (os.elems.getD i 0) (kids i)) ((kids i).count ·) h h')
    (hd' : Dropped (elemsOwned os kids n (i + 1) g) (elemsCount kids n (i + 1)) h' h'') :
    Dropped (elemsOwned os kids (n + 1) i g) (elemsCount kids (n + 1) i) h h'' :=
  (hd.trans hd').congr (fun _ => mem_elemsOwned_succ) (elemsCount_succ kids n i)

/-- The elements that are left are released as well. -/
theorem releases_succ {release : Heap → Ptr → Option (Ret × Heap)}
    (hrel : ∀ j < n + 1, Releases allowed release (kids (i + j))) :
    ∀ j < n, Releases allowed release (kids (i + 1 + j)) := by
  intro j hj
  rw [Nat.add_right_comm, Nat.add_assoc]
  exact hrel (j + 1) (Nat.succ_lt_succ hj)

theorem Dropped.no_elems : Dropped (elemsOwned os kids 0 i h) (elemsCount kids 0 i) h' h' :=
  (Dropped.refl h').congr (fun x => ⟨fun ⟨j, hj, _⟩ => absurd hj (Nat.not_lt_zero j),
    fun hx => absurd hx (Set.notMem_empty x)⟩) fun _ => rfl

/-- **The loop of an array** releases each element. -/
theorem releaseElems_spec {release : Heap → Ptr → Option (Ret × Heap)}
    (hrel : ∀ j < n, Releases allowed release (kids (i + j))) (hh : Hung p os kids n i h)
    (henough : Enough allowed h (elemsCount kids n i)) :
    ∃ h', releaseElems release p n i h = some h' ∧
      Dropped (elemsOwned os kids n i h) (elemsCount kids n i) h h' := by
  induction n generalizing i h with
  | zero => exact ⟨h, rfl, .no_elems⟩
  | succ n ih =>
    have helem : h.elem p i = os.elems.getD i 0 := by
      simp [elem, hh.obj]
    obtain ⟨h₁, hstep, hd⟩ := hh.first (hrel 0 n.succ_pos) henough.first
    obtain ⟨hnext, howned⟩ := hh.next hd henough
    obtain ⟨h', hrest, hd'⟩ := ih (releases_succ hrel) hnext (henough.next hd)
    refine ⟨h', ?_, hd.elems (howned ▸ hd')⟩
    rw [releaseElems, helem]
    rcases hstep with ⟨hzero, rfl⟩ | ⟨hne, ret, hcall⟩
    · rw [hzero, if_neg (by simp), hrest]
    · rw [if_pos hne, hcall, Option.bind_some, hrest]

/-! ## The call -/

/-- The releaser takes one reference from a bundle, and from a barrier of a type that is allowed. -/
structure Releaser.Sound (r : Releaser) (allowed : ℕ → Prop) : Prop where
  cb : ∀ {h p o}, h.objs p = some o → mtType o.type = .cb → 0 < o.refCount.toNat →
    ∃ ret h', r.cb h p o = some (ret, h') ∧
      Dropped ∅ ((Tree.shared p : Tree Ptr Label).count ·) h h'
  barrier : ∀ {h p o}, h.objs p = some o → mtType o.type = .barrier → 0 < o.refCount.toNat →
    allowed o.type → ∃ ret h', r.barrier h p o = some (ret, h') ∧
      Dropped ∅ ((Tree.shared p : Tree Ptr Label).count ·) h h'

variable {r : Releaser}

theorem release_shared (hr : r.Sound allowed) (hs : h.view.Shows p (.shared q))
    (henough : Enough allowed h ((Tree.shared q : Tree Ptr Label).count ·)) :
    ∃ ret h', r.release (fuel + 1) h p = some (ret, h') ∧
      Dropped ∅ ((Tree.shared q : Tree Ptr Label).count ·) h h' := by
  obtain ⟨rfl, -, o, ho, hsimple, hk⟩ := hs
  have hone : 0 < (Tree.shared p : Tree Ptr Label).count p := by
    simp [Tree.count]
  obtain ⟨hrefs, hall⟩ := henough p o hone ho
  have hpos : 0 < o.refCount.toNat := hone.trans_le hrefs
  unfold Releaser.release
  rw [ho, Option.bind_some, if_pos hsimple, Releaser.simple, ho]
  rcases hk with hk | hk <;> rw [hk] <;> dsimp only
  · exact hr.cb ho hk hpos
  · exact hr.barrier ho hk hpos hall

/-- The elements of an array, before any is released. -/
theorem hung_of_shows (hok : h.Ok) (ho : h.objs p = some o) (hw : o.WellFormed)
    (hptrs : o.HoldsPtrs) (hs : h.view.Shows p (.node o.label o.elems.length kids)) :
    Hung p o kids o.elems.length 0 h ∧
      ∀ x, x ∈ h.view.owned p (.node o.label o.elems.length kids) ↔
        x ∈ elemsOwned o kids o.elems.length 0 h ∪ {p} := by
  have hps : h.view.node p = some (o.label, o.elems) := by
    rw [node_of_objs ho hw, Obj.ptrs, if_pos hptrs]
  have hkid : ∀ j < o.elems.length, h.view.kid p j = o.elems.getD j 0 := by
    intro j hj
    rw [Owned.View.kid_eq hps hj]
    simp [hj]
  obtain ⟨-, -, hkids, hself, hapart⟩ := hs
  refine ⟨⟨hok, ho, hw, fun j hj => ?_, fun j hj k hk hjk => ?_⟩, fun x => ?_⟩
  · rw [Nat.zero_add, ← hkid j hj]
    exact ⟨hkids j hj, hself j hj⟩
  · rw [Nat.zero_add, Nat.zero_add, ← hkid j hj, ← hkid k hk]
    exact hapart j hj k hk hjk
  · rw [Owned.View.mem_owned_node, Set.mem_union, Set.mem_singleton_iff, or_comm]
    refine or_congr_left (exists_congr fun j => and_congr_right fun hj => ?_)
    rw [Nat.zero_add, ← hkid j hj]

theorem release_eq_simple (ho : h.objs p = some o) (hsimple : mtSimple o.type) :
    r.release fuel h p = r.simple fuel h p o.type := by
  unfold Releaser.release
  rw [ho, Option.bind_some, if_pos hsimple]

theorem simple_array (ho : h.objs p = some o) (hptrs : o.HoldsPtrs) :
    r.simple (fuel + 1) h p o.type =
      (releaseElems (r.release fuel) p o.size 0 h).map fun h => (.cont, h.free p) := by
  rw [Releaser.simple, ho]
  dsimp only
  rw [hptrs.1]
  dsimp only
  rw [if_pos hptrs.2]
  rfl

/-- **An array is released** with its elements. -/
theorem simple_hung (hh : Hung p o kids o.elems.length 0 h) (hptrs : o.HoldsPtrs)
    (hrel : ∀ j < o.elems.length, Releases allowed (r.release fuel) (kids j))
    (henough : Enough allowed h (elemsCount kids o.elems.length 0)) :
    ∃ h', r.simple (fuel + 1) h p o.type = some (.cont, h') ∧
      Dropped (elemsOwned o kids o.elems.length 0 h ∪ {p}) (elemsCount kids o.elems.length 0) h
        h' := by
  have hlen : o.elems.length = o.size := hh.wellFormed.length_eq_size hptrs
  obtain ⟨h₁, hloop, hd⟩ :=
    releaseElems_spec (fun j hj => by rw [Nat.zero_add]; exact hrel j hj) hh henough
  refine ⟨h₁.free p, ?_, ?_⟩
  · rw [simple_array hh.obj hptrs, ← hlen, hloop, Option.map_some]
  · exact (hd.trans (Dropped.free h₁ p)).congr (fun _ => Iff.rfl) fun _ => rfl

theorem release_array (hok : h.Ok) (ho : h.objs p = some o) (hw : o.WellFormed)
    (hptrs : o.HoldsPtrs) (hs : h.view.Shows p (.node o.label o.elems.length kids))
    (hrel : ∀ j < o.elems.length, Releases allowed (r.release fuel) (kids j))
    (henough : Enough allowed h (elemsCount kids o.elems.length 0)) :
    ∃ h', r.release (fuel + 1) h p = some (.cont, h') ∧
      Dropped (h.view.owned p (.node o.label o.elems.length kids))
        (elemsCount kids o.elems.length 0) h h' := by
  obtain ⟨hhung, howned⟩ := hung_of_shows hok ho hw hptrs hs
  obtain ⟨h', hcall, hd⟩ := simple_hung hhung hptrs hrel henough
  refine ⟨h', ?_, hd.congr howned fun _ => rfl⟩
  rw [release_eq_simple ho hw.1, hcall]

/-- An object without pointers is freed. -/
theorem simple_leaf (ho : h.objs p = some o) (hw : o.WellFormed) (hptrs : ¬ o.HoldsPtrs) :
    r.simple (fuel + 1) h p o.type = some (.cont, h.free p) := by
  rw [Releaser.simple, ho]
  dsimp only
  rcases hw.kind with hk | hk
  · rw [hk]
    dsimp only
    rw [if_neg fun hn => hptrs ⟨hk, hn⟩]
  · rw [hk]

theorem release_leaf (ho : h.objs p = some o) (hw : o.WellFormed) (hptrs : ¬ o.HoldsPtrs) :
    r.release (fuel + 1) h p = some (.cont, h.free p) := by
  rw [release_eq_simple ho hw.1, simple_leaf ho hw hptrs]

/-- Elements that are null are passed over. -/
theorem releaseElems_skip {release : Heap → Ptr → Option (Ret × Heap)} {k : ℕ}
    (hnull : ∀ j < k, h.elem p (i + j) = 0) :
    releaseElems release p (k + n) i h = releaseElems release p n (i + k) h := by
  induction k generalizing i with
  | zero => rw [Nat.zero_add, Nat.add_zero]
  | succ k ih =>
    have hfirst : h.elem p i = 0 := hnull 0 k.succ_pos
    rw [Nat.add_right_comm, releaseElems, hfirst, if_neg (by simp), ih fun j hj => ?_]
    · rw [Nat.add_right_comm, Nat.add_assoc]
    · rw [Nat.add_right_comm, Nat.add_assoc]
      exact hnull (j + 1) (Nat.succ_lt_succ hj)

/-- **A release of what the heap shows** takes it away, with fuel for how deep it is nested. -/
theorem release_releases (hr : r.Sound allowed) (hfuel : t.depth < fuel) :
    Releases allowed (r.release fuel) t := by
  induction t generalizing fuel with
  | null => exact fun _ hs hp => absurd hs hp
  | shared q =>
    obtain ⟨fuel, rfl⟩ := Nat.exists_eq_succ_of_ne_zero (Nat.ne_of_gt hfuel)
    exact fun _ hs _ henough => release_shared hr hs henough
  | node label n kids ih =>
    obtain ⟨fuel, rfl⟩ := Nat.exists_eq_succ_of_ne_zero (Nat.ne_zero_of_lt hfuel)
    intro h p hok hs _ henough
    obtain ⟨ps, hps, rfl⟩ := hs.2.1
    obtain ⟨o, ho, hw, rfl, rfl⟩ := exists_of_node hps
    have hzero : ∀ x, elemsCount kids o.ptrs.length 0 x =
        (Owned.Tree.node o.label o.ptrs.length kids).count x := by
      intro x
      simp [elemsCount, Tree.count]
    by_cases hptrs : o.HoldsPtrs
    · have he : o.ptrs = o.elems := if_pos hptrs
      rw [he] at hs henough hfuel hzero ⊢
      have henough' : Enough allowed h (elemsCount kids o.elems.length 0) := by
        rwa [funext hzero]
      obtain ⟨h', hcall, hd⟩ := release_array hok ho hw hptrs hs
        (fun j hj => ih j (Nat.lt_of_lt_of_le (Tree.depth_lt hj) (Nat.le_of_lt_succ hfuel)))
        henough'
      exact ⟨.cont, h', hcall, hd.congr (fun _ => Iff.rfl) fun x => (hzero x).symm⟩
    · have he : o.ptrs = [] := if_neg hptrs
      rw [he]
      refine ⟨.cont, h.free p, release_leaf ho hw hptrs,
        (Dropped.free h p).congr (fun x => ?_) fun _ => rfl⟩
      rw [Owned.View.mem_owned_node, Set.mem_singleton_iff]
      refine or_iff_left fun hbelow => ?_
      obtain ⟨j, hj, -⟩ := hbelow
      exact Nat.not_lt_zero j hj

/-- Of an array or a block of data a release has no error. -/
theorem release_cont {ret : Ret} (ho : h.objs p = some o) (hw : o.WellFormed)
    (hcall : r.release fuel h p = some (ret, h')) : ret = .cont := by
  unfold Releaser.release at hcall
  rw [ho, Option.bind_some, if_pos hw.1] at hcall
  cases fuel with
  | zero => exact absurd hcall (by simp [Releaser.simple])
  | succ fuel =>
    rw [Releaser.simple, ho] at hcall
    dsimp only at hcall
    rcases hw.kind with hk | hk
    · rw [hk] at hcall
      dsimp only at hcall
      by_cases hnum : mtType (elemType o.type) ≠ .num
      · rw [if_pos hnum] at hcall
        obtain ⟨h₁, -, hret⟩ := Option.map_eq_some_iff.mp hcall
        exact (Prod.mk.inj hret).1.symm
      · rw [if_neg hnum] at hcall
        exact (Prod.mk.inj (Option.some.inj hcall)).1.symm
    · rw [hk] at hcall
      exact (Prod.mk.inj (Option.some.inj hcall)).1.symm

/-! ## More fuel -/

theorem releaseElems_mono {release release' : Heap → Ptr → Option (Ret × Heap)}
    (hle : ∀ {h p x}, release h p = some x → release' h p = some x) {n i : ℕ}
    (hx : releaseElems release p n i h = some h') : releaseElems release' p n i h = some h' := by
  induction n generalizing i h with
  | zero => exact hx
  | succ n ih =>
    rw [releaseElems] at hx ⊢
    by_cases hz : h.elem p i ≠ 0
    · rw [if_pos hz] at hx ⊢
      obtain ⟨x, hcall, hx⟩ := Option.bind_eq_some_iff.mp hx
      rw [hle hcall, Option.bind_some]
      exact ih hx
    · rw [if_neg hz] at hx ⊢
      exact ih hx

theorem simple_mono {type : ℕ} {x : Ret × Heap} (hx : r.simple fuel h p type = some x) :
    r.simple (fuel + 1) h p type = some x := by
  induction fuel generalizing h p type x with
  | zero => exact absurd hx (by simp [Releaser.simple])
  | succ fuel ih =>
    rw [Releaser.simple] at hx ⊢
    cases ho : h.objs p with
    | none => simp [ho] at hx
    | some o =>
      rw [ho] at hx
      dsimp only at hx ⊢
      cases hk : mtType type <;> rw [hk] at hx <;> dsimp only at hx ⊢
      case array =>
        by_cases hn : mtType (elemType type) ≠ .num
        · rw [if_pos hn] at hx ⊢
          obtain ⟨h₁, hloop, rfl⟩ := Option.map_eq_some_iff.mp hx
          rw [releaseElems_mono (fun {h q y} hy => ?_) hloop, Option.map_some]
          obtain ⟨o', ho', hy⟩ := Option.bind_eq_some_iff.mp hy
          rw [ho', Option.bind_some]
          by_cases hs : mtSimple o'.type = true
          · rw [if_pos hs] at hy ⊢
            exact ih hy
          · rwa [if_neg hs] at hy ⊢
        · rwa [if_neg hn] at hx ⊢
      all_goals exact hx

/-- More fuel does not change what a release comes to. -/
theorem release_mono {x : Ret × Heap} (hx : r.release fuel h p = some x) :
    r.release (fuel + 1) h p = some x := by
  obtain ⟨o, ho, hx⟩ := Option.bind_eq_some_iff.mp hx
  unfold Releaser.release
  rw [ho, Option.bind_some]
  by_cases hs : mtSimple o.type = true
  · rw [if_pos hs] at hx ⊢
    exact simple_mono hx
  · rwa [if_neg hs] at hx ⊢

/-! ## The releaser of libtvm -/

theorem count_shared : (Tree.shared p : Tree Ptr Label).count x = if p = x then 1 else 0 := rfl

theorem dropped_lower (hobjs : h'.objs = Function.update h.objs p (some o'))
    (hnext : h'.next = h.next) (ho : h.objs p = some o) (hl : Lowered 1 o o')
    (hlt : 1 < o.refCount.toNat) :
    Dropped ∅ ((Tree.shared p : Tree Ptr Label).count ·) h h' := by
  have hne : ∀ {x}, x ≠ p → h'.objs x = h.objs x := fun hx => by
    rw [hobjs, Function.update_of_ne hx]
  have hcounted : ∀ {x}, 0 < (Tree.shared p : Tree Ptr Label).count x → p = x := fun hpos => by
    by_contra hn
    simp [count_shared, hn] at hpos
  refine ⟨fun hx => absurd hx (Set.notMem_empty _), fun {x} _ hz => ?_,
    fun {x o₁} _ ho₁ hpos _ => ?_,
    fun {x o₁} _ ho₁ hpos heq => ?_, fun {x} hx => ?_, hnext⟩
  · exact hne fun e => by simp [count_shared, e] at hz
  · obtain rfl := hcounted hpos
    obtain rfl := Option.some.inj (ho.symm.trans ho₁)
    refine ⟨o', by rw [hobjs, Function.update_self], ?_⟩
    simpa [count_shared] using hl
  · obtain rfl := hcounted hpos
    obtain rfl := Option.some.inj (ho.symm.trans ho₁)
    rw [count_shared, if_pos rfl] at heq
    exact absurd heq hlt.ne
  · by_cases he : x = p
    · exact absurd hx (by rw [he, ho]; exact Option.some_ne_none o)
    · rw [hne he, hx]

theorem dropped_last (hobjs : h'.objs = Function.update h.objs p none)
    (hnext : h'.next = h.next) (ho : h.objs p = some o) (hone : o.refCount.toNat = 1) :
    Dropped ∅ ((Tree.shared p : Tree Ptr Label).count ·) h h' := by
  have hne : ∀ {x}, x ≠ p → h'.objs x = h.objs x := fun hx => by
    rw [hobjs, Function.update_of_ne hx]
  have hcounted : ∀ {x}, 0 < (Tree.shared p : Tree Ptr Label).count x → p = x := fun hpos => by
    by_contra hn
    simp [count_shared, hn] at hpos
  have hgone : h'.objs p = none := by
    rw [hobjs, Function.update_self]
  refine ⟨fun hx => absurd hx (Set.notMem_empty _), fun {x} _ hz => ?_,
    fun {x o₁} _ ho₁ hpos hlt => ?_, fun {x o₁} _ ho₁ hpos _ => hcounted hpos ▸ hgone,
    fun {x} hx => ?_, hnext⟩
  · exact hne fun e => by simp [count_shared, e] at hz
  · obtain rfl := hcounted hpos
    obtain rfl := Option.some.inj (ho.symm.trans ho₁)
    rw [count_shared, if_pos rfl, hone] at hlt
    exact absurd hlt (lt_irrefl 1)
  · by_cases he : x = p
    · exact he ▸ hgone
    · rw [hne he, hx]

theorem lowered_refCount (e c : Word) (w : List Word) (hpos : 0 < o.refCount.toNat) :
    Lowered 1 o { o with refCount := o.refCount - 1, enrolled := e, count := c, waiting := w } := by
  refine ⟨rfl, ?_⟩
  have hle : (1 : Word) ≤ o.refCount := by
    rw [BitVec.le_def]
    exact hpos
  dsimp only
  rw [BitVec.toNat_sub_of_le hle]
  exact Nat.sub_add_cancel hpos

/-- What a barrier is like after a process has resigned. -/
theorem barResign_objs (ho : h.objs p = some o) (n : Word) : ∃ ret h' e c w,
    h.barResign p n = some (ret, h') ∧ h'.next = h.next ∧
      h'.objs = Function.update h.objs p
        (some { o with enrolled := e, count := c, waiting := w }) := by
  unfold barResign
  rw [ho, Option.map_some]
  by_cases herr : n > o.enrolled ∨ n > o.count
  · refine ⟨.error, h, o.enrolled, o.count, o.waiting, by rw [if_pos herr], rfl, ?_⟩
    exact (Function.update_eq_self_iff.mpr ho.symm).symm
  · rw [if_neg herr]
    dsimp only
    by_cases hmore : o.count - n ≥ 1
    · rw [if_pos hmore]
      exact ⟨.cont, _, _, _, o.waiting, rfl, rfl, rfl⟩
    · rw [if_neg hmore]
      exact ⟨.cont, _, _, _, [], rfl, rfl, rfl⟩

theorem tvmReleaser_sound : tvmReleaser.Sound fun _ => True where
  cb {h p o} ho _ hpos := by
    by_cases hle : o.refCount ≤ 1
    · have hone : o.refCount.toNat = 1 := Nat.le_antisymm (BitVec.le_def.mp hle) hpos
      refine ⟨.cont, _, rfl, ?_⟩
      rw [if_pos hle]
      exact dropped_last rfl rfl ho hone
    · have hlt : 1 < o.refCount.toNat := Nat.not_le.mp fun hn => hle (BitVec.le_def.mpr hn)
      refine ⟨.cont, _, rfl, ?_⟩
      rw [if_neg hle, setRefCount, modify_eq_set ho]
      exact dropped_lower rfl rfl ho (lowered_refCount _ _ _ hpos) hlt
  barrier {h p o} ho _ hpos _ := by
    by_cases hgt : o.refCount > 1
    · have hlt : 1 < o.refCount.toNat := BitVec.lt_def.mp hgt
      by_cases hz : mtBarrierType o.type = 0
      · obtain ⟨ret, h', e, c, w, hcall, hnext, hobjs⟩ :=
          barResign_objs (h := h.setRefCount p (o.refCount - 1)) (modify_objs ho) 1
        refine ⟨ret, h', ?_, dropped_lower ?_ hnext ho (lowered_refCount e c w hpos) hlt⟩
        · simp only [tvmReleaser, if_pos hgt, if_pos hz, hcall]
        · rw [hobjs, setRefCount, modify_eq_set ho, Heap.set, Function.update_idem]
      · refine ⟨.cont, h.setRefCount p (o.refCount - 1), ?_, ?_⟩
        · simp only [tvmReleaser, if_pos hgt, if_neg hz]
        · rw [setRefCount, modify_eq_set ho]
          exact dropped_lower rfl rfl ho (lowered_refCount _ _ _ hpos) hlt
    · have hone : o.refCount.toNat = 1 :=
        Nat.le_antisymm (Nat.not_lt.mp fun hn => hgt (BitVec.lt_def.mpr hn)) hpos
      refine ⟨.cont, _, if_neg hgt, ?_⟩
      split_ifs
      · exact dropped_last rfl rfl ho hone
      · exact dropped_last rfl rfl ho hone

end Heap

end Mobile

end Tvm

end Kroc
