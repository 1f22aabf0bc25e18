import Mathlib.Data.List.TakeWhile
import Kroc.Lib.Chain
import Kroc.Lib.Extents
import Kroc.Lib.Returns

/-!
# Ccsp/Scrap — the scrap memory of the block allocator

Scrap is memory too small or too odd for a slab.  Its list is kept in the scrap itself: an entry
begins with a `scraplist_t`, the next entry and how many bytes are left, and the entries are in the
order of their addresses.
-/

namespace Kroc

namespace Ccsp

open Function (update)

/-! ## C's numbers -/

/-- A value of C's `int`. -/
def cInt (x : ℤ) : ℤ := x.bmod (2 ^ 32)

/-- The value of C's `unsigned int`, or of a pointer. -/
def cUnsigned (x : ℤ) : ℕ := (x % 2 ^ 32).toNat

theorem cInt_of_lt {x : ℤ} (h : -2 ^ 31 ≤ x) (h' : x < 2 ^ 31) : cInt x = x :=
  Int.bmod_eq_of_le (by omega) (by omega)

theorem cUnsigned_of_lt {x : ℤ} (h : 0 ≤ x) (h' : x < 2 ^ 32) : cUnsigned x = x.toNat := by
  rw [cUnsigned, Int.emod_eq_of_lt h h']

/-! ## The list -/

/-- The memory of the scrap list: `scrap_list` is the link of `0`, and every header has its two
fields. -/
structure ScrapMem where
  next : ℕ → ℕ
  left : ℕ → ℤ

/-- The stretch of an entry. -/
def ScrapMem.entry (m : ScrapMem) (a : ℕ) : Extent := ⟨a, (m.left a).toNat⟩

namespace ScrapMem

/-- `blkaddr` and `blksize` of a region: where its first aligned address should be. -/
def alignScrap (addr : ℕ) (bytes : ℤ) : ℕ × ℤ :=
  if addr % 8 ≠ 0 then ((addr - addr % 8 + 8) % 2 ^ 32, cInt (bytes - (addr % 8 : ℕ)))
  else (addr, bytes)

/-- `blockalloc_addscrap`.  A header at `NULL` cannot be written. -/
def blockallocAddscrap (fuel : ℕ) (m : ScrapMem) (addr : ℕ) (bytes : ℤ) : Option ScrapMem :=
  let blkaddr := (alignScrap addr bytes).1
  let blksize := (alignScrap addr bytes).2
  if cUnsigned blksize < 8 then
    some m
  else do
    guard (blkaddr ≠ 0)
    let target ← seekFrom 0 m.next (fun t => t < blkaddr) fuel 0
    some {
      next := update (update m.next blkaddr (m.next target)) target blkaddr
      left := update m.left blkaddr blksize }

/-- The size of a request, rounded up. -/
def roundScrap (bytes : ℤ) : ℤ :=
  if bytes % 8 ≠ 0 then cInt (bytes - bytes % 8 + 8) else bytes

/-- `blockalloc_getscrap`, where `malloc` gives `grab` if it is called.  What is returned, for how
many bytes `malloc` was called, and the memory. -/
def blockallocGetscrap (fuel : ℕ) (m : ScrapMem) (bytes : ℤ) (grab : ℕ) :
    Option (ℕ × Option ℕ × ScrapMem) := do
  let abytes := roundScrap bytes
  let prev ← seekFrom 0 m.next (fun t => m.left t < abytes) fuel 0
  let tmp := m.next prev
  if tmp ≠ 0 then
    let left := cInt (m.left tmp - abytes)
    if cUnsigned left < 8 then
      some (tmp, none, ⟨update m.next prev (m.next tmp), update m.left tmp left⟩)
    else
      let rest := cUnsigned (tmp + abytes)
      guard (rest ≠ 0)
      let next := update m.next prev rest
      let lefts := update m.left tmp left
      some (tmp, none, ⟨update next rest (next tmp), update lefts rest (lefts tmp)⟩)
  else if abytes < 2048 then
    let m ← m.blockallocAddscrap fuel (cUnsigned (grab + abytes)) (cInt (4000 - abytes))
    some (grab, some 4000, m)
  else
    some (grab, some (cUnsigned abytes), m)

/-! ## What the list holds -/

/-- **The list holds the entries `es`**, in the order of their addresses, apart from each other. -/
structure Holds (m : ScrapMem) (es : List ℕ) : Prop where
  linked : Linked 0 m.next (m.next 0) es
  sorted : es.Pairwise fun a b => (m.entry a).stop ≤ b
  align : ∀ a ∈ es, 8 ∣ a
  size : ∀ a ∈ es, 8 ≤ m.left a ∧ m.left a < 2 ^ 31

variable {m m' : ScrapMem} {es front rest l : List ℕ} {a b w : ℕ}

theorem entry_stop : (m.entry a).stop = a + (m.left a).toNat := rfl

theorem entry_congr (h : m'.left a = m.left a) : m'.entry a = m.entry a := by rw [entry, h, entry]

namespace Holds

theorem ne_zero (h : m.Holds es) (ha : a ∈ es) : a ≠ 0 := h.linked.ne_null a ha

theorem lt_stop (h : m.Holds es) (ha : a ∈ es) : a < (m.entry a).stop := by
  have := (h.size a ha).1
  rw [entry_stop]
  omega

theorem lt (h : m.Holds es) : es.Pairwise (· < ·) :=
  h.sorted.imp_of_mem fun ha _ hle => (h.lt_stop ha).trans_le hle

/-- **Two entries are apart**. -/
theorem apart (h : m.Holds es) (ha : a ∈ es) (hb : b ∈ es) (hne : a ≠ b) :
    (m.entry a).Apart (m.entry b) :=
  have : Std.Symm fun a b => (m.entry a).Apart (m.entry b) := ⟨fun _ _ => Extent.Apart.symm⟩
  (h.sorted.imp (S := fun a b => (m.entry a).Apart (m.entry b)) fun hle => .inl hle).forall
    ha hb hne

/-- The walk along the list ends. -/
theorem seek (h : m.Holds es) (pass : ℕ → Bool) :
    Returns (fun fuel => seekFrom 0 m.next pass fuel 0) ((es.takeWhile pass).getLastD 0) :=
  ⟨es.length + 1, fun _ hfuel => h.linked.seek_eq hfuel⟩

/-- Fewer entries. -/
theorem sublist (h : m.Holds es) (hsub : l.Sublist es) (hlink : Linked 0 m'.next (m'.next 0) l)
    (hleft : ∀ a ∈ l, m'.left a = m.left a) : m'.Holds l where
  linked := hlink
  sorted := (h.sorted.sublist hsub).imp_of_mem fun ha _ hle => by
    rwa [entry_congr (hleft _ ha)]
  align := fun a ha => h.align a (hsub.subset ha)
  size := fun a ha => by
    rw [hleft a ha]
    exact h.size a (hsub.subset ha)

/-- **An entry more**, in its place. -/
theorem place (h : m.Holds es) (hsub : (front ++ rest).Sublist es)
    (hlink : Linked 0 m'.next (m'.next 0) (front ++ w :: rest))
    (hleft : ∀ a ∈ front ++ rest, m'.left a = m.left a) (hw : 8 ∣ w)
    (hsize : 8 ≤ m'.left w ∧ m'.left w < 2 ^ 31) (hfront : ∀ a ∈ front, (m.entry a).stop ≤ w)
    (hrest : ∀ b ∈ rest, (m'.entry w).stop ≤ b) : m'.Holds (front ++ w :: rest) := by
  have hmem : ∀ {a}, a ∈ front ++ w :: rest → a = w ∨ a ∈ front ++ rest := by
    intro a ha
    simp only [List.mem_append, List.mem_cons] at ha ⊢
    tauto
  have hpair := List.pairwise_append.mp ((h.sorted.sublist hsub).imp_of_mem
    (S := fun a b => (m'.entry a).stop ≤ b) fun ha _ hle => by rwa [entry_congr (hleft _ ha)])
  refine ⟨hlink, List.pairwise_append.mpr ⟨hpair.1, List.pairwise_cons.mpr ⟨hrest, hpair.2.1⟩,
    fun a ha b hb => ?_⟩, fun a ha => ?_, fun a ha => ?_⟩
  · rcases List.mem_cons.mp hb with rfl | hb
    · rw [entry_congr (hleft a (List.mem_append_left _ ha))]
      exact hfront a ha
    · exact hpair.2.2 a ha b hb
  · rcases hmem ha with rfl | ha
    · exact hw
    · exact h.align a (hsub.subset ha)
  · rcases hmem ha with rfl | ha
    · exact hsize
    · rw [hleft a ha]
      exact h.size a (hsub.subset ha)

/-- The nodes past the place of `w` are behind it. -/
theorem le_of_mem_dropWhile {l : List ℕ} (h : l.Pairwise (· < ·)) {w b : ℕ}
    (hb : b ∈ l.dropWhile (· < w)) : w ≤ b := by
  induction l with
  | nil => exact absurd hb List.not_mem_nil
  | cons x l ih =>
    by_cases hx : x < w
    · rw [List.dropWhile_cons_of_pos (by simpa using hx)] at hb
      exact ih h.of_cons hb
    · rw [List.dropWhile_cons_of_neg (by simpa using hx)] at hb
      rcases List.mem_cons.mp hb with rfl | hb
      · exact Nat.le_of_not_lt hx
      · exact (Nat.le_of_not_lt hx).trans (List.rel_of_pairwise_cons h hb).le

/-- **A stretch apart from all the entries** goes to its place in the list. -/
theorem insert (h : m.Holds es) {size : ℤ} (hw : w ≠ 0) (halign : 8 ∣ w) (hsize : 8 ≤ size)
    (hlt : size < 2 ^ 31) (hapart : ∀ a ∈ es, (m.entry a).Apart ⟨w, size.toNat⟩) :
    ∃ t es', Returns (fun fuel => seekFrom 0 m.next (fun t => t < w) fuel 0) t ∧
      Holds ⟨update (update m.next w (m.next t)) t w, update m.left w size⟩ es' ∧
      ∀ a ∈ es', a = w ∨ a ∈ es ∧ a ≠ w := by
  set front := es.takeWhile (· < w) with hf
  set rest := es.dropWhile (· < w) with hr
  have hes : front ++ rest = es := List.takeWhile_append_dropWhile
  have hnotMem : w ∉ es := fun hmem => by
    have hpos := h.lt_stop hmem
    rcases hapart w hmem with hle | hle
    · exact absurd (hpos.trans_le hle) (Nat.lt_irrefl w)
    · simp only [Extent.stop, entry] at hle
      omega
  have hne : ∀ a ∈ es, a ≠ w := fun a ha e => hnotMem (e ▸ ha)
  have hzero : (0 : ℕ) ∉ es := fun hmem => h.ne_zero hmem rfl
  have hlinked := h.linked
  rw [← hes] at hlinked hnotMem hzero
  rw [List.mem_append, not_or] at hnotMem
  have ht : front.getLastD 0 ≠ w := fun e => by
    have hplace : front.getLastD 0 ∈ 0 :: front := Linked.mem_place
    rcases List.mem_cons.mp (e ▸ hplace) with e | hmem
    · exact hw e
    · exact hnotMem.1 hmem
  have hlink := hlinked.splice hzero (Linked.behind hlinked) (List.Subset.refl _) hw
    (fun hmem => (List.mem_cons.mp hmem).elim hw hnotMem.1) hnotMem.2
  rw [← Function.update_comm ht.symm] at hlink
  refine ⟨front.getLastD 0, front ++ w :: rest, h.seek _, ?_, fun a ha => ?_⟩
  · have hleft : ∀ a ∈ front ++ rest, update m.left w size a = m.left a := fun a ha =>
      Function.update_of_ne (hne a (hes ▸ ha)) ..
    refine h.place (hes ▸ List.Sublist.refl es) hlink hleft halign ?_ (fun a ha => ?_) fun b hb =>
      ?_
    · dsimp only
      rw [Function.update_self]
      exact ⟨hsize, hlt⟩
    · have hlt : a < w := by simpa using List.mem_takeWhile_imp ha
      rcases hapart a (hes ▸ List.mem_append_left _ ha) with hle | hle
      · exact hle
      · exact absurd (hle.trans hlt.le) (by simp only [Extent.stop]; omega)
    · have hle : w ≤ b := le_of_mem_dropWhile h.lt hb
      have hb' : b ∈ es := hes ▸ List.mem_append_right _ hb
      rcases hapart b hb' with hle' | hle'
      · exact absurd ((h.lt_stop hb').trans_le (hle'.trans hle)) (Nat.lt_irrefl b)
      · rw [entry_stop]
        dsimp only
        rw [Function.update_self]
        exact hle'
  · simp only [List.mem_append, List.mem_cons] at ha
    rcases ha with ha | rfl | ha
    · exact .inr ⟨hes ▸ List.mem_append_left _ ha, hne a (hes ▸ List.mem_append_left _ ha)⟩
    · exact .inl rfl
    · exact .inr ⟨hes ▸ List.mem_append_right _ ha, hne a (hes ▸ List.mem_append_right _ ha)⟩

end Holds

/-! ## Adding scrap -/

/-- The region `addr`, `size` keeps its entry inside: it is aligned, or it is not less than its
slack and, unless too small to matter, begins in the upper half of an aligned eight bytes. -/
def Roomy (addr size : ℕ) : Prop :=
  addr % 8 = 0 ∨ addr % 8 ≤ size ∧ (4 ≤ addr % 8 ∨ size < addr % 8 + 8)

theorem alignScrap_roomy {addr size : ℕ} (h : Roomy addr size) (hpos : 0 < addr)
    (hle : addr + size ≤ 2 ^ 32) (hlt : size < 2 ^ 31) :
    0 ≤ (alignScrap addr size).2 ∧ (alignScrap addr size).2 < 2 ^ 31 ∧
      (8 ≤ (alignScrap addr size).2 → 8 ∣ (alignScrap addr size).1 ∧ (alignScrap addr size).1 ≠ 0 ∧
        (Extent.mk (alignScrap addr size).1 (alignScrap addr size).2.toNat).Within ⟨addr,
          size⟩) := by
  unfold alignScrap
  split_ifs with hslack
  · rcases h with h | ⟨hsize, hhalf⟩
    · exact absurd h hslack
    · have hint : cInt (size - (addr % 8 : ℕ)) = size - (addr % 8 : ℕ) :=
        cInt_of_lt (by omega) (by omega)
      dsimp only
      rw [hint]
      refine ⟨by omega, by omega, fun h8 => ?_⟩
      rw [Nat.mod_eq_of_lt (by omega)]
      simp only [Extent.Within, Extent.stop]
      omega
  · exact ⟨by simp, by simpa using hlt, fun _ => ⟨Nat.dvd_of_mod_eq_zero (not_not.mp hslack),
      hpos.ne', by simpa using Extent.Within.refl _⟩⟩

/-- **Adding a region** puts nothing on the list but memory of the region. -/
theorem Holds.addscrap (h : m.Holds es) {addr size : ℕ} (hroomy : Roomy addr size)
    (hpos : 0 < addr) (hle : addr + size ≤ 2 ^ 32) (hlt : size < 2 ^ 31)
    (hapart : ∀ a ∈ es, (m.entry a).Apart ⟨addr, size⟩) :
    ∃ m' es', Returns (fun fuel => m.blockallocAddscrap fuel addr size) m' ∧ m'.Holds es' ∧
      ∀ a ∈ es', a ∈ es ∧ m'.entry a = m.entry a ∨ (m'.entry a).Within ⟨addr, size⟩ := by
  obtain ⟨hnonneg, hmax, hkeeps⟩ := alignScrap_roomy hroomy hpos hle hlt
  have hun : cUnsigned (alignScrap addr size).2 = (alignScrap addr size).2.toNat :=
    cUnsigned_of_lt hnonneg (by omega)
  unfold blockallocAddscrap
  by_cases hsmall : (alignScrap addr size).2 < 8
  · refine ⟨m, es, .of_some fun _ => ?_, h, fun a ha => .inl ⟨ha, rfl⟩⟩
    dsimp only
    rw [hun, if_pos (by omega)]
  · obtain ⟨halign, hzero, hwithin⟩ := hkeeps (by omega)
    obtain ⟨t, es', ht, hm', hmem⟩ := h.insert hzero halign (by omega) hmax fun a ha =>
      (hapart a ha).mono (.refl _) hwithin
    refine ⟨_, es', ?_, hm', fun a ha => ?_⟩
    · dsimp only
      simp only [hun, if_neg (show ¬ (alignScrap addr size).2.toNat < 8 by omega)]
      rw [guard, if_pos hzero]
      exact ht.bind (.of_some fun _ => rfl)
    · rcases hmem a ha with rfl | ⟨ha, hne⟩
      · refine .inr ?_
        rw [entry]
        dsimp only
        rwa [Function.update_self]
      · exact .inl ⟨ha, entry_congr (Function.update_of_ne hne ..)⟩

/-! ## Taking scrap -/

theorem roundScrap_spec {bytes : ℤ} (h : -8 < bytes) (h' : bytes ≤ 2 ^ 31 - 8) :
    0 ≤ roundScrap bytes ∧ roundScrap bytes < 2 ^ 31 ∧ bytes ≤ roundScrap bytes ∧
      roundScrap bytes % 8 = 0 ∧ (roundScrap bytes < 2048 ↔ bytes ≤ 2040) := by
  unfold roundScrap
  split_ifs with hround
  · rw [cInt_of_lt (by omega) (by omega)]
    omega
  · omega

/-- **A request that an entry can serve** leaves the rest of the entry on the list, or nothing. -/
theorem Holds.found {p : ℕ} {bytes : ℤ} (h : m.Holds (front ++ p :: rest))
    (hseek : Returns (fun fuel => seekFrom 0 m.next (fun t => m.left t < roundScrap bytes) fuel 0)
      (front.getLastD 0)) (hpos : 0 ≤ roundScrap bytes) (halign : roundScrap bytes % 8 = 0)
    (hle : roundScrap bytes ≤ m.left p) (hstop : (m.entry p).stop ≤ 2 ^ 32) (grab : ℕ) :
    ∃ m' es', Returns (fun fuel => m.blockallocGetscrap fuel bytes grab) (p, none, m') ∧
      m'.Holds es' ∧ ∀ a ∈ es', (a ∈ front ++ p :: rest ∧ a ≠ p ∧ m'.entry a = m.entry a) ∨
        ((m'.entry a).Within (m.entry p) ∧ p + (roundScrap bytes).toNat ≤ a) := by
  have hp : p ∈ front ++ p :: rest := by simp
  have hsize := h.size p hp
  have hlast : m.next (front.getLastD 0) = p := (Linked.behind h.linked).1
  have hzero : (0 : ℕ) ∉ front ++ p :: rest := fun hmem => h.ne_zero hmem rfl
  have hnodup : (0 :: (front ++ p :: rest)).Nodup := List.nodup_cons.mpr ⟨hzero, h.linked.nodup⟩
  have hrest : Linked 0 m.next (m.next p) rest := (Linked.behind h.linked).2.2
  have hsub : (front ++ rest).Sublist (front ++ p :: rest) := by simp
  have hne : ∀ a ∈ front ++ rest, a ≠ p := fun a ha e =>
    (List.nodup_middle.mp h.linked.nodup).notMem (e ▸ ha)
  have hleft : cInt (m.left p - roundScrap bytes) = m.left p - roundScrap bytes :=
    cInt_of_lt (by omega) (by omega)
  have hun : cUnsigned (m.left p - roundScrap bytes) = (m.left p - roundScrap bytes).toNat :=
    cUnsigned_of_lt (by omega) (by omega)
  rw [entry_stop] at hstop
  by_cases hsmall : m.left p - roundScrap bytes < 8
  · have hsame : ∀ a ∈ front ++ rest,
        update m.left p (m.left p - roundScrap bytes) a = m.left a := fun a ha =>
      Function.update_of_ne (hne a ha) ..
    refine ⟨⟨update m.next (front.getLastD 0) (m.next p),
      update m.left p (m.left p - roundScrap bytes)⟩, front ++ rest, ?_, h.sublist hsub
      (h.linked.cut hzero hrest (List.subset_cons_self p rest)) hsame,
      fun a ha => .inl ⟨hsub.subset ha, hne a ha, entry_congr (hsame a ha)⟩⟩
    unfold blockallocGetscrap
    refine hseek.bind (.of_some fun fuel => ?_)
    rw [hlast, if_pos (h.ne_zero hp), hleft]
    dsimp only
    rw [hun, if_pos (by omega)]
  · have hw : cUnsigned (p + roundScrap bytes) = p + (roundScrap bytes).toNat := by
      rw [cUnsigned_of_lt (by omega) (by omega)]
      omega
    set w := p + (roundScrap bytes).toNat with hwdef
    have hw0 : w ≠ 0 := by
      have := h.ne_zero hp
      omega
    have hplast : p ≠ front.getLastD 0 := Linked.ne_place hnodup List.mem_cons_self
    have hfront : ∀ a ∈ front, (m.entry a).stop ≤ w := fun a ha =>
      ((List.pairwise_append.mp h.sorted).2.2 a ha p List.mem_cons_self).trans (Nat.le_add_right ..)
    have hbehind : ∀ b ∈ rest, p + (m.left p).toNat ≤ b := fun b hb =>
      List.rel_of_pairwise_cons (List.pairwise_append.mp h.sorted).2.1 hb
    have hwf : w ∉ 0 :: front := fun hmem => by
      rcases List.mem_cons.mp hmem with e | hmem
      · exact hw0 e
      · exact absurd (h.lt_stop (List.mem_append_left _ hmem)) (not_lt_of_ge (hfront w hmem))
    have hwr : w ∉ rest := fun hmem => by
      have := hbehind w hmem
      omega
    have hwne : ∀ a ∈ front ++ rest, a ≠ w := fun a ha e => by
      rcases List.mem_append.mp ha with ha | ha
      · exact hwf (List.mem_cons_of_mem _ (e ▸ ha))
      · exact hwr (e ▸ ha)
    set left := m.left p - roundScrap bytes with hleftdef
    have hsame : ∀ a ∈ front ++ rest, update (update m.left p left) w left a = m.left a :=
      fun a ha => by rw [Function.update_of_ne (hwne a ha), Function.update_of_ne (hne a ha)]
    have hself : update (update m.left p left) w left w = left := Function.update_self ..
    refine ⟨⟨update (update m.next (front.getLastD 0) w) w (m.next p),
      update (update m.left p left) w left⟩, front ++ w :: rest, ?_, ?_, fun a ha => ?_⟩
    · unfold blockallocGetscrap
      refine hseek.bind (.of_some fun fuel => ?_)
      rw [hlast, if_pos (h.ne_zero hp), hleft]
      dsimp only
      rw [hun, if_neg (by omega), hw, guard, if_pos hw0, Function.update_of_ne hplast,
        Function.update_self]
      rfl
    · refine h.place hsub (h.linked.splice hzero hrest (List.subset_cons_self p rest) hw0 hwf hwr)
        hsame ?_ ?_ hfront fun b hb => ?_
      · have := h.align p hp
        omega
      · dsimp only
        rw [hself]
        omega
      · have := hbehind b hb
        rw [entry_stop]
        dsimp only
        rw [hself]
        omega
    · simp only [List.mem_append, List.mem_cons] at ha
      rcases ha with ha | rfl | ha
      · have ha := List.mem_append_left rest ha
        exact .inl ⟨hsub.subset ha, hne a ha, entry_congr (hsame a ha)⟩
      · refine .inr ⟨⟨Nat.le_add_right .., ?_⟩, le_rfl⟩
        rw [entry_stop, entry_stop]
        dsimp only
        rw [hself]
        omega
      · have ha := List.mem_append_right front ha
        exact .inl ⟨hsub.subset ha, hne a ha, entry_congr (hsame a ha)⟩

/-- **A request that no entry can serve**: `malloc` is called, for 4000 bytes if that leaves
scrap. -/
theorem Holds.asked (h : m.Holds es) {bytes : ℤ} (hnone : ∀ a ∈ es, m.left a < roundScrap bytes)
    (grab : ℕ) {fuel : ℕ} (hfuel : es.length < fuel) :
    m.blockallocGetscrap fuel bytes grab =
      if roundScrap bytes < 2048 then
        (m.blockallocAddscrap fuel (cUnsigned (grab + roundScrap bytes))
          (cInt (4000 - roundScrap bytes))).bind fun m => some (grab, some 4000, m)
      else some (grab, some (cUnsigned (roundScrap bytes)), m) := by
  have htake : es.takeWhile (fun t => m.left t < roundScrap bytes) = es :=
    List.takeWhile_eq_self_iff.mpr fun a ha => decide_eq_true (hnone a ha)
  have hseek : seekFrom 0 m.next (fun t => m.left t < roundScrap bytes) fuel 0 =
      some ((es.takeWhile fun t => m.left t < roundScrap bytes).getLastD 0) :=
    h.linked.seek_eq hfuel
  rw [htake] at hseek
  have hend : Linked 0 m.next (m.next (es.getLastD 0)) [] :=
    Linked.behind ((List.append_nil es).symm ▸ h.linked)
  have hlast : m.next (es.getLastD 0) = 0 := hend
  unfold blockallocGetscrap
  dsimp only
  rw [hseek]
  dsimp only [Option.bind_eq_bind, Option.bind_some]
  rw [hlast, if_neg (not_not.mpr rfl)]

/-- A request is served by an entry, or by none. -/
theorem Holds.cases (h : m.Holds es) (size : ℤ) :
    (∃ front p rest, es = front ++ p :: rest ∧ size ≤ m.left p ∧
      Returns (fun fuel => seekFrom 0 m.next (fun t => m.left t < size) fuel 0)
        (front.getLastD 0)) ∨ ∀ a ∈ es, m.left a < size := by
  have hes := List.takeWhile_append_dropWhile (p := fun t => decide (m.left t < size)) (l := es)
  have hnot := List.head?_dropWhile_not (fun t => decide (m.left t < size)) es
  cases hdrop : es.dropWhile (fun t => decide (m.left t < size)) with
  | nil =>
    refine .inr fun a ha => ?_
    rw [hdrop, List.append_nil] at hes
    rw [← hes] at ha
    have hpass := List.mem_takeWhile_imp ha
    exact of_decide_eq_true hpass
  | cons p rest =>
    rw [hdrop] at hes hnot
    exact .inl ⟨_, p, rest, hes.symm, by simpa using hnot, h.seek _⟩

end ScrapMem

end Ccsp

end Kroc
