import Kroc.Ccsp.Scrap

/-!
# Ccsp/ScrapRun — the scrap memory over whole runs

Regions are added, blocks are taken, and the owners of blocks and of other memory write as they
like.  No block has memory of another, and none leaves the memory that was added, as long as every
region keeps its entry inside.
-/

namespace Kroc

namespace Ccsp

open Function (update)

/-- The scrap memory, what was added to it or came from `malloc`, and the blocks returned from it,
each as long as was asked for. -/
structure Scrap where
  mem : ScrapMem
  regions : List Extent
  blocks : List Extent

/-- What may happen: a region is added, a block is taken where `malloc` gives `grab` if it is
called, or memory is written by others. -/
inductive ScrapCall where
  | add (addr size : ℕ)
  | take (bytes : ℤ) (grab : ℕ)
  | write (mem : ScrapMem)

namespace Scrap

/-- Nothing was added yet. -/
def start (left : ℕ → ℤ) : Scrap := ⟨⟨fun _ => 0, left⟩, [], []⟩

/-- Memory in the address space, apart from all the regions. -/
structure Fresh (x : Scrap) (r : Extent) : Prop where
  pos : 0 < r.start
  le : r.stop ≤ 2 ^ 32
  apart : ∀ t ∈ x.regions, r.Apart t

/-- What `malloc` promises about `size` bytes at `p`. -/
structure Malloced (x : Scrap) (p size : ℕ) : Prop extends x.Fresh ⟨p, size⟩ where
  align : 8 ∣ p

/-- The header at `a` is memory of the scrap list: in a region and in no block. -/
def Kept (x : Scrap) (a : ℕ) : Prop :=
  (∃ r ∈ x.regions, (Extent.mk a 8).Within r) ∧ ∀ b ∈ x.blocks, (Extent.mk a 8).Apart b

/-- After a block of `bytes` is returned at `p`, unless `NULL` is. -/
def took (x : Scrap) (bytes : ℤ) (grab : ℕ) (p : ℕ) (asked : Option ℕ) (m : ScrapMem) : Scrap where
  mem := m
  regions := if grab = 0 then x.regions else (asked.map (Extent.mk grab)).toList ++ x.regions
  blocks := if p = 0 then x.blocks else ⟨p, bytes.toNat⟩ :: x.blocks

/-- **One step**. -/
inductive Step : Scrap → ScrapCall → Scrap → Prop
  | add {x : Scrap} {addr size : ℕ} {m : ScrapMem} :
      x.Fresh ⟨addr, size⟩ → size < 2 ^ 31 →
      Returns (fun fuel => x.mem.blockallocAddscrap fuel addr size) m →
      Step x (.add addr size) { x with mem := m, regions := ⟨addr, size⟩ :: x.regions }
  | take {x : Scrap} {bytes : ℤ} {grab p : ℕ} {asked : Option ℕ} {m : ScrapMem} :
      -2 ^ 31 ≤ bytes → bytes < 2 ^ 31 →
      (∀ size ∈ asked, grab ≠ 0 → x.Malloced grab size) →
      Returns (fun fuel => x.mem.blockallocGetscrap fuel bytes grab) (p, asked, m) →
      Step x (.take bytes grab) (x.took bytes grab p asked m)
  | write {x : Scrap} {m : ScrapMem} :
      m.next 0 = x.mem.next 0 →
      (∀ a, x.Kept a → m.next a = x.mem.next a ∧ m.left a = x.mem.left a) →
      Step x (.write m) { x with mem := m }

/-- The region keeps its entry inside; the request can be rounded up to a size that is not negative,
and `malloc` does not fail where scrap is refilled. -/
def Sound : ScrapCall → Prop
  | .add addr size => ScrapMem.Roomy addr size
  | .take bytes grab => -8 < bytes ∧ bytes ≤ 2 ^ 31 - 8 ∧ (bytes ≤ 2040 → grab ≠ 0)
  | .write _ => True

/-- The states of the runs whose calls are all sound. -/
inductive Reachable (sound : ScrapCall → Prop) : Scrap → Prop
  | start (left : ℕ → ℤ) : Reachable sound (start left)
  | next {x y : Scrap} {c : ScrapCall} : Reachable sound x → sound c → x.Step c y →
      Reachable sound y

/-- **What the scrap memory is for**: a block that was returned is aligned, lies in memory that was
added, and has no byte of another block or of the list; the list lies in memory that was added. -/
structure Safe (x : Scrap) : Prop where
  align : ∀ b ∈ x.blocks, 8 ∣ b.start
  within : ∀ b ∈ x.blocks, ∃ r ∈ x.regions, b.Within r
  apart : x.blocks.Pairwise Extent.Apart
  list : ∃ es, Linked 0 x.mem.next (x.mem.next 0) es ∧
    ∀ a ∈ es, (∃ r ∈ x.regions, (x.mem.entry a).Within r) ∧
      ∀ b ∈ x.blocks, (x.mem.entry a).Apart b

/-! ## The invariant -/

variable {x y : Scrap} {es : List ℕ} {c : ScrapCall}

/-- **The list holds `es`**, in memory that was added and apart from the blocks. -/
structure Inv (x : Scrap) (es : List ℕ) : Prop where
  holds : x.mem.Holds es
  region : ∀ a ∈ es, ∃ r ∈ x.regions, (x.mem.entry a).Within r
  free : ∀ a ∈ es, ∀ b ∈ x.blocks, (x.mem.entry a).Apart b
  align : ∀ b ∈ x.blocks, 8 ∣ b.start
  within : ∀ b ∈ x.blocks, ∃ r ∈ x.regions, b.Within r
  apart : x.blocks.Pairwise Extent.Apart
  top : ∀ r ∈ x.regions, r.stop ≤ 2 ^ 32

theorem Inv.safe (h : x.Inv es) : x.Safe :=
  ⟨h.align, h.within, h.apart, es, h.holds.linked, fun a ha => ⟨h.region a ha, h.free a ha⟩⟩

theorem inv_start (left : ℕ → ℤ) : (start left).Inv [] where
  holds := ⟨rfl, .nil, by simp, by simp⟩
  region := by simp
  free := by simp
  align := by simp [start]
  within := by simp [start]
  apart := .nil
  top := by simp [start]

/-- A region more. -/
theorem Inv.region_cons (h : x.Inv es) {r : Extent} (hr : r.stop ≤ 2 ^ 32) :
    { x with regions := r :: x.regions }.Inv es where
  holds := h.holds
  region := fun a ha => (h.region a ha).imp fun _ hr => ⟨List.mem_cons_of_mem _ hr.1, hr.2⟩
  free := h.free
  align := h.align
  within := fun b hb => (h.within b hb).imp fun _ hr => ⟨List.mem_cons_of_mem _ hr.1, hr.2⟩
  apart := h.apart
  top := List.forall_mem_cons.mpr ⟨hr, h.top⟩

/-- Memory apart from all the regions is apart from the list and from the blocks. -/
theorem Inv.entry_apart (h : x.Inv es) {r : Extent} (hr : ∀ t ∈ x.regions, r.Apart t) {a : ℕ}
    (ha : a ∈ es) : (x.mem.entry a).Apart r := by
  obtain ⟨t, ht, hwithin⟩ := h.region a ha
  exact (hr t ht).symm.mono hwithin (.refl r)

theorem Inv.block_apart (h : x.Inv es) {r : Extent} (hr : ∀ t ∈ x.regions, r.Apart t) {b : Extent}
    (hb : b ∈ x.blocks) : b.Apart r := by
  obtain ⟨t, ht, hwithin⟩ := h.within b hb
  exact (hr t ht).symm.mono hwithin (.refl r)

/-- The list changes: what is on it was on it, or is memory of a region that is nobody's. -/
theorem Inv.change (h : x.Inv es) {m : ScrapMem} {es' : List ℕ} (hm : m.Holds es') {e r : Extent}
    (hr : r ∈ x.regions) (hwithin : e.Within r) (hfree : ∀ b ∈ x.blocks, e.Apart b)
    (hmem : ∀ a ∈ es', a ∈ es ∧ m.entry a = x.mem.entry a ∨ (m.entry a).Within e) :
    { x with mem := m }.Inv es' where
  holds := hm
  region := fun a ha => (hmem a ha).elim (fun hold => hold.2 ▸ h.region a hold.1)
    fun hnew => ⟨r, hr, hnew.trans hwithin⟩
  free := fun a ha b hb => (hmem a ha).elim (fun hold => hold.2 ▸ h.free a hold.1 b hb)
    fun hnew => (hfree b hb).mono hnew (.refl b)
  align := h.align
  within := h.within
  apart := h.apart
  top := h.top

/-- A block more, apart from the list and from the blocks. -/
theorem Inv.block_cons (h : x.Inv es) {b r : Extent} (hr : r ∈ x.regions) (hwithin : b.Within r)
    (halign : 8 ∣ b.start) (hlist : ∀ a ∈ es, (x.mem.entry a).Apart b)
    (hblocks : ∀ c ∈ x.blocks, b.Apart c) : { x with blocks := b :: x.blocks }.Inv es where
  holds := h.holds
  region := h.region
  free := fun a ha => List.forall_mem_cons.mpr ⟨hlist a ha, h.free a ha⟩
  align := List.forall_mem_cons.mpr ⟨halign, h.align⟩
  within := List.forall_mem_cons.mpr ⟨⟨r, hr, hwithin⟩, h.within⟩
  apart := List.pairwise_cons.mpr ⟨hblocks, h.apart⟩
  top := h.top

/-! ## The steps -/

/-- **Adding a region** keeps the invariant. -/
theorem Inv.add (h : x.Inv es) {addr size : ℕ} (hfresh : x.Fresh ⟨addr, size⟩)
    (hlt : size < 2 ^ 31) (hroomy : ScrapMem.Roomy addr size) :
    ∃ m es', Returns (fun fuel => x.mem.blockallocAddscrap fuel addr size) m ∧
      { x with mem := m, regions := ⟨addr, size⟩ :: x.regions }.Inv es' := by
  obtain ⟨m, es', hcall, hm, hmem⟩ := h.holds.addscrap hroomy hfresh.pos hfresh.le hlt
    fun a ha => h.entry_apart hfresh.apart ha
  exact ⟨m, es', hcall, (h.region_cons hfresh.le).change hm List.mem_cons_self (.refl _)
    (fun b hb => (h.block_apart hfresh.apart hb).symm) hmem⟩

/-- **A block from an entry**. -/
theorem Inv.found {front rest : List ℕ} {p : ℕ} {bytes : ℤ} (h : x.Inv (front ++ p :: rest))
    (hseek : Returns (fun fuel => seekFrom 0 x.mem.next
      (fun t => x.mem.left t < ScrapMem.roundScrap bytes) fuel 0) (front.getLastD 0))
    (hround : 0 ≤ ScrapMem.roundScrap bytes ∧ bytes ≤ ScrapMem.roundScrap bytes ∧
      ScrapMem.roundScrap bytes % 8 = 0)
    (hle : ScrapMem.roundScrap bytes ≤ x.mem.left p) (grab : ℕ) :
    ∃ m es', Returns (fun fuel => x.mem.blockallocGetscrap fuel bytes grab) (p, none, m) ∧
      (x.took bytes grab p none m).Inv es' := by
  have hp : p ∈ front ++ p :: rest := by simp
  obtain ⟨r, hr, hwithin⟩ := h.region p hp
  obtain ⟨m, es', hcall, hm, hmem⟩ := h.holds.found hseek hround.1 hround.2.2 hle
    (hwithin.2.trans (h.top r hr)) grab
  have hblock : (Extent.mk p bytes.toNat).Within (x.mem.entry p) := by
    refine ⟨le_rfl, ?_⟩
    simp only [Extent.stop, ScrapMem.entry]
    omega
  have hinv := h.change hm hr hwithin (h.free p hp) fun a ha =>
    (hmem a ha).imp (fun hold => ⟨hold.1, hold.2.2⟩) fun hnew => hnew.1
  have htook : x.took bytes grab p none m =
      { x with mem := m, blocks := ⟨p, bytes.toNat⟩ :: x.blocks } := by
    rw [took, if_neg (h.holds.ne_zero hp)]
    simp
  refine ⟨m, es', hcall, ?_⟩
  rw [htook]
  refine hinv.block_cons hr (hblock.trans hwithin) (h.holds.align p hp) (fun a ha => ?_)
    fun b hb => (h.free p hp b hb).mono hblock (.refl b)
  rcases hmem a ha with ⟨hold, hne, heq⟩ | ⟨-, hge⟩
  · rw [show ({ x with mem := m } : Scrap).mem.entry a = x.mem.entry a from heq]
    exact (h.holds.apart hold hp hne).mono (.refl _) hblock
  · refine .inr (le_trans ?_ hge)
    simp only [Extent.stop]
    omega

/-- **A block from `malloc`**, and the rest of it to the list. -/
theorem Inv.refill {bytes : ℤ} {grab : ℕ} (h : x.Inv es) (hgrab : x.Malloced grab 4000)
    (hround : 0 ≤ ScrapMem.roundScrap bytes ∧ bytes ≤ ScrapMem.roundScrap bytes ∧
      ScrapMem.roundScrap bytes % 8 = 0) (hlt : ScrapMem.roundScrap bytes < 2048) :
    ∃ m es', Returns (fun fuel => x.mem.blockallocAddscrap fuel
        (cUnsigned (grab + ScrapMem.roundScrap bytes)) (cInt (4000 - ScrapMem.roundScrap bytes)))
          m ∧
      (x.took bytes grab grab (some 4000) m).Inv es' := by
  obtain ⟨size, hsize⟩ := Int.eq_ofNat_of_zero_le hround.1
  rw [hsize] at hround hlt ⊢
  have hle : grab + 4000 ≤ 2 ^ 32 := hgrab.le
  have halign := hgrab.align
  have haddr : cUnsigned (grab + size) = grab + size := by
    rw [cUnsigned_of_lt (by omega) (by omega)]
    omega
  have hbytes : cInt (4000 - size) = (4000 - size : ℕ) := by
    rw [cInt_of_lt (by omega) (by omega)]
    omega
  rw [haddr, hbytes]
  have hrest : (Extent.mk (grab + size) (4000 - size)).Within ⟨grab, 4000⟩ := by
    refine ⟨Nat.le_add_right .., ?_⟩
    simp only [Extent.stop]
    omega
  have hblock : (Extent.mk grab bytes.toNat).Within ⟨grab, 4000⟩ := by
    refine ⟨le_rfl, ?_⟩
    simp only [Extent.stop]
    omega
  have hpos : 0 < grab := hgrab.pos
  obtain ⟨m, es', hcall, hm, hmem⟩ := h.holds.addscrap (.inl (by omega)) (by omega)
    (by omega) (by omega) fun a ha => (h.entry_apart hgrab.apart ha).mono (.refl _) hrest
  have htook : x.took bytes grab grab (some 4000) m = { x with
      mem := m, regions := ⟨grab, 4000⟩ :: x.regions, blocks :=
        ⟨grab, bytes.toNat⟩ :: x.blocks } := by
    rw [took, if_neg hpos.ne', if_neg hpos.ne']
    rfl
  have hinv := (h.region_cons hgrab.le).change hm List.mem_cons_self hrest
    (fun b hb => ((h.block_apart hgrab.apart hb).mono (.refl b) hrest).symm) hmem
  refine ⟨m, es', hcall, ?_⟩
  rw [htook]
  refine hinv.block_cons List.mem_cons_self hblock halign (fun a ha => ?_)
    fun b hb => ((h.block_apart hgrab.apart hb).mono (.refl b) hblock).symm
  rcases hmem a ha with ⟨hold, heq⟩ | hnew
  · rw [show ({ x with mem := m } : Scrap).mem.entry a = x.mem.entry a from heq]
    exact (h.entry_apart hgrab.apart hold).mono (.refl _) hblock
  · refine .inr (le_trans ?_ hnew.1)
    simp only [Extent.stop]
    omega

/-- **A block that is all of what `malloc` gives**, if it gives any. -/
theorem Inv.grabbed {bytes : ℤ} {grab size : ℕ} (h : x.Inv es)
    (hgrab : grab ≠ 0 → x.Malloced grab size) (hle : bytes ≤ size) :
    (x.took bytes grab grab (some size) x.mem).Inv es := by
  unfold took
  by_cases hnull : grab = 0
  · rw [if_pos hnull, if_pos hnull]
    exact h
  · have hfresh := hgrab hnull
    have hblock : (Extent.mk grab bytes.toNat).Within ⟨grab, size⟩ := by
      refine ⟨le_rfl, ?_⟩
      simp only [Extent.stop]
      omega
    rw [if_neg hnull, if_neg hnull]
    exact (h.region_cons hfresh.le).block_cons List.mem_cons_self hblock hfresh.align
      (fun a ha => (h.entry_apart hfresh.apart ha).mono (.refl _) hblock)
      fun b hb => ((h.block_apart hfresh.apart hb).mono (.refl b) hblock).symm

/-- What is returned where scrap is refilled. -/
theorem Inv.refilled {bytes : ℤ} {grab : ℕ} {m : ScrapMem} (h : x.Inv es)
    (hnone : ∀ a ∈ es, x.mem.left a < ScrapMem.roundScrap bytes)
    (hlt : ScrapMem.roundScrap bytes < 2048)
    (hadd : Returns (fun fuel => x.mem.blockallocAddscrap fuel
      (cUnsigned (grab + ScrapMem.roundScrap bytes)) (cInt (4000 - ScrapMem.roundScrap bytes))) m) :
    Returns (fun fuel => x.mem.blockallocGetscrap fuel bytes grab) (grab, some 4000, m) := by
  obtain ⟨k, hk⟩ := hadd
  refine ⟨max k (es.length + 1), fun fuel hle => ?_⟩
  have hret := hk fuel ((Nat.le_max_left ..).trans hle)
  dsimp only at hret ⊢
  rw [h.holds.asked hnone grab ((Nat.le_max_right ..).trans hle), if_pos hlt, hret]
  rfl

/-- **Taking a block** keeps the invariant. -/
theorem Inv.take (h : x.Inv es) {bytes : ℤ} {grab p : ℕ} {asked : Option ℕ} {m : ScrapMem}
    (hsound : Sound (.take bytes grab)) (hmalloc : ∀ size ∈ asked, grab ≠ 0 → x.Malloced grab size)
    (hcall : Returns (fun fuel => x.mem.blockallocGetscrap fuel bytes grab) (p, asked, m)) :
    ∃ es', (x.took bytes grab p asked m).Inv es' := by
  obtain ⟨hpos, hmax, hle, halign, hsmall⟩ := ScrapMem.roundScrap_spec hsound.1 hsound.2.1
  rcases h.holds.cases (ScrapMem.roundScrap bytes) with ⟨front, q, rest, rfl, hq, hseek⟩ | hnone
  · obtain ⟨m', es', hcall', hinv⟩ := h.found hseek ⟨hpos, hle, halign⟩ hq grab
    obtain ⟨rfl, rfl, rfl⟩ : p = q ∧ asked = none ∧ m = m' := by simpa using hcall.eq hcall'
    exact ⟨es', hinv⟩
  · obtain ⟨k, hk⟩ := id hcall
    have hret := hk _ (Nat.le_max_left k (es.length + 1))
    dsimp only at hret
    rw [h.holds.asked hnone grab (Nat.le_max_right k (es.length + 1))] at hret
    split_ifs at hret with hlt
    · obtain ⟨m', hadd, hret⟩ := Option.bind_eq_some_iff.mp hret
      obtain ⟨rfl, rfl, rfl⟩ : grab = p ∧ some 4000 = asked ∧ m' = m := by simpa using hret
      obtain ⟨m, es', hcall', hinv⟩ := h.refill
        (hmalloc 4000 rfl (hsound.2.2 (hsmall.mp hlt))) ⟨hpos, hle, halign⟩ hlt
      obtain rfl : m' = m := by simpa using hcall.eq (h.refilled hnone hlt hcall')
      exact ⟨es', hinv⟩
    · obtain ⟨rfl, rfl, rfl⟩ : grab = p ∧ some (cUnsigned (ScrapMem.roundScrap bytes)) = asked ∧
        x.mem = m := by simpa using hret
      refine ⟨es, h.grabbed (hmalloc _ rfl) ?_⟩
      rw [cUnsigned_of_lt hpos (by omega)]
      omega

/-- **A request is answered**, whatever `malloc` gives. -/
theorem Inv.answers (h : x.Inv es) {bytes : ℤ} {grab : ℕ} (hsound : Sound (.take bytes grab))
    (hgrab : ∀ size, size = 4000 ∨ size = (ScrapMem.roundScrap bytes).toNat → grab ≠ 0 →
      x.Malloced grab size) :
    ∃ p asked m, Returns (fun fuel => x.mem.blockallocGetscrap fuel bytes grab) (p, asked, m) ∧
      ∀ size ∈ asked, grab ≠ 0 → x.Malloced grab size := by
  obtain ⟨hpos, hmax, hle, halign, hsmall⟩ := ScrapMem.roundScrap_spec hsound.1 hsound.2.1
  rcases h.holds.cases (ScrapMem.roundScrap bytes) with ⟨front, q, rest, rfl, hq, hseek⟩ | hnone
  · obtain ⟨m, -, hcall, -⟩ := h.found hseek ⟨hpos, hle, halign⟩ hq grab
    exact ⟨q, none, m, hcall, fun size hsize => absurd hsize (Option.not_mem_none size)⟩
  · by_cases hlt : ScrapMem.roundScrap bytes < 2048
    · obtain ⟨m, -, hadd, -⟩ := h.refill (hgrab 4000 (.inl rfl) (hsound.2.2 (hsmall.mp hlt)))
        ⟨hpos, hle, halign⟩ hlt
      exact ⟨grab, some 4000, m, h.refilled hnone hlt hadd, fun size hsize =>
        hgrab size (.inl (Option.mem_some.mp hsize).symm)⟩
    · refine ⟨grab, some (cUnsigned (ScrapMem.roundScrap bytes)), x.mem,
        ⟨es.length + 1, fun fuel hfuel => ?_⟩, fun size hsize => hgrab size (.inr ?_)⟩
      · exact (h.holds.asked hnone grab hfuel).trans (if_neg hlt)
      · rw [← Option.mem_some.mp hsize, cUnsigned_of_lt hpos (by omega)]

/-- **Others write**, but not where the list is. -/
theorem Inv.write (h : x.Inv es) {m : ScrapMem} (hzero : m.next 0 = x.mem.next 0)
    (hsame : ∀ a, x.Kept a → m.next a = x.mem.next a ∧ m.left a = x.mem.left a) :
    { x with mem := m }.Inv es := by
  have hkept : ∀ a ∈ es, x.Kept a := fun a ha => by
    have hheader : (Extent.mk a 8).Within (x.mem.entry a) := by
      have := (h.holds.size a ha).1
      refine ⟨le_rfl, ?_⟩
      simp only [Extent.stop, ScrapMem.entry]
      omega
    exact ⟨(h.region a ha).imp fun r hr => ⟨hr.1, hheader.trans hr.2⟩,
      fun b hb => (h.free a ha b hb).mono hheader (.refl b)⟩
  have hentry : ∀ a ∈ es, m.entry a = x.mem.entry a := fun a ha =>
    ScrapMem.entry_congr (hsame a (hkept a ha)).2
  have hlink : Linked 0 m.next (m.next 0) es := by
    rw [hzero]
    exact h.holds.linked.congr fun a ha => (hsame a (hkept a ha)).1
  refine { h with
    holds := h.holds.sublist (.refl es) hlink fun a ha => (hsame a (hkept a ha)).2
    region := fun a ha => ?_
    free := fun a ha b hb => ?_ }
  · rw [show ({ x with mem := m } : Scrap).mem.entry a = x.mem.entry a from hentry a ha]
    exact h.region a ha
  · rw [show ({ x with mem := m } : Scrap).mem.entry a = x.mem.entry a from hentry a ha]
    exact h.free a ha b hb

/-- **One step** keeps the invariant, if its call is sound. -/
theorem Inv.step (h : x.Inv es) (hstep : x.Step c y) (hsound : Sound c) : ∃ es', y.Inv es' := by
  cases hstep with
  | add hfresh hlt hcall =>
    obtain ⟨m, es', hcall', hinv⟩ := h.add hfresh hlt hsound
    rw [hcall.eq hcall']
    exact ⟨es', hinv⟩
  | take _ _ hmalloc hcall => exact h.take hsound hmalloc hcall
  | write hzero hsame => exact ⟨es, h.write hzero hsame⟩

/-- **A run** keeps it. -/
theorem Reachable.inv (h : Reachable Sound x) : ∃ es, x.Inv es := by
  induction h with
  | start left => exact ⟨[], inv_start left⟩
  | next _ hsound hstep ih =>
    obtain ⟨es, hinv⟩ := ih
    exact hinv.step hstep hsound

/-! ## Scrap stays where it came from -/

/-- **Scrap memory stays inside the regions it came from**, as long as the calls are sound; and the
calls return. -/
theorem scrap_stays_inside (h : Reachable Sound x) :
    x.Safe ∧
    (∀ addr size, x.Fresh ⟨addr, size⟩ → size < 2 ^ 31 → Sound (.add addr size) →
      ∃ y, x.Step (.add addr size) y) ∧
    ∀ bytes grab, Sound (.take bytes grab) →
      (∀ size, size = 4000 ∨ size = (ScrapMem.roundScrap bytes).toNat → grab ≠ 0 →
        x.Malloced grab size) → ∃ y, x.Step (.take bytes grab) y := by
  obtain ⟨es, hinv⟩ := h.inv
  refine ⟨hinv.safe, fun addr size hfresh hlt hsound => ?_, fun bytes grab hsound hgrab => ?_⟩
  · obtain ⟨m, -, hcall, -⟩ := hinv.add hfresh hlt hsound
    exact ⟨_, .add hfresh hlt hcall⟩
  · obtain ⟨p, asked, m, hcall, hmalloc⟩ := hinv.answers hsound hgrab
    exact ⟨_, .take (by linarith [hsound.1]) (by linarith [hsound.2.1]) hmalloc hcall⟩

/-- 64 bytes, and 29 of which the first five are slack. -/
def twoRegions : Scrap where
  mem := ⟨update (update (update (update (fun _ => 0) 4096 0) 0 4096) 8200 0) 4096 8200,
    update (update (fun _ => 0) 4096 64) 8200 24⟩
  regions := [⟨8197, 29⟩, ⟨4096, 64⟩]
  blocks := []

theorem reachable_twoRegions : Reachable Sound twoRegions := by
  have hfirst :=
    (Reachable.start fun _ => 0 : Reachable Sound _).next (c := .add 4096 64) (.inl rfl)
    (.add ⟨by decide, by decide, by simp [start]⟩ (by decide) (.of_add 3 fun _ => rfl))
  exact hfirst.next (c := .add 8197 29) (.inr (by decide))
    (.add ⟨by decide, by decide, by simp [start, Extent.Apart, Extent.stop]⟩ (by decide)
      (.of_add 3 fun _ => rfl))

/-- A block that leaves some of the first region, what is left of it, and the other region. -/
theorem scrap_stays_inside_twoRegions : ∃ x, Reachable Sound x ∧ x.Safe ∧
    x.blocks = [⟨8200, 18⟩, ⟨4120, 40⟩, ⟨4096, 20⟩] ∧ x.mem.next 0 = 0 := by
  have hsplit := reachable_twoRegions.next (c := .take 20 16384) (by unfold Sound; decide)
    (.take (by decide) (by decide) (by nofun) (.of_add 3 fun _ => rfl))
  have hrest := hsplit.next (c := .take 40 16384) (by unfold Sound; decide)
    (.take (by decide) (by decide) (by nofun) (.of_add 3 fun _ => rfl))
  have hwhole := hrest.next (c := .take 18 16384) (by unfold Sound; decide)
    (.take (by decide) (by decide) (by nofun) (.of_add 3 fun _ => rfl))
  exact ⟨_, hwhole, (scrap_stays_inside hwhole).1, rfl, rfl⟩

/-- 17 bytes at an odd address: what is taken from them does not lie in them. -/
theorem scrap_leaves_region :
    ¬ ∀ x, Reachable (fun _ => True) x → x.Safe := by
  intro h
  have hadd : Reachable (fun _ => True)
      ⟨⟨update (update (fun _ => 0) 4104 0) 0 4104, update (fun _ => 0) 4104 16⟩,
        [⟨4097, 17⟩], []⟩ :=
    (Reachable.start fun _ => 0).next (c := .add 4097 17) trivial
      (.add ⟨by decide, by decide, by simp [start]⟩ (by decide) (.of_add 1 fun _ => rfl))
  have hcall : Returns (fun fuel => ScrapMem.blockallocGetscrap fuel
      ⟨update (update (fun _ => 0) 4104 0) 0 4104, update (fun _ => 0) 4104 16⟩ 16 0)
      (4104, none, ⟨update (update (update (fun _ => 0) 4104 0) 0 4104) 0 0,
        update (update (fun _ => 0) 4104 16) 4104 0⟩) := .of_add 1 fun _ => rfl
  have htake := hadd.next (c := .take 16 0) trivial
    (.take (by decide) (by decide) (by simp) hcall)
  obtain ⟨r, hr, hwithin⟩ := (h _ htake).within ⟨4104, 16⟩ List.mem_cons_self
  obtain rfl : r = ⟨4097, 17⟩ := List.mem_singleton.mp hr
  exact absurd hwithin.2 (by decide)

end Scrap

end Ccsp

end Kroc
