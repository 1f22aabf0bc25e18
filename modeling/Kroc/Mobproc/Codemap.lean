import Kroc.Lib.DepthFirst
import Kroc.Lib.Slots
import Kroc.Mobproc.Clone

/-!
# Mobproc/Codemap — the code addresses of a mobile process

`checkmax`, `make_codemap`, `mcache_check` and `mcache_add` of `ccsp/common/mobproc.c`, on a machine
of 32-bit words.  A code map is an entry address, a code size, a name and a number of sub-maps, and
for each of these four words: an address, the map of it or -1, a name, and a word that is 0.

* `makeCodemap_visit` — the arrays list the graph of code maps depth first;
* `enumerated` — all addresses, each once with its name, inside the arrays;
* `codemap_iff` — the cache of such arrays has room for two, and serves what was put into it as long
  as no more is.

Of two blocks of memory each has its own bytes, and all lie in one address space of `2 ^ 32`: a size
that `checkmax` asks for fits an `int`, and sizes are natural numbers here.
-/

namespace Kroc

namespace Mobproc

open DepthFirst

/-! ## The arrays -/

/-- `dmem_alloc`: a block of so many bytes, as slots for pointers. -/
def dmemAlloc {α : Type*} (bytes : ℕ) : Slots α := Slots.alloc (bytes / 4)

/-- The four variables that `make_codemap` works on. -/
structure Arrays where
  mapentries : Slots Word
  nameentries : Slots Word
  nentries : ℕ
  nmax : ℕ

namespace Arrays

/-- As `mpcb_mpp_serialise` starts, with `NULL` for both arrays. -/
def start : Arrays := ⟨dmemAlloc 0, dmemAlloc 0, 0, 0⟩

/-- What `checkmax` does with one of the arrays: a new block, the old entries, and `NULL` behind. -/
def grow (entries : Slots Word) (nmax n : ℕ) : Option (Slots Word) :=
  let bytes := 4 * (nmax + n)
  let newentries := if nmax ≠ 0 then (dmemAlloc bytes).copy entries nmax else some (dmemAlloc bytes)
  newentries.bind fun newentries => newentries.fill 0 nmax n

/-- `checkmax`: what is free then, and the arrays. -/
def checkmax (ar : Arrays) (n : ℕ) : Option (ℤ × Arrays) :=
  if ar.nmax ≤ ar.nentries + n then do
    let newmaps ← grow ar.mapentries ar.nmax n
    let newnames ← grow ar.nameentries ar.nmax n
    some ((ar.nmax + n : ℕ) - ar.nentries, ⟨newmaps, newnames, ar.nentries, ar.nmax + n⟩)
  else some (ar.nmax - ar.nentries, ar)

/-- The stores `(*mapentries)[*nentries] = addr` and `(*nameentries)[*nentries] = name`, and
`*nentries = *nentries + 1`. -/
def add (ar : Arrays) (addr name : Word) : Option Arrays := do
  let mapentries ← ar.mapentries.store ar.nentries addr
  let nameentries ← ar.nameentries.store ar.nentries name
  some ⟨mapentries, nameentries, ar.nentries + 1, ar.nmax⟩

/-- The loop for an address that is listed: its index, or `nentries`. -/
def find (ar : Arrays) (addr : Word) : Option ℕ := ar.mapentries.search addr ar.nentries 0

end Arrays

/-! ## The code maps -/

section Maps

variable (cmap : Word → ℕ → Word)

/-- `int nsubmaps = (int)(cmap[3])`, as the number of rounds of the loop. -/
def nsubmaps (p : Word) : ℕ := (cmap p 3).toInt.toNat

/-- The `i`-th sub-map, or its address and name where it has none. -/
def submap (p : Word) (i : ℕ) : (Word × Word) ⊕ Word :=
  if cmap p (4 * i + 5) = -1 then .inl (cmap p (4 * i + 4), cmap p (4 * i + 6))
  else .inr (cmap p (4 * i + 5))

/-- **The graph of code maps**: an entry is an address and a name. -/
def graph : Graph Word (Word × Word) Word where
  entry p := (cmap p 0, cmap p 2)
  succ p := (List.range (nsubmaps cmap p)).map (submap cmap p)
  key := Prod.fst

/-- One round of the loop over the sub-maps. -/
def submapRound (makeCodemap : Word → Arrays → Option (ℕ × Arrays)) (p : Word)
    (s : ℕ × Arrays) (i : ℕ) : Option (ℕ × Arrays) := do
  let nextmap := cmap p (4 * i + 5)
  let taddr := cmap p (4 * i + 4)
  let tname := cmap p (4 * i + 6)
  let checked ← s.2.checkmax 8
  let ar := checked.2
  if nextmap ≠ -1 then
    let made ← makeCodemap nextmap ar
    some (s.1 + made.1, made.2)
  else
    let j ← ar.find taddr
    if j = ar.nentries then
      let ar ← ar.add taddr tname
      some (s.1 + 1, ar)
    else some (s.1, ar)

/-- `make_codemap`, with a bound on the depth of its calls: the number of entries added, and the
arrays. -/
def makeCodemap : ℕ → Word → Arrays → Option (ℕ × Arrays)
  | 0, _, _ => none
  | fuel + 1, p, ar => do
    let checked ← ar.checkmax 8
    let ar := checked.2
    let i ← ar.find (cmap p 0)
    if i < ar.nentries then some (0, ar)
    else
      let ar ← ar.add (cmap p 0) (cmap p 2)
      (List.range (nsubmaps cmap p)).foldlM (submapRound cmap (makeCodemap fuel) p) (1, ar)

end Maps

/-! ## The arrays hold a list -/

namespace Arrays

/-- The arrays hold the entries of `l`, and have the size that `nmax` says. -/
structure Holds (ar : Arrays) (l : List (Word × Word)) : Prop where
  maps : ar.mapentries.Starts (l.map Prod.fst)
  names : ar.nameentries.Starts (l.map Prod.snd)
  mapsSize : ar.mapentries.size = ar.nmax
  namesSize : ar.nameentries.size = ar.nmax
  nentries : ar.nentries = l.length

variable {ar : Arrays} {l : List (Word × Word)} {n : ℕ}

theorem start_holds : start.Holds [] :=
  ⟨Slots.starts_nil _, Slots.starts_nil _, rfl, rfl, rfl⟩

theorem Holds.length_le (h : ar.Holds l) : l.length ≤ ar.nmax := by
  have hle := h.maps.length_le
  rwa [List.length_map, h.mapsSize] at hle

/-- **A larger array begins as the old one**. -/
theorem grow_starts {b : Slots Word} {m : List Word} {nmax : ℕ} (h : b.Starts m)
    (hsize : b.size = nmax) : ∃ c, grow b nmax n = some c ∧ c.size = nmax + n ∧ c.Starts m := by
  have halloc : (dmemAlloc (4 * (nmax + n)) : Slots Word).size = nmax + n := by
    rw [dmemAlloc, Slots.size_alloc, Nat.mul_div_cancel_left _ (by decide)]
  have hm := h.length_le.trans_eq hsize
  obtain ⟨c, hc, hcsize, hcm⟩ : ∃ c, (if nmax ≠ 0 then (dmemAlloc (4 * (nmax + n))).copy b nmax
      else some (dmemAlloc (4 * (nmax + n)))) = some c ∧ c.size = nmax + n ∧ c.Starts m := by
    by_cases h0 : nmax = 0
    · rw [if_neg (not_not.mpr h0)]
      refine ⟨_, rfl, halloc, ?_⟩
      rw [List.length_eq_zero_iff.mp (Nat.le_zero.mp (hm.trans_eq h0))]
      exact Slots.starts_nil _
    · rw [if_pos h0]
      have hroom := (Nat.le_add_right nmax n).trans_eq halloc.symm
      obtain ⟨c, hc, hcsize, hcm⟩ := h.copy hm hsize.ge hroom
      exact ⟨c, hc, hcsize.trans halloc, hcm⟩
  obtain ⟨d, hd, hdsize, hdm⟩ := hcm.fill hm hcsize.ge 0
  refine ⟨d, ?_, hdsize.trans hcsize, hdm⟩
  rw [grow, hc, Option.bind_some, hd]

/-- **`checkmax` leaves what is held, and room for more**. -/
theorem Holds.checkmax (h : ar.Holds l) (hn : 0 < n) :
    ∃ free ar', ar.checkmax n = some (free, ar') ∧ ar'.Holds l ∧ l.length < ar'.nmax := by
  have hlen := h.nentries
  have hle := h.length_le
  by_cases hfull : ar.nmax ≤ ar.nentries + n
  · obtain ⟨maps, hmaps, hsize, hstarts⟩ := grow_starts (n := n) h.maps h.mapsSize
    obtain ⟨names, hnames, hsize', hstarts'⟩ := grow_starts (n := n) h.names h.namesSize
    refine ⟨(ar.nmax + n : ℕ) - ar.nentries, ⟨maps, names, ar.nentries, ar.nmax + n⟩, ?_,
      ⟨hstarts, hstarts', hsize, hsize', hlen⟩, show l.length < ar.nmax + n by omega⟩
    rw [Arrays.checkmax, if_pos hfull, hmaps, hnames]
    rfl
  · refine ⟨_, ar, if_neg hfull, h, by omega⟩

/-- **Where there is room, an entry is added** to both. -/
theorem Holds.add (h : ar.Holds l) (hroom : l.length < ar.nmax) (addr name : Word) :
    ∃ ar', ar.add addr name = some ar' ∧ ar'.Holds (l ++ [(addr, name)]) := by
  have hmaps := h.maps.add (by rwa [List.length_map, h.mapsSize]) addr
  have hnames := h.names.add (by rwa [List.length_map, h.namesSize]) name
  rw [List.length_map, ← h.nentries] at hmaps hnames
  obtain ⟨maps, hmaps, hsize, hstarts⟩ := hmaps
  obtain ⟨names, hnames, hsize', hstarts'⟩ := hnames
  refine ⟨⟨maps, names, ar.nentries + 1, ar.nmax⟩, ?_, ?_⟩
  · rw [Arrays.add, hmaps, hnames]
    rfl
  · refine ⟨?_, ?_, hsize.trans h.mapsSize, hsize'.trans h.namesSize, ?_⟩
    · rwa [List.map_append]
    · rwa [List.map_append]
    · rw [h.nentries, List.length_append, List.length_singleton]

/-- **The loop finds an address that is listed**, and no other. -/
theorem Holds.find (h : ar.Holds l) (addr : Word) :
    ∃ i, ar.find addr = some i ∧ i ≤ ar.nentries ∧ (i < ar.nentries ↔ addr ∈ l.map Prod.fst) := by
  have hsearch := Slots.Starts.search (m := []) h.maps addr
  have hlen : ar.nentries = (l.map Prod.fst).length := h.nentries.trans (List.length_map _).symm
  rw [List.length_nil, Nat.zero_add, ← hlen] at hsearch
  refine ⟨_, hsearch, ?_, ?_⟩
  · exact List.idxOf_le_length.trans_eq hlen.symm
  · rw [hlen]
    exact List.idxOf_lt_length_iff

end Arrays

/-! ## Refinement of the visit -/

section Refinement

variable {cmap : Word → ℕ → Word} {p : Word} {ar : Arrays} {l l' : List (Word × Word)} {fuel : ℕ}

/-- The visit has gone from `l` to `l'`, with `r` entries added. -/
def Added (l l' : List (Word × Word)) (s : ℕ × Arrays) : Prop :=
  s.2.Holds l' ∧ l.length + s.1 = l'.length

/-- A round of the loop does what the visit does with the sub-map. -/
theorem submapRound_step {visit : Word → List (Word × Word) → Option (List (Word × Word))}
    {make : Word → Arrays → Option (ℕ × Arrays)}
    (ih : ∀ q ar l l', ar.Holds l → visit q l = some l' → ∃ s, make q ar = some s ∧ Added l l' s)
    {m m' : List (Word × Word)} {s : ℕ × Arrays} {i : ℕ} (hs : Added l m s)
    (h : (graph cmap).step visit m (submap cmap p i) = some m') :
    ∃ s', submapRound cmap make p s i = some s' ∧ Added l m' s' := by
  obtain ⟨free, ar, hcheck, har, hroom⟩ := hs.1.checkmax (show 0 < 8 by decide)
  have hcount := hs.2
  by_cases hnext : cmap p (4 * i + 5) = -1
  · rw [submap, if_pos hnext] at h
    obtain ⟨j, hj, hle, hlisted⟩ := har.find (cmap p (4 * i + 4))
    have hround : ∀ s', (if j = ar.nentries then
        (ar.add (cmap p (4 * i + 4)) (cmap p (4 * i + 6))).bind fun ar => some (s.1 + 1, ar)
        else some (s.1, ar)) = some s' → submapRound cmap make p s i = some s' := by
      intro s' hs'
      rw [submapRound, hcheck]
      refine (if_neg (not_not.mpr hnext)).trans ?_
      dsimp only
      rw [hj]
      exact hs'
    by_cases hmem : cmap p (4 * i + 4) ∈ m.map Prod.fst
    · rw [step_listed hmem] at h
      obtain rfl := Option.some.inj h
      exact ⟨(s.1, ar), hround _ (if_neg (hlisted.mpr hmem).ne), har, hs.2⟩
    · rw [step_new hmem] at h
      obtain rfl := Option.some.inj h
      obtain ⟨ar', hadd, har'⟩ := har.add hroom (cmap p (4 * i + 4)) (cmap p (4 * i + 6))
      refine ⟨(s.1 + 1, ar'), hround _ ?_, har', ?_⟩
      · rw [if_pos (hle.antisymm (not_lt.mp (hlisted.not.mpr hmem))), hadd]
        rfl
      · rw [List.length_append, List.length_singleton]
        omega
  · rw [submap, if_neg hnext] at h
    obtain ⟨made, hmade, hadded⟩ := ih _ ar m m' har h
    refine ⟨(s.1 + made.1, made.2), ?_, hadded.1, ?_⟩
    · rw [submapRound, hcheck]
      refine (if_pos hnext).trans ?_
      rw [hmade]
      rfl
    · have := hadded.2
      omega

/-- **`make_codemap` refines the visit**: the arrays hold what the visit lists, and no store leaves
them. -/
theorem makeCodemap_visit (har : ar.Holds l) (h : (graph cmap).visit fuel p l = some l') :
    ∃ s, makeCodemap cmap fuel p ar = some s ∧ Added l l' s := by
  induction fuel generalizing p ar l l' with
  | zero => exact absurd h (Option.some_ne_none l').symm
  | succ fuel ih =>
    obtain ⟨free, ar₁, hcheck, har₁, hroom⟩ := har.checkmax (show 0 < 8 by decide)
    obtain ⟨i, hi, hle, hlisted⟩ := har₁.find (cmap p 0)
    have hcall : ∀ s, (if i < ar₁.nentries then some (0, ar₁) else
        (ar₁.add (cmap p 0) (cmap p 2)).bind fun ar => (List.range (nsubmaps cmap p)).foldlM
          (submapRound cmap (makeCodemap cmap fuel) p) (1, ar)) = some s →
        makeCodemap cmap (fuel + 1) p ar = some s := by
      intro s hs
      rw [makeCodemap, hcheck, Option.bind_eq_bind, Option.bind_some]
      dsimp only
      rw [hi]
      exact hs
    by_cases hmem : cmap p 0 ∈ l.map Prod.fst
    · rw [visit_listed hmem] at h
      obtain rfl := Option.some.inj h
      exact ⟨(0, ar₁), hcall _ (if_pos (hlisted.mpr hmem)), har₁, rfl⟩
    · rw [visit_new hmem] at h
      obtain ⟨ar₂, hadd, har₂⟩ := har₁.add hroom (cmap p 0) (cmap p 2)
      have hstart : Added l (l ++ [(cmap p 0, cmap p 2)]) (1, ar₂) :=
        ⟨har₂, by rw [List.length_append, List.length_singleton]⟩
      have hcalls : ∀ q ar l l', ar.Holds l → (graph cmap).visit fuel q l = some l' →
          ∃ s, makeCodemap cmap fuel q ar = some s ∧ Added l l' s := fun q ar l l' har => ih har
      obtain ⟨s, hs, hadded⟩ :=
        foldlM_simulates (fun i _ m m' s => submapRound_step hcalls) hstart h
      refine ⟨s, hcall s ?_, hadded⟩
      rw [if_neg (hlisted.not.mpr hmem), hadd, Option.bind_some]
      exact hs

theorem submapRound_mono {make make' : Word → Arrays → Option (ℕ × Arrays)} {s s' : ℕ × Arrays}
    {i : ℕ} (hmono : ∀ q ar s, make q ar = some s → make' q ar = some s)
    (h : submapRound cmap make p s i = some s') : submapRound cmap make' p s i = some s' := by
  obtain ⟨checked, hcheck, h⟩ := Option.bind_eq_some_iff.mp h
  refine Option.bind_eq_some_iff.mpr ⟨checked, hcheck, ?_⟩
  dsimp only at h ⊢
  split at h
  case isTrue hnext =>
    obtain ⟨made, hmade, h⟩ := Option.bind_eq_some_iff.mp h
    rw [if_pos hnext]
    exact Option.bind_eq_some_iff.mpr ⟨made, hmono _ _ _ hmade, h⟩
  case isFalse hnext =>
    rw [if_neg hnext]
    exact h

theorem makeCodemap_mono {s : ℕ × Arrays} (h : makeCodemap cmap fuel p ar = some s) :
    makeCodemap cmap (fuel + 1) p ar = some s := by
  induction fuel generalizing p ar s with
  | zero => exact absurd h (Option.some_ne_none s).symm
  | succ fuel ih =>
    rw [makeCodemap] at h ⊢
    obtain ⟨checked, hcheck, h⟩ := Option.bind_eq_some_iff.mp h
    obtain ⟨i, hi, h⟩ := Option.bind_eq_some_iff.mp h
    refine Option.bind_eq_some_iff.mpr ⟨checked, hcheck, Option.bind_eq_some_iff.mpr ⟨i, hi, ?_⟩⟩
    split at h
    case isTrue hlisted =>
      rw [if_pos hlisted]
      exact h
    case isFalse hlisted =>
      obtain ⟨ar', hadd, h⟩ := Option.bind_eq_some_iff.mp h
      rw [if_neg hlisted]
      refine Option.bind_eq_some_iff.mpr ⟨ar', hadd, ?_⟩
      exact foldlM_mono (fun i b c => submapRound_mono fun q ar s => ih) h

/-- **`make_codemap` returns**, with what the visit lists. -/
theorem makeCodemap_returns (h : Returns (fun fuel => (graph cmap).visit fuel p []) l) :
    ∃ ar, Returns (fun fuel => makeCodemap cmap fuel p .start) (ar.nentries, ar) ∧ ar.Holds l := by
  obtain ⟨k, hk⟩ := h
  obtain ⟨s, hs, har, hlen⟩ := makeCodemap_visit Arrays.start_holds (hk k le_rfl)
  have hcount : s.2.nentries = s.1 := by
    rw [har.nentries, ← hlen, List.length_nil, Nat.zero_add]
  refine ⟨s.2, ?_, har⟩
  rw [hcount]
  exact Returns.of_mono (fun _ => makeCodemap_mono) hs

end Refinement

/-! ## What is enumerated -/

/-- **The code maps of a process**, each at its address.  `dump_codemap_stream` of `tranx86` writes
one map for a procedure, global beside its code, and -1 for the map of a label inside one: so an
address says which map is meant, and what has no map has not the address of one with sub-maps. -/
structure Codemaps where
  cmap : Word → ℕ → Word
  root : Word
  consistent : Consistent (graph cmap) root

/-- The entry at an index: `mapentries[i]` and `nameentries[i]`. -/
def Arrays.entry (ar : Arrays) (i : ℕ) : Option (Word × Word) := do
  let addr ← ar.mapentries.load i
  let name ← ar.nameentries.load i
  some (addr, name)

namespace Codemaps

/-- **The arrays list the code maps**: the given map first, then at each index an address and a name
of one entry that is reached, and each address that is reached at one index. -/
structure Lists (m : Codemaps) (ar : Arrays) : Prop where
  first : ar.entry 0 = some ((graph m.cmap).entry m.root)
  own : ∀ i < ar.nentries, ∃ e, ar.entry i = some e ∧ (graph m.cmap).Has m.root e
  once : ∀ e, (graph m.cmap).Has m.root e →
    ∃! i, i < ar.nentries ∧ ar.mapentries.load i = some e.1

/-- The same graph elsewhere: its maps at `σ`, with other addresses `ρ` and names `ν`. -/
structure Moved (m m' : Codemaps) (σ ρ ν : Word → Word) : Prop where
  root : m'.root = σ m.root
  copy : Copy (graph m.cmap) m.root (graph m'.cmap) σ (Prod.map ρ ν)

/-- **`make_codemap` enumerates the code maps**: it returns, with no store outside the arrays, what
is listed is all and once, and the order is that of the graph. -/
def Enumerated (m : Codemaps) : Prop :=
  ∃ ar, Returns (fun fuel => makeCodemap m.cmap fuel m.root .start) (ar.nentries, ar) ∧ m.Lists ar ∧
    ∀ m' σ ρ ν, m.Moved m' σ ρ ν →
      ∃ ar', Returns (fun fuel => makeCodemap m'.cmap fuel m'.root .start) (ar.nentries, ar') ∧
        ar'.nentries = ar.nentries ∧
        ∀ i < ar.nentries, ar'.entry i = (ar.entry i).map (Prod.map ρ ν)

end Codemaps

theorem Arrays.Holds.entry {ar : Arrays} {l : List (Word × Word)} (h : ar.Holds l) {i : ℕ}
    (hi : i < l.length) : ar.entry i = some l[i] := by
  have hmaps := h.maps.load (hi.trans_eq (List.length_map Prod.fst).symm)
  have hnames := h.names.load (hi.trans_eq (List.length_map Prod.snd).symm)
  rw [Arrays.entry, hmaps, hnames, List.getElem_map, List.getElem_map]
  rfl

namespace Codemaps

variable (m : Codemaps) {ar : Arrays} {l : List (Word × Word)} {fuel : ℕ}

theorem lists (h : (graph m.cmap).visit fuel m.root [] = some l) (har : ar.Holds l) :
    m.Lists ar := by
  refine ⟨?_, fun i hi => ?_, fun e he => ?_⟩
  · obtain ⟨rest, rfl⟩ := visit_entry h List.not_mem_nil
    exact har.entry (Nat.succ_pos _)
  · rw [har.nentries] at hi
    refine ⟨l[i], har.entry hi, ?_⟩
    exact (visit_has h _ (List.getElem_mem hi)).resolve_left List.not_mem_nil
  · have hload : ∀ i (hi : i < (l.map Prod.fst).length),
        ar.mapentries.load i = some (l.map Prod.fst)[i] := fun i hi => har.maps.load hi
    have hlen : ar.nentries = (l.map Prod.fst).length :=
      har.nentries.trans (List.length_map Prod.fst).symm
    obtain ⟨i, hi, heq⟩ := List.getElem_of_mem (visit_complete m.consistent h he)
    refine ⟨i, ⟨hi.trans_eq hlen.symm, (hload i hi).trans (congrArg some heq)⟩, fun j hj => ?_⟩
    have hj' := hj.1.trans_eq hlen
    have hsame := Option.some.inj ((hload j hj').symm.trans hj.2)
    exact (visit_nodup h List.nodup_nil).getElem_inj_iff.mp (hsame.trans heq.symm)

/-- **Every graph of code maps is enumerated**. -/
theorem enumerated : m.Enumerated := by
  obtain ⟨l, hl⟩ := exists_returns (graph m.cmap) m.root []
  obtain ⟨ar, har, hholds⟩ := makeCodemap_returns hl
  obtain ⟨k, hk⟩ := hl
  refine ⟨ar, har, m.lists (hk k le_rfl) hholds, fun m' σ ρ ν hm => ?_⟩
  have hmoved : Returns (fun fuel => (graph m'.cmap).visit fuel m'.root [])
      (l.map (Prod.map ρ ν)) := by
    refine ⟨k, fun fuel hle => ?_⟩
    dsimp only
    rw [hm.root, ← List.map_nil, hm.copy.visit_map Relation.ReflTransGen.refl]
    exact congrArg (Option.map (List.map (Prod.map ρ ν))) (hk fuel hle)
  obtain ⟨ar', har', hholds'⟩ := makeCodemap_returns hmoved
  have hlen : ar'.nentries = ar.nentries := by
    rw [hholds.nentries, hholds'.nentries, List.length_map]
  refine ⟨ar', ?_, hlen, fun i hi => ?_⟩
  · rwa [hlen] at har'
  · rw [hholds.nentries] at hi
    rw [hholds.entry hi, hholds'.entry (hi.trans_eq (List.length_map _).symm), List.getElem_map]
    rfl

end Codemaps

/-! ## The cache -/

/-- `cmapcache_t`, with arrays that have an entry. -/
structure Cmapcache where
  codemap : Slots Word
  namemap : Slots Word
  size : ℕ
  first : ∃ addr name, codemap.load 0 = some addr ∧ namemap.load 0 = some name

/-- The first address and name are these. -/
def Cmapcache.Matches (c : Cmapcache) (addr name : Word) : Prop :=
  c.codemap.load 0 = some addr ∧ c.namemap.load 0 = some name

instance (c : Cmapcache) (addr name : Word) : Decidable (c.Matches addr name) := instDecidableAnd

/-- `cached_maps`, with `none` for `NULL`, and `n_cached_maps`. -/
structure Cache where
  cachedMaps : Option (Slots Cmapcache)
  nCachedMaps : ℕ

/-- The array that `mcache_add` stores into.  The size in bytes that it asks for is a number of
entries. -/
def Cache.enlarge (s : Cache) : Option (Slots Cmapcache) :=
  if s.nCachedMaps &&& 7 = 0 then
    match s.cachedMaps with
    | none => some (dmemAlloc (s.nCachedMaps + 8))
    | some cachedMaps => (dmemAlloc (s.nCachedMaps + 8)).copy cachedMaps s.nCachedMaps
  else s.cachedMaps

/-- `mcache_add` -/
def mcacheAdd (s : Cache) (cmc : Cmapcache) : Option Cache := do
  let newmaps ← s.enlarge
  let cachedMaps ← newmaps.store s.nCachedMaps cmc
  some ⟨some cachedMaps, s.nCachedMaps + 1⟩

/-- The calls of `mcache_add`, from the first on. -/
def mcacheAddAll (cs : List Cmapcache) : Option Cache := cs.foldlM mcacheAdd ⟨none, 0⟩

/-- The loop of `mcache_check` over `n` entries from `i` on. -/
def checkFrom (cachedMaps : Slots Cmapcache) (addr name : Word) :
    ℕ → ℕ → Option (Option Cmapcache)
  | 0, _ => some none
  | n + 1, i => do
    let cmc ← cachedMaps.load i
    let codemap0 ← cmc.codemap.load 0
    let namemap0 ← cmc.namemap.load 0
    if codemap0 = addr ∧ namemap0 = name then some (some cmc)
    else checkFrom cachedMaps addr name n (i + 1)

/-- `mcache_check`: what is cached, with its size, or `none` where the call returns 0. -/
def mcacheCheck (s : Cache) (addr name : Word) : Option (Option Cmapcache) :=
  checkFrom (s.cachedMaps.getD (dmemAlloc 0)) addr name s.nCachedMaps 0

/-- **The cache serves what was added**: no store or copy leaves its bytes, and a check finds the
first that matches, if there is one. -/
def ServesCache (cs : List Cmapcache) : Prop :=
  ∃ s, mcacheAddAll cs = some s ∧
    ∀ addr name, mcacheCheck s addr name = some (cs.find? fun c => c.Matches addr name)

/-- **A check of what the cache begins with finds the first that matches**. -/
theorem checkFrom_eq {b : Slots Cmapcache} {done cs : List Cmapcache} (h : b.Starts (done ++ cs))
    (addr name : Word) :
    checkFrom b addr name cs.length done.length =
      some (cs.find? fun c => c.Matches addr name) := by
  induction cs generalizing done with
  | nil => rfl
  | cons c cs ih =>
    have hload := h.load_middle
    obtain ⟨addr', name', haddr, hname⟩ := c.first
    have hmatches : c.Matches addr name ↔ addr' = addr ∧ name' = name := by
      rw [Cmapcache.Matches, haddr, hname, Option.some_inj, Option.some_inj]
    have happend : b.Starts ((done ++ [c]) ++ cs) := by rwa [List.append_assoc]
    have hrest := ih happend
    rw [List.length_append, List.length_singleton] at hrest
    rw [List.length_cons, checkFrom, hload, Option.bind_eq_bind, Option.bind_some, haddr,
      Option.bind_eq_bind, Option.bind_some, hname, Option.bind_some]
    by_cases hc : c.Matches addr name
    · rw [if_pos (hmatches.mp hc), List.find?_cons, decide_eq_true hc]
    · rw [if_neg (hmatches.not.mp hc), hrest, List.find?_cons, decide_eq_false hc]

/-- The first call allocates eight bytes, which is two entries. -/
theorem mcacheAdd_first (c₁ : Cmapcache) :
    mcacheAdd ⟨none, 0⟩ c₁ = some ⟨some ⟨[some c₁, none]⟩, 1⟩ := rfl

theorem mcacheAdd_second (c₁ c₂ : Cmapcache) :
    mcacheAdd ⟨some ⟨[some c₁, none]⟩, 1⟩ c₂ = some ⟨some ⟨[some c₁, some c₂]⟩, 2⟩ := by
  rw [mcacheAdd, Cache.enlarge, if_neg (show ¬ 1 &&& 7 = 0 by decide)]
  rfl

/-- **The third store is behind what was allocated**. -/
theorem mcacheAdd_third (c₁ c₂ c₃ : Cmapcache) :
    mcacheAdd ⟨some ⟨[some c₁, some c₂]⟩, 2⟩ c₃ = none := by
  rw [mcacheAdd, Cache.enlarge, if_neg (show ¬ 2 &&& 7 = 0 by decide)]
  rfl

theorem mcacheAddAll_eq_none (c₁ c₂ c₃ : Cmapcache) (cs : List Cmapcache) :
    mcacheAddAll (c₁ :: c₂ :: c₃ :: cs) = none := by
  rw [mcacheAddAll, List.foldlM_cons, mcacheAdd_first, Option.bind_eq_bind, Option.bind_some,
    List.foldlM_cons, mcacheAdd_second, Option.bind_eq_bind, Option.bind_some, List.foldlM_cons,
    mcacheAdd_third]
  rfl

theorem mcacheAddAll_two (c₁ c₂ : Cmapcache) :
    mcacheAddAll [c₁, c₂] = some ⟨some ⟨[some c₁, some c₂]⟩, 2⟩ := by
  rw [mcacheAddAll, List.foldlM_cons, mcacheAdd_first, Option.bind_eq_bind, Option.bind_some,
    List.foldlM_cons, mcacheAdd_second]
  rfl

/-- What the cache begins with is served. -/
theorem servesCache_of_starts {cs : List Cmapcache} {b : Slots Cmapcache}
    (h : mcacheAddAll cs = some ⟨some b, cs.length⟩) (hstarts : b.Starts cs) : ServesCache cs := by
  have hempty : b.Starts ([] ++ cs) := hstarts
  exact ⟨_, h, fun addr name => checkFrom_eq hempty addr name⟩

/-- **The cache serves what was added while that is no more than two**. -/
theorem servesCache_iff_length (cs : List Cmapcache) : ServesCache cs ↔ cs.length ≤ 2 := by
  cases cs with
  | nil => exact iff_of_true ⟨_, rfl, fun addr name => rfl⟩ (Nat.zero_le 2)
  | cons c₁ cs =>
    cases cs with
    | nil =>
      have hone : mcacheAddAll [c₁] = some ⟨some ⟨[some c₁, none]⟩, 1⟩ := rfl
      exact iff_of_true (servesCache_of_starts hone (List.prefix_append [some c₁] [none]))
        (Nat.le_succ 1)
    | cons c₂ cs =>
      cases cs with
      | nil =>
        have hstarts : Slots.Starts ⟨[some c₁, some c₂]⟩ [c₁, c₂] := List.prefix_refl _
        exact iff_of_true (servesCache_of_starts (mcacheAddAll_two c₁ c₂) hstarts) le_rfl
      | cons c₃ cs =>
        have hthree : ¬ (c₁ :: c₂ :: c₃ :: cs).length ≤ 2 := by
          rw [List.length_cons, List.length_cons, List.length_cons]
          omega
        refine iff_of_false (fun hserves => ?_) hthree
        obtain ⟨s, hs, -⟩ := hserves
        rw [mcacheAddAll_eq_none] at hs
        exact Option.some_ne_none s hs.symm

/-! ## What the functions promise -/

/-- **Code maps are enumerated whatever they are; the cache serves up to two of them**. -/
theorem codemap_iff (m : Codemaps) (cs : List Cmapcache) :
    (m.Enumerated ∧ ServesCache cs) ↔ cs.length ≤ 2 :=
  ⟨fun h => (servesCache_iff_length cs).mp h.2,
    fun h => ⟨m.enumerated, (servesCache_iff_length cs).mpr h⟩⟩

/-- Two procedures that call each other, the first with a label of its own. -/
def callEachOther (p : Word) (k : ℕ) : Word :=
  if p = 0x100 then
    [0x1000, 0x60, 0x500, 2, 0x2000, 0x200, 0x510, 0, 0x1010, -1, 0x520, 0].getD k 0
  else [0x2000, 0x40, 0x510, 1, 0x1000, 0x100, 0x500, 0].getD k 0

/-- The code maps of the first. -/
def twoMaps : Codemaps where
  cmap := callEachOther
  root := 0x100
  consistent := by
    have hfirst : (graph callEachOther).succ 0x100 = [.inr 0x200, .inl (0x1010, 0x520)] := by decide
    have hsecond : (graph callEachOther).succ 0x200 = [.inr 0x100] := by decide
    refine .of_closed (S := {0x100, 0x200}) (.inl rfl) ?_ ?_ ?_
    · rintro p (rfl | rfl) q hq
      · rw [hfirst] at hq
        exact .inr (by simpa using hq)
      · rw [hsecond] at hq
        exact .inl (by simpa using hq)
    · rintro p (rfl | rfl) q (rfl | rfl) hkey
      · rfl
      · exact absurd hkey (by decide)
      · exact absurd hkey (by decide)
      · rfl
    · rintro p (rfl | rfl) q hq e he hkey
      · rw [hfirst] at he
        obtain rfl : e = (0x1010, 0x520) := by simpa using he
        obtain rfl | rfl := hq
        · exact absurd hkey (by decide)
        · exact absurd hkey (by decide)
      · rw [hsecond] at he
        simp only [List.mem_singleton, reduceCtorEq] at he

example : (makeCodemap callEachOther 3 0x100 .start).map (fun s => (s.1, s.2.entry 2)) =
    some (3, some (0x1010, 0x520)) := by
  decide

/-- The arrays of a code map with no sub-maps. -/
def oneEntry (addr : Word) : Cmapcache where
  codemap := ⟨some addr :: List.replicate 7 (some 0)⟩
  namemap := ⟨some (addr + 0x40) :: List.replicate 7 (some 0)⟩
  size := 1
  first := ⟨addr, addr + 0x40, rfl, rfl⟩

theorem not_codemap_threeMaps :
    ¬ (twoMaps.Enumerated ∧
      ServesCache [oneEntry 0x1000, oneEntry 0x2000, oneEntry 0x3000]) := by
  rintro ⟨-, s, hs, -⟩
  rw [mcacheAddAll_eq_none] at hs
  exact Option.some_ne_none s hs.symm

end Mobproc

end Kroc
