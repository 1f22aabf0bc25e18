import Kroc.Occ21.MobilespaceCalls
import Kroc.Occ21.MobilespaceOffsets

/-!
# Occ21/MobilespaceLayout — where things go in mobilespace

Which words the sorted map gives to what was mapped.  What a replicated PAR holds is laid out once
for each of its own replicas, whatever is around it, so the layout is complete and disjoint exactly
when the other counts around a variable or an instance are all 1, as long as no instance asks for
less than no words and all words together are an `int`.
-/

namespace Kroc

namespace Occ21

/-! ## What the layout should be -/

/-- Words of mobilespace. -/
structure Area where
  start : ℤ
  size : ℤ

def Area.Has (a : Area) (x : ℤ) : Prop := a.start ≤ x ∧ x < a.start + a.size

/-- The node is in the map, at `base` for the replica of these indices, the innermost one first. -/
inductive Mapped : List Msmap → List ℕ → ℤ → Msmap → Prop
  | here {map : List Msmap} {m : Msmap} (hm : m ∈ map) : Mapped map [] 0 m
  | inside {map replptr : List Msmap} {addr i : ℕ}
      {words msoffset sloffset replcount msusage : ℤ} {indices : List ℕ} {base : ℤ} {m : Msmap}
      (hm : .replpar addr words msoffset sloffset replcount msusage replptr ∈ map)
      (hi : (i : ℤ) < replcount) (h : Mapped replptr indices base m) :
      Mapped map (indices ++ [i]) (msoffset + i * msusage + base) m

/-- The data area or the shadow slot of a variable or an instance, for one combination of the
indices of the replicated PARs around it. -/
structure Part where
  leaf : Leaf
  indices : List ℕ
  shadow : Bool

def Part.Of (items : List Item) (p : Part) : Prop :=
  p.leaf ∈ leavesOf 0 [] items ∧ List.Forall₂ (· < ·) p.indices p.leaf.counts ∧
    (p.shadow = true → p.leaf.isVar = true)

/-- The map has `a` for the part: at the indices of those replicated PARs that the map has it in. -/
def Part.At (map : List Msmap) (p : Part) (a : Area) : Prop :=
  ∃ indices base m, indices <+: p.indices ∧ Mapped map indices base m ∧ m.addr = p.leaf.addr ∧
    a = if p.shadow then ⟨base + m.sloffset, 1⟩ else ⟨base + m.msoffset, m.words⟩

/-- What a leaf needs for all combinations of indices. -/
def Leaf.needed (l : Leaf) : ℤ := l.weight * (l.counts.prod : ℕ)

/-- The layout is **complete and disjoint**: each part has its area, none has a word of another one,
all are within the `size` words of the procedure, and these are what all of the parts need. -/
structure LaidOut (items : List Item) (map : List Msmap) (size : ℤ) : Prop where
  placed : ∀ p : Part, p.Of items →
    ∃ a, p.At map a ∧ 0 ≤ a.size ∧ a.size = if p.shadow then 1 else p.leaf.words
  apart : ∀ (p q : Part) a b, p.Of items → q.Of items → p.At map a → q.At map b → p ≠ q →
    ∀ x, a.Has x → ¬ b.Has x
  within : ∀ (p : Part) a, p.Of items → p.At map a → ∀ x, a.Has x → 0 ≤ x ∧ x < size
  total : size = ((leavesOf 0 [] items).map Leaf.needed).sum

/-- What the map takes for a leaf: its words as often as the innermost PAR around it
is replicated. -/
def Leaf.laid (l : Leaf) : ℤ := l.weight * (l.counts.headD 1 : ℕ)

def laidIn (leaves : List Leaf) : ℤ := (leaves.map Leaf.laid).sum

theorem laidIn_append (leaves leaves' : List Leaf) :
    laidIn (leaves ++ leaves') = laidIn leaves + laidIn leaves' := by
  rw [laidIn, List.map_append, List.sum_append]
  rfl

/-- **What the map takes** for all leaves. -/
theorem laidIn_leavesOf : ∀ (items : List Item) (fresh : ℕ) (counts : List ℕ),
    laidIn (leavesOf fresh counts items) =
      usageOf items * counts.headD 1 + spanIn (parsOf fresh items)
  | [], _, _ => by simp [leavesOf, usageOf, parsOf, spanIn, laidIn]
  | i :: rest, fresh, counts => by
    have hitem : laidIn (i.leaves fresh counts) =
        i.usage * counts.headD 1 + spanIn (i.pars fresh) := by
      cases i with
      | var nptr =>
        rw [Item.leaves, laidIn, List.map_singleton, List.sum_singleton, Leaf.laid, Leaf.weight,
          Item.usage, Item.pars, spanIn, if_pos rfl]
        exact (add_zero _).symm
      | inst nwords =>
        rw [Item.leaves, Item.usage, Item.pars]
        split_ifs with h0
        · rw [h0, zero_mul]
          rfl
        · rw [laidIn, List.map_singleton, List.sum_singleton, Leaf.laid, Leaf.weight, spanIn,
            if_neg Bool.false_ne_true, add_zero]
          exact (add_zero _).symm
      | replpar replcount body =>
        have ih := laidIn_leavesOf body (fresh + 1) (replcount :: counts)
        rw [Item.leaves, ih, Item.usage, Item.pars, List.headD_cons]
        split_ifs with h0
        · rw [h0.1, h0.2.2]
          simp [spanIn]
        · have hne : ((replcount : ℕ) : ℤ) ≠ -1 := by omega
          rw [spanIn_append, parNode, spanIn, spanIn, List.map_singleton, List.sum_singleton,
            Msmap.span, if_neg hne]
          ring
    rw [leavesOf, laidIn_append, hitem, laidIn_leavesOf rest, usageOf_cons, parsOf,
      spanIn_append]
    ring

/-! ## The map -/

variable {items : List Item} {m r : Msmap} {indices : List ℕ} {base : ℤ}

/-- The map of a procedure that has been mapped. -/
def mapOf (items : List Item) : List Msmap :=
  placed (msmapMergesort (topOf 0 items))

/-- What is inside of a node, when it is sorted and bound. -/
def inner (r : Msmap) : List Msmap := placed (msmapMergesort r.replptr)

theorem span_own {fresh : ℕ} (hm : m ∈ ownOf fresh items) : m.span = m.words := by
  have := isPar_ownOf hm
  cases m with
  | replpar => cases this
  | _ => rfl

theorem span_parNode (fresh : ℕ) (replcount : ℕ+) (body : List Item) :
    (parNode fresh replcount body).span = usageOf body * replcount := by
  have hne : ((replcount : ℕ) : ℤ) ≠ -1 := by omega
  rw [parNode, Msmap.span, if_neg hne]

theorem span_nonneg (hsized : SizedAll items) (hm : m ∈ topOf 0 items) : 0 ≤ m.span := by
  rcases mem_topOf.mp hm with hm | hm
  · rw [span_own hm]
    exact words_ownOf hsized hm
  · obtain ⟨k, n, body, rfl, -, -, hbody⟩ := mem_parsOf hm
    rw [span_parNode]
    exact mul_nonneg (usageOf_nonneg (hbody hsized)) (Int.natCast_nonneg _)

theorem sorted_own {fresh : ℕ} (hm : m ∈ ownOf fresh items) : m.sorted = m := by
  have := isPar_ownOf hm
  cases m with
  | replpar => cases this
  | _ => rfl

theorem span_sorted (m : Msmap) : m.sorted.span = m.span := by cases m <;> rfl

theorem slots_sorted (m : Msmap) : m.sorted.slots = m.slots := by cases m <;> rfl

theorem mem_msmapMergesort {list : List Msmap} :
    m ∈ msmapMergesort list ↔ ∃ m₀ ∈ list, m₀.sorted = m :=
  (msmapMergesort_perm list).mem_iff.trans List.mem_map

/-- Sorting keeps the words. -/
theorem wordsIn_sort (list : List Msmap) :
    wordsIn (msmapMergesort list) = wordsIn list := by
  have hslots : slotsIn (msmapMergesort list) = slotsIn list := by
    rw [slotsIn, ((msmapMergesort_perm list).map _).sum_eq, List.map_map]
    exact congrArg List.sum (List.map_congr_left fun m _ => slots_sorted m)
  have hspan : spanIn (msmapMergesort list) = spanIn list := by
    rw [spanIn, ((msmapMergesort_perm list).map _).sum_eq, List.map_map]
    exact congrArg List.sum (List.map_congr_left fun m _ => span_sorted m)
  rw [wordsIn, wordsIn, hslots, hspan]

/-- Binding keeps the words. -/
theorem wordsIn_place : ∀ (length offsptr : ℤ) (list : List Msmap),
    wordsIn (placeAll length offsptr list) = wordsIn list
  | _, _, [] => by rw [placeAll]
  | length, offsptr, m :: rest => by
    have ih := wordsIn_place (length + m.slots) (offsptr + m.span) rest
    rw [wordsIn, wordsIn] at ih ⊢
    rw [placeAll, slotsIn_cons, spanIn_cons, slotsIn_cons, spanIn_cons, slots_place, span_place]
    push_cast
    omega

theorem wordsIn_append (list list' : List Msmap) :
    wordsIn (list ++ list') = wordsIn list + wordsIn list' := by
  have hslots : slotsIn (list ++ list') = slotsIn list + slotsIn list' := by
    rw [slotsIn, List.map_append, List.sum_append]
    rfl
  rw [wordsIn, wordsIn, wordsIn, hslots, spanIn_append]
  push_cast
  ring

/-- What is in a replicated PAR takes what a replica uses. -/
theorem wordsIn_ownOf : ∀ (items : List Item) (fresh : ℕ),
    wordsIn (ownOf fresh items) = usageOf items
  | [], _ => rfl
  | i :: rest, fresh => by
    have hitem : wordsIn (i.own fresh) = i.usage := by
      cases i with
      | var nptr =>
        simp [wordsIn, slotsIn, spanIn, Item.own, Item.usage, Msmap.slots, Msmap.span, Msmap.words,
          add_comm]
      | inst nwords =>
        by_cases h0 : nwords = 0 <;>
          simp [wordsIn, slotsIn, spanIn, Item.own, Item.usage, Msmap.slots, Msmap.span,
            Msmap.words, h0]
      | replpar => rfl
    rw [ownOf, wordsIn_append, wordsIn_ownOf rest, hitem, usageOf_cons, add_comm]

theorem wordsIn_topOf (items : List Item) (fresh : ℕ) :
    wordsIn (topOf fresh items) = usageOf items + spanIn (parsOf fresh items) := by
  have hpars : slotsIn (parsOf fresh items) = 0 := slotsIn_eq_zero fun m hm => by
    obtain ⟨k, n, body, rfl, -⟩ := mem_parsOf hm
    rfl
  have hperm : wordsIn (topOf fresh items) = wordsIn (ownOf fresh items ++ parsOf fresh items) := by
    rw [wordsIn, slotsIn, spanIn, ((topOf_perm fresh items).map _).sum_eq,
      ((topOf_perm fresh items).map _).sum_eq]
    rfl
  rw [hperm, wordsIn_append, wordsIn_ownOf, wordsIn, hpars, Nat.cast_zero, zero_add]

/-- **The words of the procedure** are what the map takes for its leaves. -/
theorem wordsIn_mapOf (items : List Item) :
    wordsIn (mapOf items) = laidIn (leavesOf 0 [] items) := by
  rw [mapOf, placed, wordsIn_place, wordsIn_sort, wordsIn_topOf, laidIn_leavesOf, List.headD_nil,
    Nat.cast_one, mul_one]

theorem mapOf_spaced (hsized : SizedAll items) :
    Spaced (mapOf items) (wordsIn (mapOf items)) := by
  have h := placed_spaced (msmapMergesort_varsFirst (topOf 0 items)) fun m hm => by
    obtain ⟨m₀, hm₀, rfl⟩ := mem_msmapMergesort.mp hm
    rw [span_sorted]
    exact span_nonneg hsized hm₀
  rw [mapOf, placed, wordsIn_place]
  exact h

/-- The nodes in the node of a replicated PAR. -/
theorem inner_spaced (k : ℕ) (replcount : ℕ+) {body : List Item} (hsized : SizedAll body) :
    Spaced (inner (parNode k replcount body)) (usageOf body) := by
  have h := placed_spaced (msmapMergesort_varsFirst (ownOf (k + 1) body)) fun m hm => by
    obtain ⟨m₀, hm₀, rfl⟩ := mem_msmapMergesort.mp hm
    rw [span_sorted, span_own hm₀]
    exact words_ownOf hsized hm₀
  rw [wordsIn_sort, wordsIn_ownOf] at h
  exact h

variable {x : ℤ} {p q : Part} {a b : Area}

theorem msusage_parNode (k : ℕ) (body : List Item) :
    (if (ownOf k body).length > 0 then usageOf body else 0) = usageOf body := by
  split_ifs with h
  · rfl
  · have hnil : ownOf k body = [] := List.length_eq_zero_iff.mp (Nat.eq_zero_of_not_pos h)
    have hwords := wordsIn_ownOf body k
    rw [hnil] at hwords
    exact hwords

/-- The node of a replicated PAR in the map. -/
theorem place_parNode (k : ℕ) (replcount : ℕ+) (body : List Item) (length offsptr : ℤ) :
    (parNode k replcount body).sorted.place length offsptr =
      .replpar k (usageOf body) offsptr length replcount (usageOf body)
        (inner (parNode k replcount body)) := by
  rw [parNode, msusage_parNode, Msmap.sorted, Msmap.place, inner, placed]
  rfl

theorem mem_mapOf (hm : m ∈ mapOf items) :
    ∃ m₀ ∈ topOf 0 items, m = m₀.sorted.place m.sloffset m.msoffset := by
  obtain ⟨m', hm', heq⟩ := exists_of_mem_placeAll hm
  obtain ⟨m₀, hm₀, rfl⟩ := mem_msmapMergesort.mp hm'
  exact ⟨m₀, hm₀, heq⟩

theorem mem_inner {k : ℕ} {replcount : ℕ+} {body : List Item}
    (hm : m ∈ inner (parNode k replcount body)) :
    ∃ m₀ ∈ ownOf (k + 1) body, m = m₀.place m.sloffset m.msoffset := by
  obtain ⟨m', hm', heq⟩ := exists_of_mem_placeAll hm
  obtain ⟨m₀, hm₀, rfl⟩ := mem_msmapMergesort.mp hm'
  rw [sorted_own hm₀] at heq
  exact ⟨m₀, hm₀, heq⟩

theorem isPar_place (m : Msmap) (length offsptr : ℤ) :
    (m.place length offsptr).isPar = m.isPar := by
  cases m <;> rw [Msmap.place] <;> rfl

theorem isPar_sorted (m : Msmap) : m.sorted.isPar = m.isPar := by cases m <;> rfl

theorem isPar_inner {k : ℕ} {replcount : ℕ+} {body : List Item}
    (hm : m ∈ inner (parNode k replcount body)) : m.isPar = false := by
  obtain ⟨m₀, hm₀, heq⟩ := mem_inner hm
  rw [heq, isPar_place, isPar_ownOf hm₀]

/-- The node of a replicated PAR, and its replica `i` is at `base`. -/
structure Replica (items : List Item) (k : ℕ) (replcount : ℕ+) (body : List Item) (r : Msmap)
    (i : ℕ) (base : ℤ) : Prop where
  mem_pars : parNode k replcount body ∈ parsOf 0 items
  mem_map : r ∈ mapOf items
  eq : r = .replpar k (usageOf body) r.msoffset r.sloffset replcount (usageOf body)
    (inner (parNode k replcount body))
  sized : SizedAll items → SizedAll body
  lt : i < replcount
  base_eq : base = r.msoffset + i * usageOf body

/-- **Where a node is**: on the map of the procedure, or in a replica of a replicated PAR. -/
theorem mapped_mapOf (h : Mapped (mapOf items) indices base m) :
    (indices = [] ∧ base = 0 ∧ m ∈ mapOf items) ∨
      ∃ k replcount body r i, Replica items k replcount body r i base ∧ indices = [i] ∧
        m ∈ inner (parNode k replcount body) := by
  cases h with
  | here hm => exact .inl ⟨rfl, rfl, hm⟩
  | @inside _ replptr addr i words msoffset sloffset replcount msusage indices base _ hr hi h =>
    right
    obtain ⟨m₀, hm₀, heq⟩ := mem_mapOf hr
    rcases mem_topOf.mp hm₀ with hown | hpar
    · rw [sorted_own hown] at heq
      have hfalse := congrArg Msmap.isPar heq
      rw [isPar_place, isPar_ownOf hown] at hfalse
      cases hfalse
    · obtain ⟨k, n, body, rfl, -, -, hsized⟩ := mem_parsOf hpar
      rw [place_parNode] at heq
      injection heq with haddr hwords hms hsl hcount husage hreplptr
      subst haddr hwords hcount husage hreplptr
      have hreplica : Replica items addr n body (.replpar addr (usageOf body) msoffset sloffset n
          (usageOf body) (inner (parNode addr n body))) i (msoffset + i * usageOf body) :=
        ⟨hpar, hr, rfl, hsized, Nat.cast_lt.mp hi, rfl⟩
      cases h with
      | here hm => exact ⟨addr, n, body, _, i, by rw [add_zero]; exact hreplica, rfl, hm⟩
      | inside hr' => cases isPar_inner hr'

/-- The area of the node for a part of its leaf. -/
def Msmap.area (m : Msmap) (base : ℤ) (shadow : Bool) : Area :=
  if shadow then ⟨base + m.sloffset, 1⟩ else ⟨base + m.msoffset, m.words⟩

theorem Msmap.holds_of_area {shadow : Bool} (hpar : m.isPar = false)
    (hv : shadow = true → m.isVar = true) (hx : (m.area base shadow).Has x) :
    m.Holds (x - base) := by
  have hspan : m.span = m.words := by
    cases m with
    | replpar => cases hpar
    | _ => rfl
  cases shadow with
  | true =>
    obtain ⟨h, h'⟩ : base + m.sloffset ≤ x ∧ x < base + m.sloffset + (1 : ℕ) := hx
    exact .inl ⟨hv rfl, by push_cast at h'; omega⟩
  | false =>
    obtain ⟨h, h'⟩ : base + m.msoffset ≤ x ∧ x < base + m.msoffset + m.words := hx
    exact .inr ⟨by omega, by rw [hspan]; omega⟩

/-- The place of a part in the map. -/
inductive Spot (items : List Item) (p : Part) (a : Area) : Prop
  | top (m : Msmap) (hm : m ∈ mapOf items) (hpar : m.isPar = false) (hcounts : p.leaf.counts = [])
      (hof : m.Of p.leaf) (ha : a = m.area 0 p.shadow)
  | par (k : ℕ) (replcount : ℕ+) (body : List Item) (r m : Msmap) (i : ℕ) (base : ℤ)
      (hr : Replica items k replcount body r i base) (hm : m ∈ inner (parNode k replcount body))
      (hcounts : ∃ outer : List ℕ, p.leaf.counts = (replcount : ℕ) :: outer)
      (hi : p.indices.head? = some i)
      (hof : m.Of p.leaf) (ha : a = m.area base p.shadow)

theorem Part.At.spot (h : p.At (mapOf items) a) (hp : p.Of items) : Spot items p a := by
  obtain ⟨indices, base, m, hprefix, hmapped, haddr, ha⟩ := h
  rcases mapped_mapOf hmapped with ⟨-, rfl, hm⟩ | ⟨k, n, body, r, i, hr, rfl, hm⟩
  · obtain ⟨m₀, hm₀, heq⟩ := mem_mapOf hm
    have haddr₀ : m₀.addr = p.leaf.addr := by
      rw [← haddr, heq, addr_place]
      cases m₀ <;> rfl
    obtain ⟨hcounts, hpar, hof⟩ := topOf_of hp.1 hm₀ haddr₀
    have hsorted : m₀.sorted = m₀ := by
      cases m₀ with
      | replpar => cases hpar
      | _ => rfl
    rw [hsorted] at heq
    refine .top m hm (by rw [heq, isPar_place, hpar]) hcounts ⟨haddr, ?_, ?_⟩ ha
    · rw [heq, words_place, hof.words]
    · rw [heq, isVar_place, hof.isVar]
  · obtain ⟨m₀, hm₀, heq⟩ := mem_inner hm
    have haddr₀ : m₀.addr = p.leaf.addr := by rw [← haddr, heq, addr_place]
    obtain ⟨⟨n', outer, hcounts, hn'⟩, hof⟩ := replptr_of hp.1 hr.mem_pars hm₀ haddr₀
    have hn : n' = n := Nat.cast_injective (hn'.symm.trans rfl)
    refine .par k n body r m i base hr hm ⟨outer, hn ▸ hcounts⟩ ?_ ⟨haddr, ?_, ?_⟩ ha
    · obtain ⟨rest, hrest⟩ := hprefix
      rw [← hrest]
      rfl
    · rw [heq, words_place, hof.words]
    · rw [heq, isVar_place, hof.isVar]

theorem Replica.span_eq {k i : ℕ} {n : ℕ+} {body : List Item}
    (h : Replica items k n body r i base) :
    r.span = usageOf body * n := by
  have hne : ((n : ℕ) : ℤ) ≠ -1 := by omega
  rw [h.eq, Msmap.span, if_neg hne]

/-- What a node in a replica holds is within the words of the node of the PAR. -/
theorem Replica.holds {k i : ℕ} {n : ℕ+} {body : List Item} (h : Replica items k n body r i base)
    (hsized : SizedAll items) (hm : m ∈ inner (parNode k n body)) (hx : m.Holds (x - base)) :
    r.Holds x ∧ base ≤ x ∧ x < base + usageOf body := by
  have hbody := h.sized hsized
  obtain ⟨h0, hlt⟩ := (inner_spaced k n hbody).holds hm hx
  have hle : (i + 1 : ℤ) * usageOf body ≤ n * usageOf body :=
    mul_le_mul_of_nonneg_right (by have := h.lt; omega) (usageOf_nonneg hbody)
  have hi : (0 : ℤ) ≤ i * usageOf body :=
    mul_nonneg (Int.natCast_nonneg _) (usageOf_nonneg hbody)
  have hbase := h.base_eq
  refine ⟨.inr ⟨by omega, ?_⟩, by omega, by omega⟩
  rw [h.span_eq, mul_comm]
  linarith

/-- The areas of a node's two parts have no word in common. -/
theorem Spaced.areas {map : List Msmap} {size : ℤ} (h : Spaced map size) (hm : m ∈ map)
    (hv : m.isVar = true) (hx : (m.area base true).Has x) : ¬ (m.area base false).Has x := by
  intro hx'
  obtain ⟨h1, h2⟩ : base + m.sloffset ≤ x ∧ x < base + m.sloffset + 1 := hx
  obtain ⟨h3, -⟩ : base + m.msoffset ≤ x ∧ x < base + m.msoffset + m.words := hx'
  have := h.slot_not_data hm hv
  omega

theorem Spaced.not_both {map : List Msmap} {size : ℤ} {s s' : Bool} (h : Spaced map size)
    (hm : m ∈ map) (hs : s = true → m.isVar = true) (hs' : s' = true → m.isVar = true)
    (hne : s ≠ s') (hx : (m.area base s).Has x) : ¬ (m.area base s').Has x := by
  cases s with
  | true =>
    cases s' with
    | true => exact absurd rfl hne
    | false => exact h.areas hm (hs rfl) hx
  | false =>
    cases s' with
    | true => exact fun hx' => h.areas hm (hs' rfl) hx' hx
    | false => exact absurd rfl hne

theorem Part.Of.isVar (hp : p.Of items) (hof : m.Of p.leaf) (h : p.shadow = true) :
    m.isVar = true := hof.isVar.trans (hp.2.2 h)

/-- Within counts that are 1 but for the first, the first index says it all. -/
theorem indices_eq {n : ℕ} {outer : List ℕ} (houter : ∀ n ∈ outer, n = 1)
    {indices indices' : List ℕ}
    (h : List.Forall₂ (· < ·) indices (n :: outer))
    (h' : List.Forall₂ (· < ·) indices' (n :: outer))
    (heq : indices.head? = indices'.head?) : indices = indices' := by
  cases h with
  | cons hi hrest =>
    cases h' with
    | cons hi' hrest' =>
      have hhead := Option.some.inj heq
      have hzero : ∀ {l l' outer : List ℕ}, (∀ n ∈ outer, n = 1) → List.Forall₂ (· < ·) l outer →
          List.Forall₂ (· < ·) l' outer → l = l' := by
        intro l l' outer houter hl
        induction hl generalizing l' with
        | nil => exact fun h => (List.forall₂_nil_right_iff.mp h).symm
        | cons hlt _ ih =>
          intro hl'
          cases hl' with
          | cons hlt' hl' =>
            have h1 := houter _ List.mem_cons_self
            rw [ih (fun n hn => houter n (List.mem_cons_of_mem _ hn)) hl']
            congr 1
            omega
      rw [hhead, hzero houter hrest hrest']

/-- A word of two replicas is in one. -/
theorem strides_eq {i i' : ℕ} {u start base base' : ℤ} (hu : 0 ≤ u) (h1 : base ≤ x)
    (h2 : x < base + u) (h1' : base' ≤ x) (h2' : x < base' + u) (h : base = start + i * u)
    (h' : base' = start + i' * u) : i = i' := by
  have hstep : ∀ {j j' : ℕ}, j < j' → start + j' * u ≤ x → x < start + j * u + u → False := by
    intro j j' hjj hle hlt
    have hmul : ((j : ℤ) + 1) * u ≤ j' * u :=
      mul_le_mul_of_nonneg_right (by omega) hu
    rw [add_mul, one_mul] at hmul
    omega
  rcases Nat.lt_trichotomy i i' with hlt | heq | hlt
  · exact (hstep hlt (h' ▸ h1') (h ▸ h2)).elim
  · exact heq
  · exact (hstep hlt (h ▸ h1) (h' ▸ h2')).elim

/-- Areas of different parts **have no word in common**, if only the innermost counts are more
than 1. -/
theorem mapOf_apart (hsized : SizedAll items)
    (hcounts : ∀ l ∈ leavesOf 0 [] items, ∀ n ∈ l.counts.tail, n = 1)
    (hp : p.Of items) (hq : q.Of items) (ha : p.At (mapOf items) a) (hb : q.At (mapOf items) b)
    (hne : p ≠ q) (hx : a.Has x) : ¬ b.Has x := by
  intro hx'
  have hspaced := mapOf_spaced hsized
  cases ha.spot hp with
  | top m hm hpar hnil hof ha =>
    subst ha
    have hholds := Msmap.holds_of_area hpar (hp.isVar hof) hx
    rw [sub_zero] at hholds
    cases hb.spot hq with
    | top m' hm' hpar' hnil' hof' hb =>
      subst hb
      have hholds' := Msmap.holds_of_area hpar' (hq.isVar hof') hx'
      rw [sub_zero] at hholds'
      by_cases hmm : m = m'
      · subst hmm
        have hleaf := leavesOf_inj hp.1 hq.1 (hof.addr.symm.trans hof'.addr)
        have hindices : p.indices = q.indices := by
          have h := hp.2.1
          have h' := hq.2.1
          rw [hnil] at h
          rw [hnil'] at h'
          rw [List.forall₂_nil_right_iff.mp h, List.forall₂_nil_right_iff.mp h']
        have hshadow : p.shadow ≠ q.shadow := fun h => hne (by
          cases p
          cases q
          simp_all)
        exact hspaced.not_both hm (hp.isVar hof) (hq.isVar hof') hshadow hx hx'
      · exact hspaced.not_holds hm hm' hmm hholds hholds'
    | par k n body r m' i base hr hm' hcounts' hi hof' hb =>
      subst hb
      have hin := (hr.holds hsized hm'
        (Msmap.holds_of_area (isPar_inner hm') (hq.isVar hof') hx')).1
      refine hspaced.not_holds hm hr.mem_map (fun h => ?_) hholds hin
      rw [h, hr.eq] at hpar
      cases hpar
  | par k n body r m i base hr hm hcount hi hof ha =>
    subst ha
    have hholds := Msmap.holds_of_area (isPar_inner hm) (hp.isVar hof) hx
    have hin := hr.holds hsized hm hholds
    cases hb.spot hq with
    | top m' hm' hpar' hnil' hof' hb =>
      subst hb
      have hholds' := Msmap.holds_of_area hpar' (hq.isVar hof') hx'
      rw [sub_zero] at hholds'
      refine hspaced.not_holds hr.mem_map hm' (fun h => ?_) hin.1 hholds'
      rw [← h, hr.eq] at hpar'
      cases hpar'
    | par k' n' body' r' m' i' base' hr' hm' hcount' hi' hof' hb =>
      subst hb
      have hholds' := Msmap.holds_of_area (isPar_inner hm') (hq.isVar hof') hx'
      have hin' := hr'.holds hsized hm' hholds'
      by_cases hrr : r = r'
      · subst hrr
        have heq := hr.eq.symm.trans hr'.eq
        injection heq with hk husage hms hsl hn husage' hinner
        have hnn : n = n' := PNat.coe_injective (Nat.cast_injective hn)
        have hbase := hr.base_eq
        have hbase' := hr'.base_eq
        rw [← husage] at hbase' hin'
        have hii : i = i' :=
          strides_eq (usageOf_nonneg (hr.sized hsized)) hin.2.1 hin.2.2 hin'.2.1 hin'.2.2 hbase
          hbase'
        have hbb : base = base' := by rw [hbase, hbase', hii]
        subst hbb
        rw [← hinner] at hm'
        by_cases hmm : m = m'
        · subst hmm
          have hleaf := leavesOf_inj hp.1 hq.1 (hof.addr.symm.trans hof'.addr)
          have hindices : p.indices = q.indices := by
            obtain ⟨outer, houter⟩ := hcount
            have h1 := hcounts p.leaf hp.1
            have h := hp.2.1
            have h' := hq.2.1
            rw [← hleaf] at h'
            rw [houter] at h h' h1
            exact indices_eq h1 h h' (by rw [hi, hi', hii])
          have hshadow : p.shadow ≠ q.shadow := fun h => hne (by
            cases p
            cases q
            simp_all)
          exact (inner_spaced k n (hr.sized hsized)).not_both hm (hp.isVar hof) (hq.isVar hof')
            hshadow hx hx'
        · exact (inner_spaced k n (hr.sized hsized)).not_holds hm hm' hmm hholds hholds'
      · exact hspaced.not_holds hr.mem_map hr'.mem_map hrr hin.1 hin'.1

/-- Every node is in the map that is sorted and bound. -/
theorem exists_place_mem {list : List Msmap} (hm : m ∈ list) :
    ∃ length offsptr, m.sorted.place length offsptr ∈ placed (msmapMergesort list) :=
  place_mem_placeAll (mem_msmapMergesort.mpr ⟨m, hm, rfl⟩)

/-- **Every part has its area.** -/
theorem mapOf_placed (hsized : SizedAll items) (hp : p.Of items) : ∃ a, p.At (mapOf items) a ∧
    0 ≤ a.size ∧ a.size = if p.shadow then 1 else p.leaf.words := by
  have hwords := sizedAll_iff.mp hsized _ hp.1
  have hsize : ∀ {m : Msmap} {base : ℤ}, m.Of p.leaf → 0 ≤ (m.area base p.shadow).size ∧
      (m.area base p.shadow).size = if p.shadow then 1 else p.leaf.words := fun hof => by
    rw [Msmap.area]
    split_ifs
    · exact ⟨Int.zero_le_ofNat 1, rfl⟩
    · exact ⟨hof.words ▸ hwords, hof.words⟩
  rcases leaf_node hp.1 with ⟨-, m, hm, hof⟩ | ⟨r, hr, n, outer, hcounts, hn, m, hm, hof⟩
  · obtain ⟨sl, ms, h⟩ := exists_place_mem (mem_topOf.mpr (.inl hm))
    rw [sorted_own hm] at h
    have hof' : (m.place sl ms).Of p.leaf :=
      ⟨by rw [addr_place, hof.addr], by rw [words_place, hof.words], by rw [isVar_place, hof.isVar]⟩
    exact ⟨_, ⟨[], 0, _, List.nil_prefix, .here h, hof'.addr, rfl⟩, hsize hof'⟩
  · obtain ⟨k, replcount, body, rfl, -⟩ := mem_parsOf hr
    obtain ⟨sl, ms, h⟩ := exists_place_mem (mem_topOf.mpr (.inr hr))
    rw [place_parNode] at h
    have hown : m ∈ ownOf (k + 1) body := hm
    obtain ⟨sl', ms', h'⟩ := exists_place_mem hm
    rw [sorted_own hown] at h'
    have hof' : (m.place sl' ms').Of p.leaf :=
      ⟨by rw [addr_place, hof.addr], by rw [words_place, hof.words], by rw [isVar_place, hof.isVar]⟩
    have hforall := hp.2.1
    rw [hcounts] at hforall
    cases hind : p.indices with
    | nil =>
      rw [hind] at hforall
      cases hforall
    | cons i rest =>
      rw [hind] at hforall
      cases hforall with
      | cons hi _ =>
        have hlt : (i : ℤ) < (replcount : ℕ) := by
          have hn' : ((replcount : ℕ) : ℤ) = n := hn
          omega
        have hmapped := Mapped.inside h hlt (.here h')
        exact ⟨_, ⟨[i], _, _, hind ▸ ⟨rest, rfl⟩, hmapped, hof'.addr, rfl⟩, hsize hof'⟩

/-- All areas are **within the words of the procedure**. -/
theorem mapOf_within (hsized : SizedAll items) (hp : p.Of items) (ha : p.At (mapOf items) a)
    (hx : a.Has x) : 0 ≤ x ∧ x < wordsIn (mapOf items) := by
  cases ha.spot hp with
  | top m hm hpar _ hof ha =>
    subst ha
    have hholds := Msmap.holds_of_area hpar (hp.isVar hof) hx
    rw [sub_zero] at hholds
    exact (mapOf_spaced hsized).holds hm hholds
  | par k n body r m i base hr hm _ _ hof ha =>
    subst ha
    exact (mapOf_spaced hsized).holds hr.mem_map
      (hr.holds hsized hm (Msmap.holds_of_area (isPar_inner hm) (hp.isVar hof) hx)).1

/-- Terms that are at most others with the same sum are the others. -/
theorem eq_of_sum_eq {α : Type*} {f g : α → ℤ} : ∀ {l : List α}, (∀ y ∈ l, f y ≤ g y) →
    (l.map f).sum = (l.map g).sum → ∀ y ∈ l, f y = g y
  | [], _, _, _, hy => by cases hy
  | z :: l, hle, hsum, y, hy => by
    obtain ⟨hz, hl⟩ := List.forall_mem_cons.mp hle
    have hrest : (l.map f).sum ≤ (l.map g).sum := List.sum_le_sum hl
    rw [List.map_cons, List.map_cons, List.sum_cons, List.sum_cons] at hsum
    rcases List.mem_cons.mp hy with rfl | hy
    · omega
    · exact eq_of_sum_eq hl (by omega) y hy

theorem Leaf.laid_le {l : Leaf} (hw : 0 < l.weight) (h : ∀ n ∈ l.counts, 0 < n) :
    l.laid ≤ l.needed := by
  refine mul_le_mul_of_nonneg_left (Nat.cast_le.mpr ?_) hw.le
  cases hc : l.counts with
  | nil => exact le_rfl
  | cons n outer =>
    rw [List.headD_cons, List.prod_cons]
    have hpos : 0 < outer.prod := List.prod_pos fun k hk => h k (hc ▸ List.mem_cons_of_mem _ hk)
    exact Nat.le_mul_of_pos_right n hpos

theorem Leaf.laid_eq_iff {l : Leaf} (hw : 0 < l.weight) (h : ∀ n ∈ l.counts, 0 < n) :
    l.laid = l.needed ↔ ∀ n ∈ l.counts.tail, n = 1 := by
  rw [Leaf.laid, Leaf.needed, mul_right_inj' hw.ne', Nat.cast_inj]
  cases hc : l.counts with
  | nil => simp
  | cons n outer =>
    have hn : 0 < n := h n (hc ▸ List.mem_cons_self)
    rw [List.headD_cons, List.prod_cons, List.tail_cons]
    constructor
    · intro heq k hk
      have h1 : outer.prod = 1 := Nat.eq_of_mul_eq_mul_left hn (heq.symm.trans (Nat.mul_one n).symm)
      exact Nat.dvd_one.mp (h1 ▸ List.dvd_prod hk)
    · intro h1
      rw [List.prod_eq_one h1, Nat.mul_one]

/-- **The words of the procedure are enough** exactly when only the innermost counts are more
than 1. -/
theorem wordsIn_total_iff (hsized : SizedAll items) :
    wordsIn (mapOf items) = ((leavesOf 0 [] items).map Leaf.needed).sum ↔
      ∀ l ∈ leavesOf 0 [] items, ∀ n ∈ l.counts.tail, n = 1 := by
  have hpos : ∀ l ∈ leavesOf 0 [] items, ∀ n ∈ l.counts, 0 < n := fun l hl =>
    counts_pos (List.forall_mem_nil _) hl
  have hweight : ∀ l ∈ leavesOf 0 [] items, 0 < l.weight := fun l hl =>
    weight_pos hl (sizedAll_iff.mp hsized l hl)
  rw [wordsIn_mapOf]
  constructor
  · intro h l hl
    exact (Leaf.laid_eq_iff (hweight l hl) (hpos l hl)).mp
      (eq_of_sum_eq (fun l hl => Leaf.laid_le (hweight l hl) (hpos l hl)) h l hl)
  · intro h
    exact congrArg List.sum (List.map_congr_left fun l hl =>
      (Leaf.laid_eq_iff (hweight l hl) (hpos l hl)).mpr (h l hl))

/-! ## The map that the calls make -/

theorem laidIn_nonneg {fresh : ℕ} {counts : List ℕ} (h : SizedAll items) :
    0 ≤ laidIn (leavesOf fresh counts items) :=
  List.sum_nonneg fun n hn => by
    obtain ⟨l, hl, rfl⟩ := List.mem_map.mp hn
    exact mul_nonneg (weight_pos hl (sizedAll_iff.mp h l hl)).le (Int.natCast_nonneg _)

theorem usageOf_le_laidIn {fresh : ℕ} {counts : List ℕ} (h : SizedAll items)
    (hcounts : ∀ n ∈ counts, 0 < n) : usageOf items ≤ laidIn (leavesOf fresh counts items) := by
  have hpars : 0 ≤ spanIn (parsOf fresh items) := spanIn_nonneg fun m hm => by
    obtain ⟨k, n, body, rfl, -, -, hbody⟩ := mem_parsOf hm
    rw [span_parNode]
    exact mul_nonneg (usageOf_nonneg (hbody h)) (Int.natCast_nonneg _)
  have hhead : (1 : ℤ) ≤ (counts.headD 1 : ℕ) := by
    cases counts with
    | nil => exact le_rfl
    | cons n outer => exact Nat.one_le_cast.mpr (hcounts n List.mem_cons_self)
  rw [laidIn_leavesOf]
  have := le_mul_of_one_le_right (usageOf_nonneg h) hhead
  omega

/-- **Usages do not overflow** while things are mapped, if what the map takes in the end is an
`int`. -/
theorem fitsAll_of_lt : ∀ {items : List Item} {fresh : ℕ} {counts : List ℕ} {usage : ℤ},
    SizedAll items → (∀ n ∈ counts, 0 < n) → 0 ≤ usage → usage + usageOf items < 2 ^ 31 →
      laidIn (leavesOf fresh counts items) < 2 ^ 31 → FitsAll usage items
  | [], _, _, _, _, _, _, _, _ => by
    rw [FitsAll]
    trivial
  | i :: rest, fresh, counts, usage, h, hcounts, h0, husage, hlaid => by
    obtain ⟨hi, hrest⟩ : i.Sized ∧ SizedAll rest := by rwa [SizedAll] at h
    have hone : SizedAll [i] := by
      rw [SizedAll, SizedAll]
      exact ⟨hi, trivial⟩
    have hitem : leavesOf fresh counts [i] = i.leaves fresh counts := by
      rw [leavesOf, leavesOf, List.append_nil]
    have hlaidItem : 0 ≤ laidIn (i.leaves fresh counts) := hitem ▸ laidIn_nonneg hone
    have hlaidRest : 0 ≤ laidIn (leavesOf (fresh + i.nodes) counts rest) := laidIn_nonneg hrest
    have hrest0 := usageOf_nonneg hrest
    rw [usageOf_cons] at husage
    rw [leavesOf, laidIn_append] at hlaid
    have hlt : laidIn (leavesOf (fresh + i.nodes) counts rest) < 2 ^ 31 := by omega
    have husage0 : 0 ≤ i.usage ∧ i.Fits usage := by
      cases i with
      | var nptr =>
        rw [Item.Fits]
        rw [Item.usage] at husage ⊢
        exact ⟨by omega, ⟨by omega, by omega⟩, by omega, by omega⟩
      | inst nwords =>
        rw [Item.Sized] at hi
        rw [Item.Fits]
        rw [Item.usage] at husage ⊢
        exact ⟨hi, .inr ⟨by omega, by omega⟩⟩
      | replpar replcount body =>
        have hbody : SizedAll body := by rwa [Item.Sized] at hi
        have hpos : ∀ n ∈ (replcount : ℕ) :: counts, 0 < n :=
          List.forall_mem_cons.mpr ⟨replcount.pos, hcounts⟩
        have hle : usageOf body ≤ laidIn (leavesOf (fresh + 1) (replcount :: counts) body) :=
          usageOf_le_laidIn hbody hpos
        have hin : laidIn (leavesOf (fresh + 1) (replcount :: counts) body) < 2 ^ 31 := by
          rw [Item.leaves] at hlaid
          omega
        rw [Item.Fits, Item.usage]
        exact ⟨le_rfl, fitsAll_of_lt hbody hpos le_rfl (by omega) hin⟩
    rw [FitsAll]
    exact ⟨husage0.2, fitsAll_of_lt hrest hcounts (by omega) (by omega) hlt⟩

theorem fitsTop_of_lt : ∀ {items : List Item} {fresh : ℕ}, SizedAll items →
    laidIn (leavesOf fresh [] items) < 2 ^ 31 → ∀ i ∈ items, i.FitsTop
  | [], _, _, _ => List.forall_mem_nil _
  | i :: rest, fresh, h, hlaid => by
    obtain ⟨hi, hrest⟩ : i.Sized ∧ SizedAll rest := by rwa [SizedAll] at h
    have hone : SizedAll [i] := by
      rw [SizedAll, SizedAll]
      exact ⟨hi, trivial⟩
    have hitem : leavesOf fresh [] [i] = i.leaves fresh [] := by
      rw [leavesOf, leavesOf, List.append_nil]
    have hlaidItem : 0 ≤ laidIn (i.leaves fresh []) := hitem ▸ laidIn_nonneg hone
    have hlaidRest : 0 ≤ laidIn (leavesOf (fresh + i.nodes) [] rest) := laidIn_nonneg hrest
    rw [leavesOf, laidIn_append] at hlaid
    have hlt : laidIn (leavesOf (fresh + i.nodes) [] rest) < 2 ^ 31 := by omega
    refine List.forall_mem_cons.mpr ⟨?_, fitsTop_of_lt hrest hlt⟩
    cases i with
    | replpar replcount body =>
      have hbody : SizedAll body := by rwa [Item.Sized] at hi
      have hpos : ∀ n ∈ [(replcount : ℕ)], 0 < n := List.forall_mem_singleton.mpr replcount.pos
      have hle : usageOf body ≤ laidIn (leavesOf (fresh + 1) [(replcount : ℕ)] body) :=
        usageOf_le_laidIn hbody hpos
      have hin : laidIn (leavesOf (fresh + 1) [(replcount : ℕ)] body) < 2 ^ 31 := by
        rw [Item.leaves] at hlaid
        omega
      exact fitsAll_of_lt hbody hpos le_rfl (by omega) hin
    | _ => trivial

/-- The node of a variable or an instance is bound wherever there is room. -/
theorem binds_own {fresh : ℕ} (hsized : SizedAll items) (hm : m ∈ ownOf fresh items) :
    m.sorted.Binds := by
  have hwords := words_ownOf hsized hm
  rw [sorted_own hm, Msmap.Binds, span_own hm]
  refine ⟨hwords, fun length offsptr h0 hlt => ?_⟩
  have hpar := isPar_ownOf hm
  cases m with
  | replpar => cases hpar
  | _ =>
    rw [Msmap.words] at hwords hlt
    rw [Msmap.bind, int32_of_lt (by omega) hlt, Msmap.place]
    rfl

theorem shadows_sort (list : List Msmap) :
    shadows (msmapMergesort list) + spanIn (msmapMergesort list) = wordsIn list := by
  rw [shadows_eq (msmapMergesort_varsFirst list), ← wordsIn_sort]
  rfl

/-- So is the node of a replicated PAR. -/
theorem binds_parNode {k : ℕ} {replcount : ℕ+} {body : List Item} (hsized : SizedAll body) :
    (parNode k replcount body).sorted.Binds := by
  have hne : ((replcount : ℕ) : ℤ) ≠ -1 := by omega
  have hone : (1 : ℤ) ≤ (replcount : ℕ) := Nat.one_le_cast.mpr replcount.pos
  have husage := usageOf_nonneg hsized
  have hle := le_mul_of_one_le_right husage hone
  rw [Msmap.Binds, span_sorted, span_parNode]
  refine ⟨by omega, fun length offsptr h0 hlt => ?_⟩
  have hin : bindmobilespace (msmapMergesort (ownOf (k + 1) body)) 0 =
      some (inner (parNode k replcount body)) := by
    refine bindmobilespace_eq (fun m hm => ?_) ?_
    · obtain ⟨m₀, hm₀, rfl⟩ := mem_msmapMergesort.mp hm
      exact binds_own hsized hm₀
    · rw [shadows_sort, wordsIn_ownOf]
      omega
  rw [bindmobilespace, zero_add] at hin
  obtain ⟨slots, hslots, hin⟩ := Option.bind_eq_some_iff.mp hin
  rw [place_parNode, parNode, Msmap.sorted, Msmap.bind, msusage_parNode]
  simp only [Option.bind_eq_bind, Option.pure_def, hslots, hin, Option.bind_some, if_neg hne,
    int32_of_lt (show 0 ≤ usageOf body * (replcount : ℕ) by omega)
      (show usageOf body * (replcount : ℕ) < 2 ^ 31 by omega),
    int32_of_lt (show 0 ≤ offsptr + usageOf body * (replcount : ℕ) by omega) hlt]
  rfl

/-- **The map is made**, and its words are counted, if they are an `int`. -/
theorem layout_eq_mapOf (hsized : SizedAll items) (hdeep : depthOf items ≤ RPSTACKSIZE)
    (hlt : wordsIn (mapOf items) < 2 ^ 31) : layout items = some (mapOf items) ∧
      mobilewordsin (mapOf items) = some (wordsIn (mapOf items)) := by
  refine ⟨layout_eq_some.mpr ⟨hdeep, fitsTop_of_lt hsized (wordsIn_mapOf items ▸ hlt),
    bindmobilespace_eq (fun m hm => ?_) ?_⟩, mobilewordsin_eq (fun m hm => ?_) hlt⟩
  · obtain ⟨m₀, hm₀, rfl⟩ := mem_msmapMergesort.mp hm
    rcases mem_topOf.mp hm₀ with hown | hpar
    · exact binds_own hsized hown
    · obtain ⟨k, n, body, rfl, -, -, hbody⟩ := mem_parsOf hpar
      exact binds_parNode (hbody hsized)
  · rwa [shadows_sort, ← wordsIn_sort, ← wordsIn_place 0 (shadows (msmapMergesort (topOf 0 items)))]
  · obtain ⟨m₀, hm₀, heq⟩ := mem_mapOf hm
    rw [heq, span_place, span_sorted]
    exact span_nonneg hsized hm₀

/-- Nothing else is made. -/
theorem eq_mapOf_of_layout {map : List Msmap} (h : layout items = some map) :
    depthOf items ≤ RPSTACKSIZE ∧ map = mapOf items := by
  obtain ⟨hdeep, -, hmap⟩ := layout_eq_some.mp h
  exact ⟨hdeep, (bindmobilespace_eq_some hmap).1⟩

/-- A leaf has a part, that of the first replicas. -/
theorem LaidOut.words_nonneg {map : List Msmap} {size : ℤ} {l : Leaf} (h : LaidOut items map size)
    (hl : l ∈ leavesOf 0 [] items) : 0 ≤ l.words := by
  have hcounts : ∀ n ∈ l.counts, 0 < n := counts_pos (List.forall_mem_nil _) hl
  have hfirst : List.Forall₂ (· < ·) (l.counts.map fun _ => 0) l.counts :=
    List.forall₂_map_left_iff.mpr (List.forall₂_same.mpr hcounts)
  obtain ⟨a, -, h0, hsize⟩ := h.placed ⟨l, _, false⟩ ⟨hl, hfirst, fun hs => by cases hs⟩
  rw [if_neg Bool.false_ne_true] at hsize
  exact hsize ▸ h0

/-- **The layout is complete and disjoint** exactly when there is room for the nested PARs while
they are mapped, no instance asks for less than no words, of the counts of the PARs around a
variable or an instance only that of the innermost one is more than 1, and all words that are needed
are an `int`. -/
theorem laidOut_iff (items : List Item) :
    (∃ map size, layout items = some map ∧ mobilewordsin map = some size ∧
        LaidOut items map size) ↔
      depthOf items ≤ RPSTACKSIZE ∧
        (∀ l ∈ leavesOf 0 [] items, 0 ≤ l.words ∧ ∀ n ∈ l.counts.tail, n = 1) ∧
        ((leavesOf 0 [] items).map Leaf.needed).sum < 2 ^ 31 := by
  constructor
  · rintro ⟨map, size, hmap, hsize, hlaid⟩
    obtain ⟨hdeep, rfl⟩ := eq_mapOf_of_layout hmap
    obtain ⟨rfl, hlt⟩ := mobilewordsin_eq_some hsize
    have hsized : SizedAll items := sizedAll_iff.mpr fun l => hlaid.words_nonneg
    have hcounts := (wordsIn_total_iff hsized).mp hlaid.total
    exact ⟨hdeep, fun l hl => ⟨hlaid.words_nonneg hl, hcounts l hl⟩, hlaid.total ▸ hlt⟩
  · rintro ⟨hdeep, hleaves, hlt⟩
    have hsized : SizedAll items := sizedAll_iff.mpr fun l hl => (hleaves l hl).1
    have hcounts : ∀ l ∈ leavesOf 0 [] items, ∀ n ∈ l.counts.tail, n = 1 := fun l hl =>
      (hleaves l hl).2
    have htotal := (wordsIn_total_iff hsized).mpr hcounts
    obtain ⟨hmap, hsize⟩ := layout_eq_mapOf hsized hdeep (htotal ▸ hlt)
    exact ⟨_, _, hmap, hsize, fun _ => mapOf_placed hsized, fun _ _ _ _ hp hq ha hb hne _ =>
      mapOf_apart hsized hcounts hp hq ha hb hne, fun _ _ hp ha _ => mapOf_within hsized hp ha,
      htotal⟩

/-- An instance of one word in a PAR of two replicas in another one of two: the procedure gets two
words for the four that it needs. -/
theorem two_words_for_four :
    ∃ map, layout [.replpar 2 [.replpar 2 [.inst 1]]] = some map ∧ mobilewordsin map = some 2 ∧
      ¬ LaidOut [.replpar 2 [.replpar 2 [.inst 1]]] map 2 := by
  have hleaves : ∀ l ∈ leavesOf 0 [] [.replpar 2 [.replpar 2 [.inst 1]]], 0 ≤ l.words := by decide
  have hsized := sizedAll_iff.mpr hleaves
  have hwords : wordsIn (mapOf [.replpar 2 [.replpar 2 [.inst 1]]]) = 2 := by
    rw [wordsIn_mapOf]
    rfl
  obtain ⟨hmap, hsize⟩ := layout_eq_mapOf hsized (by decide) (by rw [hwords]; decide)
  refine ⟨_, hmap, hwords ▸ hsize, fun h => ?_⟩
  exact absurd h.total (by decide)

end Occ21

end Kroc
