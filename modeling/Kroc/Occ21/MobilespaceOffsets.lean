import Kroc.Occ21.Mobilespace

/-!
# Occ21/MobilespaceOffsets — sorting and giving out offsets

The sort puts the variables first, so that there is a shadow slot for each of them.  The nodes of a
map that is bound hold words of their own: the slots before the rest, and all of them together as
many as `mobilewordsin` says.  `placed` is the bound map where no sum overflows.
-/

namespace Kroc

namespace Occ21

variable {list map : List Msmap} {m m' : Msmap} {size x : ℤ}

/-- **Induction over a map**: on what is inside of the first node, and on what is behind it. -/
@[elab_as_elim]
theorem mapInduction {P : List Msmap → Prop} (nil : P [])
    (cons : ∀ tmp rest, P tmp.replptr → P rest → P (tmp :: rest)) : ∀ list, P list
  | [] => nil
  | .var addr words msoffset sloffset varptr :: rest =>
    cons _ rest nil (mapInduction nil cons rest)
  | .inst addr words msoffset sloffset :: rest => cons _ rest nil (mapInduction nil cons rest)
  | .replpar addr words msoffset sloffset replcount msusage replptr :: rest =>
    cons _ rest (mapInduction nil cons replptr) (mapInduction nil cons rest)

/-! ## What the sort leaves -/

/-- The node with what is inside of it sorted. -/
def Msmap.sorted : Msmap → Msmap
  | .replpar addr words msoffset sloffset replcount msusage replptr =>
    .replpar addr words msoffset sloffset replcount msusage (msmapMergesort replptr)
  | m => m

/-- The order of the sort is a total preorder. -/
theorem msmapBefore_trans (a b c : Msmap) (h : msmapBefore a b = true)
    (h' : msmapBefore b c = true) : msmapBefore a c = true := by
  cases a <;> cases b <;> cases c <;> simp_all [msmapBefore]
  omega

theorem msmapBefore_total (a b : Msmap) : (msmapBefore a b || msmapBefore b a) = true := by
  cases a <;> cases b <;> simp [msmapBefore]
  omega

/-- **The sort** loses no node and puts the nodes in their order. -/
theorem msmapMergesort_spec (list : List Msmap) :
    (msmapMergesort list).Perm (list.map Msmap.sorted) ∧
      (msmapMergesort list).Pairwise fun m m' => msmapBefore m m' = true := by
  fun_induction msmapMergesort list with
  | case1 => exact ⟨.refl _, .nil⟩
  | case2 => exact ⟨.refl _, List.pairwise_singleton _ _⟩
  | case3 m hm =>
    refine ⟨?_, List.pairwise_singleton _ _⟩
    cases m with
    | replpar addr words msoffset sloffset replcount msusage replptr =>
      exact absurd rfl (hm _ _ _ _ _ _ _)
    | var => exact .refl _
    | inst => exact .refl _
  | case4 m m' rest list ih ih' =>
    refine ⟨(List.merge_perm_append _).trans ((ih.1.append ih'.1).trans ?_),
      List.pairwise_merge msmapBefore_trans msmapBefore_total _ _ ih.2 ih'.2⟩
    rw [← List.map_append, List.take_append_drop]

theorem msmapMergesort_perm (list : List Msmap) :
    (msmapMergesort list).Perm (list.map Msmap.sorted) :=
  (msmapMergesort_spec list).1

theorem msmapMergesort_pairwise (list : List Msmap) :
    (msmapMergesort list).Pairwise fun m m' => msmapBefore m m' = true :=
  (msmapMergesort_spec list).2

/-- The variables of a list come first. -/
def VarsFirst (list : List Msmap) : Prop :=
  list.Pairwise fun m m' => m'.isVar = true → m.isVar = true

/-- Variables come first. -/
theorem msmapMergesort_varsFirst (list : List Msmap) : VarsFirst (msmapMergesort list) := by
  refine (msmapMergesort_pairwise list).imp fun {m m'} h hm' => ?_
  cases m with
  | var => rfl
  | inst => cases m' <;> simp_all [msmapBefore, Msmap.isVar]
  | replpar => cases m' <;> simp_all [msmapBefore, Msmap.isVar]

/-! ## The words of nodes -/

/-- The words that a node takes besides its slots: two for a count that is known at run
time only. -/
def Msmap.span : Msmap → ℤ
  | .replpar _ words _ _ replcount _ _ => if replcount = -1 then 2 else words * replcount
  | m => m.words

/-- The shadow slots of all nodes. -/
def slotsIn (list : List Msmap) : ℕ := (list.map Msmap.slots).sum

/-- The words of all nodes without the shadow slots. -/
def spanIn (list : List Msmap) : ℤ := (list.map Msmap.span).sum

/-- The words of all nodes. -/
def wordsIn (list : List Msmap) : ℤ := slotsIn list + spanIn list

theorem slotsIn_cons (m : Msmap) (list : List Msmap) :
    slotsIn (m :: list) = m.slots + slotsIn list :=
  List.sum_cons

theorem spanIn_cons (m : Msmap) (list : List Msmap) : spanIn (m :: list) = m.span + spanIn list :=
  List.sum_cons

theorem spanIn_append (list list' : List Msmap) :
    spanIn (list ++ list') = spanIn list + spanIn list' := by
  rw [spanIn, List.map_append, List.sum_append]
  rfl

/-- A variable has a slot besides. -/
theorem slots_eq (m : Msmap) : m.slots = if m.isVar then 1 else 0 := by cases m <;> rfl

/-- Without variables there are no slots. -/
theorem slotsIn_eq_zero (h : ∀ m ∈ list, m.isVar = false) : slotsIn list = 0 :=
  List.sum_eq_zero fun n hn => by
    obtain ⟨m, hm, rfl⟩ := List.mem_map.mp hn
    rw [slots_eq, h m hm]
    rfl

/-- **Every variable has a shadow slot** of a list with the variables first. -/
theorem shadows_eq : ∀ {list : List Msmap}, VarsFirst list → shadows list = slotsIn list
  | [], _ => rfl
  | m :: rest, h => by
    obtain ⟨hm, hrest⟩ := List.pairwise_cons.mp h
    rw [slotsIn_cons, slots_eq, shadows, List.takeWhile_cons]
    cases hvar : m.isVar with
    | true =>
      rw [if_pos rfl, if_pos rfl, List.length_cons, Nat.add_comm]
      exact congrArg (1 + ·) (shadows_eq hrest)
    | false =>
      have h0 : slotsIn rest = 0 := slotsIn_eq_zero fun m' hm' =>
        Bool.eq_false_iff.mpr fun hv =>
          absurd (hm m' hm' hv) (by rw [hvar]; exact Bool.false_ne_true)
      rw [if_neg Bool.false_ne_true, if_neg Bool.false_ne_true, h0]
      rfl

/-! ## What the offsets are -/

mutual

/-- The node with the offsets that it is given. -/
def Msmap.place (length offsptr : ℤ) : Msmap → Msmap
  | .var addr words _ _ varptr => .var addr words offsptr length varptr
  | .inst addr words _ _ => .inst addr words offsptr length
  | .replpar addr words _ _ replcount msusage replptr =>
    .replpar addr words offsptr length replcount msusage (placeAll 0 (shadows replptr) replptr)

/-- The nodes, one behind the other. -/
def placeAll (length offsptr : ℤ) : List Msmap → List Msmap
  | [] => []
  | tmp :: rest =>
    tmp.place length offsptr :: placeAll (length + tmp.slots) (offsptr + tmp.span) rest

end

/-- The map with its offsets. -/
def placed (map : List Msmap) : List Msmap := placeAll 0 (shadows map) map

/-- The next node is behind the words of this one. -/
theorem placeAll_cons (length offsptr : ℤ) (tmp : Msmap) (rest : List Msmap) :
    placeAll length offsptr (tmp :: rest) =
      tmp.place length offsptr :: placeAll (length + tmp.slots) (offsptr + tmp.span) rest := by
  rw [placeAll]

/-- **Nothing but its offsets** changes of a node that is placed. -/
theorem place_fields (m : Msmap) (length offsptr : ℤ) :
    ((m.place length offsptr).addr = m.addr ∧ (m.place length offsptr).words = m.words ∧
      (m.place length offsptr).isVar = m.isVar ∧ (m.place length offsptr).span = m.span ∧
      (m.place length offsptr).slots = m.slots) ∧
    (m.place length offsptr).msoffset = offsptr ∧ (m.place length offsptr).sloffset = length := by
  cases m <;> rw [Msmap.place] <;> exact ⟨⟨rfl, rfl, rfl, rfl, rfl⟩, rfl, rfl⟩

@[simp] theorem addr_place (m : Msmap) (length offsptr : ℤ) :
    (m.place length offsptr).addr = m.addr :=
  (place_fields m length offsptr).1.1

@[simp] theorem words_place (m : Msmap) (length offsptr : ℤ) :
    (m.place length offsptr).words = m.words :=
  (place_fields m length offsptr).1.2.1

@[simp] theorem isVar_place (m : Msmap) (length offsptr : ℤ) :
    (m.place length offsptr).isVar = m.isVar :=
  (place_fields m length offsptr).1.2.2.1

@[simp] theorem span_place (m : Msmap) (length offsptr : ℤ) :
    (m.place length offsptr).span = m.span :=
  (place_fields m length offsptr).1.2.2.2.1

@[simp] theorem slots_place (m : Msmap) (length offsptr : ℤ) :
    (m.place length offsptr).slots = m.slots :=
  (place_fields m length offsptr).1.2.2.2.2

@[simp] theorem msoffset_place (m : Msmap) (length offsptr : ℤ) :
    (m.place length offsptr).msoffset = offsptr :=
  (place_fields m length offsptr).2.1

@[simp] theorem sloffset_place (m : Msmap) (length offsptr : ℤ) :
    (m.place length offsptr).sloffset = length :=
  (place_fields m length offsptr).2.2

theorem spanIn_nonneg (h : ∀ m ∈ list, 0 ≤ m.span) : 0 ≤ spanIn list :=
  List.sum_nonneg fun n hn => by
    obtain ⟨m, hm, rfl⟩ := List.mem_map.mp hn
    exact h m hm

/-- What has been placed is a node of the list, -/
theorem exists_of_mem_placeAll : ∀ {list : List Msmap} {length offsptr : ℤ},
    m ∈ placeAll length offsptr list → ∃ m₀ ∈ list, m = m₀.place m.sloffset m.msoffset
  | tmp :: rest, length, offsptr, hm => by
    rw [placeAll_cons] at hm
    rcases List.mem_cons.mp hm with rfl | hm
    · exact ⟨tmp, List.mem_cons_self, by rw [sloffset_place, msoffset_place]⟩
    · obtain ⟨m₀, hm₀, heq⟩ := exists_of_mem_placeAll hm
      exact ⟨m₀, List.mem_cons_of_mem _ hm₀, heq⟩

/-- **A node that is given offsets** has its slots and its words between those of the nodes around
it. -/
theorem mem_placeAll : ∀ {list : List Msmap} {length offsptr : ℤ}, (∀ m ∈ list, 0 ≤ m.span) →
    m ∈ placeAll length offsptr list → ∃ m₀ ∈ list, m = m₀.place m.sloffset m.msoffset ∧
      length ≤ m.sloffset ∧ m.sloffset + m.slots ≤ length + slotsIn list ∧
      offsptr ≤ m.msoffset ∧ m.msoffset + m.span ≤ offsptr + spanIn list
  | tmp :: rest, length, offsptr, h, hm => by
    have hrest : ∀ m ∈ rest, 0 ≤ m.span := fun m hm => h m (List.mem_cons_of_mem _ hm)
    have htmp := h tmp List.mem_cons_self
    have h0 := spanIn_nonneg hrest
    rw [placeAll_cons] at hm
    rw [slotsIn_cons, spanIn_cons]
    push_cast
    rcases List.mem_cons.mp hm with rfl | hm
    · refine ⟨tmp, List.mem_cons_self, ?_⟩
      simp only [sloffset_place, msoffset_place, slots_place, span_place, true_and]
      omega
    · obtain ⟨m₀, hm₀, heq, hl, hl', ho, ho'⟩ := mem_placeAll hrest hm
      exact ⟨m₀, List.mem_cons_of_mem _ hm₀, heq, by omega, by omega, by omega, by omega⟩

/-- and every node of the list has been placed. -/
theorem place_mem_placeAll : ∀ {list : List Msmap} {length offsptr : ℤ}, m ∈ list →
    ∃ length' offsptr', m.place length' offsptr' ∈ placeAll length offsptr list
  | tmp :: rest, length, offsptr, hm => by
    rw [placeAll_cons]
    rcases List.mem_cons.mp hm with rfl | hm
    · exact ⟨length, offsptr, List.mem_cons_self⟩
    · obtain ⟨length', offsptr', h⟩ := place_mem_placeAll hm
      exact ⟨length', offsptr', List.mem_cons_of_mem _ h⟩

/-- What the node has is ahead of what the other one has. -/
def Msmap.Ahead (m m' : Msmap) : Prop :=
  m.sloffset + m.slots ≤ m'.sloffset ∧ m.msoffset + m.span ≤ m'.msoffset

/-- One of the two is ahead of the other one. -/
def Msmap.Beside (m m' : Msmap) : Prop := m.Ahead m' ∨ m'.Ahead m

instance : Std.Symm Msmap.Beside := ⟨fun _ _ => Or.symm⟩

/-- **Each node is ahead of the next.** -/
theorem placeAll_pairwise : ∀ {list : List Msmap} {length offsptr : ℤ}, (∀ m ∈ list, 0 ≤ m.span) →
    (placeAll length offsptr list).Pairwise Msmap.Ahead
  | [], _, _, _ => .nil
  | tmp :: rest, length, offsptr, h => by
    have hrest : ∀ m ∈ rest, 0 ≤ m.span := fun m hm => h m (List.mem_cons_of_mem _ hm)
    rw [placeAll_cons]
    refine List.pairwise_cons.mpr ⟨fun m hm => ?_, placeAll_pairwise hrest⟩
    obtain ⟨_, -, -, hl, -, ho, -⟩ := mem_placeAll hrest hm
    rw [Msmap.Ahead, sloffset_place, slots_place, msoffset_place, span_place]
    exact ⟨hl, ho⟩

/-- The word is the node's: its shadow slot, or one of its words. -/
def Msmap.Holds (m : Msmap) (x : ℤ) : Prop :=
  (m.isVar = true ∧ x = m.sloffset) ∨ (m.msoffset ≤ x ∧ x < m.msoffset + m.span)

/-- The nodes of a map **hold words of their own**, up to `size`, the slots before the rest. -/
structure Spaced (map : List Msmap) (size : ℤ) : Prop where
  slots : ∃ s, ∀ m ∈ map, 0 ≤ m.sloffset ∧ (m.isVar = true → m.sloffset < s) ∧ 0 ≤ s ∧
    s ≤ m.msoffset ∧ m.msoffset + m.span ≤ size ∧ s ≤ size
  ahead : map.Pairwise Msmap.Ahead

/-- **The map with its offsets** is spaced. -/
theorem placed_spaced (hvars : VarsFirst list) (h : ∀ m ∈ list, 0 ≤ m.span) :
    Spaced (placed list) (wordsIn list) := by
  refine ⟨⟨slotsIn list, fun m hm => ?_⟩, placeAll_pairwise h⟩
  obtain ⟨m₀, hm₀, heq, hl, hl', ho, ho'⟩ := mem_placeAll h hm
  have h0 := spanIn_nonneg h
  rw [wordsIn]
  rw [shadows_eq hvars] at ho ho'
  rw [slots_eq] at hl'
  refine ⟨hl, fun hv => ?_, by omega, by omega, by omega, by omega⟩
  rw [if_pos hv] at hl'
  omega

/-- Every word of a node is inside. -/
theorem Spaced.holds (h : Spaced map size) (hm : m ∈ map) (hx : m.Holds x) : 0 ≤ x ∧ x < size := by
  obtain ⟨s, hs⟩ := h.slots
  obtain ⟨hl, hl', h0, ho, ho', hs'⟩ := hs m hm
  rcases hx with ⟨hv, rfl⟩ | hx
  · exact ⟨hl, (hl' hv).trans_le hs'⟩
  · omega

/-- No two nodes hold the same word. -/
theorem Spaced.not_holds (h : Spaced map size) (hm : m ∈ map) (hm' : m' ∈ map) (hne : m ≠ m')
    (hx : m.Holds x) : ¬ m'.Holds x := by
  obtain ⟨s, hs⟩ := h.slots
  have hsm := hs m hm
  have hsm' := hs m' hm'
  have hbeside : map.Pairwise Msmap.Beside := h.ahead.imp Or.inl
  have hapart := hbeside.forall hm hm' hne
  rw [Msmap.Beside, Msmap.Ahead, Msmap.Ahead, slots_eq, slots_eq] at hapart
  intro hx'
  rcases hx with ⟨hv, rfl⟩ | hx
  · rcases hx' with ⟨hv', heq⟩ | hx'
    · rw [hv, hv'] at hapart
      simp only [if_true] at hapart
      omega
    · have := hsm.2.1 hv
      omega
  · rcases hx' with ⟨hv', heq⟩ | hx'
    · have := hsm'.2.1 hv'
      omega
    · omega

/-- The slot of a variable is below its data. -/
theorem Spaced.slot_not_data (h : Spaced map size) (hm : m ∈ map) (hv : m.isVar = true) :
    m.sloffset < m.msoffset := by
  obtain ⟨s, hs⟩ := h.slots
  obtain ⟨-, hl', -, ho, -, -⟩ := hs m hm
  exact (hl' hv).trans_le ho

/-! ## Sums that do not overflow -/

/-- A result that an `int` holds. -/
theorem int32_eq_some {y : ℤ} : int32 x = some y ↔ x = y ∧ IsInt x := by
  rw [int32]
  split_ifs with h
  · rw [Option.some.injEq, and_iff_left h]
  · exact iff_of_false (by simp) fun h' => h h'.2

theorem int32_of_lt (h : 0 ≤ x) (h' : x < 2 ^ 31) : int32 x = some x :=
  int32_eq_some.mpr ⟨rfl, (by decide : (-2 ^ 31 : ℤ) ≤ 0).trans h, h'⟩

/-- A node that is bound has its offsets, if those inside of it have theirs. -/
theorem bind_eq_some {length offsptr offsptr' : ℤ}
    (hinside : ∀ map, bindProper 0 (shadows m.replptr) m.replptr = some map →
      map = placed m.replptr)
    (h : m.bind length offsptr = some (m', offsptr')) :
    m' = m.place length offsptr ∧ offsptr' = offsptr + m.span ∧ offsptr' < 2 ^ 31 := by
  cases m with
  | replpar addr words ms sl replcount msusage replptr =>
    simp only [Msmap.bind, Option.bind_eq_bind, Option.bind_eq_some_iff, int32_eq_some] at h
    obtain ⟨_, ⟨rfl, -, -⟩, inside, hmap, h⟩ := h
    obtain rfl : inside = placeAll 0 (shadows replptr) replptr := hinside inside hmap
    rw [Msmap.place, Msmap.span]
    split_ifs at h ⊢ with h1
    · simp only [Option.bind_eq_some_iff, Option.pure_def, Option.some.injEq, Prod.mk.injEq,
        int32_eq_some] at h
      obtain ⟨_, ⟨rfl, -, hlt⟩, _, -, rfl, rfl⟩ := h
      exact ⟨rfl, rfl, hlt⟩
    · simp only [Option.bind_eq_some_iff, Option.pure_def, Option.some.injEq, Prod.mk.injEq,
        int32_eq_some] at h
      obtain ⟨_, ⟨rfl, -, -⟩, _, ⟨rfl, -, hlt⟩, rfl, rfl⟩ := h
      exact ⟨rfl, rfl, hlt⟩
  | _ =>
    simp only [Msmap.bind, Option.bind_eq_bind, Option.bind_eq_some_iff, Option.pure_def,
      Option.some.injEq, Prod.mk.injEq, int32_eq_some] at h
    obtain ⟨_, ⟨rfl, -, hlt⟩, rfl, rfl⟩ := h
    exact ⟨by rw [Msmap.place], rfl, hlt⟩

theorem bindProper_cons_eq_some {length offsptr : ℤ}
    (h : bindProper length offsptr (m :: list) = some map) : ∃ m' offsptr' rest,
      m.bind length offsptr = some (m', offsptr') ∧
        bindProper (length + m.slots) offsptr' list = some rest ∧ map = m' :: rest := by
  simp only [bindProper, Option.bind_eq_bind, Option.bind_eq_some_iff, Option.pure_def,
    Option.some.injEq, Prod.exists] at h
  obtain ⟨m', offsptr', hm, rest, hrest, rfl⟩ := h
  exact ⟨m', offsptr', rest, hm, hrest, rfl⟩

/-- **A map that is bound** has the offsets that are placed. -/
theorem bindProper_eq_some {length offsptr : ℤ} (h : bindProper length offsptr list = some map) :
    map = placeAll length offsptr list := by
  induction list using mapInduction generalizing length offsptr map with
  | nil =>
    rw [bindProper, Option.some.injEq] at h
    rw [placeAll, h]
  | cons tmp rest inside ih =>
    obtain ⟨tmp', offsptr', rest', htmp, hrest, rfl⟩ := bindProper_cons_eq_some h
    obtain ⟨rfl, rfl, -⟩ := bind_eq_some (fun _ => inside) htmp
    rw [placeAll_cons, ih hrest]

/-- The words of a map that is bound are an `int`. -/
theorem spanIn_lt_of_bindProper {length offsptr : ℤ} (h : bindProper length offsptr list = some map)
    (hlt : offsptr < 2 ^ 31) : offsptr + spanIn list < 2 ^ 31 := by
  induction list generalizing length offsptr map with
  | nil => rwa [spanIn, List.map_nil, List.sum_nil, add_zero]
  | cons tmp rest ih =>
    obtain ⟨tmp', offsptr', rest', htmp, hrest, rfl⟩ := bindProper_cons_eq_some h
    obtain ⟨-, rfl, hlt'⟩ := bind_eq_some (fun _ => bindProper_eq_some) htmp
    rw [spanIn_cons, ← add_assoc]
    exact ih hrest hlt'

/-- **What is bound without an overflow** is the map with its offsets. -/
theorem bindmobilespace_eq_some (h : bindmobilespace list 0 = some map) :
    map = placed list ∧ shadows list + spanIn list < 2 ^ 31 := by
  rw [bindmobilespace, zero_add] at h
  obtain ⟨_, hint, h⟩ := Option.bind_eq_some_iff.mp h
  obtain ⟨rfl, -, hlt⟩ := int32_eq_some.mp hint
  exact ⟨bindProper_eq_some h, spanIn_lt_of_bindProper h hlt⟩

/-- The node is bound wherever there is room for it. -/
def Msmap.Binds (m : Msmap) : Prop :=
  0 ≤ m.span ∧ ∀ length offsptr, 0 ≤ offsptr → offsptr + m.span < 2 ^ 31 →
    m.bind length offsptr = some (m.place length offsptr, offsptr + m.span)

/-- Nothing overflows where the words fit. -/
theorem bindProper_eq : ∀ {list : List Msmap} {length offsptr : ℤ}, (∀ m ∈ list, m.Binds) →
    0 ≤ offsptr → offsptr + spanIn list < 2 ^ 31 →
      bindProper length offsptr list = some (placeAll length offsptr list)
  | [], _, _, _, _, _ => by rw [bindProper, placeAll]
  | tmp :: rest, length, offsptr, h, h0, hlt => by
    obtain ⟨⟨hspan, hbind⟩, hrest⟩ := List.forall_mem_cons.mp h
    have hpos := spanIn_nonneg fun m hm => (hrest m hm).1
    rw [spanIn_cons] at hlt
    rw [bindProper, hbind length offsptr h0 (by omega), placeAll_cons]
    simp only [Option.bind_eq_bind, Option.bind_some, Option.pure_def]
    rw [bindProper_eq hrest (by omega) (by omega), Option.bind_some]

/-- **There is room** for the nodes of a map. -/
theorem bindmobilespace_eq (h : ∀ m ∈ list, m.Binds) (hlt : shadows list + spanIn list < 2 ^ 31) :
    bindmobilespace list 0 = some (placed list) := by
  have hpos := spanIn_nonneg fun m hm => (h m hm).1
  rw [bindmobilespace, zero_add, int32_of_lt (by omega) (by omega), Option.bind_some,
    bindProper_eq h (by omega) hlt, placed]

theorem wordsIn_cons (m : Msmap) (list : List Msmap) :
    wordsIn (m :: list) = wordsIn [m] + wordsIn list := by
  rw [wordsIn, wordsIn, wordsIn, slotsIn_cons, spanIn_cons, slotsIn_cons, spanIn_cons m []]
  simp only [slotsIn, spanIn, List.map_nil, List.sum_nil]
  push_cast
  ring

/-- The words of a node are an `int`, with those of the nodes before. -/
theorem wordsin_eq_some {length length' : ℤ} (h : m.wordsin length = some length') :
    length' = length + wordsIn [m] ∧ length' < 2 ^ 31 := by
  cases m with
  | var addr words ms sl v =>
    simp only [Msmap.wordsin, Option.bind_eq_bind, Option.bind_eq_some_iff, int32_eq_some] at h
    obtain ⟨_, ⟨rfl, -, -⟩, rfl, -, hlt⟩ := h
    refine ⟨?_, hlt⟩
    simp only [wordsIn, slotsIn, spanIn, List.map_singleton, List.sum_singleton, Msmap.slots,
      Msmap.span, Msmap.words]
    push_cast
    ring
  | inst addr words ms sl =>
    rw [Msmap.wordsin, int32_eq_some] at h
    obtain ⟨rfl, -, hlt⟩ := h
    refine ⟨?_, hlt⟩
    simp [wordsIn, slotsIn, spanIn, Msmap.slots, Msmap.span, Msmap.words]
  | replpar addr words ms sl replcount msusage replptr =>
    rw [Msmap.wordsin] at h
    simp only [wordsIn, slotsIn, spanIn, List.map_singleton, List.sum_singleton, Msmap.slots,
      Msmap.span, Nat.cast_zero, zero_add]
    split_ifs at h ⊢ with h1
    · rw [int32_eq_some] at h
      obtain ⟨rfl, -, hlt⟩ := h
      exact ⟨rfl, hlt⟩
    · simp only [Option.bind_eq_bind, Option.bind_eq_some_iff, int32_eq_some] at h
      obtain ⟨_, ⟨rfl, -, -⟩, rfl, -, hlt⟩ := h
      exact ⟨by rw [mul_comm], hlt⟩

/-- What is counted without an overflow is the words. -/
theorem foldlM_wordsin_eq_some : ∀ {list : List Msmap} {length size : ℤ}, length < 2 ^ 31 →
    list.foldlM Msmap.wordsin length = some size → size = length + wordsIn list ∧ size < 2 ^ 31
  | [], length, size, hlt, h => by
    obtain rfl : length = size := Option.some.inj h
    exact ⟨by simp [wordsIn, slotsIn, spanIn], hlt⟩
  | m :: rest, length, size, _, h => by
    rw [List.foldlM_cons] at h
    obtain ⟨_, hm, h⟩ := Option.bind_eq_some_iff.mp h
    obtain ⟨rfl, hlt⟩ := wordsin_eq_some hm
    obtain ⟨rfl, hsize⟩ := foldlM_wordsin_eq_some hlt h
    exact ⟨by rw [wordsIn_cons m rest, add_assoc], hsize⟩

/-- **What `mobilewordsin` gives** are the words of all nodes. -/
theorem mobilewordsin_eq_some (h : mobilewordsin list = some size) :
    size = wordsIn list ∧ size < 2 ^ 31 := by
  obtain ⟨hsize, hlt⟩ := foldlM_wordsin_eq_some (by decide) h
  exact ⟨hsize.trans (zero_add _), hlt⟩

theorem foldlM_wordsin_eq : ∀ {list : List Msmap} {length : ℤ}, (∀ m ∈ list, 0 ≤ m.span) →
    0 ≤ length → length + wordsIn list < 2 ^ 31 →
      list.foldlM Msmap.wordsin length = some (length + wordsIn list)
  | [], length, _, _, _ => by simp [wordsIn, slotsIn, spanIn]
  | m :: rest, length, h, h0, hlt => by
    obtain ⟨hm, hrest⟩ := List.forall_mem_cons.mp h
    have hpos := spanIn_nonneg hrest
    rw [wordsIn_cons, ← add_assoc] at hlt ⊢
    have hrest0 : 0 ≤ wordsIn rest := by rw [wordsIn]; omega
    have hm0 : wordsIn [m] = m.slots + m.span := by simp [wordsIn, slotsIn, spanIn]
    have hnode : m.wordsin length = some (length + wordsIn [m]) := by
      rw [hm0]
      cases m with
      | var addr words ms sl v =>
        replace hm : 0 ≤ words := hm
        simp only [hm0, Msmap.slots, Msmap.span, Msmap.words] at hlt ⊢
        rw [Msmap.wordsin, int32_of_lt (by omega) (by omega)]
        exact (int32_of_lt (by omega) (by omega)).trans (congrArg some (by push_cast; ring))
      | inst addr words ms sl =>
        replace hm : 0 ≤ words := hm
        simp only [hm0, Msmap.slots, Msmap.span, Msmap.words] at hlt ⊢
        exact (int32_of_lt (by omega) (by omega)).trans (congrArg some (by push_cast; ring))
      | replpar addr words ms sl replcount msusage replptr =>
        simp only [hm0, Msmap.slots, Msmap.span, Nat.cast_zero, zero_add] at hm hlt ⊢
        rw [Msmap.wordsin]
        split_ifs at hm hlt ⊢ with h1
        · exact int32_of_lt (by omega) (by omega)
        · rw [mul_comm, int32_of_lt hm (by omega)]
          exact int32_of_lt (by omega) (by omega)
    rw [List.foldlM_cons, hnode]
    exact foldlM_wordsin_eq hrest (by rw [hm0]; omega) hlt

/-- Nothing overflows where the words fit. -/
theorem mobilewordsin_eq (h : ∀ m ∈ list, 0 ≤ m.span) (hlt : wordsIn list < 2 ^ 31) :
    mobilewordsin list = some (wordsIn list) := by
  have hfold := foldlM_wordsin_eq h le_rfl (by rwa [zero_add])
  rwa [zero_add] at hfold

end Occ21

end Kroc
