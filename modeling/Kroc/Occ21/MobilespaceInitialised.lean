import Kroc.Occ21.MobilespaceInit

/-!
# Occ21/MobilespaceInitialised — what the initialisation sets

Items of a bound map hold words of their own in every replica, and what is set for an item is a word
that it holds.  So a sequence is consistent with its map exactly when the count and the pairs are
those that are needed.  The map that calls make is of the kind that this is about.
-/

namespace Kroc

namespace Occ21

variable {bytesperword : ℕ} {map list : List Msmap} {m m' : Msmap} {indices indices' : List ℕ}
  {base base' x size : ℤ}

/-! ## What is set -/

/-- The words that a field takes in a record: those of the sizes of an array are behind it. -/
def Nested.room : Nested → ℕ
  | .dynmobilearray dimensions => 1 + dimensions
  | .dynmobilechantype => 1
  | .dynmobileproctype => 1
  | .other => 0

/-- Mobile fields are within the words of their variable, and so are all of them together. -/
def HasRoom (bytesperword : ℕ) (decls : List Decl) (words : ℤ) : Prop :=
  (∀ decl ∈ decls, decl.name.initial ≠ none →
    ((decl.offset / bytesperword + decl.name.room : ℕ) : ℤ) ≤ words) ∧
  (((decls.map fun decl => decl.name.room).sum : ℕ) : ℤ) ≤ words

/-- There is room for the fields of a variable, and an instance has words. -/
def Msmap.Roomy (bytesperword : ℕ) : Msmap → Prop
  | .var _ words _ _ varptr => HasRoom bytesperword varptr.type.fields words
  | .inst _ words _ _ => 0 < words
  | .replpar .. => True

/-- The node of a map that has been made: what a replica uses is what is mapped inside. -/
inductive Msmap.Sound (bytesperword : ℕ) : Msmap → Prop
  | leaf {m : Msmap} (hpar : m.isPar = false) (h : m.Roomy bytesperword) : Sound bytesperword m
  | replpar {addr : ℕ} {words msoffset sloffset replcount msusage : ℤ} {replptr : List Msmap}
      (hcount : replcount = -1 ∨ 0 ≤ replcount) (hwords : words = msusage)
      (husage : msusage = wordsIn replptr)
      (hall : ∀ m ∈ replptr, Sound bytesperword m) :
      Sound bytesperword (.replpar addr words msoffset sloffset replcount msusage replptr)

/-- A map whose nodes hold words of their own, as those inside of them do. -/
inductive Laid (bytesperword : ℕ) : List Msmap → ℤ → Prop
  | mk {map : List Msmap} {size : ℤ} (spaced : Spaced map size) (words : size = wordsIn map)
      (nonneg : 0 ≤ size) (lt : size < 2 ^ 31) (roomy : ∀ m ∈ map, m.Roomy bytesperword)
      (replica : ∀ (addr : ℕ) (words msoffset sloffset replcount msusage : ℤ)
        (replptr : List Msmap),
        .replpar addr words msoffset sloffset replcount msusage replptr ∈ map →
          (replcount = -1 ∨ 0 ≤ replcount) ∧ words = msusage)
      (inner : ∀ (addr : ℕ) (words msoffset sloffset replcount msusage : ℤ)
        (replptr : List Msmap),
        .replpar addr words msoffset sloffset replcount msusage replptr ∈ map →
          Laid bytesperword replptr msusage) : Laid bytesperword map size

theorem Laid.spaced (h : Laid bytesperword map size) : Spaced map size := by
  cases h with
  | mk spaced => exact spaced

theorem Laid.nonneg (h : Laid bytesperword map size) : 0 ≤ size := by
  cases h with
  | mk _ _ nonneg => exact nonneg

/-! ### Replicas -/

/-- **What an item holds in a replica** is within the node of its PAR, and within its replica. -/
theorem Spaced.replica {addr i : ℕ} {words msoffset sloffset replcount msusage : ℤ}
    {replptr : List Msmap} (hi : (i : ℤ) < replcount) (hwords : words = msusage)
    (h0 : 0 ≤ msusage) (hx : 0 ≤ x - (msoffset + i * msusage))
    (hx' : x - (msoffset + i * msusage) < msusage) :
    (Msmap.replpar addr words msoffset sloffset replcount msusage replptr).Holds x := by
  have hle : (i + 1 : ℤ) * msusage ≤ replcount * msusage :=
    mul_le_mul_of_nonneg_right (by omega) h0
  have hi0 : (0 : ℤ) ≤ i * msusage := mul_nonneg (Int.natCast_nonneg _) h0
  have hne : replcount ≠ -1 := by omega
  refine .inr ⟨show msoffset ≤ x by omega, ?_⟩
  rw [Msmap.span, if_neg hne, hwords, mul_comm]
  show x < msoffset + replcount * msusage
  linarith

/-- The map of a procedure, when it is sorted and bound. -/
def bound (list : List Msmap) : List Msmap := placed (msmapMergesort list)

theorem mem_bound (hm : m ∈ bound list) :
    ∃ m₀ ∈ list, m = m₀.sorted.place m.sloffset m.msoffset := by
  obtain ⟨m', hm', heq⟩ := exists_of_mem_placeAll hm
  obtain ⟨m₀, hm₀, rfl⟩ := mem_msmapMergesort.mp hm'
  exact ⟨m₀, hm₀, heq⟩

theorem place_sorted_replpar (addr : ℕ)
    (words msoffset sloffset replcount msusage length offsptr : ℤ) (replptr : List Msmap) :
    (Msmap.replpar addr words msoffset sloffset replcount msusage replptr).sorted.place length
        offsptr =
      .replpar addr words offsptr length replcount msusage (bound replptr) := by
  rw [Msmap.sorted, Msmap.place, bound, placed]

theorem HasRoom.nonneg {decls : List Decl} {words : ℤ} (h : HasRoom bytesperword decls words) :
    0 ≤ words := (Int.natCast_nonneg _).trans h.2

theorem Msmap.Sound.span_nonneg (h : m.Sound bytesperword) : 0 ≤ m.span := by
  induction h with
  | @leaf m hpar hroomy =>
    cases m with
    | replpar => cases hpar
    | var => exact HasRoom.nonneg hroomy
    | inst => exact le_of_lt hroomy
  | @replpar _ _ _ _ replcount _ replptr hcount hwords husage hall ih =>
    have hspan : 0 ≤ spanIn replptr := spanIn_nonneg ih
    rw [Msmap.span, hwords, husage, wordsIn]
    split_ifs with h1
    · exact Int.zero_le_ofNat 2
    · exact mul_nonneg (by omega) (hcount.resolve_left h1)

theorem Msmap.Sound.words_nonneg (h : ∀ m ∈ list, m.Sound bytesperword) : 0 ≤ wordsIn list := by
  have := spanIn_nonneg fun m hm => (h m hm).span_nonneg
  rw [wordsIn]
  omega

theorem countsAll_iff : ∀ {list : List Msmap}, CountsAll list ↔ ∀ m ∈ list, m.Counts
  | [] => by
    rw [CountsAll]
    exact iff_of_true trivial (List.forall_mem_nil _)
  | m :: rest => by rw [CountsAll, countsAll_iff, List.forall_mem_cons]

theorem Msmap.Sound.counts (h : m.Sound bytesperword) (length offsptr : ℤ) :
    (m.sorted.place length offsptr).Counts := by
  induction h generalizing length offsptr with
  | @leaf m hpar =>
    cases m with
    | replpar => cases hpar
    | _ =>
      rw [Msmap.sorted, Msmap.place, Msmap.Counts]
      · trivial
      all_goals simp
  | replpar hcount _ _ hall ih =>
    rw [place_sorted_replpar, Msmap.Counts]
    refine ⟨hcount, countsAll_iff.mpr fun m hm => ?_⟩
    obtain ⟨m₀, hm₀, heq⟩ := mem_bound hm
    rw [heq]
    exact ih m₀ hm₀ _ _

theorem roomy_place (length offsptr : ℤ) (h : m.Roomy bytesperword) :
    (m.sorted.place length offsptr).Roomy bytesperword := by
  cases m with
  | replpar =>
    rw [place_sorted_replpar]
    trivial
  | _ =>
    rw [Msmap.sorted, Msmap.place]
    · exact h
    · simp

theorem Msmap.Sound.roomy (h : m.Sound bytesperword) : m.Roomy bytesperword := by
  cases h with
  | leaf _ h => exact h
  | replpar => trivial

/-- What is inside of a node of a map that is bound, is bound. -/
theorem bindProper_inside {length offsptr : ℤ} (h : bindProper length offsptr list = some map)
    (hm : m ∈ list) (hpar : m.isPar = true) :
    ∃ inside, bindmobilespace m.replptr 0 = some inside := by
  induction list generalizing length offsptr map with
  | nil => cases hm
  | cons tmp rest ih =>
    obtain ⟨tmp', offsptr', rest', htmp, hrest, rfl⟩ := bindProper_cons_eq_some h
    rcases List.mem_cons.mp hm with rfl | hm
    · cases m with
      | replpar addr words msoffset sloffset replcount msusage replptr =>
        simp only [Msmap.bind, Option.bind_eq_bind, Option.bind_eq_some_iff] at htmp
        obtain ⟨slots, hslots, inside, hinside, -⟩ := htmp
        rw [bindmobilespace, zero_add, Msmap.replptr, hslots]
        exact ⟨inside, hinside⟩
      | _ => cases hpar
    · exact ih hrest hm

theorem laid_bound (h : ∀ m ∈ list, m.Sound bytesperword)
    (hmap : bindmobilespace (msmapMergesort list) 0 = some map)
    (hin : ∀ m ∈ list, ∀ inside, bindmobilespace (msmapMergesort m.replptr) 0 = some inside →
      Laid bytesperword inside (wordsIn m.replptr)) :
    Laid bytesperword map (wordsIn list) := by
  obtain ⟨rfl, hlt⟩ := bindmobilespace_eq_some hmap
  have hspaced := placed_spaced (msmapMergesort_varsFirst list) fun m hm => by
    obtain ⟨m₀, hm₀, rfl⟩ := mem_msmapMergesort.mp hm
    rw [span_sorted]
    exact (h m₀ hm₀).span_nonneg
  rw [wordsIn_sort] at hspaced
  rw [shadows_sort] at hlt
  rw [bindmobilespace] at hmap
  obtain ⟨offsptr, -, hbind⟩ := Option.bind_eq_some_iff.mp hmap
  have hpar : ∀ (addr : ℕ) (words msoffset sloffset replcount msusage : ℤ) (replptr : List Msmap),
      .replpar addr words msoffset sloffset replcount msusage replptr ∈ bound list →
        ((replcount = -1 ∨ 0 ≤ replcount) ∧ words = msusage) ∧
          Laid bytesperword replptr msusage := by
    intro addr words msoffset sloffset replcount msusage replptr hm
    obtain ⟨m₀, hm₀, heq⟩ := mem_bound hm
    cases h m₀ hm₀ with
    | leaf hp =>
      have hfalse := congrArg Msmap.isPar heq
      rw [isPar_place, isPar_sorted, hp] at hfalse
      cases hfalse
    | replpar hcount hwords husage hall =>
      obtain ⟨inside, hinside⟩ := bindProper_inside hbind (mem_msmapMergesort.mpr ⟨_, hm₀, rfl⟩) rfl
      have hlaid := hin _ hm₀ inside hinside
      rw [(bindmobilespace_eq_some hinside).1] at hlaid
      rw [place_sorted_replpar] at heq
      injection heq with _ hw _ _ hc hu hr
      rw [hw, hu, hr, hc, husage]
      exact ⟨⟨hcount, hwords.trans husage⟩, hlaid⟩
  refine .mk hspaced ?_ (Msmap.Sound.words_nonneg h) hlt (fun m hm => ?_)
    (fun a w ms sl n u r hm => (hpar a w ms sl n u r hm).1)
    fun a w ms sl n u r hm => (hpar a w ms sl n u r hm).2
  · rw [placed, wordsIn_place, wordsIn_sort]
  · obtain ⟨m₀, hm₀, heq⟩ := mem_bound hm
    rw [heq]
    exact roomy_place _ _ (h m₀ hm₀).roomy

theorem Msmap.Sound.laid (h : m.Sound bytesperword)
    (hmap : bindmobilespace (msmapMergesort m.replptr) 0 = some map) :
    Laid bytesperword map (wordsIn m.replptr) := by
  induction h generalizing map with
  | @leaf m hpar =>
    have hnil : m.replptr = [] := by
      cases m with
      | replpar => cases hpar
      | _ => rfl
    rw [hnil] at hmap ⊢
    exact laid_bound (List.forall_mem_nil _) hmap (List.forall_mem_nil _)
  | replpar hcount hwords husage hall ih =>
    exact laid_bound hall hmap fun m hm inside hinside => ih m hm hinside

/-! ### What is generated does not overflow -/

theorem inits_le_words {addr : ℕ} {words msoffset sloffset : ℤ} {v : MobileVar}
    (h : (Msmap.var addr words msoffset sloffset v).Roomy bytesperword) :
      (v.inits : ℤ) ≤ words := by
  have hroom : HasRoom bytesperword v.type.fields words := h
  rcases named_or v with ⟨type, decls, htype, hrecord⟩ | hother
  · have hle := hroom.2
    rw [fields_named htype hrecord] at hle
    rw [inits_named htype hrecord]
    refine le_of_eq_of_le (congrArg (fun n : ℕ => (n : ℤ)) ?_) hle
    rw [nestedInits]
    refine congrArg List.sum (List.map_congr_left fun decl _ => ?_)
    cases decl.name <;> rfl
  · rw [inits_other hother]
    exact hroom.nonneg

/-- The node is counted, and counts for no more than its words. -/
def Msmap.CountsTo (m : Msmap) : Prop :=
  0 ≤ m.inits ∧ m.inits ≤ wordsIn [m] ∧ ∀ count, 0 ≤ count → count + m.inits < 2 ^ 31 →
    m.countInit count = some (count + m.inits)

theorem countInits_eq : ∀ {list : List Msmap}, (∀ m ∈ list, m.CountsTo) →
    0 ≤ initsIn list ∧ initsIn list ≤ wordsIn list ∧ ∀ count, 0 ≤ count →
      count + initsIn list < 2 ^ 31 → countInits count list = some (count + initsIn list)
  | [], _ => by
    rw [initsIn]
    refine ⟨le_rfl, le_rfl, fun count _ _ => ?_⟩
    rw [countInits, add_zero]
  | m :: rest, h => by
    obtain ⟨⟨hm0, hmle, hm⟩, hrest⟩ := List.forall_mem_cons.mp h
    obtain ⟨hr0, hrle, hr⟩ := countInits_eq hrest
    rw [initsIn, wordsIn_cons]
    refine ⟨by omega, by omega, fun count h0 hlt => ?_⟩
    rw [countInits, hm count h0 (by omega), Option.bind_eq_bind, Option.bind_some,
      hr _ (by omega) (by omega), add_assoc]

theorem wordsIn_singleton (m : Msmap) : wordsIn [m] = m.slots + m.span := by
  simp [wordsIn, slotsIn, spanIn]

/-- **The count of a map** is an `int`. -/
theorem Laid.countInits (h : Laid bytesperword map size) :
    0 ≤ initsIn map ∧ initsIn map ≤ size ∧ ∀ count, 0 ≤ count → count + initsIn map < 2 ^ 31 →
      Occ21.countInits count map = some (count + initsIn map) := by
  induction h with
  | @mk map size spaced words nonneg lt roomy replica inner ih =>
    rw [words]
    refine countInits_eq fun m hm => ?_
    have hroomy := roomy m hm
    rw [Msmap.CountsTo, wordsIn_singleton]
    cases m with
    | var addr words msoffset sloffset v =>
      have hle := inits_le_words hroomy
      rw [Msmap.inits, Msmap.slots, Msmap.span, Msmap.words]
      refine ⟨by omega, by push_cast; omega, fun count h0 hlt => ?_⟩
      · rw [Msmap.countInit, int32_of_lt (by omega) (by omega), counted_eq (by omega)]
        simp only [Option.bind_eq_bind, Option.bind_some]
        rw [int32_of_lt (by omega) (by omega), add_assoc]
      · simp
    | inst addr words msoffset sloffset =>
      replace hroomy : 0 < words := hroomy
      rw [Msmap.inits, Msmap.slots, Msmap.span, Msmap.words]
      · exact ⟨Int.zero_le_ofNat 1, by push_cast; omega, fun count h0 hlt =>
          int32_of_lt (by omega) hlt⟩
      · simp
      · simp
    | replpar addr words msoffset sloffset replcount msusage replptr =>
      obtain ⟨hcount, hwords⟩ := replica _ _ _ _ _ _ _ hm
      obtain ⟨hin0, hinle, hin⟩ := ih _ _ _ _ _ _ _ hm
      have husage : msusage < 2 ^ 31 := by
        cases inner _ _ _ _ _ _ _ hm with
        | mk _ _ _ lt => exact lt
      rw [Msmap.inits, Msmap.slots, Msmap.span]
      · simp only [Msmap.countInit]
        split_ifs with h1
        · exact ⟨Int.zero_le_ofNat 1, by decide, fun count h0 hlt => int32_of_lt (by omega) hlt⟩
        · have hcount := hcount.resolve_left h1
          have hnested : 0 ≤ replcount * initsIn replptr := mul_nonneg hcount hin0
          have hle : replcount * initsIn replptr ≤ words * replcount := by
            rw [mul_comm words, hwords]
            exact mul_le_mul_of_nonneg_left hinle hcount
          refine ⟨hnested, by push_cast; omega, fun count h0 hlt => ?_⟩
          have hinside := hin 0 le_rfl (by omega)
          rw [zero_add] at hinside
          simp only [Option.bind_eq_bind, hinside, Option.bind_some]
          rw [int32_of_lt hnested (by omega), Option.bind_some, int32_of_lt (by omega) hlt]
      · simp

theorem mobiledropinitsequence_eq {disp : ℤ} : ∀ {list : List Msmap},
    (∀ m ∈ list, m.dropInit bytesperword disp = some (m.drops bytesperword disp)) →
      mobiledropinitsequence bytesperword disp list = some (dropsIn bytesperword disp list)
  | [], _ => by rw [mobiledropinitsequence, dropsIn]
  | m :: rest, h => by
    obtain ⟨hm, hrest⟩ := List.forall_mem_cons.mp h
    rw [mobiledropinitsequence, dropsIn, hm, mobiledropinitsequence_eq hrest]
    rfl

/-- **All that is generated for a map** are `int`s, if its words are, from where it is put. -/
theorem Laid.mobiledropinitsequence (h : Laid bytesperword map size) : ∀ disp, 0 ≤ disp →
    disp + size < 2 ^ 31 → Occ21.mobiledropinitsequence bytesperword disp map =
      some (dropsIn bytesperword disp map) := by
  induction h with
  | @mk map size spaced words nonneg lt roomy replica inner ih =>
    intro disp h0 hlt
    refine mobiledropinitsequence_eq fun m hm => ?_
    obtain ⟨s, hslots⟩ := spaced.slots
    obtain ⟨hsl, hsl', hs0, hms, hspan, hs⟩ := hslots m hm
    have hroomy := roomy m hm
    cases m with
    | var addr words msoffset sloffset v =>
      have hroom : HasRoom bytesperword v.type.fields words := hroomy
      have hlt' : sloffset < s := hsl' rfl
      replace hsl : 0 ≤ sloffset := hsl
      replace hms : s ≤ msoffset := hms
      replace hspan : msoffset + words ≤ size := hspan
      have hwords := hroom.nonneg
      have hfields : ∀ decl ∈ v.type.fields, decl.name.initial ≠ none → IsInt (msoffset + disp) ∧
          IsInt (msoffset + disp + (decl.offset / bytesperword : ℕ)) := by
        intro decl hd hinit
        have hfield := hroom.1 decl hd hinit
        generalize decl.offset / bytesperword = offset at hfield ⊢
        exact ⟨⟨by omega, by omega⟩, by omega, by omega⟩
      rw [Msmap.dropInit, int32_of_lt (by omega) (by omega), int32_of_lt (by omega) (by omega),
        mobiledropnestedinit_eq bytesperword hfields, Msmap.drops]
      rfl
    | inst addr words msoffset sloffset => rw [Msmap.dropInit, Msmap.drops]
    | replpar addr words msoffset sloffset replcount msusage replptr =>
      obtain ⟨hcount, hwords⟩ := replica _ _ _ _ _ _ _ hm
      have husage := (inner _ _ _ _ _ _ _ hm).nonneg
      replace hms : s ≤ msoffset := hms
      replace hspan : msoffset + (if replcount = -1 then 2 else words * replcount) ≤ size := hspan
      rw [Msmap.dropInit, Msmap.drops]
      split_ifs at hspan ⊢ with h1
      · rw [int32_of_lt (by omega) (by omega)]
        rfl
      · have hcount := hcount.resolve_left h1
        have hreplica : ∀ i : ℕ, i < replcount.toNat →
            0 ≤ (i : ℤ) * msusage ∧ msoffset + i * msusage + msusage ≤ size := by
          intro i hi
          have hle : ((i : ℤ) + 1) * msusage ≤ replcount * msusage :=
            mul_le_mul_of_nonneg_right (by omega) husage
          rw [add_mul, one_mul] at hle
          rw [hwords, mul_comm] at hspan
          exact ⟨mul_nonneg (Int.natCast_nonneg _) husage, by omega⟩
        rw [foldlM_replicas_eq (fun x => Occ21.mobiledropinitsequence bytesperword x replptr)
          (fun x => dropsIn bytesperword x replptr) fun i hi => ?_]
        · rfl
        · obtain ⟨hi0, hile⟩ := hreplica i hi
          refine ⟨ih _ _ _ _ _ _ _ hm _ (by omega) (by omega), ?_⟩
          rw [Nat.cast_add, Nat.cast_one, add_mul, one_mul, ← add_assoc]
          exact ⟨by omega, by omega⟩

/-- What a call gives is room for what it is about, and a count. -/
def MobileCall.Sound (bytesperword : ℕ) : MobileCall → Prop
  | newmobilevar nptr => HasRoom bytesperword nptr.type.fields nptr.words
  | newmobileinstance nwords => 0 ≤ nwords
  | mobilereplparstart replcount => replcount = -1 ∨ 0 ≤ replcount
  | mobilereplparfinish => True

/-- The node of a replicated PAR that has started holds what its usage says, and that of one that
has finished is made. -/
def Msmap.Held (bytesperword : ℕ) (replpars : List (ℕ × ℤ)) : Msmap → Prop
  | .replpar addr words _ _ replcount msusage replptr =>
    (replcount = -1 ∨ 0 ≤ replcount) ∧ (∀ m ∈ replptr, m.Sound bytesperword) ∧
      (∀ usage, (addr, usage) ∈ replpars → usage = wordsIn replptr) ∧
      ((∀ usage, (addr, usage) ∉ replpars) → words = msusage ∧ msusage = wordsIn replptr)
  | m => m.Roomy bytesperword

/-- While a procedure is mapped. -/
structure Mapping.Sound (bytesperword : ℕ) (s : Mapping) : Prop where
  nodes : ∀ m ∈ s.msmaptab, m.Held bytesperword s.replpars
  fresh : ∀ p ∈ s.replpars, p.1 < s.fresh
  distinct : s.replpars.Pairwise fun p q => p.1 ≠ q.1
  addr : ∀ m ∈ s.msmaptab, m.addr < s.fresh

variable {s s' : Mapping} {stack : List (ℕ × ℤ)}

/-- Nodes at other places do not mind what is on top of the stack. -/
theorem Msmap.Held.congr {stack' : List (ℕ × ℤ)} (h : m.Held bytesperword stack)
    (heq : ∀ usage, (m.addr, usage) ∈ stack' ↔ (m.addr, usage) ∈ stack) :
    m.Held bytesperword stack' := by
  cases m with
  | replpar addr =>
    obtain ⟨hcount, hall, hin, hout⟩ := h
    exact ⟨hcount, hall, fun usage hu => hin usage ((heq usage).mp hu),
      fun hu => hout fun usage hmem => hu usage ((heq usage).mpr hmem)⟩
  | _ => exact h

theorem mem_stack_of_ne {a b : ℕ} {u u' usage : ℤ} (h : b ≠ a) :
    (b, usage) ∈ (a, u) :: stack ↔ (b, usage) ∈ (a, u') :: stack := by
  have hne : ∀ k, (b, usage) ≠ (a, k) := fun k heq => h (Prod.mk.inj heq).1
  simp only [List.mem_cons, hne, false_or]

theorem addr_linkIn (addr : ℕ) (node m : Msmap) : (linkIn addr node m).addr = m.addr :=
  addr_linkAll addr [node] m

theorem addr_finishIn (addr : ℕ) (usage : ℤ) (m : Msmap) :
    (finishIn addr usage m).addr = m.addr := by
  cases m with
  | replpar a => rw [finishIn]; split_ifs <;> rfl
  | _ => rfl

/-- **A node is linked in** the PAR that has started last, and counted in its usage. -/
theorem Mapping.Sound.linkIn {a : ℕ} {u k : ℤ} {outer : List (ℕ × ℤ)} {tmp : Msmap}
    (h : s.Sound bytesperword) (hs : s.replpars = (a, u) :: outer) (htmp : tmp.Sound bytesperword)
    (hk : wordsIn [tmp] = k) :
    Mapping.Sound bytesperword ⟨s.fresh + 1, s.msmaptab.map (linkIn a tmp),
      (a, u + k) :: outer⟩ := by
  have hdistinct := h.distinct
  rw [hs] at hdistinct
  obtain ⟨hne, hout⟩ := List.pairwise_cons.mp hdistinct
  refine ⟨fun m hm => ?_, fun p hp => ?_, List.pairwise_cons.mpr ⟨hne, hout⟩, fun m hm => ?_⟩
  · obtain ⟨m₀, hm₀, rfl⟩ := List.mem_map.mp hm
    have hnode := h.nodes m₀ hm₀
    by_cases ha : m₀.addr = a
    · cases m₀ with
      | replpar addr words msoffset sloffset replcount msusage replptr =>
        obtain rfl : addr = a := ha
        obtain ⟨hcount, hall, hin, -⟩ := hnode
        rw [Occ21.linkIn, if_pos rfl]
        refine ⟨hcount, List.forall_mem_cons.mpr ⟨htmp, hall⟩, fun usage hu => ?_, fun hu => ?_⟩
        · have hold := hin u (hs ▸ List.mem_cons_self)
          rcases List.mem_cons.mp hu with heq | hu
          · obtain rfl : usage = u + k := (Prod.mk.inj heq).2
            rw [wordsIn_cons, hk, ← hold, add_comm]
          · exact (hne _ hu rfl).elim
        · exact absurd List.mem_cons_self (hu (u + k))
      | _ => exact hnode
    · have heq : Occ21.linkIn a tmp m₀ = m₀ := by
        rw [linkIn_eq]
        exact linkAll_of_ne ha
      rw [heq]
      exact hnode.congr fun usage => by rw [hs]; exact mem_stack_of_ne ha
  · rcases List.mem_cons.mp hp with rfl | hp
    · exact (h.fresh (a, u) (hs ▸ List.mem_cons_self)).trans (Nat.lt_succ_self _)
    · exact (h.fresh p (hs ▸ List.mem_cons_of_mem _ hp)).trans (Nat.lt_succ_self _)
  · obtain ⟨m₀, hm₀, rfl⟩ := List.mem_map.mp hm
    rw [addr_linkIn]
    exact (h.addr m₀ hm₀).trans (Nat.lt_succ_self _)

/-- A variable or an instance goes on the map of the procedure. -/
theorem Mapping.Sound.cons {tmp : Msmap} (h : s.Sound bytesperword) (hpar : tmp.isPar = false)
    (hroomy : tmp.Roomy bytesperword) (haddr : tmp.addr = s.fresh) :
    Mapping.Sound bytesperword ⟨s.fresh + 1, tmp :: s.msmaptab, s.replpars⟩ := by
  refine ⟨List.forall_mem_cons.mpr ⟨?_, h.nodes⟩,
    fun p hp => (h.fresh p hp).trans (Nat.lt_succ_self _),
    h.distinct, List.forall_mem_cons.mpr ⟨?_, fun m hm => (h.addr m hm).trans (Nat.lt_succ_self _)⟩⟩
  · cases tmp with
    | replpar => cases hpar
    | _ => exact hroomy
  · exact haddr ▸ Nat.lt_succ_self _

theorem Mapping.Sound.start {replcount : ℤ} (h : s.Sound bytesperword)
    (hcount : replcount = -1 ∨ 0 ≤ replcount) (heq : mobilereplparstart replcount s = some s') :
    s'.Sound bytesperword := by
  rw [mobilereplparstart] at heq
  split_ifs at heq with hfull
  obtain rfl := Option.some.inj heq
  have hnew : ∀ p ∈ s.replpars, s.fresh ≠ p.1 := fun p hp => (h.fresh p hp).ne'
  refine ⟨List.forall_mem_cons.mpr
    ⟨⟨hcount, List.forall_mem_nil _, fun usage hu => ?_, fun hu => ?_⟩,
    fun m hm => (h.nodes m hm).congr fun usage => ?_⟩, List.forall_mem_cons.mpr
    ⟨Nat.lt_succ_self _, fun p hp => (h.fresh p hp).trans (Nat.lt_succ_self _)⟩,
    List.pairwise_cons.mpr ⟨hnew, h.distinct⟩, List.forall_mem_cons.mpr ⟨Nat.lt_succ_self _,
    fun m hm => (h.addr m hm).trans (Nat.lt_succ_self _)⟩⟩
  · rcases List.mem_cons.mp hu with heq | hu
    · rw [(Prod.mk.inj heq).2]
      rfl
    · exact absurd rfl (hnew _ hu)
  · exact absurd List.mem_cons_self (hu 0)
  · have hne : (m.addr, usage) ≠ (s.fresh, 0) := fun heq =>
      (h.addr m hm).ne (Prod.mk.inj heq).1
    simp only [List.mem_cons, hne, false_or]

theorem Mapping.Sound.finish (h : s.Sound bytesperword) (heq : mobilereplparfinish s = some s') :
    s'.Sound bytesperword := by
  rw [mobilereplparfinish] at heq
  split at heq
  · cases heq
  · rename_i tmp u outer hs
    have hs' := Option.some.inj heq
    have hdistinct := h.distinct
    rw [hs] at hdistinct
    obtain ⟨hne, hout⟩ := List.pairwise_cons.mp hdistinct
    have hnodes : ∀ m ∈ s.msmaptab.map (finishIn tmp u),
        m.Held bytesperword outer ∧ m.addr < s.fresh := by
      intro m hm
      obtain ⟨m₀, hm₀, rfl⟩ := List.mem_map.mp hm
      have hnode := h.nodes m₀ hm₀
      rw [addr_finishIn]
      refine ⟨?_, h.addr m₀ hm₀⟩
      by_cases ha : m₀.addr = tmp
      · cases m₀ with
        | replpar addr words msoffset sloffset replcount msusage replptr =>
          obtain rfl : addr = tmp := ha
          obtain ⟨hcount, hall, hin, -⟩ := hnode
          have hu := hin u (hs ▸ List.mem_cons_self)
          rw [finishIn, if_pos rfl]
          refine ⟨hcount, hall, fun usage hmem => (hne _ hmem rfl).elim, fun _ => ?_⟩
          split_ifs with hlen
          · exact ⟨rfl, hu⟩
          · have hnil : replptr = [] := List.length_eq_zero_iff.mp (Nat.eq_zero_of_not_pos hlen)
            rw [hnil] at hu ⊢
            exact ⟨hu, rfl⟩
        | _ => exact hnode
      · rw [finishIn_of_ne ha]
        refine hnode.congr fun usage => ?_
        have hne' : (m₀.addr, usage) ≠ (tmp, u) := fun heq => ha (Prod.mk.inj heq).1
        rw [hs, List.mem_cons]
        simp only [hne', false_or]
    have htab : ∀ m ∈ s'.msmaptab, m ∈ s.msmaptab.map (finishIn tmp u) := by
      intro m hm
      rw [← hs'] at hm
      dsimp only at hm
      split at hm
      · rename_i top rest hcase
        rw [hcase]
        split_ifs at hm with hempty
        · exact List.mem_cons_of_mem _ hm
        · exact hm
      · cases hm
    subst hs'
    exact ⟨fun m hm => (hnodes m (htab m hm)).1,
      fun p hp => h.fresh p (hs ▸ List.mem_cons_of_mem _ hp), hout,
      fun m hm => (hnodes m (htab m hm)).2⟩

/-- **A call keeps the map sound.** -/
theorem MobileCall.apply_sound {c : MobileCall} (h : s.Sound bytesperword)
    (hc : c.Sound bytesperword) (heq : c.apply s = some s') : s'.Sound bytesperword := by
  cases c with
  | newmobilevar nptr =>
    rw [MobileCall.apply, Occ21.newmobilevar] at heq
    cases hs : s.replpars with
    | nil =>
      simp only [hs, Option.some.injEq] at heq
      rw [← heq, ← hs]
      exact h.cons rfl hc rfl
    | cons p outer =>
      simp only [hs, Option.bind_eq_some_iff, Option.map_eq_some_iff, int32_eq_some] at heq
      obtain ⟨_, ⟨rfl, -⟩, _, ⟨rfl, -⟩, rfl⟩ := heq
      refine h.linkIn hs (.leaf rfl hc) ?_
      rw [wordsIn_singleton, Msmap.slots, Msmap.span, Msmap.words]
      · push_cast
        ring
      · simp
  | newmobileinstance nwords =>
    rw [MobileCall.apply, Occ21.newmobileinstance] at heq
    split_ifs at heq with h0
    · exact Option.some.inj heq ▸ h
    · have hpos : 0 < nwords := lt_of_le_of_ne hc (Ne.symm h0)
      have hpar : (Msmap.inst s.fresh nwords (-1) (-1)).isPar = false := rfl
      cases hs : s.replpars with
      | nil =>
        simp only [hs, Option.some.injEq] at heq
        rw [← heq, ← hs]
        exact h.cons hpar hpos rfl
      | cons p outer =>
        simp only [hs, Option.map_eq_some_iff, int32_eq_some] at heq
        obtain ⟨_, ⟨rfl, -⟩, rfl⟩ := heq
        refine h.linkIn hs (.leaf hpar hpos) ?_
        rw [wordsIn_singleton, Msmap.slots, Msmap.span, Msmap.words]
        · exact zero_add _
        · simp
        · simp
  | mobilereplparstart replcount => exact h.start hc heq
  | mobilereplparfinish => exact h.finish heq

theorem mapCalls_sound : ∀ (calls : List MobileCall) {s s' : Mapping}, s.Sound bytesperword →
    (∀ c ∈ calls, c.Sound bytesperword) → mapCalls calls s = some s' → s'.Sound bytesperword
  | [], _, _, h, _, heq => Option.some.inj heq ▸ h
  | c :: calls, s, s', h, hcalls, heq => by
    rw [mapCalls_cons] at heq
    obtain ⟨s₁, h₁, heq⟩ := Option.bind_eq_some_iff.mp heq
    obtain ⟨hc, hrest⟩ := List.forall_mem_cons.mp hcalls
    exact mapCalls_sound calls (MobileCall.apply_sound h hc h₁) hrest heq

/-- **The map of a procedure is sound**, whatever is called, when all replicated PARs
have finished. -/
theorem sound_of_mapCalls {calls : List MobileCall} (hcalls : ∀ c ∈ calls, c.Sound bytesperword)
    (heq : mapCalls calls ⟨0, [], []⟩ = some s) (hs : s.replpars = []) :
    ∀ m ∈ s.msmaptab, m.Sound bytesperword := by
  have h := mapCalls_sound calls ⟨List.forall_mem_nil _, List.forall_mem_nil _, .nil,
    List.forall_mem_nil _⟩ hcalls heq
  intro m hm
  have hnode := h.nodes m hm
  cases m with
  | replpar addr =>
    obtain ⟨hcount, hall, -, hout⟩ := hnode
    obtain ⟨hwords, husage⟩ := hout fun usage hmem => by
      rw [hs] at hmem
      cases hmem
    exact .replpar hcount hwords husage hall
  | _ => exact .leaf rfl hnode

end Occ21

end Kroc
