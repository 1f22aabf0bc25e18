import Kroc.Lib.Triangle

/-!
# Occ21/Bind3 — workspace allocation

`allocvars` of `occ21/be/bind3.c` and what it calls: `numslots`, the interference map, the orders of
the variables, `can_alloc_in` and `allocate_overlays`.

A name node is a record of what these functions ask of it.  A variable is its number, which is its
index in `var_list` and its row of the map; the linked list of allocated variables is a list of
them. `NO_SLOT` is no offset at all.  `sup_qsort` is any function that sorts.

Offsets are `INT32` numbers.  A sum of them that overflows has no outcome, but for the offsets of
names on a chain, which are summed as `BIT32` numbers and so modulo 2^32.
-/

open Triangle

namespace Kroc

namespace Occ21

/-! ## Names -/

/-- The tags of what is allocated. -/
inductive Tag
  | reservedws
  | temp
  | preevaltemp
  | decl
  | valabbr
  | abbr
  | valretype
  | retype
  | repl
  deriving DecidableEq

/-- `abbrevmode_t` -/
inductive AbbrevMode
  | const
  | isrhs
  | ptr
  | val
  deriving DecidableEq

/-- `S_CHAN` of `lexhdr.h`. -/
def sChan : ℕ := 17

/-- A name on the chain of another: its own use count, and where it is in the other. -/
structure Overlay where
  useCount : ℕ
  offset : ℤ

/-- A name node, as far as allocation goes. -/
structure Name where
  tag : Tag
  /-- `NVRSizeOf` -/
  rsize : ℕ
  /-- Its type is a node that is placed. -/
  typePlaced : Bool
  isplaced : Bool
  isinmobilespace : Bool
  isinvectorspace : Bool
  /-- `NModeOf` is `NM_POINTER`. -/
  modePointer : Bool
  isdynmobilearray : Bool
  dynmobiledimensioncount : ℕ
  isdynmobilechantype : Bool
  allocsize : ℕ
  abbrevmode : AbbrevMode
  /-- A replicator with a `STEP`. -/
  replStep : Bool
  /-- The tag of `gettype_main`. -/
  typeTag : ℕ
  scope : ℤ
  useCount : ℕ
  vsOffset : ℤ
  /-- `NVOffsetOf`, where it is fixed: any constant of a `PLACE` may be. -/
  fixed : ℤ
  /-- The chain of `NVNextOf`. -/
  overlays : List Overlay

/-- `numslots`; a mobile that is no array has one slot, whatever its kind. -/
def numslots (nptr : Name) : ℕ :=
  match nptr.tag with
  | .reservedws => nptr.rsize
  | .temp | .decl | .preevaltemp =>
    if nptr.typePlaced then 1
    else if nptr.isplaced then 0
    else if nptr.isinmobilespace || nptr.isinvectorspace || nptr.modePointer then
      if nptr.isdynmobilearray then nptr.dynmobiledimensioncount + 2 else 1
    else nptr.allocsize
  | .valabbr | .abbr | .valretype | .retype =>
    if nptr.abbrevmode = .const ∨ nptr.abbrevmode = .isrhs then 0
    else if nptr.abbrevmode = .ptr ∨ nptr.isinmobilespace ∨ nptr.isinvectorspace then
      if nptr.isdynmobilearray then nptr.dynmobiledimensioncount + 2 else 1
    else nptr.allocsize
  | .repl => if nptr.replStep then 4 else 2

/-- What does not change while variables are allocated: the options, the variables and the map. -/
structure Setup where
  needsQuadalign : Bool
  /-- `ALLOC_NODIVBYSIZE`, `ALLOC_BYSCOPE` and `ALLOC_NOVSOPT` of `alloc_strategy`. -/
  noDivBySize : Bool
  byScope : Bool
  noVsOpt : Bool
  needWsmap : Bool
  insidePar : Bool
  varList : ℕ → Name
  varMap : ℕ → BitVec (2 ^ 5)
  firstVar : ℕ
  numVar : ℕ

/-- `testbitmap` -/
def testbitmap (s : Setup) (i j : ℕ) : Bool := testPair s.varMap i j

/-- `can_alloc_in` -/
def canAllocIn (s : Setup) (var target : ℕ) (offset : ℤ) : Bool :=
  let v := s.varList var
  let t := s.varList target
  if s.needWsmap then
    if v.isdynmobilearray then
      if t.isdynmobilearray then
        !(v.dynmobiledimensioncount ≠ t.dynmobiledimensioncount ∨ offset ≠ 0)
      else false
    else if v.isdynmobilechantype then false
    else if v.typeTag = t.typeTag ∧ offset = 0 then true
    else v.typeTag ≠ sChan
  else true

/-! ## Orders -/

/-- The use count that `allocvars` sets: that of the whole chain, in an `INT32`, scaled down for an
object of more than two slots.  A reserved area keeps its size in the same field. -/
def initUseCount (s : Setup) (var : ℕ) : ℕ :=
  let v := s.varList var
  if v.tag = .reservedws then v.rsize
  else
    let total := Int.bmod ((v.useCount + (v.overlays.map Overlay.useCount).sum : ℕ) : ℤ) (2 ^ 32)
    let size := numslots v
    let total := if total ≠ 0 ∧ size > 2 ∧ !s.noDivBySize then
        let total := total.tdiv size
        if total = 0 then 1 else total
      else total
    (total % 2 ^ 32).toNat

/-- `compare_scope` -/
def compareScope (s : Setup) (v₁ v₂ : ℕ) : ℤ :=
  let var₁ := s.varList v₁
  let var₂ := s.varList v₂
  if var₁.tag = .reservedws ∨ var₂.tag = .reservedws then
    if var₁.tag = var₂.tag then 0 else if var₁.tag = .reservedws then -1 else 1
  else if var₁.tag = .temp ∨ var₂.tag = .temp then
    if var₁.tag = var₂.tag then 0 else if var₁.tag = .temp then -1 else 1
  else if var₁.scope > var₂.scope then -1
  else if var₁.scope = var₂.scope then 0
  else 1

/-- `compare_use` -/
def compareUse (s : Setup) (v₁ v₂ : ℕ) : ℤ :=
  let var₁ := s.varList v₁
  let var₂ := s.varList v₂
  if var₁.tag = .reservedws ∨ var₂.tag = .reservedws then
    if var₁.tag = var₂.tag then 0 else if var₁.tag = .reservedws then -1 else 1
  else if initUseCount s v₁ > initUseCount s v₂ then -1
  else if initUseCount s v₁ = initUseCount s v₂ then compareScope s v₁ v₂
  else 1

/-- `sup_qsort`: what it gives is sorted, if the comparisons are an order at all. -/
structure Qsort where
  sort : (ℕ → ℕ → ℤ) → List ℕ → List ℕ
  perm : ∀ compare l, (sort compare l).Perm l
  sorted : ∀ compare l, (∀ a b, compare a b ≤ 0 ∨ compare b a ≤ 0) →
    (∀ a b c, compare a b ≤ 0 → compare b c ≤ 0 → compare a c ≤ 0) →
      (sort compare l).Pairwise fun a b => compare a b ≤ 0

/-! ## Allocation -/

/-- What changes: the offsets, those of the chains, and the list of what is allocated. -/
structure State where
  offset : ℕ → Option ℤ
  overlay : ℕ → List ℤ
  alloclist : List ℕ
  varsMappedOntoVsptr : List ℕ
  wssize : ℤ

/-- `NVOffsetOf` of an allocated variable. -/
def State.at (st : State) (var : ℕ) : ℤ := (st.offset var).getD 0

/-- The sum of an `INT32` offset and lengths, if it does not overflow. -/
def sum32 (x : ℤ) : Option ℤ := if x < 2 ^ 31 then some x else none

variable (s : Setup)

def slots (var : ℕ) : ℕ := numslots (s.varList var)

/-- `base++` for a variable of two slots or more. -/
def quad (length : ℕ) (base : ℤ) : ℤ :=
  if s.needsQuadalign ∧ 2 ≤ length ∧ base % 2 ≠ 0 then base + 1 else base

/-- The loop that looks for the start of the next gap; `before` is what it has passed. -/
def nextGap (st : State) (var : ℕ) : ℤ → List ℕ → List ℕ → ℤ × List ℕ × List ℕ
  | base, before, [] => (base, before, [])
  | base, before, this :: rest =>
    if st.at this < base ∨ !canAllocIn s var this (base - st.at this) then
      let thisend := st.at this + slots s this
      if (testbitmap s var this ∨ !canAllocIn s var this (base - st.at this)) ∧
          base < thisend then
        nextGap st var thisend (before ++ [this]) rest
      else nextGap st var base (before ++ [this]) rest
    else (base, before, this :: rest)

variable {s} in
theorem length_nextGap_le {st : State} {var : ℕ} : ∀ {this before : List ℕ} {base : ℤ},
    (nextGap s st var base before this).2.2.length ≤ this.length := by
  intro this
  induction this with
  | nil => exact fun {_ _} => le_rfl
  | cons t rest ih =>
    intro before base
    rw [nextGap]
    dsimp only
    split_ifs
    · exact ih.trans (Nat.le_succ _)
    · exact ih.trans (Nat.le_succ _)
    · exact le_rfl

/-- `look for end of gap`: the first variable that clashes, what is before it and what behind. -/
def firstClash (var : ℕ) : List ℕ → Option (List ℕ × ℕ × List ℕ)
  | [] => none
  | this :: rest =>
    if testbitmap s var this then some ([], this, rest)
    else (firstClash var rest).map fun split => (this :: split.1, split.2)

variable {s} in
theorem firstClash_eq {var : ℕ} {this passed others : List ℕ} {clash : ℕ}
    (h : firstClash s var this = some (passed, clash, others)) :
    this = passed ++ clash :: others ∧ testbitmap s var clash = true ∧
      ∀ u ∈ passed, testbitmap s var u = false := by
  induction this generalizing passed with
  | nil => cases h
  | cons t rest ih =>
    rw [firstClash] at h
    split_ifs at h with ht
    · cases h
      exact ⟨rfl, ht, fun u hu => by cases hu⟩
    · obtain ⟨⟨passed, split⟩, hsplit, heq⟩ := Option.map_eq_some_iff.mp h
      cases heq
      obtain ⟨rfl, hclash, hpassed⟩ := ih hsplit
      refine ⟨rfl, hclash, fun u hu => ?_⟩
      rcases List.mem_cons.mp hu with rfl | hu
      · exact Bool.eq_false_iff.mpr ht
      · exact hpassed u hu

variable {s} in
theorem firstClash_eq_none {var : ℕ} {this : List ℕ} (h : firstClash s var this = none) :
    ∀ u ∈ this, testbitmap s var u = false := by
  induction this with
  | nil => exact fun u hu => by cases hu
  | cons t rest ih =>
    rw [firstClash] at h
    split_ifs at h with ht
    intro u hu
    rcases List.mem_cons.mp hu with rfl | hu
    · exact Bool.eq_false_iff.mpr ht
    · exact ih (Option.map_eq_none_iff.mp h) u hu

/-- The loop that looks for a slot; the variable goes to the base it ends with, behind `before`.  No
`end` on the way is greater than that of the slot it finds, which is checked there. -/
def lookForSlot (st : State) (var : ℕ) (base : ℤ) (before this : List ℕ) :
    ℤ × List ℕ × List ℕ :=
  match this with
  | [] => (base, before, [])
  | t :: rest =>
    let base := quad s (slots s var) base
    let stop := base + slots s var
    if stop ≤ st.at t ∧ canAllocIn s var t (base - st.at t) then (base, before, t :: rest)
    else
      match _hclash : firstClash s var (t :: rest) with
      | none => (base, before, t :: rest)
      | some (passed, clash, others) =>
        if stop ≤ st.at clash ∧ canAllocIn s var clash (base - st.at clash) then
          (base, before, t :: rest)
        else
          let gap :=
            nextGap s st var (st.at clash + slots s clash) (before ++ passed ++ [clash]) others
          let base := if gap.2.2 = [] then quad s (slots s var) gap.1 else gap.1
          lookForSlot st var base gap.2.1 gap.2.2
termination_by this.length
decreasing_by
  have hlen := congrArg List.length (firstClash_eq _hclash).1
  rw [List.length_append, List.length_cons, List.length_cons] at hlen
  refine lt_of_le_of_lt length_nextGap_le ?_
  rw [List.length_cons]
  omega

/-- The loop that finds the place of a variable with a fixed offset. -/
def findPlace (st : State) (offset : ℤ) (before : List ℕ) : List ℕ → List ℕ × List ℕ
  | [] => (before, [])
  | this :: rest =>
    if st.at this < offset then findPlace st offset (before ++ [this]) rest
    else (before, this :: rest)

/-- `Add var to alloc list`, behind `before` and what else comes first. -/
def addToList (st : State) (var : ℕ) (base : ℤ) (before : List ℕ) : List ℕ → List ℕ
  | [] => before ++ [var]
  | this :: rest =>
    if st.at this < base ∨ (st.at this = base ∧ slots s this > slots s var) then
      addToList st var base (before ++ [this]) rest
    else before ++ var :: this :: rest

/-- `Allocate Offset for this var`, with `allocate_overlays`. -/
def setOffset (st : State) (var : ℕ) (base : ℤ) : State :=
  { st with
    offset := Function.update st.offset var (some base)
    overlay := Function.update st.overlay var
      ((s.varList var).overlays.map fun o => (base + o.offset).bmod (2 ^ 32)) }

/-- Is it not allocated at all, or is it where the pointer to vectorspace is? -/
def notAllocated (var : ℕ) : Prop := slots s var = 0 ∨ initUseCount s var = 0

def mappedOntoVsptr (var : ℕ) : Prop :=
  s.insidePar = false ∧ s.noVsOpt = false ∧ (s.varList var).isinvectorspace = true ∧
    (s.varList var).vsOffset = 0

instance (var : ℕ) : Decidable (notAllocated s var) := inferInstanceAs (Decidable (_ ∨ _))

instance (var : ℕ) : Decidable (mappedOntoVsptr s var) :=
  inferInstanceAs (Decidable (_ ∧ _ ∧ _ ∧ _))

/-- `allocate next var`, where it is allocated. -/
def allocate (st : State) (var : ℕ) : Option State :=
  let place (st : State) (base : ℤ) (before this : List ℕ) : Option State :=
    (sum32 (base + slots s var)).map fun stop =>
      { st with
        wssize := max st.wssize stop
        alloclist := addToList s st var base before this }
  match st.offset var with
  | none =>
    let slot := lookForSlot s st var 0 [] st.alloclist
    place (setOffset s st var slot.1) slot.1 slot.2.1 slot.2.2
  | some base =>
    let position := findPlace st base [] st.alloclist
    place st base position.1 position.2

/-- The loop over the sorted variables; those left are sorted once more when the workspace has
grown to `RESORT_SLOTS_CUTOFF`. -/
def allocateAll (q : Qsort) (st : State) (reSorted : Bool) : ℕ → List ℕ → Option State
  | 0, _ => some st
  | _, [] => some st
  | left + 1, var :: vars =>
    if notAllocated s var then allocateAll q st reSorted left vars
    else if mappedOntoVsptr s var then
      allocateAll q { st with varsMappedOntoVsptr := var :: st.varsMappedOntoVsptr } reSorted left
        vars
    else
      (allocate s st var).bind fun st =>
      if !reSorted ∧ st.wssize ≥ 16 ∧ 2 ≤ vars.length then
        allocateAll q st true left (if s.byScope then vars else q.sort (compareScope s) vars)
      else allocateAll q st reSorted left vars

/-- The variables that are allocated here. -/
def vars : List ℕ := (List.range s.numVar).drop s.firstVar

/-- `initialise names`: a reserved area has its offset, and nothing else has one. -/
def initialState : State where
  offset var := if (s.varList var).tag = .reservedws then some (s.varList var).fixed else none
  overlay var := (s.varList var).overlays.map Overlay.offset
  alloclist := []
  varsMappedOntoVsptr := []
  wssize := 0

/-- `sort names` and `allocate all the variables` -/
def allocateVars (q : Qsort) : Option State :=
  let sortedVar := q.sort (if s.byScope then compareScope s else compareUse s) (vars s)
  allocateAll s q (initialState s) false sortedVar.length sortedVar

/-! ## Parameter slots -/

/-- `REG_PARAMS` and `INS_EXTRA` of `genhdr.h`. -/
def regParams : ℕ := 3

def insExtra : ℕ := 1

/-- The variables at the top of a workspace of `wssize` slots, unless one of them cannot go to the
parameter slots up to `freeSlot`. -/
def topVars (st : State) (freeSlot : ℕ) (wssize : ℤ) : List ℕ → List ℕ → Option (List ℕ)
  | movelist, [] => some movelist
  | movelist, var :: vars =>
    if (st.offset var).map (· + (slots s var : ℤ)) = some wssize then
      if (s.varList var).tag = .reservedws ∨ slots s var > freeSlot + 1 then none
      else topVars st freeSlot wssize (var :: movelist) vars
    else topVars st freeSlot wssize movelist vars

/-- `try and squeeze top variables into parameter slots`: what is left of the slots and of the
workspace, and the variables that go to each slot from the last left on. -/
def squeeze (st : State) : ℕ → ℤ → List (List ℕ) → ℕ × ℤ × List (List ℕ)
  | 0, wssize, movelists => (0, wssize, movelists)
  | freeSlot + 1, wssize, movelists =>
    if wssize > 0 then
      match topVars s st freeSlot wssize [] (vars s) with
      | none => (freeSlot + 1, wssize, movelists)
      | some movelist => squeeze st freeSlot (wssize - 1) (movelist :: movelists)
    else (freeSlot + 1, wssize, movelists)

/-- A variable that goes where its last slot is `top`, and its chain with it. -/
def moveVar (top : ℤ) (st : State) (var : ℕ) : State :=
  let base := top - (slots s var - 1)
  { st with
    offset := Function.update st.offset var (some base)
    overlay := Function.update st.overlay var
      ((st.overlay var).map fun o => (base + (o - st.at var)).bmod (2 ^ 32)) }

/-- `Allocate to vars to their new slots` -/
def moveVars (st : State) : ℤ → List (List ℕ) → State
  | _, [] => st
  | top, movelist :: movelists =>
    moveVars (movelist.foldl (moveVar s top) st) (top + 1) movelists

/-- `(wssize + 1) & (~1)` -/
def roundUp (wssize : ℤ) : ℤ := if s.needsQuadalign then wssize + wssize % 2 else wssize

/-- `allocvars`: the size of the workspace, and where everything is. -/
def allocvars (q : Qsort) (freeParamslots : ℤ) : Option (ℤ × State) :=
  if s.numVar > s.firstVar then
    (allocateVars s q).bind fun st =>
    if freeParamslots > 0 then
      let left := squeeze s st freeParamslots.toNat st.wssize []
      let wssize := roundUp s left.2.1
      let top := wssize + insExtra + (regParams - freeParamslots) + left.1
      -- `top` ends one above the last parameter slot
      (sum32 (wssize + insExtra + regParams)).map fun _ =>
        (roundUp s wssize, moveVars s st top left.2.2)
    else (sum32 (roundUp s st.wssize)).map fun wssize => (wssize, st)
  else some (roundUp s 0, initialState s)

end Occ21

end Kroc
