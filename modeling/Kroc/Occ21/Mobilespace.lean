import Mathlib

/-!
# Occ21/Mobilespace — the mobilespace of a procedure

What the compiler does for mobile variables, for instances that need mobilespace and for replicated
PARs while it maps a procedure, how it sorts what it has mapped and how it gives out offsets.  A
node of the map is known by the place that it was allocated at.  A sum of `int`s that overflows has
no value.
-/

namespace Kroc

namespace Occ21

/-- The values of an `int`. -/
def IsInt (x : ℤ) : Prop := -2 ^ 31 ≤ x ∧ x < 2 ^ 31

instance (x : ℤ) : Decidable (IsInt x) := inferInstanceAs (Decidable (_ ∧ _))

/-- A sum or a product of `int`s, if it does not overflow. -/
def int32 (x : ℤ) : Option ℤ := if IsInt x then some x else none

/-! ## Types of variables -/

/-- What a field of a record is to the mobilespace. -/
inductive Nested
  | dynmobilearray (dimensions : ℕ+)
  | dynmobilechantype
  | dynmobileproctype
  | other
  deriving DecidableEq

/-- A declaration in a record, with its offset in bytes. -/
structure Decl where
  name : Nested
  offset : ℕ
  deriving DecidableEq

inductive Typetree
  | typedecl (type : Typetree)
  | mobile (type : Typetree)
  | record (decls : List Decl)
  | other
  deriving DecidableEq

def followUserType : Typetree → Typetree
  | .typedecl type => followUserType type
  | type => type

/-- The name of a mobile variable: its type, the words that its type takes and how often it is
used. -/
structure MobileVar where
  type : Typetree
  mobile : ∃ t, followUserType type = .mobile t
  words : ℕ
  useCount : ℤ

/-! ## The map -/

/-- A node of the map.  The offsets are `-1` until space is given out; `replcount` is `-1` for a
count that is known at run time only, and `msusage` is what the space usage node says of a replica.
-/
inductive Msmap
  | var (addr : ℕ) (words msoffset sloffset : ℤ) (varptr : MobileVar)
  | inst (addr : ℕ) (words msoffset sloffset : ℤ)
  | replpar (addr : ℕ) (words msoffset sloffset replcount msusage : ℤ) (replptr : List Msmap)

namespace Msmap

def addr : Msmap → ℕ
  | var addr .. | inst addr .. | replpar addr .. => addr

def words : Msmap → ℤ
  | var _ words .. | inst _ words .. | replpar _ words .. => words

def msoffset : Msmap → ℤ
  | var _ _ msoffset .. | inst _ _ msoffset .. | replpar _ _ msoffset .. => msoffset

def sloffset : Msmap → ℤ
  | var _ _ _ sloffset .. | inst _ _ _ sloffset .. | replpar _ _ _ sloffset .. => sloffset

def isVar : Msmap → Bool
  | var .. => true
  | _ => false

/-- What is mapped inside of the node. -/
def replptr : Msmap → List Msmap
  | replpar _ _ _ _ _ _ replptr => replptr
  | _ => []

end Msmap

/-! ## Mapping -/

/-- The map of the procedure, and the replicated PARs that have started, the innermost one first,
each as the place of its node with what it uses so far. -/
structure Mapping where
  fresh : ℕ
  msmaptab : List Msmap
  replpars : List (ℕ × ℤ)

def RPSTACKSIZE : ℕ := 128

/-- `node` is put in front of what is inside of the node at `addr`. -/
def linkIn (addr : ℕ) (node : Msmap) : Msmap → Msmap
  | .replpar a words msoffset sloffset replcount msusage replptr =>
    .replpar a words msoffset sloffset replcount msusage
      (if a = addr then node :: replptr else replptr)
  | m => m

def newmobilevar (nptr : MobileVar) (s : Mapping) : Option Mapping :=
  let tmp := Msmap.var s.fresh nptr.words (-1) (-1) nptr
  match s.replpars with
  | (onHere, usage) :: outer =>
    (int32 (nptr.words + 1)).bind fun nwords =>
      (int32 (usage + nwords)).map fun usage =>
        { fresh := s.fresh + 1
          msmaptab := s.msmaptab.map (linkIn onHere tmp)
          replpars := (onHere, usage) :: outer }
  | [] => some { s with fresh := s.fresh + 1, msmaptab := tmp :: s.msmaptab }

def newmobileinstance (nwords : ℤ) (s : Mapping) : Option Mapping :=
  if nwords = 0 then some s
  else
    let tmp := Msmap.inst s.fresh nwords (-1) (-1)
    match s.replpars with
    | (onHere, usage) :: outer =>
      (int32 (usage + nwords)).map fun usage =>
        { fresh := s.fresh + 1
          msmaptab := s.msmaptab.map (linkIn onHere tmp)
          replpars := (onHere, usage) :: outer }
    | [] => some { s with fresh := s.fresh + 1, msmaptab := tmp :: s.msmaptab }

/-- The node of a replicated PAR goes on the map of the procedure, wherever the PAR is. -/
def mobilereplparstart (replcount : ℤ) (s : Mapping) : Option Mapping :=
  if s.replpars.length = RPSTACKSIZE then none
  else some
    { fresh := s.fresh + 1
      msmaptab := .replpar s.fresh 0 (-1) (-1) replcount 0 [] :: s.msmaptab
      replpars := (s.fresh, 0) :: s.replpars }

/-- The node at `addr` gets its words, and its space usage node: what a replica uses, if anything
was mapped in it. -/
def finishIn (addr : ℕ) (usage : ℤ) : Msmap → Msmap
  | .replpar a words msoffset sloffset replcount msusage replptr =>
    if a = addr then
      .replpar a usage msoffset sloffset replcount (if replptr.length > 0 then usage else 0) replptr
    else .replpar a words msoffset sloffset replcount msusage replptr
  | m => m

/-- A node with nothing in it goes again, if it is still on top. -/
def mobilereplparfinish (s : Mapping) : Option Mapping :=
  match s.replpars with
  | [] => none
  | (tmp, usage) :: outer =>
    let msmaptab := s.msmaptab.map (finishIn tmp usage)
    some
      { s with
        msmaptab :=
          match msmaptab with
          | top :: rest =>
            if usage = 0 ∧ top.replptr = [] ∧ top.addr = tmp then rest else top :: rest
          | [] => []
        replpars := outer }

inductive MobileCall
  | newmobilevar (nptr : MobileVar)
  | newmobileinstance (nwords : ℤ)
  | mobilereplparstart (replcount : ℤ)
  | mobilereplparfinish

def MobileCall.apply (s : Mapping) : MobileCall → Option Mapping
  | newmobilevar nptr => Occ21.newmobilevar nptr s
  | newmobileinstance nwords => Occ21.newmobileinstance nwords s
  | mobilereplparstart replcount => Occ21.mobilereplparstart replcount s
  | mobilereplparfinish => Occ21.mobilereplparfinish s

def mapCalls (calls : List MobileCall) (s : Mapping) : Option Mapping :=
  calls.foldlM MobileCall.apply s

/-! ## Sorting -/

/-- The head of the first list goes before that of the second one. -/
def msmapBefore : Msmap → Msmap → Bool
  | .var _ _ _ _ v, .var _ _ _ _ v' => v.useCount ≥ v'.useCount
  | .var .., _ => true
  | _, .var .. => false
  | _, _ => true

theorem sizeOf_list_pos {α : Type*} [SizeOf α] : ∀ l : List α, 0 < sizeOf l
  | [] => by simp
  | _ :: _ => by simp

theorem sizeOf_take_lt {α : Type*} [SizeOf α] : ∀ {l : List α} {k : ℕ}, k < l.length →
    sizeOf (l.take k) < sizeOf l
  | _ :: l, 0, _ => by
    have := sizeOf_list_pos l
    simp only [List.take_zero, List.nil.sizeOf_spec, List.cons.sizeOf_spec]
    omega
  | _ :: l, k + 1, h => by
    have := sizeOf_take_lt (l := l) (k := k) (Nat.lt_of_succ_lt_succ h)
    simp only [List.take_succ_cons, List.cons.sizeOf_spec]
    omega

theorem sizeOf_drop_lt {α : Type*} [SizeOf α] : ∀ {l : List α} {k : ℕ}, 0 < k → 0 < l.length →
    sizeOf (l.drop k) < sizeOf l
  | _ :: l, 1, _, _ => by
    simp only [List.drop_succ_cons, List.drop_zero, List.cons.sizeOf_spec]
    omega
  | _ :: [], k + 2, _, _ => by simp
  | _ :: b :: l, k + 2, _, _ => by
    have := sizeOf_drop_lt (l := b :: l) (k := k + 1) (Nat.succ_pos k) (by simp)
    simp only [List.drop_succ_cons, List.cons.sizeOf_spec] at this ⊢
    omega

def msmapMergesort : List Msmap → List Msmap
  | [] => []
  | [.replpar addr words msoffset sloffset replcount msusage replptr] =>
    [.replpar addr words msoffset sloffset replcount msusage (msmapMergesort replptr)]
  | [m] => [m]
  | m :: m' :: rest =>
    let list := m :: m' :: rest
    List.merge (msmapMergesort (list.take (list.length / 2)))
      (msmapMergesort (list.drop (list.length / 2))) msmapBefore
termination_by list => sizeOf list
decreasing_by
  · simp
    omega
  · exact sizeOf_take_lt (by simp; omega)
  · exact sizeOf_drop_lt (by simp) (by simp)

/-! ## What is initialised -/

def countDecl (count : ℤ) (decl : Decl) : Option ℤ :=
  match decl.name with
  | .dynmobilearray dimensions => (int32 (1 + dimensions)).bind fun n => int32 (count + n)
  | .dynmobilechantype => int32 (count + 1)
  | .dynmobileproctype => int32 (count + 1)
  | .other => some count

/-- The pairs that are counted for the mobile fields of a record. -/
def mobilecountnestedinit : Typetree → Option ℤ
  | .record decls => decls.foldlM countDecl 0
  | _ => some 0

/-- What is counted for the fields of a variable.  A named type that is not mobile is an internal
error, and no type of a mobile variable. -/
def MobileVar.counted (v : MobileVar) : Option ℤ :=
  match v.type with
  | .typedecl type =>
    match followUserType type with
    | .mobile type => mobilecountnestedinit type
    | _ => some 0
  | _ => some 0

mutual

/-- A node is counted, after the ones before it. -/
def Msmap.countInit (count : ℤ) : Msmap → Option ℤ
  | .var _ _ _ _ varptr => do
    let count ← int32 (count + 1)
    int32 (count + (← varptr.counted))
  | .replpar _ _ _ _ replcount _ replptr =>
    if replcount = -1 then int32 (count + 1)
    else do
      let nested ← int32 (replcount * (← countInits 0 replptr))
      int32 (count + nested)
  | .inst .. => int32 (count + 1)

def countInits (count : ℤ) : List Msmap → Option ℤ
  | [] => some count
  | tmp :: rest => do countInits (← tmp.countInit count) rest

end

def mobilecountinitsequence (map : List Msmap) : Option ℤ := countInits 0 map

/-! ## Giving out offsets -/

/-- The shadow slots that a node takes. -/
def Msmap.slots : Msmap → ℕ
  | .var .. => 1
  | _ => 0

/-- The shadow slots of a map: those of the variables that it starts with. -/
def shadows (map : List Msmap) : ℕ := (map.takeWhile Msmap.isVar).length

mutual

/-- The node with its offsets, and the offset behind it: two words are for a count that is known at
run time only. -/
def Msmap.bind (length offsptr : ℤ) : Msmap → Option (Msmap × ℤ)
  | .var addr words _ _ varptr => do
    return (.var addr words offsptr length varptr, ← int32 (offsptr + words))
  | .inst addr words _ _ => do
    return (.inst addr words offsptr length, ← int32 (offsptr + words))
  | .replpar addr words _ _ replcount msusage replptr => do
    let tmp := .replpar addr words offsptr length replcount msusage
      (← bindProper 0 (← int32 (shadows replptr)) replptr)
    if replcount = -1 then
      let offsptr ← int32 (offsptr + 2)
      let _ ← mobilecountinitsequence replptr
      return (tmp, offsptr)
    else
      return (tmp, ← int32 (offsptr + (← int32 (words * replcount))))

/-- `length` slots are given out before, and the space up to `offsptr`. -/
def bindProper (length offsptr : ℤ) : List Msmap → Option (List Msmap)
  | [] => some []
  | tmp :: rest => do
    let (tmp', offsptr) ← tmp.bind length offsptr
    return tmp' :: (← bindProper (length + tmp.slots) offsptr rest)

end

def bindmobilespace (map : List Msmap) (sOffset : ℤ) : Option (List Msmap) :=
  (int32 (sOffset + shadows map)).bind fun offsptr => bindProper 0 offsptr map

def mobileoutproc (s : Mapping) : Option (List Msmap) :=
  bindmobilespace (msmapMergesort s.msmaptab) 0

/-- The words of a node and what is counted before. -/
def Msmap.wordsin (length : ℤ) : Msmap → Option ℤ
  | .var _ words .. => do int32 (length + (← int32 (words + 1)))
  | .inst _ words .. => int32 (length + words)
  | .replpar _ words _ _ replcount _ _ =>
    if replcount = -1 then int32 (length + 2)
    else do int32 (length + (← int32 (replcount * words)))

def mobilewordsin (nptr : List Msmap) : Option ℤ := nptr.foldlM Msmap.wordsin 0

end Occ21

end Kroc
