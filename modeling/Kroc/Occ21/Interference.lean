import Kroc.Occ21.Bind3

/-!
# Occ21/Interference — which variables interfere

`create_var`, `kill_var`, `resurrect_var`, `create_immortalvar`, the scopes, the fixed areas of the
workspace and the temporaries of `occ21/be/bind3.c`, over the bit rows of live variables and of the
interference map.  `bind1.c` starts a mapping range of its own for each branch of a PAR.

Positions of bits are products in an `int`; a call that would need one that overflows has no
outcome.
-/

open Triangle

namespace Kroc

namespace Occ21

/-! ## State -/

/-- A name node, as far as mapping goes: `slots` is what `numslots` gives for it, unless it is a
reserved area.  An offset is none for `NO_SLOT`, and a number is none for `-1`. -/
structure VarNode where
  tag : Tag
  slots : ℤ
  rsize : ℤ
  offset : Option ℤ
  varNum : Option ℕ

def VarNode.numslots (nptr : VarNode) : ℤ :=
  if nptr.tag = .reservedws then nptr.rsize else nptr.slots

/-- The bit rows, the variables by their numbers, the name nodes and the list of fixed areas. -/
structure Vars where
  maxvar : ℕ
  varrow : ℕ
  varBase : ℕ
  numVar : ℕ
  varMap : ℕ → BitVec (2 ^ 5)
  liveVar : ℕ → BitVec (2 ^ 5)
  varList : ℕ → ℕ
  node : ℕ → VarNode
  fixedwsList : List ℕ

/-! ## Numbers -/

/-- `numwords_of`: the words of the rows `0 … n - 1`, if `startofrow` does not overflow. -/
def numwordsOf (n : ℕ) : Option ℕ :=
  if (n + 1) * n < 2 ^ 31 then
    let i := start n
    some (if i &&& 31 > 0 then (i >>> 5) + 1 else i >>> 5)
  else none

/-- The arrays, twice as long; `alloc_var_map` asks for the words of all the rows there are then. -/
def Vars.stretch (s : Vars) : Option Vars :=
  (numwordsOf (s.maxvar * 2)).bind fun _ =>
  (numwordsOf s.maxvar).map fun oldwords =>
    { s with
      varrow := s.varrow * 2
      maxvar := s.maxvar * 2
      varMap := fun w => if w < oldwords then s.varMap w else 0
      liveVar := fun w => if w < s.varrow then s.liveVar w else 0 }

def nextvarnum (s : Vars) : Option (ℕ × Vars) :=
  (if s.numVar ≥ s.maxvar then s.stretch else some s).map fun s =>
    (s.numVar, { s with numVar := s.numVar + 1 })

/-- The bits of `n` with those of the mask from `first` to `last` are set. -/
def markbitmap (map mask : ℕ → BitVec (2 ^ 5)) (first last n : ℕ) : ℕ → BitVec (2 ^ 5) :=
  (List.range' first (last + 1 - first)).foldl
    (fun map i => if testbit mask i then setPair map i n else map) map

/-! ## Variables -/

def createVar (nptr : ℕ) (s : Vars) : Option Vars :=
  (nextvarnum s).map fun (n, s) =>
    let liveVar := setbit s.liveVar n
    { s with
      liveVar := liveVar
      varMap := markbitmap s.varMap liveVar s.varBase (s.numVar - 1) n
      varList := Function.update s.varList n nptr
      node := Function.update s.node nptr
        { s.node nptr with varNum := some n, offset := none } }

def killVar (nptr : ℕ) (s : Vars) : Option Vars :=
  (s.node nptr).varNum.map fun n => { s with liveVar := clearbit s.liveVar n }

/-- What a declaration needs besides is further calls. -/
def resurrectVar (nptr : ℕ) (s : Vars) : Option Vars :=
  (s.node nptr).varNum.map fun n =>
    if testbit s.liveVar n then s
    else
      let liveVar := setbit s.liveVar n
      { s with
        liveVar := liveVar
        varMap := markbitmap s.varMap liveVar s.varBase (s.numVar - 1) n }

def createImmortalvar (nptr : ℕ) (s : Vars) : Option Vars :=
  (nextvarnum s).map fun (n, s) =>
    { s with
      varMap := (List.range' s.varBase (n + 1 - s.varBase)).foldl (fun map i => setPair map i n)
        s.varMap
      varList := Function.update s.varList n nptr
      node := Function.update s.node nptr { s.node nptr with varNum := some n } }

def restoreScope (oldVarrow : ℕ) (scope : ℕ → BitVec (2 ^ 5)) (s : Vars) : Vars :=
  { s with
    liveVar := fun w =>
      if w < oldVarrow then scope w else if w < s.varrow then 0 else s.liveVar w }

/-- The variable has a number in the current mapping range. -/
def Vars.inRange (s : Vars) (n : ℕ) : Bool := s.varBase ≤ n ∧ n < s.numVar

/-- The node is for the same area, and has no number or one of the current range. -/
def Vars.fits (s : Vars) (slot size : ℤ) (nptr : ℕ) : Bool :=
  decide ((s.node nptr).offset = some slot) && decide ((s.node nptr).rsize = size) &&
    match (s.node nptr).varNum with
    | none => true
    | some n => s.inRange n

/-- `new` is the node that is made if there is none on the list to use again. -/
def allocFixedws (slot size : ℤ) (new : ℕ) (s : Vars) : Option (ℕ × Vars) :=
  let r := match s.fixedwsList.find? (s.fits slot size) with
    | none =>
      (createVar new
        { s with
          node := Function.update s.node new ⟨.reservedws, size, size, none, none⟩
          fixedwsList := new :: s.fixedwsList }).map (new, ·)
    | some nptr =>
      match (s.node nptr).varNum with
      | none => (createVar nptr s).map (nptr, ·)
      | some _ => (resurrectVar nptr s).map (nptr, ·)
  r.map fun (nptr, s) => (nptr,
    { s with node := Function.update s.node nptr { s.node nptr with offset := some slot } })

/-- Reserved areas of the current range are marked as unused. -/
def freeFixedwslist (s : Vars) : Vars :=
  (List.range' s.varBase (s.numVar - s.varBase)).foldl (fun s i =>
    if (s.node (s.varList i)).tag = .reservedws then
      { s with
        node := Function.update s.node (s.varList i) { s.node (s.varList i) with varNum := none } }
    else s) s

def Tag.isTemp : Tag → Bool
  | .temp | .preevaltemp => true
  | _ => false

/-- `numslots` of the new node is that of a temporary. -/
def alloctemp (tempptr : ℕ) (s : Vars) : Option Vars :=
  let size := (s.node tempptr).numslots
  let found := (List.range' s.varBase (s.numVar - s.varBase)).find? fun i =>
    (s.node (s.varList i)).tag.isTemp && !testbit s.liveVar i &&
      decide (size = (s.node (s.varList i)).numslots)
  match found with
  | some i =>
    resurrectVar (s.varList i)
      { s with
        node := Function.update s.node tempptr
          { s.node tempptr with
            varNum := (s.node (s.varList i)).varNum
            offset := some 0 } }
  | none => createVar tempptr s

end Occ21

end Kroc
