import Mathlib.Algebra.BigOperators.Group.Finset.Basic
import Mathlib.Tactic
import Kroc.Lib.Transition

/-!
# Ccsp/Mobile — mobile types and their reference counts

`runtime/ccsp/kernel/sched.c`, from `mt_alloc_array_internal` to `mt_alloc`, `X_proc_mt_move`,
`X_proc_mt_copy` and `kernel_chan_io_mobile`; the type words are those of `mobile_types.h`.  A
pointer is a number, `0` for `NULL`; memory that has been released is `none`, and the allocator
gives out each pointer once.  The counts are numbers: a word counts as many references as memory
can hold.

The recursive functions take fuel, the number of objects ever allocated at each call.
-/

open Transition

namespace Kroc

namespace Ccsp

namespace Mobile

/-! ## Type words -/

/-- `MT_TYPE`, the type number. -/
inductive Kind
  | num
  | array
  | cb
  | barrier
  | process
  | mt
  | desc
  | data
  | farray
  | arrayOpts
  | unused
  deriving DecidableEq

def mtType (x : ℕ) : Kind :=
  match (x >>> 1) &&& 0xf with
  | 0 => .num
  | 1 => .array
  | 2 => .cb
  | 3 => .barrier
  | 4 => .process
  | 5 => .mt
  | 6 => .desc
  | 7 => .data
  | 8 => .farray
  | 9 => .arrayOpts
  | _ => .unused

/-- `type & MT_SIMPLE` -/
def mtSimple (x : ℕ) : Bool := x.testBit 0

def mtFlags (x : ℕ) : ℕ := x >>> 5

def mtArrayDim (x : ℕ) : ℕ := 1 + (mtFlags x &&& 0x7)

def mtArrayInnerType (x : ℕ) : ℕ := x >>> 8

def mtArrayOptsInner (x : ℕ) : ℕ := x >>> 12

/-- `type & MT_CB_SHARED` -/
def mtCbShared (x : ℕ) : Bool := x.testBit 5

def mtBarrierType (x : ℕ) : ℕ := mtFlags x

/-- The type of an array's elements, with the array options taken off. -/
def elemType (x : ℕ) : ℕ :=
  if mtType (mtArrayInnerType x) = .arrayOpts then mtArrayOptsInner (mtArrayInnerType x)
  else mtArrayInnerType x

/-- The loop at the head of `mt_io_update`: the innermost type of the arrays is a number. -/
def innermostNum : ℕ → ℕ → Bool
  | 0, _ => false
  | n + 1, x =>
    match mtType (elemType x) with
    | .num => true
    | .array => innermostNum n (elemType x)
    | _ => false

/-! ## Memory -/

abbrev Ptr := ℕ

/-- An object: the type word before the pointer, the count of a bundle or a barrier, the dimensions
of an array, and its elements or the words of untyped data. -/
structure Obj where
  type : ℕ
  refCount : ℕ
  dimensions : List ℕ
  data : List ℕ
  deriving DecidableEq

/-- The elements are pointers to other objects. -/
def Obj.HoldsPtrs (o : Obj) : Prop := mtType o.type = .array ∧ mtType (elemType o.type) ≠ .num

instance (o : Obj) : Decidable o.HoldsPtrs := inferInstanceAs (Decidable (_ ∧ _))

structure Mem where
  objs : Ptr → Option Obj
  next : Ptr

namespace Mem

variable (m : Mem)

def set (p : Ptr) (o : Obj) : Mem := { m with objs := Function.update m.objs p (some o) }

/-- `dmem_thread_release` -/
def free (p : Ptr) : Mem := { m with objs := Function.update m.objs p none }

/-- `dmem_thread_alloc` -/
def new (o : Obj) : Mem × Ptr :=
  ({ objs := Function.update m.objs m.next (some o), next := m.next + 1 }, m.next)

/-! ## Allocation -/

/-- `mt_alloc_array_internal`; the elements start as `NULL`. -/
def mtAllocArray (type size : ℕ) : Option (Mem × Ptr) :=
  if mtSimple (mtArrayInnerType type) then
    some (m.new ⟨type, 0, List.replicate (mtArrayDim type) 0, List.replicate size 0⟩)
  else none

/-- Both ends count. -/
def mtAllocCb (type channels : ℕ) : Mem × Ptr := m.new ⟨type ||| (channels <<< 8), 2, [], []⟩

/-- Full, forking and mobile process barriers. -/
def mtAllocBarrier (type : ℕ) : Option (Mem × Ptr) :=
  if mtBarrierType type ≤ 2 then some (m.new ⟨type, 1, [], []⟩) else none

def mtAllocData (type size : ℕ) : Mem × Ptr := m.new ⟨type, 0, [], List.replicate size 0⟩

/-- `mobile_type_error` ends the kernel. -/
def mtAlloc (type size : ℕ) : Option (Mem × Ptr) :=
  if mtSimple type then
    match mtType type with
    | .array => m.mtAllocArray type size
    | .cb => some (m.mtAllocCb type size)
    | .barrier => m.mtAllocBarrier type
    | .data => some (m.mtAllocData type size)
    | _ => none
  else none

/-! ## Release -/

/-- `atw_dec_z` of the count, and the release of the object when nothing is left. -/
def decRef (p : Ptr) (o : Obj) : Mem :=
  if o.refCount - 1 = 0 then m.free p else m.set p { o with refCount := o.refCount - 1 }

/-- `mt_release`, `mt_release_simple` -/
def mtRelease : ℕ → Mem → Ptr → Option Mem
  | 0, _, _ => none
  | fuel + 1, m, p =>
    match m.objs p with
    | none => none
    | some o =>
      if mtSimple o.type then
        match mtType o.type with
        | .array =>
          if mtType (elemType o.type) ≠ .num then
            (o.data.foldlM (fun m q => if q ≠ 0 then mtRelease fuel m q else some m) m).map
              fun m => m.free p
          else some (m.free p)
        | .cb => some (m.decRef p o)
        | .barrier => some (m.decRef p o)
        | .data => some (m.free p)
        | _ => none
      else none

/-! ## Clone -/

/-- `atw_inc` of the count. -/
def incRef (p : Ptr) : Option Mem :=
  (m.objs p).map fun o => m.set p { o with refCount := o.refCount + 1 }

/-- `mt_clone`, `mt_clone_simple`, `mt_clone_array`.  The elements of the new array are written as
the walk goes; nobody reads them before it is over. -/
def mtClone : ℕ → Mem → Ptr → Option (Mem × Ptr)
  | 0, _, _ => none
  | fuel + 1, m, p =>
    match m.objs p with
    | none => none
    | some o =>
      if mtSimple o.type then
        match mtType o.type with
        | .array =>
          match m.mtAllocArray o.type o.data.length with
          | none => none
          | some (m, dst) =>
            if mtType (elemType o.type) ≠ .num then
              (o.data.foldlM (fun (acc : Mem × List Ptr) q =>
                if q ≠ 0 then (mtClone fuel acc.1 q).map fun r => (r.1, acc.2 ++ [r.2])
                else some (acc.1, acc.2 ++ [0])) (m, [])).map
                fun acc => (acc.1.set dst { o with data := acc.2 }, dst)
            else some (m.set dst o, dst)
        | .cb => (m.incRef p).map fun m => (m, p)
        | .barrier => (m.incRef p).map fun m => (m, p)
        | .data => some (m.new o)
        | _ => none
      else none

/-! ## Input and output -/

mutual

/-- `mt_io_update`: the object moves, or both sides keep a reference to it. -/
def mtIoUpdate : ℕ → Mem → Ptr → Option (Mem × Bool)
  | 0, _, _ => none
  | fuel + 1, m, p =>
    match m.objs p with
    | none => none
    | some o =>
      if mtSimple o.type then
        match mtType o.type with
        | .array =>
          if innermostNum o.type o.type then some (m, true)
          else (mtIoUpdateArray fuel m p (mtArrayInnerType o.type)).map fun m => (m, true)
        | .cb => if mtCbShared o.type then (m.incRef p).map fun m => (m, false) else some (m, true)
        | .barrier => (m.incRef p).map fun m => (m, false)
        | .data => some (m, true)
        | _ => some (m, false)
      else none

/-- `mt_io_update_array`, led by the type word of the outermost array. -/
def mtIoUpdateArray : ℕ → Mem → Ptr → ℕ → Option Mem
  | 0, _, _, _ => none
  | fuel + 1, m, p, inner =>
    match m.objs p with
    | none => none
    | some o =>
      match mtType inner with
      | .array =>
        o.data.foldlM (fun m q =>
          if q ≠ 0 then mtIoUpdateArray fuel m q (mtArrayInnerType inner) else some m) m
      | .cb =>
        if mtCbShared inner then
          o.data.foldlM (fun m q => if q ≠ 0 then m.incRef q else some m) m
        else some m
      | .barrier => o.data.foldlM (fun m q => if q ≠ 0 then m.incRef q else some m) m
      | .mt =>
        o.data.foldlM (fun m q =>
          if q ≠ 0 then (mtIoUpdate fuel m q).map Prod.fst else some m) m
      | _ => some m

end

mutual

/-- The shared bundles and barriers that the update of a mobile comes to. -/
def reached (m : Mem) : ℕ → Ptr → List Ptr
  | 0, _ => []
  | fuel + 1, p =>
    match m.objs p with
    | none => []
    | some o =>
      match mtType o.type with
      | .array =>
        if innermostNum o.type o.type then []
        else reachedArray m fuel p (mtArrayInnerType o.type)
      | .cb => if mtCbShared o.type then [p] else []
      | .barrier => [p]
      | _ => []

def reachedArray (m : Mem) : ℕ → Ptr → ℕ → List Ptr
  | 0, _, _ => []
  | fuel + 1, p, inner =>
    match m.objs p with
    | none => []
    | some o =>
      match mtType inner with
      | .array =>
        (o.data.filter (· ≠ 0)).flatMap fun q => reachedArray m fuel q (mtArrayInnerType inner)
      | .cb => if mtCbShared inner then o.data.filter (· ≠ 0) else []
      | .barrier => o.data.filter (· ≠ 0)
      | .mt => (o.data.filter (· ≠ 0)).flatMap fun q => reached m fuel q
      | _ => []

end

/-- Fuel for one call: no object is nested in more than there are. -/
def fuel (m : Mem) : ℕ := 2 * m.next + 2

end Mem

/-! ## The slots of the processes -/

/-- A mobile as a program names it: a variable, and indices into nested arrays. -/
structure Place where
  var : ℕ
  path : List ℕ
  deriving DecidableEq

/-- Where a reference is kept: a slot of a workspace, an element of an array. -/
inductive Loc
  | var (x : ℕ)
  | elem (a : Ptr) (i : ℕ)
  deriving DecidableEq

/-- What a process that waits in a channel has called: `mt_in`, `mt_out` or `mt_xchg`. -/
inductive Dir
  | inp
  | out
  | xchg
  deriving DecidableEq

/-- The memory, the slots of all the workspaces, and the channels with the process that waits. -/
structure Sys where
  mem : Mem
  vars : List Ptr
  chans : ℕ → Option (Dir × Place)

/-- An element of an array of type `inner` may be the object: `mt_io_update_array` takes elements
for what the type word says. -/
def Fits (inner : ℕ) (o : Obj) : Prop :=
  match mtType inner with
  | .array => o.type = inner
  | .cb => mtType o.type = .cb ∧ mtCbShared o.type = mtCbShared inner
  | .barrier => mtType o.type = .barrier
  | .data => mtType o.type = .data
  | .mt => True
  | _ => False

instance (inner : ℕ) (o : Obj) : Decidable (Fits inner o) := by
  unfold Fits; split <;> infer_instance

namespace Sys

variable (s : Sys)

def read : Loc → Option Ptr
  | .var x => s.vars[x]?
  | .elem a i =>
    match s.mem.objs a with
    | none => none
    | some o => if o.HoldsPtrs then o.data[i]? else none

def write (l : Loc) (p : Ptr) : Sys :=
  match l with
  | .var x => { s with vars := s.vars.set x p }
  | .elem a i =>
    match s.mem.objs a with
    | none => s
    | some o => { s with mem := s.mem.set a { o with data := o.data.set i p } }

/-- Down from a place along the indices. -/
def descend : Loc → List ℕ → Option Loc
  | l, [] => some l
  | l, i :: path => (s.read l).bind fun p => descend (.elem p i) path

def address (pl : Place) : Option Loc := s.descend (.var pl.var) pl.path

/-- The place and what it holds. -/
def lookup (pl : Place) : Option (Loc × Ptr) :=
  (s.address pl).bind fun l => (s.read l).map fun p => (l, p)

/-- The program's types let the place hold the object. -/
def Accepts (l : Loc) (p : Ptr) : Prop :=
  match l with
  | .var _ => True
  | .elem a _ =>
    match s.mem.objs a, s.mem.objs p with
    | some o, some o' => Fits (elemType o.type) o'
    | _, _ => False

instance (l : Loc) (p : Ptr) : Decidable (s.Accepts l p) :=
  match l with
  | .var _ => isTrue trivial
  | .elem a _ => by
    unfold Accepts
    dsimp only
    split <;> infer_instance

/-- A pointer is stored in a place that holds none. -/
def store (pl : Place) (p : Ptr) : Option Sys :=
  match s.lookup pl with
  | none => none
  | some (l, q) => if q = 0 ∧ (p = 0 ∨ s.Accepts l p) then some (s.write l p) else none

/-! ## Steps -/

/-- `X_mt_alloc`.  The program keeps the ends of a new bundle in two places. -/
def alloc (type size : ℕ) (dst other : Place) : Option Sys :=
  match s.mem.mtAlloc type size with
  | none => none
  | some (m, p) =>
    (store { s with mem := m } dst p).bind fun s =>
      if mtType type = .cb then s.store other p else some s

/-- `X_mt_clone`, `X_proc_mt_copy` -/
def clone (src dst : Place) : Option Sys :=
  match s.lookup src with
  | none => none
  | some (_, p) =>
    if p ≠ 0 then
      match s.mem.mtClone s.mem.fuel p with
      | none => none
      | some (m, q) => store { s with mem := m } dst q
    else s.store dst 0

/-- `X_proc_mt_move`, and `kernel_chan_io_mobile` where nothing is exchanged. -/
def move (src dst : Place) : Option Sys :=
  match s.lookup src with
  | none => none
  | some (l, p) =>
    if p ≠ 0 then
      match s.mem.mtIoUpdate s.mem.fuel p with
      | none => none
      | some (m, moved) =>
        let s : Sys := { s with mem := m }
        (if moved then s.write l 0 else s).store dst p
    else s.store dst 0

/-- `kernel_chan_io_mobile` with `CIO_EXCHANGE`. -/
def exchange (src dst : Place) : Option Sys :=
  match s.lookup src, s.lookup dst with
  | some (l, p), some (l', q) =>
    if (q = 0 ∨ s.Accepts l q) ∧ (p = 0 ∨ s.Accepts l' p) then
      some ((s.write l' p).write l q)
    else none
  | _, _ => none

/-- `kernel_chan_io`: the first of the two to come waits, the second transfers the mobile. -/
def io (c : ℕ) (dir : Dir) (pl : Place) : Option Sys :=
  let done : Sys := { s with chans := Function.update s.chans c none }
  match s.chans c, dir with
  | none, _ => some { s with chans := Function.update s.chans c (some (dir, pl)) }
  | some (.out, src), .inp => done.move src pl
  | some (.inp, dst), .out => done.move pl dst
  | some (.xchg, src), .xchg => done.exchange src pl
  | _, _ => none

/-- `X_mt_release`; the program has given the reference up. -/
def release (pl : Place) : Option Sys :=
  match s.lookup pl with
  | none => none
  | some (l, p) =>
    if p ≠ 0 then
      ((s.write l 0).mem.mtRelease s.mem.fuel p).map fun m => { s.write l 0 with mem := m }
    else none

end Sys

inductive Act
  | alloc (type size : ℕ) (dst other : Place)
  | clone (src dst : Place)
  | move (src dst : Place)
  | io (c : ℕ) (dir : Dir) (pl : Place)
  | release (pl : Place)

namespace Sys

/-- **One step of the system.** -/
def step (s : Sys) : Act → Option Sys
  | .alloc type size dst other => s.alloc type size dst other
  | .clone src dst => s.clone src dst
  | .move src dst => s.move src dst
  | .io c dir pl => s.io c dir pl
  | .release pl => s.release pl

/-- `n` slots, none of which holds a reference. -/
def init (n : ℕ) : Sys := ⟨⟨fun _ => none, 1⟩, List.replicate n 0, fun _ => none⟩

/-! ## What is promised -/

/-- The references to `p`: the slots that hold it, and the elements of the arrays in memory. -/
def refs (s : Sys) (p : Ptr) : ℕ :=
  s.vars.count p + ∑ a ∈ Finset.range s.mem.next,
    match s.mem.objs a with
    | none => 0
    | some o => if o.HoldsPtrs then o.data.count p else 0

/-- **Reference counting is exact.** -/
structure Sound (s : Sys) : Prop where
  /-- The count of a bundle or barrier is the number of references to it. -/
  count : ∀ p o, s.mem.objs p = some o → mtType o.type = .cb ∨ mtType o.type = .barrier →
    o.refCount = s.refs p
  /-- Nothing is freed while there is a reference to it. -/
  live : ∀ p, p ≠ 0 → 0 < s.refs p → s.mem.objs p ≠ none
  /-- What nothing refers to has been freed. -/
  freed : ∀ p, s.refs p = 0 → s.mem.objs p = none
  /-- Arrays and data have one owner. -/
  owned : ∀ p o, s.mem.objs p = some o → mtType o.type = .array ∨ mtType o.type = .data →
    s.refs p = 1

end Sys

end Mobile

end Ccsp

end Kroc
