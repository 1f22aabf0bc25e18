import Kroc.Ccsp.Mobile
import Kroc.Lib.Owned
import Kroc.Lib.Returns
import Kroc.Tvm.Sched

/-!
# Tvm/Mobile — the mobiles of libtvm

`runtime/libtvm/ins_mobile.c`, with the barriers of `ins_barrier.c`; the type words are those of
`mobile_types.h`.  A pointer is a number, 0 for `NULL`.  An object is the words before the pointer
and behind it; the elements of an array count as its own, in its block or in memory it is bound to.

The allocator gives out each pointer once, with junk behind it, and has room for every block whose
size fits a word.  The recursive functions take fuel, for how deep objects are nested.
-/

namespace Kroc

namespace Tvm

namespace Mobile

open Ectx (Ret)

open Ccsp.Mobile (mtType mtSimple mtFlags mtArrayDim mtArrayInnerType mtArrayOptsInner mtCbShared
  mtBarrierType elemType)

/-! ## Type words -/

/-- `MT_NUM_TYPE` -/
def mtNumType (x : ℕ) : ℕ :=
  if mtFlags x &&& 0x7 < 0x7 then mtFlags x &&& 0x7 else (mtFlags x >>> 3) &&& 0xff

def mtNumSizeShift (type : ℕ) : ℕ := (type >>> 2) + (type &&& 0x3)

/-- `MT_FLAGS (x) & MT_ARRAY_OPTS_DMA` -/
def mtArrayOptsDma (x : ℕ) : Bool := (mtFlags x).testBit 0

/-- `MT_FLAGS (x) & MT_ARRAY_OPTS_SEPARATED` -/
def mtArrayOptsSeparated (x : ℕ) : Bool := (mtFlags x).testBit 1

def mtArrayOptsAlign (x : ℕ) : ℕ := (x >>> 8) &&& 0xf

/-- `type & MT_CB_EXTERNAL` -/
def mtCbExternal (x : ℕ) : Bool := x.testBit 7

/-- The array's type has options. -/
def hasOpts (x : ℕ) : Bool := mtType (mtArrayInnerType x) = .arrayOpts

/-- The array can be handed to hardware. -/
def isDma (x : ℕ) : Bool := hasOpts x && mtArrayOptsDma (mtArrayInnerType x)

/-- The log of the bytes that an element takes, `WSH` for a word. -/
def sizeShift (type : ℕ) : ℕ :=
  if mtType (elemType type) = .num then mtNumSizeShift (mtNumType (elemType type)) else 2

def alignment (type : ℕ) : ℕ :=
  let alignment := if hasOpts type then 2 ^ mtArrayOptsAlign (mtArrayInnerType type) - 1 else 0
  if mtType (elemType type) = .num ∧ sizeShift type > 2 ∧ alignment = 0 then 2 ^ sizeShift type - 1
  else alignment

def metaWords (type : ℕ) : ℕ := mtArrayDim type + 2 + 1 + if isDma type then 1 else 0

/-- The size of an array's block. -/
def arrayBytes (type size : ℕ) : ℕ :=
  (size <<< sizeShift type) + alignment type + (metaWords type <<< 2)

/-- The size of a block of data. -/
def dataBytes (size : ℕ) : ℕ := (size + 3) / 4 * 4 + 8

/-! ## Memory -/

abbrev Ptr := ℕ

/-- What an address of elements is. -/
inductive Place
  | null
  | block
  | bound (address : ℕ)
  deriving DecidableEq

/-- An object: its type word; the count of a bundle or a barrier; the numbers of a barrier, with who
waits at it; what the bundle of a host has for it; the size of an array or of data; the dimensions,
with the hardware address behind them; and the address of the elements, with the pointers or the
bytes that are there. -/
structure Obj where
  type : ℕ
  refCount : Word
  enrolled : Word
  count : Word
  waiting : List Word
  ext : ℕ
  size : ℕ
  dimensions : List ℕ
  hardware : Place
  data : Place
  elems : List ℕ
  deriving DecidableEq

/-- The elements are pointers. -/
def Obj.HoldsPtrs (o : Obj) : Prop := mtType o.type = .array ∧ mtType (elemType o.type) ≠ .num

instance (o : Obj) : Decidable o.HoldsPtrs := inferInstanceAs (Decidable (_ ∧ _))

/-- The objects, the next pointer that is given out, what is in new memory, who has become ready,
and which bundles of the host have been given back to it. -/
structure Heap where
  objs : Ptr → Option Obj
  next : Ptr
  junk : ℕ → ℕ
  ready : List Word
  closed : List ℕ

namespace Heap

variable (h : Heap)

def set (p : Ptr) (o : Obj) : Heap := { h with objs := Function.update h.objs p (some o) }

/-- Words of an object are written. -/
def modify (p : Ptr) (f : Obj → Obj) : Heap :=
  { h with objs := Function.update h.objs p ((h.objs p).map f) }

/-- `tvm_free` -/
def free (p : Ptr) : Heap := { h with objs := Function.update h.objs p none }

/-- `tvm_malloc`, and the first words of the block. -/
def new (o : Obj) : Ptr × Heap :=
  (h.next, { h with objs := Function.update h.objs h.next (some o), next := h.next + 1 })

/-- What new memory holds. -/
def fresh (n : ℕ) : List ℕ := (List.range n).map h.junk

/-- The `i`th element of an array. -/
def elem (p : Ptr) (i : ℕ) : Ptr := ((h.objs p).elim [] Obj.elems).getD i 0

def setElem (p : Ptr) (i : ℕ) (q : Ptr) : Heap :=
  h.modify p fun o => { o with elems := o.elems.set i q }

def setElems (p : Ptr) (elems : List ℕ) : Heap := h.modify p fun o => { o with elems := elems }

def setDimensions (p : Ptr) (dimensions : List ℕ) : Heap :=
  h.modify p fun o => { o with dimensions := dimensions }

def setRefCount (p : Ptr) (refs : Word) : Heap := h.modify p fun o => { o with refCount := refs }

/-! ## Allocation -/

/-- The array that `mt_alloc_array_int` makes. -/
def arrayObj (type size : ℕ) (init : Bool) : Obj where
  type := type
  refCount := 0
  enrolled := 0
  count := 0
  waiting := []
  ext := 0
  size := size
  dimensions := h.fresh (mtArrayDim type)
  hardware := if isDma type ∧ size ≠ 0 then .block else .null
  data := if size ≠ 0 then .block else .null
  elems :=
    if mtType (elemType type) = .num then h.fresh (size <<< sizeShift type)
    else if init then List.replicate size 0 else h.fresh size

/-- `mt_alloc_array_int` -/
def mtAllocArrayInt (type size : ℕ) (init : Bool) : Option (Ptr × Heap) :=
  if arrayBytes type size < 2 ^ 32 then some (h.new (h.arrayObj type size init)) else none

/-- `mt_alloc_data` -/
def mtAllocData (type size : ℕ) : Option (Ptr × Heap) :=
  if dataBytes size < 2 ^ 32 then
    some (h.new ⟨type, 0, 0, 0, [], 0, size, [], .null, .null, h.fresh size⟩)
  else none

/-! ## Barriers -/

/-- `tvm_bar_enroll`; the error is `EFLAG_BAR`. -/
def barEnroll (bar : Ptr) (enrollCount : Word) : Option (Ret × Heap) :=
  (h.objs bar).map fun o =>
    if o.enrolled + enrollCount < o.enrolled then (.error, h)
    else (.cont, h.set bar
      { o with enrolled := o.enrolled + enrollCount, count := o.count + enrollCount })

/-- `tvm_bar_resign`; where the count comes to nothing the barrier completes. -/
def barResign (bar : Ptr) (resignCount : Word) : Option (Ret × Heap) :=
  (h.objs bar).map fun o =>
    if resignCount > o.enrolled ∨ resignCount > o.count then (.error, h)
    else
      let o := { o with enrolled := o.enrolled - resignCount }
      let count := o.count - resignCount
      if count ≥ 1 then (.cont, h.set bar { o with count := count })
      else (.cont, { h.set bar { o with count := o.enrolled, waiting := [] } with
        ready := h.ready ++ o.waiting })

/-! ## Clone -/

/-- The loop of `mt_clone_array`, from element `i` of `src`. -/
def cloneElems (clone : Heap → Ptr → Ptr → Option (Ret × Ptr × Heap)) (src dst : Ptr) :
    ℕ → ℕ → Heap → Option (Ret × Heap)
  | 0, _, h => some (.cont, h)
  | n + 1, i, h =>
    let innerPtr := h.elem src i
    if innerPtr ≠ 0 then
      (clone h innerPtr innerPtr).bind fun (eret, innerPtr, h) =>
        if eret ≠ .cont then some (eret, h)
        else cloneElems clone src dst n (i + 1) (h.setElem dst i innerPtr)
    else cloneElems clone src dst n (i + 1) (h.setElem dst i innerPtr)

/-- `mt_clone`, `mt_clone_simple` and `mt_clone_array`, with what `*ret` holds before and after. -/
def mtClone : ℕ → Heap → Ptr → Ptr → Option (Ret × Ptr × Heap)
  | 0, _, _, _ => none
  | fuel + 1, h, ptr, ret =>
    match h.objs ptr with
    | none => none
    | some o =>
      if mtSimple o.type then
        match mtType o.type with
        | .array =>
          (h.mtAllocArrayInt o.type o.size false).bind fun (dst, h) =>
            let h := h.setDimensions dst (o.dimensions.take (mtArrayDim o.type))
            if mtType (elemType o.type) = .num then
              some (.cont, dst, h.setElems dst (o.elems.take (o.size <<< sizeShift o.type)))
            else
              (cloneElems (mtClone fuel) ptr dst o.size 0 h).map fun (eret, h) =>
                if eret ≠ .cont then (eret, ret, h) else (.cont, dst, h)
        | .cb => some (.cont, ptr, h.setRefCount ptr (o.refCount + 1))
        | .barrier =>
          let h := h.setRefCount ptr (o.refCount + 1)
          if mtBarrierType o.type = 0 then (h.barEnroll ptr 1).map fun (eret, h) => (eret, ret, h)
          else some (.cont, ptr, h)
        | .data =>
          (h.mtAllocData o.type o.size).map fun (dst, h) =>
            (.cont, dst, h.setElems dst (o.elems.take o.size))
        | _ => some (.error, 0, h)
      else some (.error, 0, h)

/-- `ins_mt_clone`: what it returns, and what is then in `AREG`.  The variable for the pointer holds
junk. -/
def insMtClone (fuel : ℕ) (areg junk : Ptr) : Option (Ret × Ptr × Heap) :=
  (mtClone fuel h areg junk).map fun (ret, ptr, h) =>
    if ret ≠ .cont then (ret, areg, h) else (.cont, ptr, h)

/-! ## Release -/

/-- What `mt_release_simple` does with a bundle, with a barrier, and with a type it does
not know. -/
structure Releaser where
  cb : Heap → Ptr → Obj → Option (Ret × Heap)
  barrier : Heap → Ptr → Obj → Option (Ret × Heap)
  unknown : Heap → Option (Ret × Heap)

/-- The loop of `mt_release_simple`, from element `i` of an array. -/
def releaseElems (release : Heap → Ptr → Option (Ret × Heap)) (ptr : Ptr) :
    ℕ → ℕ → Heap → Option Heap
  | 0, _, h => some h
  | n + 1, i, h =>
    let innerPtr := h.elem ptr i
    if innerPtr ≠ 0 then
      (release h innerPtr).bind fun r => releaseElems release ptr n (i + 1) r.2
    else releaseElems release ptr n (i + 1) h

/-- `mt_release_simple`; of the elements of an array by `mt_release`. -/
def Releaser.simple (r : Releaser) : ℕ → Heap → Ptr → ℕ → Option (Ret × Heap)
  | 0, _, _, _ => none
  | fuel + 1, h, ptr, type =>
    match h.objs ptr with
    | none => none
    | some o =>
      match mtType type with
      | .array =>
        if mtType (elemType type) ≠ .num then
          (releaseElems (fun h q => (h.objs q).bind fun o =>
            if mtSimple o.type then r.simple fuel h q o.type else r.unknown h) ptr o.size 0 h).map
            fun h => (.cont, h.free ptr)
        else some (.cont, h.free ptr)
      | .cb => r.cb h ptr o
      | .barrier => r.barrier h ptr o
      | .data => some (.cont, h.free ptr)
      | _ => r.unknown h

/-- `mt_release` -/
def Releaser.release (r : Releaser) (fuel : ℕ) (h : Heap) (ptr : Ptr) : Option (Ret × Heap) :=
  (h.objs ptr).bind fun o => if mtSimple o.type then r.simple fuel h ptr o.type else r.unknown h

/-- What libtvm does: a bundle of the host is given back to it, a full barrier loses a process, and
who waits at a forking barrier becomes ready. -/
def tvmReleaser : Releaser where
  cb h ptr o :=
    some (.cont, if o.refCount ≤ 1 then
        { h.free ptr with
          closed := if mtCbExternal o.type ∧ o.ext ≠ 0 then h.closed ++ [o.ext] else h.closed }
      else h.setRefCount ptr (o.refCount - 1))
  barrier h ptr o :=
    if o.refCount > 1 then
      let h := h.setRefCount ptr (o.refCount - 1)
      if mtBarrierType o.type = 0 then h.barResign ptr 1 else some (.cont, h)
    else
      let h := if mtBarrierType o.type = 1 then { h with ready := h.ready ++ o.waiting } else h
      some (.cont, h.free ptr)
  unknown h := some (.error, h)

/-- `mt_release` of libtvm. -/
def mtRelease : ℕ → Heap → Ptr → Option (Ret × Heap) := tvmReleaser.release

end Heap

end Mobile

end Tvm

end Kroc
