import Kroc.Lib.Transition
import Kroc.Tvm.MobileClone
import Kroc.Tvm.MobileRelease

/-!
# Tvm/MobileBind — arrays bound to memory

`ins_mt_bind` of `ins_mobile.c`.  An array is bound to memory at an address, virtual or physical,
where it then has its elements; or it is bound for hardware, and moves to a new block whose type has
the option for it.  The type word is built again from its parts, in 32 bits.
-/

namespace Kroc

namespace Tvm

namespace Mobile

open Ectx (Ret)

open Owned (Tree View)

open Ccsp.Mobile (mtType mtSimple mtFlags mtArrayDim mtArrayInnerType mtArrayOptsInner elemType)

/-! ## Type words -/

/-- `MT_MAKE_ARRAY_TYPE` -/
def mtMakeArrayType (d i : ℕ) : ℕ := (1 ||| (1 <<< 1) ||| ((d - 1) <<< 5) ||| (i <<< 8)) % 2 ^ 32

/-- `MT_MAKE_ARRAY_OPTS` -/
def mtMakeArrayOpts (f a i : ℕ) : ℕ :=
  (1 ||| (9 <<< 1) ||| (f <<< 5) ||| ((a &&& 0xf) <<< 8) ||| (i <<< 12)) % 2 ^ 32

/-- The type that `ins_mt_bind` gives an array that it binds for hardware; of one that can be handed
to hardware it leaves the options in the inner type. -/
def dmaType (type : ℕ) : ℕ :=
  let dimensions := mtArrayDim type
  let inner := mtArrayInnerType type
  if mtType inner = .arrayOpts ∧ mtArrayOptsDma inner = false then
    mtMakeArrayType dimensions
      (mtMakeArrayOpts (mtFlags inner ||| 1) (mtArrayOptsAlign inner) (mtArrayOptsInner inner))
  else mtMakeArrayType dimensions (mtMakeArrayOpts 1 0 inner)

/-- The type that `mt_bind` of `runtime/ccsp/kernel/sched.c` gives it. -/
def ccspDmaType (type : ℕ) : ℕ := if isDma type then type else dmaType type

/-- The alignment that the options of an array ask for. -/
def mtArrayAlign (x : ℕ) : ℕ := if hasOpts x then mtArrayOptsAlign (mtArrayInnerType x) else 0

/-- **The type word decodes** to the dimensions, the inner type and the alignment of the other. -/
structure Decodes (type₀ type : ℕ) : Prop where
  simple : mtSimple type
  array : mtType type = .array
  dim : mtArrayDim type = mtArrayDim type₀
  elem : elemType type = elemType type₀
  align : mtArrayAlign type = mtArrayAlign type₀

/-- The type can be bound for hardware: it cannot be handed to it yet, and there is room in the word
for the options. -/
def CanDma (type : ℕ) : Prop := isDma type = false ∧ (hasOpts type ∨ mtArrayInnerType type < 2 ^ 12)

instance (type : ℕ) : Decidable (CanDma type) := inferInstanceAs (Decidable (_ ∧ _))

variable {x y d i type type₀ : ℕ}

theorem mtType_congr (h : x / 2 % 16 = y / 2 % 16) : mtType x = mtType y := by
  have hbits : ∀ z, (z >>> 1) &&& 0xf = z / 2 % 16 := fun z => by
    rw [Nat.shiftRight_eq_div_pow, show (0xf : ℕ) = 2 ^ 4 - 1 from rfl,
      Nat.and_two_pow_sub_one_eq_mod]
  unfold mtType
  rw [hbits, hbits, h]

theorem mtSimple_iff : mtSimple x = true ↔ x % 2 = 1 := by
  unfold mtSimple
  rw [Nat.testBit_zero, decide_eq_true_iff]

theorem mtFlags_eq : mtFlags x = x / 32 := Nat.shiftRight_eq_div_pow x 5

theorem mtArrayDim_eq : mtArrayDim x = 1 + x / 32 % 8 := by
  unfold mtArrayDim
  rw [mtFlags_eq, show (0x7 : ℕ) = 2 ^ 3 - 1 from rfl, Nat.and_two_pow_sub_one_eq_mod]

theorem mtArrayInnerType_eq : mtArrayInnerType x = x / 256 := Nat.shiftRight_eq_div_pow x 8

theorem mtArrayOptsInner_eq : mtArrayOptsInner x = x / 4096 := Nat.shiftRight_eq_div_pow x 12

theorem mtArrayOptsAlign_eq : mtArrayOptsAlign x = x / 256 % 16 := by
  unfold mtArrayOptsAlign
  rw [Nat.shiftRight_eq_div_pow, show (0xf : ℕ) = 2 ^ 4 - 1 from rfl,
    Nat.and_two_pow_sub_one_eq_mod]

theorem mtArrayOptsDma_iff : mtArrayOptsDma x = true ↔ x / 32 % 2 = 1 := by
  unfold mtArrayOptsDma
  rw [mtFlags_eq, Nat.testBit_zero, decide_eq_true_iff]

theorem mtMakeArrayType_eq (hd : d ≤ 8) (hi : i < 2 ^ 24) :
    mtMakeArrayType d i = 3 + (d - 1) * 32 + i * 256 := by
  have h₁ : (1 ||| (1 <<< 1) ||| ((d - 1) <<< 5) : ℕ) = (d - 1) * 32 + 3 := by
    rw [Nat.or_comm, show (1 ||| 1 <<< 1 : ℕ) = 3 from rfl,
      ← Nat.shiftLeft_add_eq_or_of_lt (by decide : 3 < 2 ^ 5), Nat.shiftLeft_eq]
  unfold mtMakeArrayType
  rw [h₁, Nat.or_comm, ← Nat.shiftLeft_add_eq_or_of_lt (by omega : (d - 1) * 32 + 3 < 2 ^ 8),
    Nat.shiftLeft_eq, Nat.mod_eq_of_lt (by omega)]
  omega

/-- The options of an array that had none. -/
theorem mtMakeArrayOpts_new (hi : i < 2 ^ 20) : mtMakeArrayOpts 1 0 i = 51 + i * 4096 := by
  unfold mtMakeArrayOpts
  rw [show (1 ||| 9 <<< 1 ||| 1 <<< 5 ||| (0 &&& 0xf) <<< 8 : ℕ) = 51 from rfl, Nat.or_comm,
    ← Nat.shiftLeft_add_eq_or_of_lt (by decide : 51 < 2 ^ 12), Nat.shiftLeft_eq,
    Nat.mod_eq_of_lt (by omega)]
  omega

/-- Options that are taken apart and put together again. -/
theorem mtMakeArrayOpts_old (hx : x < 2 ^ 24) (hdma : x / 32 % 2 = 0) :
    mtMakeArrayOpts (mtFlags x ||| 1) (mtArrayOptsAlign x) (mtArrayOptsInner x) =
      51 + x / 32 * 32 := by
  have hflags : mtFlags x ||| 1 = x / 32 + 1 := by
    have heven : mtFlags x = (x / 64) <<< 1 := by
      rw [mtFlags_eq, Nat.shiftLeft_eq]
      omega
    rw [heven, ← Nat.shiftLeft_add_eq_or_of_lt (by decide : 1 < 2 ^ 1), Nat.shiftLeft_eq]
    omega
  -- the flags are all of the word from bit 5, the alignment and the inner type among them
  have habsorb : (mtFlags x ||| 1) <<< 5 ||| (mtArrayOptsAlign x &&& 0xf) <<< 8 |||
      mtArrayOptsInner x <<< 12 = (mtFlags x ||| 1) <<< 5 := by
    refine Nat.eq_of_testBit_eq fun k => ?_
    simp only [mtFlags, mtArrayOptsAlign, mtArrayOptsInner, Nat.testBit_or, Nat.testBit_shiftLeft,
      Nat.testBit_shiftRight, Nat.testBit_and]
    by_cases hk : 8 ≤ k
    · rw [Nat.add_sub_cancel' hk, Nat.add_sub_cancel' (show 5 ≤ k by omega)]
      by_cases hk' : 12 ≤ k
      · rw [Nat.add_sub_cancel' hk']
        cases x.testBit k <;> simp [show 5 ≤ k by omega]
      · cases x.testBit k <;> simp [show 5 ≤ k by omega, hk']
    · simp [hk, show ¬ 12 ≤ k by omega]
  unfold mtMakeArrayOpts
  rw [Nat.or_assoc, Nat.or_assoc, Nat.or_assoc, ← Nat.or_assoc ((mtFlags x ||| 1) <<< 5), habsorb,
    show (9 <<< 1 : ℕ) = 18 from rfl, ← Nat.or_assoc, show (1 ||| 18 : ℕ) = 19 from rfl,
      Nat.or_comm,
    ← Nat.shiftLeft_add_eq_or_of_lt (by decide : 19 < 2 ^ 5), hflags, Nat.shiftLeft_eq,
    Nat.mod_eq_of_lt (by omega)]
  omega

theorem mtArrayDim_le (x : ℕ) : mtArrayDim x ≤ 8 := by
  rw [mtArrayDim_eq]
  omega

/-- What the parts of a type word are that is made from parts that fit. -/
theorem mtMakeArrayType_parts (hd : 1 ≤ d) (hd' : d ≤ 8) (hi : i < 2 ^ 24) :
    mtSimple (mtMakeArrayType d i) ∧ mtType (mtMakeArrayType d i) = .array ∧
      mtArrayDim (mtMakeArrayType d i) = d ∧ mtArrayInnerType (mtMakeArrayType d i) = i := by
  rw [mtMakeArrayType_eq hd' hi]
  refine ⟨mtSimple_iff.mpr (by omega), ?_, ?_, ?_⟩
  · exact (mtType_congr (y := 2) (by omega)).trans rfl
  · rw [mtArrayDim_eq]
    omega
  · rw [mtArrayInnerType_eq]
    omega

/-- What the parts of options are that are made with the option for hardware. -/
theorem opts_parts {k : ℕ} (hk : x = 51 + k * 32) (hk' : k % 2 = 0) :
    mtType x = .arrayOpts ∧ mtArrayOptsDma x = true ∧ mtArrayOptsAlign x = k / 8 % 16 ∧
      mtArrayOptsInner x = k / 128 := by
  refine ⟨(mtType_congr (y := 18) (by omega)).trans rfl, mtArrayOptsDma_iff.mpr (by omega), ?_, ?_⟩
  · rw [mtArrayOptsAlign_eq]
    omega
  · rw [mtArrayOptsInner_eq]
    omega

/-- **A type that can be bound for hardware decodes as before**, and has the option then. -/
theorem dmaType_decodes (hlt : type < 2 ^ 32) (hc : CanDma type) :
    Decodes type (dmaType type) ∧ isDma (dmaType type) = true := by
  obtain ⟨hdma, hroom⟩ := hc
  have hinner : mtArrayInnerType type < 2 ^ 24 := by
    rw [mtArrayInnerType_eq]
    omega
  have hdim : 1 ≤ mtArrayDim type := by
    rw [mtArrayDim_eq]
    omega
  obtain ⟨k, hk, heven, htype, helem, halign⟩ : ∃ k, 51 + k * 32 < 2 ^ 24 ∧ k % 2 = 0 ∧
      dmaType type = mtMakeArrayType (mtArrayDim type) (51 + k * 32) ∧
      k / 128 = elemType type ∧ k / 8 % 16 = mtArrayAlign type := by
    unfold dmaType elemType mtArrayAlign
    dsimp only
    by_cases hopts : hasOpts type = true
    · have hkind : mtType (mtArrayInnerType type) = .arrayOpts := by
        simpa [hasOpts] using hopts
      have hno : mtArrayOptsDma (mtArrayInnerType type) = false := by
        simpa [isDma, hopts] using hdma
      have hzero : mtArrayInnerType type / 32 % 2 = 0 := by
        have hnot := mt mtArrayOptsDma_iff.mpr (by rw [hno]; exact Bool.false_ne_true)
        omega
      refine ⟨mtArrayInnerType type / 32, by omega, hzero, ?_, ?_, ?_⟩
      · rw [if_pos ⟨hkind, hno⟩, mtMakeArrayOpts_old hinner hzero]
      · rw [if_pos hkind, mtArrayOptsInner_eq]
        omega
      · rw [if_pos hopts, mtArrayOptsAlign_eq]
        omega
    · have hkind : mtType (mtArrayInnerType type) ≠ .arrayOpts := by
        simpa [hasOpts] using hopts
      have hsmall : mtArrayInnerType type < 2 ^ 12 := hroom.resolve_left hopts
      refine ⟨mtArrayInnerType type * 128, by omega, by omega, ?_, ?_, ?_⟩
      · rw [if_neg fun h => hkind h.1, mtMakeArrayOpts_new (by omega)]
        congr 1
        omega
      · rw [if_neg hkind]
        omega
      · rw [if_neg hopts]
        omega
  obtain ⟨hsimple, harray, hdim', hin⟩ := mtMakeArrayType_parts hdim (mtArrayDim_le type) hk
  rw [← htype] at hsimple harray hdim' hin
  obtain ⟨hkind, hdma', halign', helem'⟩ := opts_parts rfl heven
  have hopts : hasOpts (dmaType type) = true := by
    unfold hasOpts
    rw [hin, hkind]
    rfl
  refine ⟨⟨hsimple, harray, hdim', ?_, ?_⟩, ?_⟩
  · rw [elemType, hin, if_pos hkind, helem', helem]
  · rw [mtArrayAlign, if_pos hopts, hin, halign', halign]
  · rw [isDma, hopts, hin, hdma']
    rfl

namespace Decodes

variable {o : Obj}

theorem refl (hsimple : mtSimple type) (harray : mtType type = .array) : Decodes type type :=
  ⟨hsimple, harray, rfl, rfl, rfl⟩

theorem trans {type' : ℕ} (hd : Decodes type₀ type) (hd' : Decodes type type') :
    Decodes type₀ type' :=
  ⟨hd'.simple, hd'.array, hd'.dim.trans hd.dim, hd'.elem.trans hd.elem, hd'.align.trans hd.align⟩

/-- The elements are treated as they were. -/
theorem holdsPtrs (hd : Decodes o.type type) (harray : mtType o.type = .array) :
    ({ o with type := type } : Obj).HoldsPtrs ↔ o.HoldsPtrs := by
  unfold Obj.HoldsPtrs
  dsimp only
  rw [hd.array, hd.elem, harray]

theorem wellFormed (hd : Decodes o.type type) (harray : mtType o.type = .array) (hw : o.WellFormed)
    (hbytes : arrayBytes type o.size < 2 ^ 32) : ({ o with type := type } : Obj).WellFormed := by
  obtain ⟨-, hlen, -, hdims⟩ := (Obj.wellFormed_array harray).mp hw
  refine (Obj.wellFormed_array hd.array).mpr ⟨hd.simple, ?_, hbytes, hdims.trans hd.dim.symm⟩
  dsimp only
  rw [sizeShift, hd.elem]
  exact hlen

end Decodes

/-! ## The call -/

/-- What an array is bound to: memory at an address, with what is there, or hardware. -/
inductive Bind
  | virtual (address : ℕ) (memory : List ℕ)
  | physical (address : ℕ) (memory : List ℕ)
  | dma
  | other

/-- The elements of the array were allocated separately. -/
def isSeparated (x : ℕ) : Bool := hasOpts x && mtArrayOptsSeparated (mtArrayInnerType x)

namespace Heap

variable (h : Heap)

def setType (p : Ptr) (type : ℕ) : Heap := h.modify p fun o => { o with type := type }

/-- What `ins_mt_bind` does with elements that were allocated separately. -/
def releaseSeparated (fuel : ℕ) (o : Obj) : Option (Ret × Heap) :=
  if isSeparated o.type then
    match o.data with
    | .null => some (.cont, h)
    | .block => none
    | .bound data => mtRelease fuel h data
  else some (.cont, h)

/-- The words that it writes then. -/
def writeBound (ptr : Ptr) (o : Obj) (address : ℕ) (memory : List ℕ) : Heap :=
  h.modify ptr fun o' =>
    { o' with
      hardware := if isDma o.type then .bound address else o'.hardware
      data := .bound address
      elems := memory }

/-- `ins_mt_bind` of an array, to memory at an address. -/
def bindAt (fuel : ℕ) (ptr : Ptr) (o : Obj) (address : ℕ) (memory : List ℕ) :
    Option (Ret × Ptr × Heap) :=
  (h.releaseSeparated fuel o).map fun (ret, h) =>
    if ret ≠ .cont then (ret, ptr, h) else (.cont, ptr, h.writeBound ptr o address memory)

/-- `ins_mt_bind`: what it returns, and what is then in `AREG`.  The variable for the new pointer
holds junk. -/
def insMtBind (fuel : ℕ) (ptr junk : Ptr) (bindType : Bind) : Option (Ret × Ptr × Heap) :=
  match h.objs ptr with
  | none => none
  | some o =>
    if mtSimple o.type ∧ mtType o.type = .array then
      match bindType with
      | .virtual address memory => h.bindAt fuel ptr o address memory
      | .physical address memory => h.bindAt fuel ptr o address memory
      | .dma =>
        if isDma o.type then
          some (.cont, ptr, h.modify ptr fun o =>
            { o with type := dmaType o.type, hardware := o.data })
        else
          (mtClone fuel (h.setType ptr (dmaType o.type)) ptr junk).bind fun (ret, newPtr, h) =>
            if ret ≠ .cont then some (ret, ptr, h)
            else
              (mtRelease fuel (h.setType ptr o.type) ptr).map fun (ret, h) =>
                if ret ≠ .cont then (ret, ptr, h) else (.cont, newPtr, h)
      | .other => some (.error, 0, h)
    else some (.error, 0, h)

/-! ## A heap that an array can be bound in -/

/-- The tree hangs at `p`; the bundles and barriers in it count at least the references it has, and
their counters have room for as many more. -/
structure Holds (p : Ptr) (t : Tree Ptr Label) : Prop where
  shows : h.view.Shows p t
  refs : ∀ b o, 0 < t.count b → h.objs b = some o → t.count b ≤ o.refCount.toNat
  room : ∀ b o, 0 < t.count b → h.objs b = some o → Obj.HasRoom o (t.count b)

/-- The condition for an array to be bound: for hardware, that its type has room for the option, and
lacks it, and that there are proper elements to be copied to a block of a size that fits a word; to
memory, that what was allocated separately is a mobile that is not within the array. -/
def Bindable (p : Ptr) : Bind → Prop
  | .dma => ∀ o, h.objs p = some o →
      CanDma o.type ∧ arrayBytes (dmaType o.type) o.size < 2 ^ 32 ∧ ∃ t, h.Holds p t
  | .virtual _ _ | .physical _ _ => ∀ o, h.objs p = some o → isSeparated o.type →
      o.data = .null ∨ ∃ a t, o.data = .bound a ∧ a ≠ 0 ∧ h.Holds a t ∧ p ∉ h.view.owned a t
  | .other => False

variable {h} {h' : Heap} {p q junk : Ptr} {o : Obj} {t : Tree Ptr Label} {label : Label} {n : ℕ}
  {kids : ℕ → Tree Ptr Label} {b : Bind}

theorem Holds.count_eq_zero (hh : h.Holds p t) (ho : h.objs q = some o)
    (harray : mtType o.type = .array) : t.count q = 0 := by
  by_contra hne
  obtain ⟨o', ho', -, hk⟩ := hh.shows.live (Nat.pos_of_ne_zero hne)
  obtain rfl := Option.some.inj (ho.symm.trans ho')
  rw [harray] at hk
  exact hk.elim nofun nofun

/-- With the type of an array changed, the heap shows the elements as before. -/
theorem shows_setType {type : ℕ} (hs : h.view.Shows p (.node label n kids))
    (ho : h.objs p = some o) (hw : ({ o with type := type } : Obj).WellFormed)
    (hptrs : ({ o with type := type } : Obj).HoldsPtrs ↔ o.HoldsPtrs) :
    (h.setType p type).view.Shows p (.node { label with type := type } n kids) ∧
      (h.setType p type).view.owned p (.node { label with type := type } n kids) =
        h.view.owned p (.node label n kids) := by
  have hset : (h.setType p type).objs p = some { o with type := type } := modify_objs ho
  refine hs.relabel (fun ps hps => ?_) (fun q hq => node_congr (modify_objs_ne hq))
    fun q ⟨o', ho', hshared⟩ => ?_
  · obtain ⟨o', ho', -, rfl, rfl⟩ := exists_of_node hps
    obtain rfl := Option.some.inj (ho.symm.trans ho')
    rw [node_of_objs hset hw]
    by_cases hp : o.HoldsPtrs
    · simp [Obj.label, Obj.ptrs, hp, hptrs.mpr hp]
    · simp [Obj.label, Obj.ptrs, hp, mt hptrs.mp hp]
  · by_cases hq : q = p
    · subst hq
      obtain ⟨ps, hps, -⟩ := hs.2.1
      obtain ⟨o'', ho'', hw', -⟩ := exists_of_node hps
      obtain rfl := Option.some.inj (ho'.symm.trans ho'')
      exact absurd hshared hw'.not_shared
    · exact ⟨o', (modify_objs_ne hq).trans ho', hshared⟩

theorem insMtBind_dma_eq (ho : h.objs p = some o) (hsimple : mtSimple o.type)
    (harray : mtType o.type = .array) (hdma : isDma o.type = false) (fuel : ℕ) :
    h.insMtBind fuel p junk .dma =
      (mtClone fuel (h.setType p (dmaType o.type)) p junk).bind fun (ret, newPtr, h) =>
        if ret ≠ .cont then some (ret, p, h)
        else
          (mtRelease fuel (h.setType p o.type) p).map fun (ret, h) =>
            if ret ≠ .cont then (ret, p, h) else (.cont, newPtr, h) := by
  unfold insMtBind
  rw [ho]
  dsimp only
  rw [if_pos ⟨hsimple, harray⟩, if_neg (by rw [hdma]; exact nofun)]

/-- The heap after the clone, with the old type again: nothing but that references are more, and
that there is a copy. -/
structure Twice (p : Ptr) (t : Tree Ptr Label) (q : Ptr) (t' : Tree Ptr Label) (h : Heap) :
    Prop where
  ok : h.Ok
  shows : h.view.Shows p t
  copy : h.view.Shows q t'
  apart : Disjoint (h.view.owned q t') (h.view.owned p t)
  counts : ∀ b, t'.count b = t.count b
  refs : ∀ b o, 0 < t.count b → h.objs b = some o → 2 * t.count b ≤ o.refCount.toNat

/-- The release of an array leaves its copy alone. -/
theorem Twice.release {t' : Tree Ptr Label} (hb : Twice p t q t' h) (hp : p ≠ 0)
    (ho : h.objs p = some o) (hw : o.WellFormed) :
    ∃ h', Returns (fun fuel => mtRelease fuel h p) (.cont, h') ∧ h'.Ok ∧ h'.view.Shows q t' := by
  obtain ⟨ret, h', hcall, hd⟩ := release_releases tvmReleaser_sound (Nat.lt_succ_self t.depth) hb.ok
    hb.shows hp fun b o hpos ho =>
      ⟨(Nat.le_mul_of_pos_left _ (by decide)).trans (hb.refs b o hpos ho), trivial⟩
  obtain rfl := release_cont ho hw hcall
  refine ⟨h', .of_mono (fun _ => release_mono) hcall, hd.ok hb.ok, ?_⟩
  refine (hd.shows hb.copy hb.apart (fun b o ho hw => Heap.count_eq_zero hb.shows ho hw)
    fun b o hpos ho => ⟨fun hmem => ?_, ?_⟩).1
  · obtain ⟨o', ho', hw'⟩ := exists_of_owned hb.shows hmem
    exact absurd (Heap.count_eq_zero hb.copy ho' hw') hpos.ne'
  · rw [hb.counts] at hpos
    have hle := hb.refs b o hpos ho
    omega

/-- **An array bound for hardware moves** to a new block, with its elements. -/
theorem insMtBind_dma (junk : Ptr) (hok : h.Ok) (ho : h.objs p = some o)
    (harray : mtType o.type = .array)
    (hlt : o.type < 2 ^ 32) (hc : CanDma o.type)
    (hbytes : arrayBytes (dmaType o.type) o.size < 2 ^ 32) (hh : h.Holds p (.node label n kids)) :
    ∃ q h', Returns (fun fuel => h.insMtBind fuel p junk .dma) (.cont, q, h') ∧ h'.Ok ∧
      h'.view.Shows q (.node { label with type := dmaType o.type } n kids) := by
  have hpos : p ≠ 0 := hh.shows.1
  obtain ⟨o', ho', hw, hl⟩ : ∃ o', h.objs p = some o' ∧ o'.WellFormed ∧ o'.label = label := by
    obtain ⟨ps, hps, -⟩ := hh.shows.2.1
    obtain ⟨o', ho', hw, hl, -⟩ := exists_of_node hps
    exact ⟨o', ho', hw, hl⟩
  obtain rfl := Option.some.inj (ho.symm.trans ho')
  subst hl
  obtain ⟨hdec, -⟩ := dmaType_decodes hlt hc
  have hwt : ({ o with type := dmaType o.type } : Obj).WellFormed :=
    hdec.wellFormed harray hw hbytes
  have hzero : (Owned.Tree.node o.label n kids).count p = 0 := hh.count_eq_zero ho harray
  have hne : ∀ {b}, 0 < (Owned.Tree.node o.label n kids).count b → b ≠ p := fun hb e => by
    rw [e, hzero] at hb
    exact absurd hb (lt_irrefl 0)
  -- the clone, with the new type
  obtain ⟨hshow₀, howned₀⟩ := shows_setType hh.shows ho hwt (hdec.holdsPtrs harray)
  have hset : (h.setType p (dmaType o.type)).objs p = some { o with type := dmaType o.type } :=
    modify_objs ho
  have hfull : ¬ ({ o with type := dmaType o.type } : Obj).FullBarrier := fun hf => by
    rw [Obj.FullBarrier, hdec.array] at hf
    cases hf.1
  obtain ⟨q, h₁, hclone, hcopied⟩ : ∃ q h₁,
      mtClone ((Owned.Tree.node { o.label with type := dmaType o.type } n kids).depth + 1)
        (h.setType p (dmaType o.type)) p junk = some (.cont, q, h₁) ∧
      Copied (h.setType p (dmaType o.type)) (.node { o.label with type := dmaType o.type } n kids) q
        h₁ :=
    mtClone_clones (Nat.lt_succ_self _) hok.modify hshow₀ hpos
      (fun b ob hb hob _ => (hh.room b ob hb ((modify_objs_ne (hne hb)).symm.trans hob)).2 ‹_›)
    fun ob hob hf => absurd (Option.some.inj (hset.symm.trans hob) ▸ hf) hfull
  -- the old type again
  have hobj₁ : h₁.objs p = some { o with type := dmaType o.type } := by
    rw [hcopied.grown.old hpos hset, show (Owned.Tree.node { o.label with type := dmaType o.type } n
      kids).count p = 0 from hzero, Obj.bump_zero]
  obtain ⟨hshow₁, howned₁⟩ := hcopied.grown.keeps hok.modify hshow₀
  obtain ⟨hshow₂, howned₂⟩ :=
    shows_setType hshow₁ hobj₁ hw (hdec.holdsPtrs harray).symm
  have hold : ∀ x ∈ h.view.owned p (.node o.label n kids), x < h.next := fun x hx => by
    obtain ⟨ox, hox, -⟩ := exists_of_owned hh.shows hx
    exact (hok.bound hox).2
  obtain ⟨hcopy, hfresh⟩ := (Grown.modify (f := fun o' => { o' with type := o.type })).shows
    hcopied.shows (fun hx => absurd (hcopied.fresh p hx) (Nat.not_le.mpr (hok.bound ho).2)) hzero
  have htwice : Twice p (.node o.label n kids) q
      (.node { o.label with type := dmaType o.type } n kids) (h₁.setType p o.type) := by
    refine ⟨hcopied.ok.modify, hshow₂, hcopy, ?_, fun _ => rfl, fun b ob hb hob => ?_⟩
    · refine Set.disjoint_left.mpr fun x hx hx' => ?_
      have hle : h.next ≤ x := hcopied.fresh x ((Set.ext_iff.mp hfresh x).mp hx)
      have hmem : x ∈ h.view.owned p (.node o.label n kids) :=
        (Set.ext_iff.mp (howned₂.trans (howned₁.trans howned₀)) x).mp hx'
      exact absurd (hold x hmem) (Nat.not_lt.mpr hle)
    · obtain ⟨ob', hob', -⟩ := hh.shows.live hb
      have hgrown := hcopied.grown.old (hok.bound hob').1.ne'
        ((modify_objs_ne (hne hb)).trans hob')
      obtain rfl := Option.some.inj (((modify_objs_ne (hne hb)).trans hgrown).symm.trans hob)
      have hrefs := hh.refs b ob' hb hob'
      have hmore := (counted_bump (hh.room b ob' hb hob')).refCount
      change 2 * _ ≤ (ob'.bump ((Owned.Tree.node o.label n kids).count b)).refCount.toNat
      omega
  obtain ⟨h', hrel, hok', hshows⟩ := htwice.release hpos (modify_objs hobj₁) hw
  refine ⟨q, h', ?_, hok', hshows⟩
  rw [funext (insMtBind_dma_eq ho hw.1 harray hc.1)]
  have hcall : Returns (fun fuel => mtClone fuel (h.setType p (dmaType o.type)) p junk)
      (.cont, q, h₁) := .of_mono (fun _ => mtClone_mono) hclone
  refine hcall.bind ?_
  exact hrel.map fun r => if r.1 ≠ .cont then (r.1, p, r.2) else (.cont, q, r.2)

theorem releaseSeparated_keeps (hok : h.Ok) (ho : h.objs p = some o)
    (harray : mtType o.type = .array)
    (hsep : isSeparated o.type →
      o.data = .null ∨ ∃ a t, o.data = .bound a ∧ a ≠ 0 ∧ h.Holds a t ∧ p ∉ h.view.owned a t) :
    ∃ ret h', Returns (fun fuel => h.releaseSeparated fuel o) (ret, h') ∧ h'.Ok ∧
      h'.objs p = some o := by
  unfold releaseSeparated
  by_cases hs : isSeparated o.type = true
  · simp only [if_pos hs]
    rcases hsep hs with hnull | ⟨a, t, hdata, hne, hh, hp⟩
    · rw [hnull]
      exact ⟨.cont, h, .of_some fun _ => rfl, hok, ho⟩
    · rw [hdata]
      obtain ⟨ret, h₁, hcall, hd⟩ := release_releases tvmReleaser_sound
        (Nat.lt_succ_self t.depth) hok hh.shows hne fun b o hb ho => ⟨hh.refs b o hb ho, trivial⟩
      refine ⟨ret, h₁, .of_mono (fun _ => release_mono) hcall, hd.ok hok, ?_⟩
      exact (hd.same hp (hh.count_eq_zero ho harray)).trans ho
  · simp only [if_neg hs]
    exact ⟨.cont, h, .of_some fun _ => rfl, hok, ho⟩

/-- The array that is bound to memory keeps its type. -/
theorem bindAt_keeps (address : ℕ) (memory : List ℕ) (hok : h.Ok) (ho : h.objs p = some o)
    (harray : mtType o.type = .array)
    (hsep : isSeparated o.type →
      o.data = .null ∨ ∃ a t, o.data = .bound a ∧ a ≠ 0 ∧ h.Holds a t ∧ p ∉ h.view.owned a t) :
    ∃ ret h', Returns (fun fuel => h.bindAt fuel p o address memory) (ret, p, h') ∧ h'.Ok ∧
      ∃ o', h'.objs p = some o' ∧ o'.type = o.type := by
  obtain ⟨ret, h₁, hrel, hok₁, ho₁⟩ := releaseSeparated_keeps hok ho harray hsep
  have hmap := hrel.map fun r =>
    if r.1 ≠ .cont then (r.1, p, r.2) else (.cont, p, r.2.writeBound p o address memory)
  by_cases hc : ret ≠ .cont
  · rw [if_pos hc] at hmap
    exact ⟨ret, h₁, hmap, hok₁, o, ho₁, rfl⟩
  · rw [if_neg hc] at hmap
    exact ⟨.cont, _, hmap, hok₁.modify, _, modify_objs ho₁, rfl⟩

/-! ## More fuel -/

theorem bindAt_mono {fuel address : ℕ} {memory : List ℕ} {x : Ret × Ptr × Heap}
    (hx : h.bindAt fuel p o address memory = some x) :
    h.bindAt (fuel + 1) p o address memory = some x := by
  obtain ⟨r, hr, rfl⟩ := Option.map_eq_some_iff.mp hx
  have hmore : h.releaseSeparated (fuel + 1) o = some r := by
    unfold releaseSeparated at hr ⊢
    by_cases hs : isSeparated o.type = true
    · rw [if_pos hs] at hr ⊢
      cases hd : o.data with
      | null => rwa [hd] at hr
      | block =>
        rw [hd] at hr
        exact absurd hr nofun
      | bound a =>
        rw [hd] at hr
        exact release_mono hr
    · rwa [if_neg hs] at hr ⊢
  rw [bindAt, hmore, Option.map_some]

/-- More fuel does not change what a call comes to. -/
theorem insMtBind_mono {fuel : ℕ} {x : Ret × Ptr × Heap}
    (hx : h.insMtBind fuel p junk b = some x) : h.insMtBind (fuel + 1) p junk b = some x := by
  unfold insMtBind at hx ⊢
  cases ho : h.objs p with
  | none => simp [ho] at hx
  | some o =>
    rw [ho] at hx
    dsimp only at hx ⊢
    by_cases harray : mtSimple o.type ∧ mtType o.type = .array
    · rw [if_pos harray] at hx ⊢
      cases b with
      | virtual address memory => exact bindAt_mono hx
      | physical address memory => exact bindAt_mono hx
      | dma =>
        dsimp only at hx ⊢
        by_cases hdma : isDma o.type = true
        · rwa [if_pos hdma] at hx ⊢
        · rw [if_neg hdma] at hx ⊢
          obtain ⟨r, hr, hx⟩ := Option.bind_eq_some_iff.mp hx
          rw [mtClone_mono hr, Option.bind_some]
          by_cases hc : r.1 ≠ .cont
          · rwa [if_pos hc] at hx ⊢
          · rw [if_neg hc] at hx ⊢
            obtain ⟨r', hr', rfl⟩ := Option.map_eq_some_iff.mp hx
            rw [mtRelease, release_mono hr', Option.map_some]
      | other => exact hx
    · rwa [if_neg harray] at hx ⊢

/-! ## Runs -/

/-- The tree of an array, with another type. -/
def retype (type : ℕ) : Tree Ptr Label → Tree Ptr Label
  | .node label n kids => .node { label with type := type } n kids
  | t => t

/-- What a call comes to: the type of the array decodes as it did, and hardware gets an array with
the contents of the old one. -/
structure Binds (h : Heap) (p junk : Ptr) (b : Bind) (ret : Ret) (q : Ptr) (h' : Heap) : Prop where
  call : Returns (fun fuel => h.insMtBind fuel p junk b) (ret, q, h')
  ok : h'.Ok
  type : ∃ o o', h.objs p = some o ∧ h'.objs q = some o' ∧ o'.type < 2 ^ 32 ∧ Decodes o.type o'.type
  dma : b = .dma → ret = .cont ∧
    ∃ type, isDma type ∧ ∀ t, h.Holds p t → h'.view.Shows q (retype type t)

/-- An array, whose type decodes to what it first did. -/
def Kept (type₀ : ℕ) (s : Heap × Ptr) : Prop :=
  s.1.Ok ∧ ∃ o, s.1.objs s.2 = some o ∧ o.type < 2 ^ 32 ∧ Decodes type₀ o.type

theorem mtMakeArrayType_lt (d i : ℕ) : mtMakeArrayType d i < 2 ^ 32 := Nat.mod_lt _ (by decide)

theorem dmaType_lt (type : ℕ) : dmaType type < 2 ^ 32 := by
  unfold dmaType
  dsimp only
  split_ifs
  · exact mtMakeArrayType_lt _ _
  · exact mtMakeArrayType_lt _ _

/-- What hangs at an array is a node. -/
theorem Holds.node_of_array (hh : h.Holds p t) (hok : h.Ok) (ho : h.objs p = some o)
    (harray : mtType o.type = .array) : ∃ label n kids, t = .node label n kids := by
  cases t with
  | null =>
    obtain rfl : p = 0 := hh.shows
    exact absurd ho (by rw [hok.zero]; exact nofun)
  | shared q =>
    obtain rfl : p = q := hh.shows.1
    have hzero := hh.count_eq_zero ho harray
    simp [Tree.count] at hzero
  | node label n kids => exact ⟨label, n, kids, rfl⟩

theorem binds_dma (junk : Ptr) (hok : h.Ok) (ho : h.objs p = some o)
    (harray : mtType o.type = .array)
    (hlt : o.type < 2 ^ 32) (hb : h.Bindable p .dma) :
      ∃ ret q h', Binds h p junk .dma ret q h' := by
  obtain ⟨hc, hbytes, t, ht⟩ := hb o ho
  obtain ⟨hdec, hdma⟩ := dmaType_decodes hlt hc
  obtain ⟨label, n, kids, rfl⟩ := ht.node_of_array hok ho harray
  obtain ⟨q, h', hcall, hok', hshows⟩ :=
    insMtBind_dma junk hok ho harray hlt hc hbytes ht
  obtain ⟨ps, hps, -⟩ := hshows.2.1
  obtain ⟨o', ho', -, hl, -⟩ := exists_of_node hps
  have htype : o'.type = dmaType o.type := congrArg Label.type hl
  refine ⟨.cont, q, h', hcall, hok', ⟨o, o', ho, ho', ?_, ?_⟩, fun _ => ⟨rfl, _, hdma, ?_⟩⟩
  · exact htype ▸ dmaType_lt o.type
  · exact htype ▸ hdec
  · intro t ht
    obtain ⟨label, n, kids, rfl⟩ := ht.node_of_array hok ho harray
    obtain ⟨q', h'', hcall', -, hshows'⟩ :=
      insMtBind_dma junk hok ho harray hlt hc hbytes ht
    obtain ⟨-, rfl, rfl⟩ := Prod.mk.inj (hcall.eq hcall') |>.imp id Prod.mk.inj
    exact hshows'

theorem insMtBind_at {address : ℕ} {memory : List ℕ} (fuel : ℕ) (ho : h.objs p = some o)
    (hsimple : mtSimple o.type) (harray : mtType o.type = .array)
    (hb : b = .virtual address memory ∨ b = .physical address memory) :
    h.insMtBind fuel p junk b = h.bindAt fuel p o address memory := by
  unfold insMtBind
  rw [ho]
  dsimp only
  rw [if_pos ⟨hsimple, harray⟩]
  rcases hb with rfl | rfl
  · rfl
  · rfl

theorem binds_at {address : ℕ} {memory : List ℕ} (hok : h.Ok) (ho : h.objs p = some o)
    (hd : Decodes o.type o.type) (hlt : o.type < 2 ^ 32) (hb : h.Bindable p b)
    (hat : b = .virtual address memory ∨ b = .physical address memory) :
    ∃ ret q h', Binds h p junk b ret q h' := by
  have hsep : isSeparated o.type → o.data = .null ∨
      ∃ a t, o.data = .bound a ∧ a ≠ 0 ∧ h.Holds a t ∧ p ∉ h.view.owned a t := by
    rcases hat with rfl | rfl
    · exact hb o ho
    · exact hb o ho
  obtain ⟨ret, h', hcall, hok', o', ho', htype⟩ :=
    bindAt_keeps address memory hok ho hd.array hsep
  refine ⟨ret, p, h', ?_, hok', ⟨o, o', ho, ho', htype.symm ▸ hlt, htype.symm ▸ hd⟩, fun e => ?_⟩
  · rwa [funext fun fuel => insMtBind_at fuel ho hd.simple hd.array hat]
  · rcases hat with rfl | rfl
    · exact absurd e nofun
    · exact absurd e nofun

/-- **One call**. -/
theorem Kept.binds {type₀ : ℕ} (junk : Ptr) (hk : Kept type₀ (h, p)) (hb : h.Bindable p b) :
    ∃ ret q h', Binds h p junk b ret q h' := by
  obtain ⟨hok, o, ho, hlt, hd⟩ := hk
  have hself : Decodes o.type o.type := .refl hd.simple hd.array
  cases b with
  | virtual address memory => exact binds_at hok ho hself hlt hb (.inl rfl)
  | physical address memory => exact binds_at hok ho hself hlt hb (.inr rfl)
  | dma => exact binds_dma junk hok ho hd.array hlt hb
  | other => exact hb.elim

/-- A call with so much fuel, and what its variable for a pointer holds. -/
def bindStep (s : Heap × Ptr) (a : ℕ × Ptr × Bind) : Option (Heap × Ptr) :=
  (s.1.insMtBind a.1 s.2 a.2.1 a.2.2).map fun r => (r.2.2, r.2.1)

theorem Kept.next {type₀ : ℕ} {s s' : Heap × Ptr} {a : ℕ × Ptr × Bind} (hk : Kept type₀ s)
    (hb : s.1.Bindable s.2 a.2.2) (hstep : bindStep s a = some s') : Kept type₀ s' := by
  obtain ⟨ret, q, h', hbinds⟩ := hk.binds a.2.1 hb
  obtain ⟨r, hr, rfl⟩ := Option.map_eq_some_iff.mp hstep
  obtain rfl := hbinds.call.eq (.of_mono (fun _ => insMtBind_mono) hr)
  obtain ⟨o, o', ho, ho', hlt, hd⟩ := hbinds.type
  obtain ⟨-, o₁, ho₁, -, hd₁⟩ := hk
  obtain rfl := Option.some.inj (ho.symm.trans ho₁)
  exact ⟨hbinds.ok, o', ho', hlt, hd₁.trans hd⟩

/-! ## CCSP -/

/-- What `mt_bind` of `runtime/ccsp/kernel/sched.c` makes of the type. -/
def ccspBindType (type : ℕ) : Bind → ℕ
  | .dma => ccspDmaType type
  | _ => type

/-- CCSP leaves an array alone that can already be handed to hardware. -/
theorem ccspBindType_decodes {type : ℕ} (hsimple : mtSimple type) (harray : mtType type = .array)
    (hlt : type < 2 ^ 32) (hc : isDma type ∨ CanDma type) (bs : List Bind) :
    Decodes type (bs.foldl ccspBindType type) ∧
      (isDma type → bs.foldl ccspBindType type = type) := by
  induction bs generalizing type with
  | nil => exact ⟨.refl hsimple harray, fun _ => rfl⟩
  | cons b bs ih =>
    obtain ⟨hd, hlt', hc', hsame⟩ : Decodes type (ccspBindType type b) ∧
        ccspBindType type b < 2 ^ 32 ∧
        (isDma (ccspBindType type b) ∨ CanDma (ccspBindType type b)) ∧
        (isDma type → ccspBindType type b = type) := by
      cases b with
      | dma =>
        by_cases hdma : isDma type = true
        · have heq : ccspBindType type .dma = type := if_pos hdma
          rw [heq]
          exact ⟨.refl hsimple harray, hlt, .inl hdma, fun _ => rfl⟩
        · have heq : ccspBindType type .dma = dmaType type := if_neg hdma
          obtain ⟨hd, hready⟩ := dmaType_decodes hlt (hc.resolve_left hdma)
          rw [heq]
          exact ⟨hd, dmaType_lt type, .inl hready, fun h => absurd h hdma⟩
      | virtual | physical | other => exact ⟨.refl hsimple harray, hlt, hc, fun _ => rfl⟩
    obtain ⟨hrest, hrest'⟩ := ih hd.simple hd.array hlt' hc'
    refine ⟨hd.trans hrest, fun hdma => ?_⟩
    rw [hsame hdma] at hrest'
    rw [List.foldl_cons, hsame hdma, hrest' hdma]

/-! ## The type word of an array -/

/-- **The type of an array decodes as it first did**, whatever it is bound to, as long as what is
bound for hardware has room for the option in its type, and lacks it, and is properly laid out; and
then it keeps its elements.  CCSP needs the room only. -/
theorem mt_bind_decodes {s : Heap × Ptr} (hok : h.Ok) (ho : h.objs p = some o)
    (hsimple : mtSimple o.type) (harray : mtType o.type = .array) (hlt : o.type < 2 ^ 32)
    (hs : Transition.Reach bindStep (fun s a => s.1.Bindable s.2 a.2.2) (h, p) s) :
    (∃ o', s.1.objs s.2 = some o' ∧ Decodes o.type o'.type) ∧
      (∀ junk b, s.1.Bindable s.2 b → ∃ ret q h', Binds s.1 s.2 junk b ret q h') ∧
      (isDma o.type ∨ CanDma o.type → ∀ bs : List Bind,
        Decodes o.type (bs.foldl ccspBindType o.type) ∧
          (isDma o.type → bs.foldl ccspBindType o.type = o.type)) := by
  have hk : Kept o.type s :=
    hs.invariant ⟨hok, o, ho, hlt, .refl hsimple harray⟩ fun hk hb hstep => hk.next hb hstep
  refine ⟨?_, fun junk b hb => hk.binds junk hb, ccspBindType_decodes hsimple harray hlt⟩
  obtain ⟨-, o', ho', -, hd⟩ := hk
  exact ⟨o', ho', hd⟩

/-- An array of four bytes at 1. -/
def bytes : Heap where
  objs p := if p = 1 then some ⟨259, 0, 0, 0, [], 0, 4, [4], .null, .block, [1, 2, 3, 4]⟩ else none
  next := 2
  junk _ := 0
  ready := []
  closed := []

theorem bytes_ok : bytes.Ok where
  bound {p o} ho := by
    by_cases h₁ : p = 1
    · exact h₁ ▸ ⟨by decide, by decide⟩
    · simp [bytes, h₁] at ho
  pos := by decide

theorem bytes_holds : bytes.Holds 1 (.node ⟨259, 4, [4], [1, 2, 3, 4]⟩ 0 fun _ => .null) where
  shows := Owned.View.Shows.of_kids (by decide)
    (show bytes.view.node 1 = some (⟨259, 4, [4], [1, 2, 3, 4]⟩, []) from rfl)
    (fun i hi => absurd hi (Nat.not_lt_zero i)) fun i _ hi => absurd hi (Nat.not_lt_zero i)
  refs _ _ hb := absurd hb (lt_irrefl 0)
  room _ _ hb := absurd hb (lt_irrefl 0)

/-- The array is bound for hardware. -/
theorem mt_bind_decodes_bytes : ∃ s, bindStep (bytes, 1) (1, 0, .dma) = some s ∧
    ∃ o, s.1.objs s.2 = some o ∧ Decodes 259 o.type := by
  have hb : bytes.Bindable 1 .dma := fun o ho => by
    obtain rfl := Option.some.inj ho
    exact ⟨by decide, by decide, _, bytes_holds⟩
  have hobj : bytes.objs 1 =
      some ⟨259, 0, 0, 0, [], 0, 4, [4], .null, .block, [1, 2, 3, 4]⟩ := rfl
  exact ⟨_, rfl, (mt_bind_decodes bytes_ok hobj (by decide) (by decide) (by decide)
    (.next (a := (1, 0, .dma)) .start hb rfl)).1⟩

/-- Bound for hardware once more, it has options within its options. -/
theorem mt_bind_nested : bytes.Ok ∧
    bytes.Holds 1 (.node ⟨259, 4, [4], [1, 2, 3, 4]⟩ 0 fun _ => .null) ∧
    ∃ s, Transition.exec bindStep Transition.Any (bytes, 1) [(1, 0, .dma), (1, 0, .dma)] = some s ∧
      ¬ ∃ o, s.1.objs s.2 = some o ∧ Decodes 259 o.type := by
  refine ⟨bytes_ok, bytes_holds, _, rfl, ?_⟩
  rintro ⟨o, ho, hd⟩
  obtain rfl := Option.some.inj ho
  exact absurd hd.elem (by decide)

end Heap

end Mobile

end Tvm

end Kroc
