import Kroc.Ccsp.Mobile
import Kroc.Tvm.Barrier

/-!
# Tvm/MobileUpdate — what a mobile goes through when it is output

`mt_io_update` of `runtime/libtvm/ins_mobile.c`, with `mt_chan_io` around it.  A mobile is words:
the type before the pointer, and before that the count of a bundle or a barrier, or the size of an
array, whose first word is the address of its elements.  The type words are those of
`mobile_types.h`.

The functions are handed the address of the pointer, in a variable or in an array.  They take fuel,
for how deep they nest; a loop over an array has as many turns as its size says.
-/

namespace Kroc

namespace Tvm

open Ectx

open Ccsp.Mobile (mtType mtSimple mtArrayInnerType mtCbShared mtBarrierType elemType innermostNum)

namespace Contexts

variable (m : Contexts)

/-- `read_mt_type` -/
def mtTypeWord (ptr : Word) : ℕ := (m.chan (ptr - 4)).toNat

/-- One more in `ref_count`: the word is where a bundle and a barrier have it. -/
def refOneMore (ptr : Word) : Contexts := m.write (ptr - 8) (m.chan (ptr - 8) + 1)

/-- `mt_io_update_shared_cb`, of the pointer at `pp`. -/
def mtIoUpdateSharedCb (pp : Word) : Contexts := m.refOneMore (m.chan pp)

/-- `mt_io_update_barrier`, of the pointer at `pp`. -/
def mtIoUpdateBarrier (pp : Word) : Ret × Contexts :=
  let type := m.mtTypeWord (m.chan pp)
  let m' := m.refOneMore (m.chan pp)
  if mtBarrierType type = 0 then m'.barEnroll (m.chan pp) 1 else (.cont, m')

/-- The loops over an array: `f` is done at the words that are not null, `n` words from `data`,
until it does not return `ECTX_CONTINUE`. -/
def forElements (f : Contexts → Word → Option (Ret × Contexts)) :
    ℕ → Contexts → Word → Option (Ret × Contexts)
  | 0, m, _ => some (.cont, m)
  | n + 1, m, data =>
    if m.chan data ≠ notProcess then
      (f m data).bind fun r =>
        if r.1 = .cont then forElements f n r.2 (data + 4) else some r
    else forElements f n m (data + 4)

mutual

/-- `mt_io_update`, of the pointer at `pp`: what it returns, and `move`. -/
def mtIoUpdate : ℕ → Contexts → Word → Option (Ret × Bool × Contexts)
  | 0, _, _ => none
  | fuel + 1, m, pp =>
    let type := m.mtTypeWord (m.chan pp)
    if mtSimple type then
      match mtType type with
      | .array =>
        if innermostNum type type then some (.cont, true, m)
        else (mtIoUpdateArray fuel m pp (mtArrayInnerType type)).map fun r => (r.1, true, r.2)
      | .cb =>
        if mtCbShared type then some (.cont, false, m.mtIoUpdateSharedCb pp)
        else some (.cont, true, m)
      | .barrier =>
        let r := m.mtIoUpdateBarrier pp
        some (r.1, false, r.2)
      | .data => some (.cont, true, m)
      | _ => some (.cont, false, m)
    else some (.error, true, m)

/-- `mt_io_update_array`.  The header is looked for before `pp`, not before the pointer at `pp`. -/
def mtIoUpdateArray : ℕ → Contexts → Word → ℕ → Option (Ret × Contexts)
  | 0, _, _, _ => none
  | fuel + 1, m, pp, inner =>
    let ma := pp - 8
    let data := m.chan (ma + 8)
    let size := (m.chan ma).toNat
    match mtType inner with
    | .array =>
      forElements (fun m data => mtIoUpdateArray fuel m data (mtArrayInnerType inner)) size m data
    | .cb =>
      if mtCbShared inner then
        forElements (fun m data => some (.cont, m.mtIoUpdateSharedCb data)) size m data
      else some (.cont, m)
    | .barrier => forElements (fun m data => some (m.mtIoUpdateBarrier data)) size m data
    | .mt =>
      forElements (fun m data => (mtIoUpdate fuel m data).map fun r => (r.1, r.2.2)) size m data
    | .data => some (.cont, m)
    | _ => some (.error, m)

end

/-- `mt_chan_io`.  The pointer is copied to a variable, at `ptr`, before it is updated. -/
def mtChanIo (fuel : ℕ) (ptr dst src : Word) : Option (Ret × Contexts) :=
  let m := m.write ptr (m.chan src)
  if m.chan ptr ≠ notProcess then
    (mtIoUpdate fuel m ptr).map fun (ret, move, m) =>
      if ret ≠ .cont then (ret, m)
      else
        let m := if move then m.write src notProcess else m
        (.cont, m.write dst (m.chan ptr))
  else some (.cont, m.write dst (m.chan ptr))

/-! ## Only words change -/

/-- Only words outside the workspaces differ. -/
structure WordsOnly (m m' : Contexts) : Prop where
  mem : m'.mem = m.mem
  bytes : m'.bytes = m.bytes
  ctx : m'.ctx = m.ctx

variable {m} {m' m'' : Contexts} {pp : Word}

namespace WordsOnly

theorem refl (m : Contexts) : WordsOnly m m := ⟨rfl, rfl, rfl⟩

theorem trans (h : WordsOnly m m') (h' : WordsOnly m' m'') : WordsOnly m m'' :=
  ⟨h'.mem.trans h.mem, h'.bytes.trans h.bytes, h'.ctx.trans h.ctx⟩

theorem write (m : Contexts) (address value : Word) : WordsOnly m (m.write address value) :=
  ⟨rfl, rfl, rfl⟩

theorem barEnroll (m : Contexts) (bar n : Word) : WordsOnly m (m.barEnroll bar n).2 := by
  unfold Contexts.barEnroll
  dsimp only
  split_ifs <;> exact ⟨rfl, rfl, rfl⟩

theorem mtIoUpdateBarrier (m : Contexts) (pp : Word) : WordsOnly m (m.mtIoUpdateBarrier pp).2 := by
  unfold Contexts.mtIoUpdateBarrier
  dsimp only
  split_ifs
  · exact (write m _ _).trans (barEnroll _ _ _)
  · exact write m _ _

theorem forElements {f : Contexts → Word → Option (Ret × Contexts)}
    (hf : ∀ {m a r}, f m a = some r → WordsOnly m r.2) {n : ℕ} {a : Word} {r : Ret × Contexts}
    (h : Contexts.forElements f n m a = some r) : WordsOnly m r.2 := by
  induction n generalizing m a with
  | zero =>
    obtain rfl := Option.some.inj h
    exact refl m
  | succ n ih =>
    rw [Contexts.forElements] at h
    split_ifs at h
    · obtain ⟨x, hx, h⟩ := Option.bind_eq_some_iff.mp h
      split_ifs at h
      · exact (hf hx).trans (ih h)
      · obtain rfl := Option.some.inj h
        exact hf hx
    · exact ih h

end WordsOnly

theorem wordsOnly_mtIoUpdate (fuel : ℕ) :
    (∀ {m : Contexts} {pp : Word} {r}, mtIoUpdate fuel m pp = some r → WordsOnly m r.2.2) ∧
    ∀ {m : Contexts} {pp : Word} {inner : ℕ} {r}, mtIoUpdateArray fuel m pp inner = some r →
      WordsOnly m r.2 := by
  induction fuel with
  | zero =>
    refine ⟨fun h => ?_, fun h => ?_⟩
    · rw [mtIoUpdate] at h
      cases h
    · rw [mtIoUpdateArray] at h
      cases h
  | succ fuel ih =>
    obtain ⟨hupdate, harray⟩ := ih
    refine ⟨fun {m pp r} h => ?_, fun {m pp inner r} h => ?_⟩
    · rw [mtIoUpdate] at h
      dsimp only at h
      by_cases hsimple : mtSimple (m.mtTypeWord (m.chan pp)) = true
      · rw [if_pos hsimple] at h
        split at h
        · split_ifs at h
          · obtain rfl := Option.some.inj h
            exact .refl m
          · obtain ⟨x, hx, rfl⟩ := Option.map_eq_some_iff.mp h
            exact harray hx
        · split_ifs at h <;> obtain rfl := Option.some.inj h
          · exact .write m _ _
          · exact .refl m
        · obtain rfl := Option.some.inj h
          exact .mtIoUpdateBarrier m pp
        · obtain rfl := Option.some.inj h
          exact .refl m
        · obtain rfl := Option.some.inj h
          exact .refl m
      · rw [if_neg hsimple] at h
        obtain rfl := Option.some.inj h
        exact .refl m
    · rw [mtIoUpdateArray] at h
      split at h
      · exact .forElements harray h
      · split_ifs at h
        · refine .forElements (fun {m a r} hr => ?_) h
          obtain rfl := Option.some.inj hr
          exact .write m _ _
        · obtain rfl := Option.some.inj h
          exact .refl m
      · refine .forElements (fun {m a r} hr => ?_) h
        obtain rfl := Option.some.inj hr
        exact .mtIoUpdateBarrier m a
      · refine .forElements (fun {m a r} hr => ?_) h
        obtain ⟨x, hx, rfl⟩ := Option.map_eq_some_iff.mp hr
        exact hupdate hx
      · obtain rfl := Option.some.inj h
        exact .refl m
      · obtain rfl := Option.some.inj h
        exact .refl m

/-- **An update, and a transfer, change words only**. -/
theorem wordsOnly_mtChanIo {fuel : ℕ} {ptr dst src : Word} {r : Ret × Contexts}
    (h : m.mtChanIo fuel ptr dst src = some r) : WordsOnly m r.2 := by
  unfold mtChanIo at h
  dsimp only at h
  have hptr : WordsOnly m (m.write ptr (m.chan src)) := .write m _ _
  split_ifs at h
  · obtain ⟨⟨ret, move, m'⟩, hx, rfl⟩ := Option.map_eq_some_iff.mp h
    have hm' := hptr.trans ((wordsOnly_mtIoUpdate fuel).1 hx)
    dsimp only at hm' ⊢
    split_ifs
    · exact hm'
    · exact (hm'.trans (.write _ _ _)).trans (.write _ _ _)
    · exact hm'.trans (.write _ _ _)
  · obtain rfl := Option.some.inj h
    exact hptr.trans (.write _ _ _)

end Contexts

end Tvm

end Kroc
