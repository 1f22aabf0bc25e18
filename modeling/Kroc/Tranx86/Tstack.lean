import Mathlib.Data.List.GetD
import Mathlib.Logic.Function.Iterate
import Mathlib.Data.Int.Order.Basic
import Mathlib.Tactic.Linarith

/-!
# Tranx86/Tstack — the evaluation stack at translation

`tstack.c` keeps the virtual registers that stand for the three places of a transputer's evaluation
stack, and the depth of the stack beside them.  An instruction moves the registers one place at a
time, and then sets the depth from the one before it.  What the registers stand for is a list.
-/

namespace Kroc

namespace Tranx86

/-- `REG_UNDEFINED` -/
def regUndefined : ℤ := -1

/-- `FIRST_VIRTUAL_REG` -/
def firstVirtualReg : ℤ := 48

/-- `tstack`, without what the floating-point stack and the translator alone use. -/
structure Tstack where
  aReg : ℤ
  bReg : ℤ
  cReg : ℤ
  tsDepth : ℤ
  oldTsDepth : ℤ
  fsDepth : ℤ
  regCounter : ℤ
  mustSetCmpFlags : ℤ
  deriving DecidableEq

/-- `new_tstack` -/
def newTstack : Tstack := ⟨0, 0, 0, 0, 0, 0, firstVirtualReg, 0⟩

/-! ## The adjustments -/

/-- `tsdiff_prim` -/
def tsdiffPrim : List ℤ := [
  16, 1, 0, 0, 1, 0, 0, 1, 0, 16, -1, 0, 0, -1, -2, 0]

/-- `tsdiff_sec`, with or without `PROCESS_PRIORITY`. -/
def tsdiffSec (processPriority : Bool) : List ℤ :=
  let pp (a b : ℤ) := if processPriority then a else b
  [
  0, 0, -1, 16, -1, -1, 0, 16, -1, -1, -1, 16, -1, 16, 16, 16,
  0, 16, 0, -1, -2, 16, -2, -1, pp (-2) (-1), 1, -1, 0, -1, 1, 1, -1,
  16, 16, 1, 0, 0, 0, 0, 0, 0, 1, 1, 16, -1, 0, -2, -2,
  -1, -1, 0, -1, 0, -1, -1, -1, -2, 0, -1, -2, 0, -1, pp (-2) (-1), 1,
  -1, -1, 1, 0, 16, 0, -1, -1, -1, 0, -3, -1, -1, -1, 0, -1,
  pp (-2) (-1), 16, -1, -1, -1, 0, -1, 0, 0, 1, 1, 16, 16, 16, 16, 0,
  16, 16, 16, 19, 16, 16, -1, -2, 16, 16, 16, 16, 19, -2, 16, 16,
  -2, 0, -1, 0, -1, -1, -1, 0, -1, -1, 0, 0, 0, 0, 0, 0,
  0, -1, -2, 0, -1, 0, -2, 0, -1, 0, -1, 0, 0, 0, -1, 1,
  1, 1, 1, 1, 1, 1, -1, 0, -1, -2, -1, 0, 1, 0, -1, 0,
  0, 0, 1, 0, 0, 0, -1, 0, -1, 16, -1, -1, -1, -1, 0, 0]

/-- `tsdiff_sec_ecodes` -/
def tsdiffSecEcodes : List ℤ := [
  0, -1, 0, -1, 16, 16, 16, 16, 16, 16, 16, 16, -1, -2, -2, -1]

/-- `tsdiff_sec_twocodes` -/
def tsdiffSecTwocodes : List ℤ := [
  16, 16, 16, 16, 0, 16, 16, 16, 16, 0, 0, -2, 0, -2, -2, 16,
  0, 16, 0, -1, -2, -1, -2, -3, 16, 16, 16, 16, 0, 0, 0, -2,
  -2, 0, 0, 0, -3, -3, -2, -2, -2, -2, -2, -2, -2, -2, -1, -1,
  -3, -3, -3, 16, 16, 1, 16, 1, -1, -1, 0, 16, 16, 16, 16, 16,
  -2, -2, 16, 16, 16, 16, -2, -2, 0, 0, 0, 16, 16, -2, -1, 0,
  -2, 0]

/-- `I_NULL` -/
def iNull : ℤ := 0xfd

/-- What `tstack_setsec` finds for a secondary: no adjustment, or the entry of a table, if it has
one. -/
inductive Adjustment
  | unchanged
  | entry (tsDiff : Option ℤ)

/-- The choice of a table in `tstack_setsec`. -/
def secAdjustment (processPriority : Bool) (sec : ℤ) : Adjustment :=
  if sec < 0 then .unchanged
  else if sec = iNull then .entry (some 1)
  else if sec ≥ 0x200 ∧ sec ≤ 0x2ff then .entry tsdiffSecTwocodes[(sec - 0x200).toNat]?
  else if sec ≥ 0xe0 ∧ sec ≤ 0xef then .entry tsdiffSecEcodes[(sec - 0xe0).toNat]?
  else if sec > 0xb0 then .unchanged
  else .entry (tsdiffSec processPriority)[sec.toNat]?

/-! ## The operations -/

namespace Tstack

/-- `tstack_undefine` -/
def undefine (s : Tstack) : Tstack :=
  { s with
    aReg := regUndefined, bReg := regUndefined, cReg := regUndefined, tsDepth := 0,
    mustSetCmpFlags := 1, fsDepth := 0 }

/-- `tstack_pop` -/
def pop (s : Tstack) : Tstack := { s with aReg := s.bReg, bReg := s.cReg, cReg := regUndefined }

/-- `tstack_checkdepth_le` -/
def checkdepthLe (s : Tstack) (depth : ℤ) : Tstack :=
  if s.oldTsDepth > depth then
    let s :=
      if s.oldTsDepth - depth = 1 then { s with cReg := regUndefined }
      else if s.oldTsDepth - depth = 2 then { s with bReg := regUndefined, cReg := regUndefined }
      else if s.oldTsDepth - depth = 3 then
        { s with aReg := regUndefined, bReg := regUndefined, cReg := regUndefined }
      else s
    { s with tsDepth := depth }
  else s

/-- `tstack_push` -/
def push (s : Tstack) : Tstack :=
  let s := s.checkdepthLe 2
  { s with cReg := s.bReg, bReg := s.aReg, aReg := s.regCounter, regCounter := s.regCounter + 1 }

/-- `tstack_checkdepth_ge` -/
def checkdepthGe (s : Tstack) (depth : ℤ) : Tstack :=
  if s.oldTsDepth < depth then push^[(depth - s.oldTsDepth).toNat] s else s

/-- What `tstack_setprim` and `tstack_setsec` do with an adjustment. -/
def adjust (s : Tstack) (tsDiff : ℤ) : Tstack :=
  let s := { s with oldTsDepth := s.tsDepth }
  if tsDiff ≥ 16 then { push^[(tsDiff - 16).toNat] s.undefine with tsDepth := tsDiff - 16 }
  else if tsDiff < 0 then
    -- the depth that is asked for is a negative number, so that nothing is ever pushed here
    { pop^[(-tsDiff).toNat] (s.checkdepthGe tsDiff) with tsDepth := s.oldTsDepth + tsDiff }
  else if tsDiff ≠ 0 then
    { push^[tsDiff.toNat] s with tsDepth := s.oldTsDepth + tsDiff, mustSetCmpFlags := 1 }
  else s

/-- `tstack_setprim` -/
def setprim (s : Tstack) (prim : ℕ) : Option Tstack := tsdiffPrim[prim]?.map s.adjust

/-- `tstack_setsec` -/
def setsec (processPriority : Bool) (s : Tstack) (sec : ℤ) : Option Tstack :=
  match secAdjustment processPriority sec with
  | .unchanged => some s
  | .entry tsDiff => tsDiff.map s.adjust

/-! ## The registers -/

/-- The registers hold the first places of `live`, and nothing beyond it. -/
structure Regs (s : Tstack) (live : List ℤ) : Prop where
  aReg : s.aReg = live.getD 0 regUndefined
  bReg : s.bReg = live.getD 1 regUndefined
  cReg : s.cReg = live.getD 2 regUndefined

theorem Regs.undefine (s : Tstack) : Regs s.undefine [] := ⟨rfl, rfl, rfl⟩

/-- The three places that the registers are for. -/
theorem Regs.take {s : Tstack} {live : List ℤ} (h : Regs s live) : Regs s (live.take 3) := by
  refine ⟨h.aReg.trans ?_, h.bReg.trans ?_, h.cReg.trans ?_⟩ <;>
    simp [List.getD_eq_getElem?_getD]

theorem Regs.pop {s : Tstack} {live : List ℤ} (h : Regs s live) (hlen : live.length ≤ 3) :
    Regs s.pop (live.drop 1) where
  aReg := by
    rw [List.getD_eq_getElem?_getD, List.getElem?_drop, ← List.getD_eq_getElem?_getD]
    exact h.bReg
  bReg := by
    rw [List.getD_eq_getElem?_getD, List.getElem?_drop, ← List.getD_eq_getElem?_getD]
    exact h.cReg
  cReg := by
    rw [List.getD_eq_getElem?_getD, List.getElem?_drop, List.getElem?_eq_none (by omega)]
    rfl

theorem checkdepthLe_of_le {s : Tstack} (h : s.oldTsDepth ≤ 3) :
    s.push = { s with
      cReg := s.bReg, bReg := s.aReg, aReg := s.regCounter, regCounter := s.regCounter + 1,
      tsDepth := s.push.tsDepth } := by
  unfold push checkdepthLe
  by_cases hgt : s.oldTsDepth > 2
  · have hone : s.oldTsDepth - 2 = 1 := by omega
    simp only [if_pos hgt, if_pos hone]
  · simp only [if_neg hgt]

theorem Regs.push {s : Tstack} {live : List ℤ} (h : Regs s live) (hold : s.oldTsDepth ≤ 3) :
    Regs s.push (s.regCounter :: live) := by
  rw [checkdepthLe_of_le hold]
  exact ⟨rfl, h.aReg, h.bReg⟩

/-- The registers that are pushed from `c` on, the last one first. -/
def fresh (c : ℤ) : ℕ → List ℤ
  | 0 => []
  | n + 1 => (c + n) :: fresh c n

@[simp] theorem length_fresh (c : ℤ) (n : ℕ) : (fresh c n).length = n := by
  induction n with
  | zero => rfl
  | succ n ih => rw [fresh, List.length_cons, ih]

/-- **Pushes** one after another. -/
theorem Regs.pushes {s : Tstack} {live : List ℤ} (h : Regs s live) (hold : s.oldTsDepth ≤ 3) :
    ∀ n : ℕ, Regs (Tstack.push^[n] s) (fresh s.regCounter n ++ live) ∧
      (Tstack.push^[n] s).oldTsDepth = s.oldTsDepth ∧
      (Tstack.push^[n] s).regCounter = s.regCounter + n
  | 0 => ⟨h, rfl, by simp⟩
  | n + 1 => by
    obtain ⟨hregs, holdn, hcount⟩ := Regs.pushes h hold n
    rw [Function.iterate_succ_apply', fresh, List.cons_append, ← hcount]
    have hle : (Tstack.push^[n] s).oldTsDepth ≤ 3 := holdn ▸ hold
    refine ⟨hregs.push hle, ?_, ?_⟩
    · rw [checkdepthLe_of_le hle, ← holdn]
    · rw [checkdepthLe_of_le hle, hcount]
      push_cast
      omega

/-- **Pops** one after another. -/
theorem Regs.pops {s : Tstack} {live : List ℤ} (h : Regs s live) (hlen : live.length ≤ 3) :
    ∀ n : ℕ, Regs (Tstack.pop^[n] s) (live.drop n)
  | 0 => h
  | n + 1 => by
    have hn := (Regs.pops h hlen n).pop (by rw [List.length_drop]; omega)
    rw [List.drop_drop] at hn
    rw [Function.iterate_succ_apply']
    exact hn

/-! ## The stack -/

/-- The stack that the registers stand for: `live` are the registers pushed and not yet popped, the
last one first. -/
structure Models (s : Tstack) (live : List ℤ) : Prop where
  regs : Regs s live
  depth : s.tsDepth = live.length
  length_le : live.length ≤ 3

theorem Models.depth_bounds {s : Tstack} {live : List ℤ} (h : Models s live) :
    0 ≤ s.tsDepth ∧ s.tsDepth ≤ 3 := by
  have := h.depth
  have := h.length_le
  omega

/-- What an adjustment does to a stack of three places: what is pushed when it is full discards the
deepest register, and nothing is left to pop of an empty one. -/
def adjusted (c : ℤ) (tsDiff : ℤ) (live : List ℤ) : List ℤ :=
  if tsDiff ≥ 16 then (fresh c (tsDiff - 16).toNat).take 3
  else if tsDiff < 0 then live.drop (-tsDiff).toNat
  else (fresh c tsDiff.toNat ++ live).take 3

/-- The new depth is one of a stack of three places. -/
def Fits (tsDepth tsDiff : ℤ) : Prop :=
  if tsDiff ≥ 16 then tsDiff ≤ 19 else 0 ≤ tsDepth + tsDiff ∧ tsDepth + tsDiff ≤ 3

instance (tsDepth tsDiff : ℤ) : Decidable (Fits tsDepth tsDiff) := by
  unfold Fits
  infer_instance

/-- The stack that the registers stand for, once the depth has been set. -/
theorem models_set_iff {s : Tstack} {live : List ℤ} (h : Regs s live) {depth flags : ℤ}
    (hlen : live.length ≤ 3) :
    Models { s with tsDepth := depth, mustSetCmpFlags := flags } live ↔ depth = live.length :=
  ⟨fun hm => hm.depth, fun hd => ⟨⟨h.aReg, h.bReg, h.cReg⟩, hd, hlen⟩⟩

/-- **An adjustment** does what it is to do with the stack exactly where the new depth fits. -/
theorem adjust_models_iff {s : Tstack} {live : List ℤ} (h : Models s live) (tsDiff : ℤ) :
    Models (s.adjust tsDiff) (adjusted s.regCounter tsDiff live) ↔ Fits s.tsDepth tsDiff := by
  obtain ⟨hlo, hhi⟩ := h.depth_bounds
  have hdepth := h.depth
  have hlen := h.length_le
  have hregs : Regs { s with oldTsDepth := s.tsDepth } live :=
    ⟨h.regs.aReg, h.regs.bReg, h.regs.cReg⟩
  unfold adjust adjusted Fits
  dsimp only
  by_cases hset : tsDiff ≥ 16
  · rw [if_pos hset, if_pos hset, if_pos hset]
    have hpush := (Regs.undefine { s with oldTsDepth := s.tsDepth }).pushes hhi (tsDiff - 16).toNat
    rw [List.append_nil] at hpush
    refine (models_set_iff hpush.1.take (by rw [List.length_take]; omega)).trans ?_
    rw [List.length_take, length_fresh]
    omega
  rw [if_neg hset, if_neg hset, if_neg hset]
  by_cases hneg : tsDiff < 0
  · rw [if_pos hneg, if_pos hneg]
    have hge : checkdepthGe { s with oldTsDepth := s.tsDepth } tsDiff =
        { s with oldTsDepth := s.tsDepth } := if_neg (by dsimp only; omega)
    rw [hge]
    refine (models_set_iff (hregs.pops hlen _) (by rw [List.length_drop]; omega)).trans ?_
    rw [List.length_drop]
    omega
  rw [if_neg hneg, if_neg hneg]
  by_cases hzero : tsDiff ≠ 0
  · rw [if_pos hzero]
    have hpush := hregs.pushes hhi tsDiff.toNat
    refine (models_set_iff hpush.1.take (by rw [List.length_take]; omega)).trans ?_
    rw [List.length_take, List.length_append, length_fresh]
    omega
  · rw [if_neg hzero, not_not.mp hzero]
    refine iff_of_true ⟨?_, ?_, ?_⟩ (by omega)
    · exact hregs.take
    · rw [Int.toNat_zero, fresh, List.nil_append, List.take_of_length_le hlen]
      exact hdepth
    · rw [List.length_take]
      omega

theorem oldTsDepth_pops (s : Tstack) (n : ℕ) : (Tstack.pop^[n] s).oldTsDepth = s.oldTsDepth := by
  induction n with
  | zero => rfl
  | succ n ih => rw [Function.iterate_succ_apply', pop, ih]

/-- An adjustment takes a note of the depth before it. -/
theorem oldTsDepth_adjust {s : Tstack} {live : List ℤ} (h : Models s live) (tsDiff : ℤ) :
    (s.adjust tsDiff).oldTsDepth = s.tsDepth := by
  obtain ⟨hlo, hhi⟩ := h.depth_bounds
  have hregs : Regs { s with oldTsDepth := s.tsDepth } live :=
    ⟨h.regs.aReg, h.regs.bReg, h.regs.cReg⟩
  unfold adjust
  dsimp only
  by_cases hset : tsDiff ≥ 16
  · rw [if_pos hset]
    exact ((Regs.undefine { s with oldTsDepth := s.tsDepth }).pushes hhi _).2.1
  rw [if_neg hset]
  by_cases hneg : tsDiff < 0
  · have hge : ¬ s.tsDepth < tsDiff := by omega
    rw [if_pos hneg, checkdepthGe, if_neg hge]
    exact oldTsDepth_pops _ _
  rw [if_neg hneg]
  by_cases hzero : tsDiff ≠ 0
  · rw [if_pos hzero]
    exact (hregs.pushes hhi _).2.1
  · rw [if_neg hzero]

end Tstack

/-! ## Runs -/

/-- What the translator does with the stack.  Its pushes for the results of a call are followed by
its own setting of the depth, and its special instructions take a note of the depth. -/
inductive TstackStep
  | setprim (prim : ℕ)
  | setsec (sec : ℤ)
  | undefine
  | special
  | results (n : ℕ)

namespace TstackStep

variable (processPriority : Bool)

/-- The state after a step. -/
def apply (s : Tstack) : TstackStep → Option Tstack
  | setprim prim => s.setprim prim
  | setsec sec => s.setsec processPriority sec
  | undefine => some s.undefine
  | special => some { s with oldTsDepth := s.tsDepth }
  | results n => some { Tstack.push^[n] s with tsDepth := n, mustSetCmpFlags := 1 }

/-- The adjustment of an instruction. -/
def tsDiff : TstackStep → Option ℤ
  | setprim prim => tsdiffPrim[prim]?
  | setsec sec => match secAdjustment processPriority sec with
    | .unchanged => none
    | .entry tsDiff => tsDiff
  | _ => none

/-- The stack after a step, where the next register is `c`. -/
def live (c : ℤ) (l : List ℤ) (step : TstackStep) : List ℤ :=
  match step with
  | undefine => []
  | special => l
  | results n => (Tstack.fresh c n ++ l).take 3
  | _ => match step.tsDiff processPriority with
    | some d => Tstack.adjusted c d l
    | none => l

/-- **The condition on a step**: the new depth is one of a stack of three places. -/
def Fits (s : Tstack) (step : TstackStep) : Prop :=
  match step with
  | results n => s.tsDepth = 0 ∧ n ≤ 3
  | _ => ∀ d ∈ step.tsDiff processPriority, Tstack.Fits s.tsDepth d

instance (s : Tstack) : (step : TstackStep) → Decidable (Fits processPriority s step)
  | setprim prim => inferInstanceAs (Decidable (∀ d ∈ tsdiffPrim[prim]?, Tstack.Fits s.tsDepth d))
  | setsec sec => inferInstanceAs
    (Decidable (∀ d ∈ tsDiff processPriority (setsec sec), Tstack.Fits s.tsDepth d))
  | undefine => inferInstanceAs (Decidable (∀ d ∈ (none : Option ℤ), Tstack.Fits s.tsDepth d))
  | special => inferInstanceAs (Decidable (∀ d ∈ (none : Option ℤ), Tstack.Fits s.tsDepth d))
  | results n => inferInstanceAs (Decidable (s.tsDepth = 0 ∧ n ≤ 3))

end TstackStep

namespace Tstack

variable {processPriority : Bool}

/-- **A step** keeps the stack, if the new depth fits. -/
theorem models_apply {s s' : Tstack} {live : List ℤ} (h : Models s live) (hold : s.oldTsDepth ≤ 3)
    {step : TstackStep} (hfits : step.Fits processPriority s)
    (hstep : step.apply processPriority s = some s') :
    Models s' (step.live processPriority s.regCounter live) ∧ s'.oldTsDepth ≤ 3 := by
  have hhi := h.depth_bounds.2
  have hadjust : ∀ d, Fits s.tsDepth d → Models (s.adjust d) (adjusted s.regCounter d live) ∧
      (s.adjust d).oldTsDepth ≤ 3 := fun d hd =>
    ⟨(adjust_models_iff h d).mpr hd, (oldTsDepth_adjust h d).trans_le hhi⟩
  cases step with
  | setprim prim =>
    obtain ⟨d, hd, rfl⟩ := Option.map_eq_some_iff.mp hstep
    simp only [TstackStep.live, TstackStep.tsDiff, hd]
    exact hadjust d (hfits d hd)
  | setsec sec =>
    simp only [TstackStep.apply, setsec] at hstep
    simp only [TstackStep.Fits, TstackStep.tsDiff] at hfits
    simp only [TstackStep.live, TstackStep.tsDiff]
    cases hadj : secAdjustment processPriority sec with
    | unchanged =>
      rw [hadj] at hstep
      obtain rfl := Option.some.inj hstep
      exact ⟨h, hold⟩
    | entry tsDiff =>
      rw [hadj] at hstep hfits
      obtain ⟨d, rfl, rfl⟩ := Option.map_eq_some_iff.mp hstep
      exact hadjust d (hfits d rfl)
  | undefine =>
    obtain rfl := Option.some.inj hstep
    exact ⟨⟨Regs.undefine s, rfl, Nat.zero_le 3⟩, hold⟩
  | special =>
    obtain rfl := Option.some.inj hstep
    exact ⟨⟨⟨h.regs.aReg, h.regs.bReg, h.regs.cReg⟩, h.depth, h.length_le⟩, hhi⟩
  | results n =>
    obtain rfl := Option.some.inj hstep
    obtain ⟨hzero, hn⟩ := hfits
    have hlive : live = [] := List.eq_nil_of_length_eq_zero (by have := h.depth; omega)
    obtain ⟨hregs, holdn, -⟩ := h.regs.pushes hold n
    refine ⟨(models_set_iff hregs.take (by rw [List.length_take]; omega)).mpr ?_,
      holdn.trans_le hold⟩
    rw [hlive, List.append_nil, List.length_take, length_fresh]
    omega

/-- What is reached from a new stack that has been undefined, by steps of which `Allowed` is asked,
and the registers that are on the stack then. -/
inductive Reaches (processPriority : Bool) (Allowed : TstackStep → Tstack → Prop) :
    Tstack → List ℤ → Prop
  | start : Reaches processPriority Allowed newTstack.undefine []
  | step {s s' : Tstack} {live : List ℤ} (h : Reaches processPriority Allowed s live)
      (step : TstackStep) (hallowed : Allowed step s)
      (hstep : step.apply processPriority s = some s') :
      Reaches processPriority Allowed s' (step.live processPriority s.regCounter live)

/-- **The translator's stack** is one of three places, as long as no step leaves a depth that does
not fit. -/
theorem reaches_models {s : Tstack} {live : List ℤ}
    (h : Reaches processPriority (fun step s => step.Fits processPriority s) s live) :
    (0 ≤ s.tsDepth ∧ s.tsDepth ≤ 3) ∧ Models s live := by
  have hkept : Models s live ∧ s.oldTsDepth ≤ 3 := by
    induction h with
    | start => exact ⟨⟨Regs.undefine newTstack, rfl, Nat.zero_le 3⟩, by decide⟩
    | step _ step hfits hstep ih => exact models_apply ih.1 ih.2 hfits hstep
  exact ⟨hkept.1.depth_bounds, hkept.1⟩

/-- `ldc`, `ldc` and `add`. -/
theorem reaches_models_add : ∃ s, (0 ≤ s.tsDepth ∧ s.tsDepth ≤ 3) ∧ Models s [48] := by
  have h0 : Reaches true (fun step s => step.Fits true s) newTstack.undefine [] := .start
  have h1 := h0.step (.setprim 4) (by decide) rfl
  have h2 := h1.step (.setprim 4) (by decide) rfl
  have h3 := h2.step (.setsec 5) (by decide) rfl
  exact ⟨_, reaches_models h3⟩

/-- Four constants are loaded: the depth is then four. -/
theorem reaches_four : ¬ ∀ s live, Reaches true (fun _ _ => True) s live →
    (0 ≤ s.tsDepth ∧ s.tsDepth ≤ 3) ∧ Models s live := fun h => by
  have h0 : Reaches true (fun _ _ => True) newTstack.undefine [] := .start
  have h1 := h0.step (.setprim 4) trivial rfl
  have h2 := h1.step (.setprim 4) trivial rfl
  have h3 := h2.step (.setprim 4) trivial rfl
  have h4 := h3.step (.setprim 4) trivial rfl
  exact absurd (h _ _ h4).1.2 (by decide)

end Tstack

end Tranx86

end Kroc
