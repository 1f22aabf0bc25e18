import Kroc.Tvm.PlacesSteps
import Kroc.Tvm.Untouched

/-!
# Tvm/Join — a parallel is joined exactly once

A parallel at the workspace `parent`: word 0 has the resume address and word 1 the number of
branches.  Beside the machine of `Tvm/Machine` stands which branches run, how many are still to be
started, and how many have ended.  The count of word 1 is that of the unfinished branches, whatever
the other processes do, so that the last `endp` continues as the parent and every other one leaves
the processor to another process.
-/

namespace Kroc

namespace Tvm

open Ectx

/-- A parallel: the workspaces of the branches that run, the number of those to be started, and of
those that have ended. -/
structure Par where
  running : List Word
  todo : ℕ
  ended : ℕ

/-- What a step is to the parallel: the start of a branch, the end of one, or something else, which
may move the branches to other workspaces. -/
inductive Part
  | branch
  | done
  | other (moved : Word → Word)

/-- The parallel after a step of the process at `w`. -/
def Par.next (par : Par) (w : Word) (ins : Ins) : Part → Par
  | .branch =>
    match ins with
    | .startp ws _ => ⟨par.running ++ [ws], par.todo - 1, par.ended⟩
    | _ => par
  | .done => ⟨par.running.erase w, par.todo, par.ended + 1⟩
  | .other moved => ⟨par.running.map moved, par.todo, par.ended⟩

/-- The branches that have not ended. -/
def Par.unfinished (par : Par) : ℕ := par.running.length + par.todo

/-- **A step beside a parallel.** -/
def parStep (r : Sys × Par) (a : Act × Part) : Option (Sys × Par) :=
  (step r.1 a.1).map fun sys' => (sys', r.2.next r.1.ectx.wptr a.1.ins a.2)

/-- **What may be done beside a parallel**: each branch is started once, those that run end with
`endp` on the workspace of the parent, and until all have ended nobody else writes its words 0
and 1. -/
def ParOk (parent : Word) (r : Sys × Par) (a : Act × Part) : Prop :=
  StepOk r.1 a.1 ∧
    match a.2 with
    | .branch => 0 < r.2.todo ∧ ∃ ws offset, a.1.ins = .startp ws offset
    | .done => r.1.ectx.wptr ∈ r.2.running ∧ a.1.ins = .endp parent
    | .other _ => 0 < r.2.unfinished → ∀ k : Slot, k = .count ∨ k = .temp →
        ¬ a.1.ins.WritesTop r.1.ectx.wptr parent k

/-- The invariant: `n` branches, of which those unfinished are the count of word 1. -/
structure Counted (parent resume : Word) (n : ℕ) (r : Sys × Par) : Prop where
  placed : InPlace r.1.ectx r.1.pos
  total : r.2.unfinished + r.2.ended = n
  count : 0 < r.2.unfinished → (r.1.ectx.mem parent .count).toNat = r.2.unfinished
  resume : 0 < r.2.unfinished → r.1.ectx.mem parent .temp = resume

section Join

variable {parent resume : Word} {n : ℕ} {r : Sys × Par} {a : Act × Part}

/-- The effect of a step on the words of the parallel. -/
theorem step_top {sys sys' : Sys} {act : Act} (h : step sys act = some sys') {w : Word} {k : Slot}
    (hk : k = .count ∨ k = .temp) (hnot : ¬ act.ins.WritesTop sys.ectx.wptr w k)
    (hw : IsWorkspace sys.ectx.wptr) : sys'.ectx.mem w k = sys.ectx.mem w k := by
  obtain ⟨t, ht, rfl⟩ := Option.map_eq_some_iff.mp h
  exact (exec_effect ht hw).top w k hk hnot

/-- Nobody is current: the tops of the workspaces stay. -/
theorem step_top_idle {sys sys' : Sys} {act : Act} (h : step sys act = some sys')
    (hrun : act.ins = .run) {w : Word} {k : Slot} (hk : k = .count ∨ k = .temp) :
    sys'.ectx.mem w k = sys.ectx.mem w k := by
  obtain ⟨t, ht, rfl⟩ := Option.map_eq_some_iff.mp h
  rw [hrun] at ht
  obtain ⟨r, hr, rfl⟩ := Option.map_eq_some_iff.mp ht
  exact (Untouched.runNextOnQueue hr).top w k hk

/-- What is not `endp` on the parent, nor a write of its words, keeps the words of a parallel. -/
theorem words_kept (hplaced : InPlace r.1.ectx r.1.pos) (hok : StepOk r.1 a.1) {sys' : Sys}
    (hstep : step r.1 a.1 = some sys')
    (hnot : ∀ k : Slot, k = .count ∨ k = .temp → ¬ a.1.ins.WritesTop r.1.ectx.wptr parent k)
    {k : Slot} (hk : k = .count ∨ k = .temp) :
    sys'.ectx.mem parent k = r.1.ectx.mem parent k := by
  rw [StepOk] at hok
  by_cases hidle : r.1.ectx.wptr = notProcess
  · rw [if_pos hidle] at hok
    exact step_top_idle hstep hok hk
  · rw [if_neg hidle] at hok
    obtain ⟨p, hp, -⟩ := hok
    obtain ⟨q, c, hplaced⟩ := hplaced
    exact step_top hstep hk (hnot k hk) (hplaced.workspace _ (by rw [hp]; simp))

/-- **The last `endp`**: the process continues as the parent. -/
theorem endp_last {sys sys' : Sys} {act : Act} (hins : act.ins = .endp parent)
    (hcount : sys.ectx.mem parent .count = 1) (hstep : step sys act = some sys') :
    sys'.ectx.wptr = parent ∧ sys'.ectx.iptr = sys.ectx.mem parent .temp ∧
      sys'.ectx.mem parent .count = 0 := by
  obtain ⟨t, ht, rfl⟩ := Option.map_eq_some_iff.mp hstep
  rw [hins] at ht
  obtain ⟨r, hr, rfl⟩ := Option.map_eq_some_iff.mp ht
  rw [insEndp, if_pos hcount] at hr
  cases hr
  refine ⟨rfl, ?_, by simp⟩
  show (({ sys.ectx with iptr := act.iptr } : Ectx).set parent .count 0).mem parent .temp = _
  rw [mem_set, if_neg (by simp)]

/-- **Every other `endp`**: the count goes down, the process is no more, and another one runs, or
nobody. -/
theorem endp_other {sys sys' : Sys} {act : Act} (hplaced : InPlace sys.ectx sys.pos)
    (hok : StepOk sys act) (hins : act.ins = .endp parent)
    (hcount : sys.ectx.mem parent .count ≠ 1) (hstep : step sys act = some sys') :
    sys'.ectx.mem parent .count = sys.ectx.mem parent .count - 1 ∧
      sys'.ectx.mem parent .temp = sys.ectx.mem parent .temp ∧
      sys'.pos sys.ectx.wptr = none ∧ sys'.ectx.wptr ≠ sys.ectx.wptr ∧
      (sys'.ectx.wptr = notProcess ∨ sys.pos sys'.ectx.wptr ≠ none) := by
  obtain ⟨q, c, hplaced⟩ := hplaced
  obtain ⟨sys'', q', c', hstep', hplaced', -⟩ := step_placed hplaced hok
  obtain rfl := Option.some.inj (hstep.symm.trans hstep')
  have hne : sys.ectx.wptr ≠ notProcess := fun e => by
    rw [StepOk, if_pos e, hins] at hok
    cases hok
  obtain ⟨t, ht, hsys'⟩ := Option.map_eq_some_iff.mp hstep
  have hectx : sys'.ectx = t := by rw [← hsys']
  have hpos : sys'.pos = Function.update sys.pos sys.ectx.wptr none := by
    rw [← hsys', hins]
    exact if_neg hcount
  have hgone : sys'.pos sys.ectx.wptr = none := by rw [hpos, Function.update_self]
  have hwptr : sys'.ectx.wptr ≠ sys.ectx.wptr := by
    have hsits := hplaced'.sits sys.ectx.wptr
    rw [hgone] at hsits
    exact fun e => hsits.1 (Or.inr ⟨e.symm, hne⟩)
  rw [hins] at ht
  obtain ⟨r, hr, hrt⟩ := Option.map_eq_some_iff.mp ht
  rw [insEndp, if_neg hcount] at hr
  have htop := (Untouched.runNextOnQueue hr).top
  refine ⟨?_, ?_, hgone, hwptr, ?_⟩
  · rw [hectx, ← hrt, htop parent .count (Or.inl rfl)]
    simp
  · rw [hectx, ← hrt, htop parent .temp (Or.inr rfl), mem_set, if_neg (by simp)]
  · by_cases hnull : sys'.ectx.wptr = notProcess
    · exact Or.inl hnull
    · right
      have hsits := hplaced'.sits sys'.ectx.wptr
      intro hnone
      rw [show sys'.pos sys'.ectx.wptr = none by rw [hpos, Function.update_of_ne hwptr, hnone]]
        at hsits
      exact hsits.1 (Or.inr ⟨rfl, hnull⟩)

/-- **A step keeps the count.** -/
theorem Counted.step {r' : Sys × Par} (h : Counted parent resume n r) (hok : ParOk parent r a)
    (hstep : parStep r a = some r') : Counted parent resume n r' := by
  obtain ⟨sys', hsys', rfl⟩ := Option.map_eq_some_iff.mp hstep
  obtain ⟨hstepok, hpart⟩ := hok
  have hplaced' : InPlace sys'.ectx sys'.pos := by
    obtain ⟨q, c, hplaced⟩ := h.placed
    obtain ⟨sys'', q', c', hstep', hplaced', -⟩ := step_placed hplaced hstepok
    obtain rfl := Option.some.inj (hstep'.symm.trans hsys')
    exact ⟨q', c', hplaced'⟩
  obtain ⟨act, part⟩ := a
  cases part with
  | branch =>
    obtain ⟨htodo, ws, offset, hins⟩ := hpart
    have hkept : ∀ k : Slot, k = .count ∨ k = .temp →
        sys'.ectx.mem parent k = r.1.ectx.mem parent k := fun k hk =>
      words_kept h.placed hstepok hsys' (fun k' _ => by rw [hins]; exact id) hk
    have hsame : (r.2.next r.1.ectx.wptr act.ins .branch).unfinished = r.2.unfinished := by
      rw [hins]
      simp only [Par.next, Par.unfinished, List.length_append, List.length_singleton]
      omega
    have hended : (r.2.next r.1.ectx.wptr act.ins .branch).ended = r.2.ended := by
      rw [hins]
      rfl
    refine ⟨hplaced', ?_, fun hpos => ?_, fun hpos => ?_⟩
    · rw [hsame, hended, h.total]
    · rw [hsame] at hpos ⊢
      rw [hkept _ (Or.inl rfl), h.count hpos]
    · rw [hsame] at hpos
      rw [hkept _ (Or.inr rfl), h.resume hpos]
  | done =>
    obtain ⟨hrunning, hins⟩ := hpart
    have hlen : (r.2.running.erase r.1.ectx.wptr).length + 1 = r.2.running.length := by
      rw [List.length_erase_of_mem hrunning]
      have := List.length_pos_of_mem hrunning
      omega
    have hless : (r.2.next r.1.ectx.wptr act.ins .done).unfinished + 1 = r.2.unfinished := by
      simp only [Par.next, Par.unfinished]
      omega
    have hpos₀ : 0 < r.2.unfinished := by omega
    have hcount := h.count hpos₀
    refine ⟨hplaced', ?_, fun hpos => ?_, fun hpos => ?_⟩
    · have := h.total
      simp only [Par.next] at hless ⊢
      omega
    all_goals
      have hpos' : 0 < (r.2.next r.1.ectx.wptr act.ins .done).unfinished := hpos
      have hone : r.1.ectx.mem parent .count ≠ 1 := fun e => by
        rw [e] at hcount
        have : (1 : Word).toNat = 1 := rfl
        omega
      obtain ⟨hcount', htemp', -⟩ := endp_other h.placed hstepok hins hone hsys'
    · rw [hcount', BitVec.toNat_sub_of_le, hcount]
      · show r.2.unfinished - 1 = (r.2.next r.1.ectx.wptr act.ins .done).unfinished
        omega
      · rw [BitVec.le_def, hcount]
        show 1 ≤ _
        omega
    · rw [htemp', h.resume hpos₀]
  | other moved =>
    have hsame : (r.2.next r.1.ectx.wptr act.ins (.other moved)).unfinished =
        r.2.unfinished := by
      simp [Par.next, Par.unfinished]
    refine ⟨hplaced', ?_, fun hpos => ?_, fun hpos => ?_⟩
    · rw [hsame]
      exact h.total
    · rw [hsame] at hpos ⊢
      rw [words_kept h.placed hstepok hsys' (hpart hpos) (Or.inl rfl), h.count hpos]
    · rw [hsame] at hpos
      rw [words_kept h.placed hstepok hsys' (hpart hpos) (Or.inr rfl), h.resume hpos]

/-- **A parallel is joined exactly once**: from any state of any run in which word 0 of the parent
has the resume address and word 1 the number of branches, and however the branches and the others
run, the `endp` that ends the last branch continues as the parent, and every other one ends its
process and leaves the processor to another. -/
theorem endp_joins {sys₀ sys₁ sys : Sys} {par : Par} {act : Act} (h₀ : Starts sys₀)
    (h₁ : Transition.Reach step StepOk sys₀ sys₁) (hresume : sys₁.ectx.mem parent .temp = resume)
    (hcount : (sys₁.ectx.mem parent .count).toNat = n) (hn : 1 ≤ n)
    (hrun : Transition.Reach parStep (ParOk parent)
      (sys₁, ⟨[sys₁.ectx.wptr], n - 1, 0⟩) (sys, par))
    (hok : ParOk parent (sys, par) (act, .done)) :
    ∃ sys', step sys act = some sys' ∧
      (par.ended + 1 = n → sys'.ectx.wptr = parent ∧ sys'.ectx.iptr = resume ∧
        sys'.ectx.mem parent .count = 0) ∧
      (par.ended + 1 ≠ n → par.ended + 1 < n ∧ sys'.pos sys.ectx.wptr = none ∧
        sys'.ectx.wptr ≠ sys.ectx.wptr ∧
        (sys'.ectx.wptr = notProcess ∨ sys.pos sys'.ectx.wptr ≠ none)) := by
  have hstart : Counted parent resume n (sys₁, ⟨[sys₁.ectx.wptr], n - 1, 0⟩) := by
    have htotal : Par.unfinished ⟨[sys₁.ectx.wptr], n - 1, 0⟩ = n := by
      simp only [Par.unfinished, List.length_singleton]
      omega
    exact ⟨reach_placed h₀ h₁, htotal, fun _ => hcount.trans htotal.symm, fun _ => hresume⟩
  have hinv : Counted parent resume n (sys, par) :=
    hrun.invariant hstart fun h hok hstep => h.step hok hstep
  obtain ⟨hstepok, hrunning, hins⟩ := hok
  have hpos : 0 < par.unfinished := by
    have : 0 < par.running.length := List.length_pos_of_mem hrunning
    simp only [Par.unfinished]
    omega
  have htotal := hinv.total
  have hunfinished := hinv.count hpos
  obtain ⟨q, c, hplaced⟩ := hinv.placed
  obtain ⟨sys', -, -, hstep, -⟩ := step_placed hplaced hstepok
  refine ⟨sys', hstep, fun hlast => ?_, fun hlast => ?_⟩
  · have hone : sys.ectx.mem parent .count = 1 := by
      refine BitVec.eq_of_toNat_eq ?_
      rw [hunfinished]
      show par.unfinished = 1
      simp only at htotal
      omega
    obtain ⟨hwptr, hiptr, hzero⟩ := endp_last hins hone hstep
    exact ⟨hwptr, hiptr.trans (hinv.resume hpos), hzero⟩
  · have hone : sys.ectx.mem parent .count ≠ 1 := fun e => by
      rw [e] at hunfinished
      have : (1 : Word).toNat = 1 := rfl
      simp only at htotal hunfinished
      omega
    obtain ⟨-, -, hgone, hwptr, hnext⟩ := endp_other hinv.placed hstepok hins hone hstep
    refine ⟨?_, hgone, hwptr, hnext⟩
    simp only at htotal
    omega

/-- The process 8 before a parallel of two branches, with the parent 16 to go on at 100. -/
def twoBranches : Sys where
  ectx :=
    { mem := fun _ slot => if slot = .count then 2 else if slot = .temp then 100 else 0
      chan := fun _ => 0
      bytes := fun _ => 0
      self := 4
      wptr := 8
      iptr := 0
      fptr := notProcess
      bptr := notProcess
      tptr := notProcess
      tnext := 0
      timers := false
      interrupt := false }
  pos := Function.update (fun _ => none) 8 (some .plain)

/-- The first of two branches to end leaves the processor to another process. -/
theorem endp_joins_first : ∃ sys sys', step twoBranches ⟨.startp 24 60, 40, 0, 0⟩ = some sys ∧
    step sys ⟨.endp 16, 50, 0, 0⟩ = some sys' ∧ sys'.ectx.wptr ≠ 8 := by
  have hstart : Starts twoBranches :=
    ⟨⟨by decide, by decide⟩, rfl, rfl, rfl, fun _ => rfl⟩
  have hok : ParOk 16 (twoBranches, ⟨[8], 1, 0⟩) (⟨.startp 24 60, 40, 0, 0⟩, .branch) := by
    refine ⟨?_, by decide, 24, 60, rfl⟩
    rw [StepOk, if_neg (by decide)]
    exact ⟨.plain, rfl, trivial, ⟨by decide, by decide⟩, rfl⟩
  obtain ⟨sys, hsys, hwptr, hlive, hparent⟩ : ∃ sys,
      step twoBranches ⟨.startp 24 60, 40, 0, 0⟩ = some sys ∧ sys.ectx.wptr = 8 ∧
        sys.pos 8 = some .plain ∧ sys.pos 16 = none := ⟨_, rfl, rfl, rfl, rfl⟩
  have hok' : ParOk 16 (sys, ⟨[8, 24], 0, 0⟩) (⟨.endp 16, 50, 0, 0⟩, .done) := by
    refine ⟨?_, hwptr ▸ List.mem_cons_self, rfl⟩
    rw [StepOk, hwptr, if_neg (by decide)]
    exact ⟨.plain, hlive, trivial, ⟨by decide, by decide⟩, Or.inr hparent⟩
  have hrun : Transition.Reach parStep (ParOk 16) (twoBranches, ⟨[8], 1, 0⟩)
      (sys, ⟨[8, 24], 0, 0⟩) :=
    Transition.Reach.next Transition.Reach.start hok (by rw [parStep, hsys]; rfl)
  obtain ⟨sys', hsys', -, hother⟩ := endp_joins (n := 2) hstart Transition.Reach.start rfl rfl
    (by decide) hrun hok'
  exact ⟨sys, sys', hsys, hsys', hwptr ▸ (hother (by decide)).2.2.1⟩

end Join

end Tvm

end Kroc
