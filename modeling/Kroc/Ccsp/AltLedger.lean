import Kroc.Ccsp.Alt
import Kroc.Lib.FlaggedCount

/-!
# Ccsp/AltLedger — the state word of an ALT against the guards that refer to it

The invariant of `Ccsp/Alt` in two halves.  `Refs` keeps the set of the guards that refer to the
ALTer and the set of the parties that have taken its last reference; `Counts` reads the state word
as flags over a count, `FlaggedCount.pack`, and says what the count is: the guards that refer to
the ALTer, and what the ALTer holds itself where it stands.
-/

open FlaggedCount

namespace Kroc

namespace Ccsp

namespace Alt

/-- The flags lie in the bits from here on, the count below. -/
abbrev countBits : ℕ := 28

/-- The bits of the count. -/
def countMask : Word := altNotReady - 1

/-- How often the ALTer counts itself: once, but not while a guard that already refers to it is
still to be counted, and twice while one that does not is still to be taken off the count. -/
def Pc.own : Pc → ℕ
  | .enbcInc _ | .taltwtCas _ (some _) _ | .ending => 0
  | .altDec => 2
  | _ => 1

/-- The flags before the compare-and-swap of a wait, which has loaded `old`: still those it has
loaded, or without `ALT_NOT_READY`. -/
def Challenged (old state f : Word) : Prop :=
  old &&& altNotReady ≠ 0 ∧ (f = altEnabling ||| altNotReady ∧ old = state ∨ f = altEnabling)

/-- The flags that may be set. -/
def Pc.Flags (state f : Word) : Pc → Prop
  | .enabling | .enbcSwap .. | .enbcRestore .. | .enbcInc _ | .readyLoad _ | .readyAnd _
  | .taltwtAnd _ => f = altEnabling ||| altNotReady ∨ f = altEnabling ∨ f = 0
  | .altwtCas old => Challenged old state f
  | .taltwtCas old _ _ => Challenged old state f
  | .altwtClear => f = altEnabling ∨ f = 0
  | .waiting => f = altWaiting ∨ f = 0
  | .idle | .disabling | .ending | .discCas .. | .distSwap .. | .altDec | .altendDec => f = 0

/-- The times the ALTer is to be enqueued: once where it waits and the flag has gone, or the count
at the end of the ALT has. -/
def Pc.due (f : Word) (c : ℕ) : Pc → ℕ
  | .waiting => if f = 0 then 1 else 0
  | .ending => if c = 0 then 1 else 0
  | _ => 0

/-- What the ALTer knows of the guard whose word it is working on. -/
def Pc.Place (s : Sys) : Pc → Prop
  | .enbcSwap c _ => s.word (.chan c) ≠ .alter ∧
      (s.word (.chan c) = .other → s.party (.chan c) = .parked)
  | .enbcRestore c _ temp => temp = .other ∧ s.word (.chan c) = .alter ∧
      s.party (.chan c) = .parked
  | .taltwtCas _ (some k) _ => s.word (.node k) = .alter ∧ s.party (.node k) = .idle ∧
      k < s.nextNode
  | _ => True

/-- `O` are the guards that refer to the ALTer, `V` the parties about to enqueue it. -/
structure Refs (s : Sys) (O V : Finset Guard) : Prop where
  refers : ∀ g, g ∈ O ↔ s.Refers g
  wakers : ∀ g, g ∈ V ↔ s.party g = .enqueue
  flight : ∀ g, (s.party g).InFlight → s.word g = g.left
  early : ∀ g, s.party g = .idle ∨ s.party g = .loaded → s.word g ≠ .other
  nodes : ∀ k, s.word (.node k) ≠ .other
  fresh : ∀ k, s.nextNode ≤ k → s.word (.node k) = .notProcess ∧ s.party (.node k) = .idle
  place : s.pc.Place s

/-- Where the ALTer is, seen from outside. -/
def Sys.stage (s : Sys) : Stage :=
  match s.pc with
  | .waiting | .ending => if s.queued = 0 then .parked else .queued
  | _ => .running

/-- The state word holds the flags `f` over the count `c`; `n` guards refer to the ALTer and `v`
parties are about to enqueue it. -/
structure Counts (s : Sys) (n v : ℕ) (f : Word) (c : ℕ) : Prop where
  state : s.pc ≠ .idle → s.state = pack f c
  count : s.pc ≠ .idle → c = n + s.pc.own
  bound : c < 2 ^ countBits
  flags : s.pc ≠ .idle → s.pc.Flags s.state f
  idle : s.pc = .idle → n = 0
  published : s.pc ≠ .idle → f = altEnabling ||| altNotReady ∨ f = altWaiting → n = s.published
  wakes : s.queued + v = s.pc.due f c
  stage : Stage.after s.log = some s.stage

/-- **The invariant of an ALT.** -/
structure Sys.Inv (s : Sys) : Prop where
  holds : ∃ O V f c, Refs s O V ∧ Counts s O.card V.card f c

/-! ## Flags -/

theorem high_altEnabling : High countBits altEnabling := high_shiftLeft _ (by decide)

theorem high_altNotReady : High countBits altNotReady := high_shiftLeft _ (by decide)

theorem high_altWaiting : High countBits altWaiting := high_shiftLeft _ (by decide)

/-- The flags a word may hold. -/
theorem Pc.Flags.cases {p : Pc} {state f : Word} (h : p.Flags state f) :
    f = altEnabling ||| altNotReady ∨ f = altEnabling ∨ f = altWaiting ∨ f = 0 := by
  cases p <;> simp only [Pc.Flags, Challenged] at h <;> tauto

theorem Pc.Flags.high {p : Pc} {state f : Word} (h : p.Flags state f) : High countBits f := by
  rcases h.cases with rfl | rfl | rfl | rfl
  · exact high_altEnabling.or high_altNotReady
  · exact high_altEnabling
  · exact high_altWaiting
  · exact high_zero

theorem one_eq_pack : (1 : Word) = pack 0 1 := rfl

theorem zero_eq_pack : (0 : Word) = pack 0 0 := rfl

/-- The word is one exactly when it counts one and has no flag. -/
theorem pack_eq_one_iff {f : Word} {c : ℕ} (hf : High countBits f) (hc : c < 2 ^ countBits) :
    pack f c = 1 ↔ f = 0 ∧ c = 1 := by
  rw [one_eq_pack]
  exact pack_inj (by decide) hf high_zero hc (by decide)

theorem pack_eq_zero_iff {f : Word} {c : ℕ} (hf : High countBits f) (hc : c < 2 ^ countBits) :
    pack f c = 0 ↔ f = 0 ∧ c = 0 := by
  rw [zero_eq_pack]
  exact pack_inj (by decide) hf high_zero hc (by decide)

theorem waitState_pack {f : Word} {c : ℕ} (hf : High countBits f) (hc : c < 2 ^ countBits) :
    Sys.waitState (pack f c) =
      pack ((f ||| altWaiting) &&& ~~~(altEnabling ||| altNotReady)) c := by
  rw [Sys.waitState, pack_or hf high_altWaiting hc,
    pack_and_not (hf.or high_altWaiting) (high_altEnabling.or high_altNotReady) hc]

theorem triggerState_pack {f : Word} {c : ℕ} (hf : High countBits f)
    (hc : c + 1 < 2 ^ countBits) :
    Sys.triggerState (pack f (c + 1)) = pack (f &&& ~~~(altNotReady ||| altWaiting)) c := by
  rw [Sys.triggerState]
  change (pack f (c + 1) - 1#32) &&& _ = _
  rw [pack_succ_sub_one, pack_and_not hf (high_altNotReady.or high_altWaiting) (by omega)]

/-! ## The state word -/

/-- Between two operations of an ALT, on its processor. -/
def Pc.Busy (p : Pc) : Prop := p.Running ∧ p ≠ .idle

theorem Pc.Busy.due {p : Pc} (h : p.Busy) (f : Word) (c : ℕ) : p.due f c = 0 := by
  obtain ⟨h, -⟩ := h
  cases p <;> first | rfl | exact h.elim

theorem Sys.stage_of_running {s : Sys} (h : s.pc.Running) : s.stage = .running := by
  unfold Sys.stage
  split <;> simp_all [Pc.Running]

variable {s t : Sys} {O V : Finset Guard} {n n' v : ℕ} {f f' : Word} {c c' : ℕ}

theorem Counts.high (h : Counts s n v f c) (hpc : s.pc ≠ .idle) : High countBits f :=
  (h.flags hpc).high

/-- **Testing `ALT_NOT_READY`** in the state word is testing it in the flags. -/
theorem Counts.state_and (h : Counts s n v f c) (hpc : s.pc ≠ .idle) {g : Word}
    (hg : High countBits g) : s.state &&& g = f &&& g := by
  rw [h.state hpc]
  exact pack_and (h.high hpc) hg h.bound

/-- **Clearing flags** of the state word. -/
theorem Counts.state_and_not (h : Counts s n v f c) (hpc : s.pc ≠ .idle) {g : Word}
    (hg : High countBits g) : s.state &&& ~~~g = pack (f &&& ~~~g) c := by
  rw [h.state hpc]
  exact pack_and_not (h.high hpc) hg h.bound

/-- A count that is not full has room for one more. -/
theorem Counts.room (h : Counts s n v f c) (hpc : s.pc ≠ .idle)
    (hne : s.state &&& countMask ≠ countMask) : c + 1 < 2 ^ countBits := by
  by_contra hfull
  obtain rfl : c = 2 ^ countBits - 1 := by
    have := h.bound
    omega
  refine hne ?_
  rw [h.state hpc, pack_eq_or (h.high hpc) h.bound]
  exact BitVec.eq_of_getLsbD_eq fun i _ => by
    simp only [BitVec.getLsbD_and, BitVec.getLsbD_or]
    change ((_ || countMask.getLsbD i) && countMask.getLsbD i) = countMask.getLsbD i
    cases countMask.getLsbD i <;> simp

/-- Nobody is enqueueing an ALTer that runs. -/
theorem Counts.unqueued (h : Counts s n v f c) (hpc : s.pc.Busy) : s.queued = 0 ∧ v = 0 := by
  have := h.wakes
  rw [hpc.due] at this
  omega

/-- **A step of an ALTer on its processor**: the new state word, and the count at the new place. -/
theorem Counts.move (h : Counts s n v f c) (hs : s.pc.Busy) (ht : t.pc.Busy)
    (hlog : t.log = s.log) (hqueued : t.queued = s.queued) (hstate : t.state = pack f' c')
    (hcount : c' = n' + t.pc.own) (hbound : c' < 2 ^ countBits) (hflags : t.pc.Flags t.state f')
    (hpub : f' = altEnabling ||| altNotReady ∨ f' = altWaiting → n' = t.published) :
    Counts t n' v f' c' where
  state _ := hstate
  count _ := hcount
  bound := hbound
  flags _ := hflags
  idle hidle := (ht.2 hidle).elim
  published _ := hpub
  wakes := by
    rw [ht.due, hqueued, ← hs.due f c]
    exact h.wakes
  stage := by
    rw [hlog, h.stage, Sys.stage_of_running hs.1, Sys.stage_of_running ht.1]

/-- The same with the same state word. -/
theorem Counts.quiet (h : Counts s n v f c) (hs : s.pc.Busy) (ht : t.pc.Busy)
    (hlog : t.log = s.log) (hqueued : t.queued = s.queued) (hstate : t.state = s.state)
    (hpub : t.published = s.published) (hown : t.pc.own = s.pc.own)
    (hflags : t.pc.Flags s.state f) : Counts t n v f c :=
  h.move hs ht hlog hqueued (hstate.trans (h.state hs.2)) (hown ▸ h.count hs.2) h.bound
    (hstate ▸ hflags) fun hf => hpub ▸ h.published hs.2 hf

/-- A step that leaves the guards alone. -/
theorem Refs.move (h : Refs s O V) (hword : t.word = s.word) (hparty : t.party = s.party)
    (hnode : t.nextNode = s.nextNode) (hrestoring : t.pc.restoring = s.pc.restoring)
    (hplace : t.pc.Place t) : Refs t O V where
  refers g := by
    rw [h.refers g, Sys.Refers, Sys.Refers, hword, hparty, hrestoring]
  wakers g := by rw [h.wakers g, hparty]
  flight g := by
    rw [hword, hparty]
    exact h.flight g
  early g := by
    rw [hword, hparty]
    exact h.early g
  nodes k := by
    rw [hword]
    exact h.nodes k
  fresh k := by
    rw [hword, hparty, hnode]
    exact h.fresh k
  place := hplace

/-- **A step that leaves the guards, the state word and the run queues alone.** -/
structure Sys.Same (s t : Sys) : Prop where
  state : t.state = s.state
  word : t.word = s.word
  party : t.party = s.party
  nextNode : t.nextNode = s.nextNode
  queued : t.queued = s.queued
  published : t.published = s.published
  log : t.log = s.log

theorem Sys.Inv.same (h : s.Inv) (hst : s.Same t) (hs : s.pc.Busy) (ht : t.pc.Busy)
    (hown : t.pc.own = s.pc.own) (hrestoring : t.pc.restoring = s.pc.restoring)
    (hplace : t.pc.Place t)
    (hflags : ∀ n v f c, Counts s n v f c → t.pc.Flags s.state f) : t.Inv := by
  obtain ⟨O, V, f, c, hR, hC⟩ := h
  exact ⟨O, V, f, c, hR.move hst.word hst.party hst.nextNode hrestoring hplace,
    hC.quiet hs ht hst.log hst.queued hst.state hst.published hown (hflags _ _ _ _ hC)⟩

end Alt

end Ccsp

end Kroc
