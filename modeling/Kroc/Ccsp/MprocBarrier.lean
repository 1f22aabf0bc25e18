import Kroc.Ccsp.Layout
import Kroc.Lib.Transition

/-!
# Ccsp/MprocBarrier — the barrier of mobile processes

`mproc_bar_init`, `mproc_bar_sync`, `mproc_bar_enroll` and `mproc_bar_resign` of
`runtime/ccsp/kernel/sched.c`, each call atomic.  The state word has the phase in its top bit, and
below it how many processes are to sync before the last one; those who wait are on a chain along
`Link` from `fptr` to `bptr`.

What `enqueue_process` does to the `Link` words is a parameter of a call: they are those of the run
queues, whichever they are, and it leaves the words of who waits alone.
-/

namespace Kroc

namespace Ccsp

open Function (update)

/-- `MPROC_BAR_PHASE` -/
def mprocBarPhase : Word := 0x80000000#32

/-- `MPROC_BAR_COUNT` -/
def mprocBarCount : Word := ~~~mprocBarPhase

/-- `mproc_bar_t` -/
structure MprocBar where
  enrolled : Word
  state : Word
  fptr : Wptr
  bptr : Wptr
  deriving DecidableEq

namespace MprocBar

/-- What `enqueue_process` does to the `Link` words, after the processes `done` of the same call. -/
abbrev Enqueue := (done : List Wptr) → (w : Wptr) → (Wptr → Wptr) → Wptr → Wptr

/-- A barrier, and the words `Link` and `Temp` of the workspaces. -/
structure Mem where
  bar : MprocBar
  link : Wptr → Wptr
  temp : Wptr → Word

/-- What a call leaves: whether the caller goes on, and who has been enqueued. -/
structure Out where
  runs : Bool
  enqueued : List Wptr
  mem : Mem

/-- `mproc_bar_init` -/
def init (initialCount : Word) : MprocBar := ⟨initialCount, initialCount - 1, 0, 0⟩

/-- The loop of `mproc_bar_complete`. -/
def completeLoop (enq : Enqueue) : ℕ → List Wptr → (Wptr → Wptr) → Wptr →
    Option (List Wptr × (Wptr → Wptr))
  | 0, _, _, _ => none
  | fuel + 1, done, link, ws =>
    if ws = 0 then some (done, link)
    else
      let next := link ws
      completeLoop enq fuel (done ++ [ws]) (enq done ws link) next

/-- `mproc_bar_complete` -/
def complete (enq : Enqueue) (s : Mem) : Option Out :=
  let enrolled := s.bar.enrolled
  let ws := s.bar.fptr
  (completeLoop enq (2 ^ 32) [] s.link ws).map fun r =>
    ⟨true, r.1, { s with bar := ⟨enrolled, enrolled - 1, 0, 0⟩, link := r.2 }⟩

/-- `mproc_bar_enroll` -/
def enroll (s : Mem) (count : Word) : Mem :=
  { s with bar := { s.bar with enrolled := s.bar.enrolled + count, state := s.bar.state + count } }

/-- `mproc_bar_resign`: `none` where the kernel exits. -/
def resign (enq : Enqueue) (s : Mem) (count : Word) : Option Out :=
  let s := { s with bar := { s.bar with enrolled := s.bar.enrolled - count } }
  let state := s.bar.state
  if state &&& mprocBarCount < count then
    let wptr := s.bar.fptr
    if state &&& mprocBarPhase ≠ 0 ∨ wptr = 0 then none
    else some ⟨true, [wptr],
      ⟨{ s.bar with state := mprocBarPhase }, enq [] wptr s.link, update s.temp wptr 1⟩⟩
  else some ⟨true, [], { s with bar := { s.bar with state := state - count } }⟩

/-- `mproc_bar_sync` -/
def sync (enq : Enqueue) (s : Mem) (wptr : Wptr) : Option Out :=
  let state := s.bar.state
  if state &&& mprocBarCount = 0 then
    if state &&& mprocBarPhase = 0 then
      some ⟨true, [],
        { s with bar := { s.bar with state := mprocBarPhase }, temp := update s.temp wptr 1 }⟩
    else complete enq s
  else
    let link := update s.link wptr 0
    let temp := update s.temp wptr 0
    let bptr := s.bar.bptr
    let bar := { s.bar with bptr := wptr }
    let (bar, link) := if bptr = 0 then ({ bar with fptr := wptr }, link)
      else (bar, update link bptr wptr)
    some ⟨false, [], ⟨{ bar with state := state - 1 }, link, temp⟩⟩

/-! ## Runs -/

/-- A barrier with its memory, and who waits at it in the order of arrival. -/
structure Run where
  mem : Mem
  waiting : List Wptr

/-- A call, or what processes that do not wait do to their words. -/
inductive Act
  | sync (w : Wptr) (enq : Enqueue)
  | enroll (count : Word)
  | resign (count : Word) (enq : Enqueue)
  | other (link : Wptr → Wptr) (temp : Wptr → Word)

/-- Who waits after a call: who was enqueued does not, and a caller that does not go on does. -/
def Run.after (r : Run) (caller : List Wptr) (out : Out) : Run :=
  ⟨out.mem, (r.waiting ++ if out.runs then [] else caller).filter (· ∉ out.enqueued)⟩

/-- **A step.** -/
def step (r : Run) : Act → Option Run
  | .sync w enq => (sync enq r.mem w).map (r.after [w])
  | .enroll count => some ⟨enroll r.mem count, r.waiting⟩
  | .resign count enq => (resign enq r.mem count).map (r.after [])
  | .other link temp => some ⟨{ r.mem with link := link, temp := temp }, r.waiting⟩

/-- The words of who waits are left alone, until it is enqueued itself. -/
def Enqueue.Leaves (enq : Enqueue) (waiting : List Wptr) : Prop :=
  ∀ done w link, ∀ x ∈ waiting, x ≠ w → x ∉ done → enq done w link x = link x

/-- **Who may do what**: a process syncs only while it is running, somebody stays enrolled, and no
enrolment reaches the phase bit. -/
def Allowed (r : Run) : Act → Prop
  | .sync w enq => IsWorkspace w ∧ w ∉ r.waiting ∧ enq.Leaves r.waiting
  | .enroll count => r.mem.bar.enrolled.toNat + count.toNat ≤ 2 ^ 31
  | .resign count _ => count < r.mem.bar.enrolled
  | .other link _ => ∀ x ∈ r.waiting, link x = r.mem.link x

/-- Also, a resignation leaves somebody who is to sync. -/
def Ok (r : Run) (act : Act) : Prop :=
  Allowed r act ∧ ∀ count enq, act = .resign count enq → count ≤ r.mem.bar.state &&& mprocBarCount

/-- The invariant. -/
structure Inv (r : Run) : Prop where
  chain : Fifo 0 r.mem.link r.mem.bar.fptr r.mem.bar.bptr r.waiting
  back : r.waiting = [] → r.mem.bar.bptr = 0
  workspaces : ∀ w ∈ r.waiting, IsWorkspace w
  count : r.mem.bar.state.toNat % 2 ^ 31 + 1 + r.waiting.length = r.mem.bar.enrolled.toNat
  small : r.mem.bar.enrolled.toNat ≤ 2 ^ 31

section Sound

variable {r r' : Run} {enq : Enqueue} {w : Wptr} {count : Word}

theorem toNat_count (x : Word) : (x &&& mprocBarCount).toNat = x.toNat % 2 ^ 31 := by
  rw [BitVec.toNat_and, show mprocBarCount.toNat = 2 ^ 31 - 1 from rfl,
    Nat.and_two_pow_sub_one_eq_mod]

theorem count_eq_zero_iff (x : Word) : x &&& mprocBarCount = 0 ↔ x.toNat % 2 ^ 31 = 0 := by
  rw [← toNat_count, ← BitVec.toNat_inj]
  exact Iff.rfl

/-- **The loop of a completion** enqueues everybody on the chain, once. -/
theorem completeLoop_spec {waiting : List Wptr} (henq : enq.Leaves waiting) :
    ∀ (fuel : ℕ) (l done : List Wptr) (link : Wptr → Wptr) (ws : Wptr), Linked 0 link ws l →
      (∀ x ∈ l, x ∈ waiting ∧ x ∉ done) → l.length < fuel →
      ∃ link', completeLoop enq fuel done link ws = some (done ++ l, link') := by
  intro fuel
  induction fuel with
  | zero => exact fun l _ _ _ _ _ h => absurd h (Nat.not_lt_zero _)
  | succ fuel ih =>
    intro l done link ws hlinked hsub hfuel
    cases l with
    | nil =>
      have hnull : ws = 0 := hlinked
      exact ⟨link, by rw [completeLoop, if_pos hnull, List.append_nil]⟩
    | cons x l =>
      obtain ⟨hnot, -⟩ := List.nodup_cons.mp hlinked.nodup
      obtain ⟨rfl, hx, hrest⟩ := hlinked
      have hsame : ∀ y ∈ l, enq done ws link y = link y := fun y hy =>
        henq done ws link y (hsub y (List.mem_cons_of_mem _ hy)).1 (fun e => hnot (e ▸ hy))
          (hsub y (List.mem_cons_of_mem _ hy)).2
      have hsub' : ∀ y ∈ l, y ∈ waiting ∧ y ∉ done ++ [ws] := fun y hy => by
        obtain ⟨hwaits, hdone⟩ := hsub y (List.mem_cons_of_mem _ hy)
        refine ⟨hwaits, fun hd => ?_⟩
        rcases List.mem_append.mp hd with hd | hd
        · exact hdone hd
        · exact hnot (List.mem_singleton.mp hd ▸ hy)
      obtain ⟨link', hlink'⟩ := ih l (done ++ [ws]) (enq done ws link) (link ws)
        (hrest.congr hsame) hsub' (Nat.lt_of_succ_lt_succ hfuel)
      refine ⟨link', ?_⟩
      rw [completeLoop, if_neg hx]
      dsimp only
      rw [hlink', List.append_assoc, List.singleton_append]

theorem complete_spec (h : Inv r) (henq : enq.Leaves r.waiting) :
    ∃ link, complete enq r.mem = some ⟨true, r.waiting, { r.mem with
      bar := ⟨r.mem.bar.enrolled, r.mem.bar.enrolled - 1, 0, 0⟩, link := link }⟩ := by
  have hlen : r.waiting.length < 2 ^ 32 :=
    (length_lt_of_isWorkspace h.chain.1.nodup h.workspaces).trans (by decide)
  obtain ⟨link, hlink⟩ := completeLoop_spec henq (2 ^ 32) r.waiting [] r.mem.link r.mem.bar.fptr
    h.chain.1 (fun x hx => ⟨hx, List.not_mem_nil⟩) hlen
  refine ⟨link, ?_⟩
  rw [complete, hlink]
  rfl

/-- What a sync does: while others are to sync, the caller waits behind those who do; the last of
phase 0 goes on with 1 in `Temp`, and the last of phase 1 has everybody enqueued and goes on. -/
def SyncSound (r : Run) (w : Wptr) (enq : Enqueue) : Prop :=
  ∃ out, sync enq r.mem w = some out ∧
    (r.mem.bar.state &&& mprocBarCount ≠ 0 →
      out.enqueued = [] ∧ out.runs = false ∧ (r.after [w] out).waiting = r.waiting ++ [w]) ∧
    (r.mem.bar.state &&& mprocBarCount = 0 → r.mem.bar.state &&& mprocBarPhase = 0 →
      out.enqueued = [] ∧ out.runs = true ∧ out.mem.temp w = 1 ∧
        out.mem.bar.state = mprocBarPhase ∧ (r.after [w] out).waiting = r.waiting) ∧
    (r.mem.bar.state &&& mprocBarCount = 0 → r.mem.bar.state &&& mprocBarPhase ≠ 0 →
      out.enqueued = r.waiting ∧ out.runs = true ∧ w ∉ out.enqueued ∧
        out.mem.bar.state = r.mem.bar.enrolled - 1 ∧ (r.after [w] out).waiting = [])

@[simp] theorem after_none (r : Run) (caller : List Wptr) (mem : Mem) :
    r.after caller ⟨true, [], mem⟩ = ⟨mem, r.waiting⟩ := by
  simp [Run.after]

@[simp] theorem after_wait (r : Run) (caller : List Wptr) (mem : Mem) :
    r.after caller ⟨false, [], mem⟩ = ⟨mem, r.waiting ++ caller⟩ := by
  simp [Run.after]

@[simp] theorem after_all (r : Run) (caller : List Wptr) (mem : Mem) :
    r.after caller ⟨true, r.waiting, mem⟩ = ⟨mem, []⟩ := by
  simp [Run.after]

/-- **Waiting** puts the caller behind those who wait. -/
theorem Inv.wait (h : Inv r) (hw : IsWorkspace w) (hnot : w ∉ r.waiting)
    (hmore : r.mem.bar.state.toNat % 2 ^ 31 ≠ 0) {mem : Mem}
    (henrolled : mem.bar.enrolled = r.mem.bar.enrolled)
    (hstate : mem.bar.state = r.mem.bar.state - 1) (hback : mem.bar.bptr = w)
    (hfront : mem.bar.fptr = if r.mem.bar.bptr = 0 then w else r.mem.bar.fptr)
    (hlink : mem.link = if r.mem.bar.bptr = 0 then update r.mem.link w 0
      else update (update r.mem.link w 0) r.mem.bar.bptr w) :
    Inv ⟨mem, r.waiting ++ [w]⟩ := by
  have hcount := h.count
  have hempty : r.mem.bar.bptr = 0 ↔ r.waiting = [] := by
    refine ⟨fun hz => ?_, h.back⟩
    by_contra hne
    exact (h.workspaces _ (h.chain.back_mem hne)).1 hz
  have hpred : (r.mem.bar.state - 1).toNat = r.mem.bar.state.toNat - 1 := by
    refine BitVec.toNat_sub_of_le (show 1 ≤ r.mem.bar.state.toNat from ?_)
    omega
  refine ⟨?_, fun hnil => absurd hnil (by simp), fun v hv => ?_, ?_, ?_⟩
  · dsimp only
    rw [hfront, hback, hlink]
    by_cases hz : r.mem.bar.bptr = 0
    · rw [if_pos hz, if_pos hz, hempty.mp hz]
      exact Fifo.singleton hw.1 (Function.update_self ..)
    · have hb := h.chain.back_mem fun e => hz (hempty.mpr e)
      have hbw : w ≠ r.mem.bar.bptr := fun e => hnot (e ▸ hb)
      rw [if_neg hz, if_neg hz]
      refine h.chain.push hw.1 ?_ (fun _ => Function.update_self ..) (fun x hx hxb => ?_)
        (fun hf => absurd (h.chain.null_iff.mp hf) fun e => hz (hempty.mpr e)) fun _ => rfl
      · rw [Function.update_of_ne hbw, Function.update_self]
      · have hxw : x ≠ w := fun e => hnot (e ▸ hx)
        rw [Function.update_of_ne hxb, Function.update_of_ne hxw]
  · rcases List.mem_append.mp hv with hv | hv
    · exact h.workspaces v hv
    · exact List.mem_singleton.mp hv ▸ hw
  · dsimp only
    rw [henrolled, hstate, hpred, List.length_append, List.length_singleton]
    omega
  · dsimp only
    rw [henrolled]
    exact h.small

/-- **A sync** keeps the invariant. -/
theorem Inv.sync (h : Inv r) (hok : Allowed r (.sync w enq)) :
    SyncSound r w enq ∧ ∀ out, MprocBar.sync enq r.mem w = some out → Inv (r.after [w] out) := by
  obtain ⟨hw, hnot, henq⟩ := hok
  have hcount := h.count
  have hsmall := h.small
  unfold SyncSound MprocBar.sync
  dsimp only
  by_cases hlast : r.mem.bar.state &&& mprocBarCount = 0
  · rw [if_pos hlast]
    have hzero := (count_eq_zero_iff _).mp hlast
    by_cases hphase : r.mem.bar.state &&& mprocBarPhase = 0
    · rw [if_pos hphase]
      refine ⟨⟨_, rfl, fun hne => absurd hlast hne,
        fun _ _ => ⟨rfl, rfl, Function.update_self .., rfl, by rw [after_none]⟩,
        fun _ hne => absurd hphase hne⟩, fun out hout => ?_⟩
      cases hout
      rw [after_none]
      have hstate : mprocBarPhase.toNat % 2 ^ 31 = 0 := by decide
      refine ⟨h.chain, h.back, h.workspaces, ?_, hsmall⟩
      dsimp only
      rw [hstate]
      omega
    · rw [if_neg hphase]
      obtain ⟨link, hcomplete⟩ := complete_spec h henq
      rw [hcomplete]
      refine ⟨⟨_, rfl, fun hne => absurd hlast hne, fun _ hz => absurd hz hphase,
        fun _ _ => ⟨rfl, rfl, hnot, rfl, by rw [after_all]⟩⟩, fun out hout => ?_⟩
      cases hout
      rw [after_all]
      have hpred : (r.mem.bar.enrolled - 1).toNat = r.mem.bar.enrolled.toNat - 1 :=
        BitVec.toNat_sub_of_le (show 1 ≤ r.mem.bar.enrolled.toNat by omega)
      refine ⟨Fifo.nil rfl, fun _ => rfl, fun w hw => absurd hw List.not_mem_nil, ?_, hsmall⟩
      dsimp only [List.length_nil]
      rw [hpred]
      omega
  · rw [if_neg hlast]
    have hmore := (count_eq_zero_iff _).not.mp hlast
    refine ⟨⟨_, rfl, fun _ => ⟨rfl, rfl, by rw [after_wait]⟩, fun hz => absurd hz hlast,
      fun hz => absurd hz hlast⟩, fun out hout => ?_⟩
    cases hout
    rw [after_wait]
    refine h.wait hw hnot hmore ?_ rfl ?_ ?_ ?_ <;> dsimp only <;> split_ifs <;> rfl

/-- What a resignation does that leaves somebody who is to sync: it enqueues nobody. -/
def ResignSound (r : Run) (count : Word) (enq : Enqueue) : Prop :=
  ∃ out, resign enq r.mem count = some out ∧ out.enqueued = [] ∧
    (r.after [] out).waiting = r.waiting

/-- **A resignation** keeps the invariant. -/
theorem Inv.resign (h : Inv r) (hok : count ≤ r.mem.bar.state &&& mprocBarCount)
    (enq : Enqueue) : ResignSound r count enq ∧
      ∀ out, MprocBar.resign enq r.mem count = some out → Inv (r.after [] out) := by
  have hcount := h.count
  have hsmall := h.small
  have hle : count.toNat ≤ r.mem.bar.state.toNat % 2 ^ 31 := by
    rw [← toNat_count]
    exact hok
  have hresign : MprocBar.resign enq r.mem count = some ⟨true, [], { r.mem with
      bar := ⟨r.mem.bar.enrolled - count, r.mem.bar.state - count, r.mem.bar.fptr,
        r.mem.bar.bptr⟩ }⟩ := by
    unfold MprocBar.resign
    dsimp only
    rw [if_neg (show ¬ r.mem.bar.state &&& mprocBarCount < count from
      Nat.not_lt_of_le hok)]
  have hstate : (r.mem.bar.state - count).toNat = r.mem.bar.state.toNat - count.toNat := by
    refine BitVec.toNat_sub_of_le (show count.toNat ≤ r.mem.bar.state.toNat from ?_)
    omega
  have henrolled : (r.mem.bar.enrolled - count).toNat =
      r.mem.bar.enrolled.toNat - count.toNat := by
    refine BitVec.toNat_sub_of_le (show count.toNat ≤ r.mem.bar.enrolled.toNat from ?_)
    omega
  refine ⟨⟨_, hresign, rfl, by rw [after_none]⟩, fun out hout => ?_⟩
  rw [hresign] at hout
  cases hout
  rw [after_none]
  refine ⟨h.chain, h.back, h.workspaces, ?_, ?_⟩
  · dsimp only
    rw [hstate, henrolled]
    omega
  · dsimp only
    rw [henrolled]
    omega

theorem Inv.enroll (h : Inv r) (hok : r.mem.bar.enrolled.toNat + count.toNat ≤ 2 ^ 31) :
    Inv ⟨MprocBar.enroll r.mem count, r.waiting⟩ := by
  have hcount := h.count
  have hlt := r.mem.bar.state.isLt
  have hstate : (r.mem.bar.state + count).toNat = r.mem.bar.state.toNat + count.toNat := by
    rw [BitVec.toNat_add, Nat.mod_eq_of_lt]
    omega
  have henrolled : (r.mem.bar.enrolled + count).toNat =
      r.mem.bar.enrolled.toNat + count.toNat := by
    rw [BitVec.toNat_add, Nat.mod_eq_of_lt]
    omega
  refine ⟨h.chain, h.back, h.workspaces, ?_, ?_⟩
  · dsimp only [MprocBar.enroll]
    rw [hstate, henrolled]
    omega
  · dsimp only [MprocBar.enroll]
    rw [henrolled]
    exact hok

/-- **Every step keeps the invariant.** -/
theorem Inv.step {act : Act} (h : Inv r) (hok : Ok r act) (hstep : step r act = some r') :
    Inv r' := by
  cases act with
  | sync w enq =>
    obtain ⟨out, hout, rfl⟩ := Option.map_eq_some_iff.mp hstep
    exact (h.sync hok.1).2 out hout
  | enroll count =>
    cases hstep
    exact h.enroll hok.1
  | resign count enq =>
    obtain ⟨out, hout, rfl⟩ := Option.map_eq_some_iff.mp hstep
    exact (h.resign (hok.2 count enq rfl) enq).2 out hout
  | other link temp =>
    cases hstep
    exact ⟨h.chain.congr hok.1, h.back, h.workspaces, h.count, h.small⟩

/-- A barrier after `mproc_bar_init`. -/
def start (initialCount : Word) (link : Wptr → Wptr) (temp : Wptr → Word) : Run :=
  ⟨⟨init initialCount, link, temp⟩, []⟩

theorem inv_start (hpos : 0 < count.toNat) (hsmall : count.toNat ≤ 2 ^ 31) (link : Wptr → Wptr)
    (temp : Wptr → Word) : Inv (start count link temp) := by
  have hpred : (count - 1).toNat = count.toNat - 1 :=
    BitVec.toNat_sub_of_le (show 1 ≤ count.toNat from hpos)
  refine ⟨Fifo.nil rfl, fun _ => rfl, fun w hw => absurd hw List.not_mem_nil, ?_, hsmall⟩
  dsimp only [start, init, List.length_nil]
  rw [hpred]
  omega

/-- **While every resignation leaves somebody who is to sync**, the chain is exactly who waits, they
and who is to sync are the enrolled, and each call does what it should. -/
theorem phases_sound {link : Wptr → Wptr} {temp : Wptr → Word} (hpos : 0 < count.toNat)
    (hsmall : count.toNat ≤ 2 ^ 31)
    (hreach : Transition.Reach MprocBar.step Ok (start count link temp) r) :
    Fifo 0 r.mem.link r.mem.bar.fptr r.mem.bar.bptr r.waiting ∧ r.waiting.Nodup ∧
      (r.waiting = [] → r.mem.bar.fptr = 0 ∧ r.mem.bar.bptr = 0) ∧
      (r.mem.bar.state &&& mprocBarCount).toNat + 1 + r.waiting.length = r.mem.bar.enrolled.toNat ∧
      (∀ w enq, Allowed r (.sync w enq) → SyncSound r w enq) ∧
      ∀ n enq, Ok r (.resign n enq) → ResignSound r n enq := by
  have hinv : Inv r :=
    hreach.invariant (inv_start hpos hsmall link temp) fun hi hok hstep => hi.step hok hstep
  exact ⟨hinv.chain, hinv.chain.1.nodup,
    fun hnil => ⟨hinv.chain.null_iff.mpr hnil, hinv.back hnil⟩,
    (toNat_count _).symm ▸ hinv.count, fun w enq hok => (hinv.sync hok).1,
    fun n enq hok => (hinv.resign (hok.2 n enq rfl) enq).1⟩

/-- Of four, one waits, one resigns, another waits, and the last one goes on with 1 in `Temp`; when
it comes back, the two are enqueued. -/
theorem phases_sound_four : ∃ r out, Transition.Reach MprocBar.step Ok
    (start 4 (fun _ => 0) fun _ => 0) r ∧
      r.waiting = [8, 16] ∧ Fifo 0 r.mem.link r.mem.bar.fptr r.mem.bar.bptr [8, 16] ∧
      r.mem.temp 24 = 1 ∧ r.mem.bar.state = mprocBarPhase ∧
      step r (.sync 24 fun _ _ l => l) = some (r.after [24] out) ∧ out.enqueued = [8, 16] ∧
      out.runs = true ∧ (r.after [24] out).waiting = [] ∧
      (r.after [24] out).mem.bar.fptr = 0 ∧ (r.after [24] out).mem.bar.state = 2 := by
  have hws : IsWorkspace 8 ∧ IsWorkspace 16 ∧ IsWorkspace 24 := by
    unfold IsWorkspace
    decide
  have hsync : ∀ (r : Run) (w : Wptr), IsWorkspace w → w ∉ r.waiting →
      Ok r (.sync w fun _ _ l => l) := fun r w hw hnot =>
    ⟨⟨hw, hnot, fun _ _ _ _ _ _ _ => rfl⟩, fun _ _ he => by cases he⟩
  have hstart : Transition.Reach MprocBar.step Ok (start 4 (fun _ => 0) fun _ => 0)
      (start 4 (fun _ => 0) fun _ => 0) := .start
  have hfirst := hstart.next (hsync _ 8 hws.1 List.not_mem_nil) rfl
  have hresigns := hfirst.next
    (show Ok _ (.resign 1 fun _ _ l => l) from ⟨by unfold Allowed; decide, fun n enq he => by
      cases he
      decide⟩) rfl
  have hsecond := hresigns.next (hsync _ 16 hws.2.1 (by decide)) rfl
  have hlast := hsecond.next (hsync _ 24 hws.2.2 (by decide)) rfl
  obtain ⟨out, hout, -, -, hphase⟩ := (phases_sound (by decide) (by decide) hlast).2.2.2.2.1 24 _
    (hsync _ 24 hws.2.2 (by decide)).1
  obtain ⟨henqueued, hruns, -, hstate, hnobody⟩ := hphase (by decide) (by decide)
  have hagain := hlast.next (hsync _ 24 hws.2.2 (by decide))
    (show _ = some (Run.after _ [24] out) by rw [step, hout]; rfl)
  exact ⟨_, out, hlast, by decide, (phases_sound (by decide) (by decide) hlast).1, by decide,
    by decide, by rw [step, hout]; rfl, henqueued, hruns, hnobody,
    ((phases_sound (by decide) (by decide) hagain).2.2.1 hnobody).1, hstate⟩

/-- Two are enrolled, one waits, and the other one resigns: who waited is enqueued, stays on the
chain, and is enqueued again when it syncs, while it is running. -/
theorem phases_not_sound : ∃ r, Transition.Reach MprocBar.step Allowed
    (start 2 (fun _ => 0) fun _ => 0) r ∧ r.waiting = [] ∧ r.mem.bar.fptr = 8 ∧
      ¬ Fifo 0 r.mem.link r.mem.bar.fptr r.mem.bar.bptr r.waiting ∧
      ∃ out, Allowed r (.sync 8 fun _ _ l => l) ∧ sync (fun _ _ l => l) r.mem 8 = some out ∧
        out.runs = true ∧ 8 ∈ out.enqueued := by
  have hleaves : ∀ waiting, Enqueue.Leaves (fun _ _ l => l) waiting :=
    fun _ _ _ _ _ _ _ _ => rfl
  have hw : IsWorkspace 8 := by unfold IsWorkspace; decide
  have hfirst : Allowed (start 2 (fun _ => 0) fun _ => 0) (.sync 8 fun _ _ l => l) :=
    ⟨hw, List.not_mem_nil, hleaves _⟩
  have hstart : Transition.Reach MprocBar.step Allowed (start 2 (fun _ => 0) fun _ => 0)
      (start 2 (fun _ => 0) fun _ => 0) := .start
  have hwaits := hstart.next hfirst rfl
  have hresigns := hwaits.next (a := .resign 1 fun _ _ l => l) (by unfold Allowed; decide) rfl
  refine ⟨_, hresigns, by decide, by decide, fun hf => ?_, _, ⟨hw, ?_, hleaves _⟩, rfl, ?_, ?_⟩
  · exact absurd (hf.null_iff.mpr (by decide)) (by decide)
  · decide
  · decide
  · decide

end Sound

end MprocBar

end Ccsp

end Kroc
