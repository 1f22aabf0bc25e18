import Kroc.Ccsp.Semaphore

/-!
# Ccsp/SemaphoreSteps — what a step can do to the semaphore

The kinds of steps, each with what it keeps of the invariant: a call without the semaphore goes on,
a process comes onto the queue, a process is joined, and the call that has the semaphore goes on or
takes the first process.
-/

open Transition

namespace Kroc

namespace Ccsp

namespace Sem

open Function (update)

variable {τ : Type*} {s s' : Sys τ} {q q' : List Wptr} {tok tok' : Token τ} {t : τ} {e : Pc}
  {w : Wptr} {val : ℕ} {m : Mem} {pc : Pc}

/-! ## The back pointer -/

theorem Token.bit_eq_one : tok.bit = 1 ↔ tok = .free := by
  cases tok <;> simp [Token.bit]

theorem Token.bit_eq_zero : tok.bit = 0 ↔ tok ≠ .free := by
  cases tok <;> simp [Token.bit]

theorem Token.bit_le (tok : Token τ) : tok.bit ≤ 1 := by
  cases tok <;> simp [Token.bit]

/-- The front pointer is taken away. -/
def Pc.Takes : Pc → Prop
  | .casBack _ | .restore _ => True
  | _ => False

/-! ## What a step can do -/

theorem claims_of_advance (h : (advance m pc).2.Claims w) : pc.Claims w := by
  cases pc <;> grind [advance, Pc.Claims]

theorem join_of_advance (h : (advance m pc).2 = .join w val) : pc = .tail w m.bptr := by
  cases pc <;> grind [advance]

theorem cleared_of_advance (hpc : pc.Cleared w → m.link w = 0)
    (h : (advance m pc).2.Cleared w) : (advance m pc).1.link w = 0 := by
  cases pc with
  | save v val =>
    obtain rfl : v = w := h
    exact Function.update_self ..
  | _ => grind [advance, Pc.Cleared]

/-- The `Link` words a step writes to, but for that of the process in front. -/
theorem advance_link (hjoin : ∀ w val, pc ≠ .join w val) (x : Wptr) :
    (advance m pc).1.link x = m.link x ∨ pc.Claims x ∧ (advance m pc).1.link x = 0 := by
  cases pc with
  | save v val =>
    by_cases hx : x = v
    · exact .inr ⟨hx.symm, hx ▸ Function.update_self ..⟩
    · exact .inl (Function.update_of_ne hx ..)
  | _ => grind [advance]

/-- A call without the semaphore that does not get it. -/
theorem advance_aside (howns : ¬ pc.Owns) (hjoin : ∀ w val, pc ≠ .join w val)
    (hfast : ∀ w, pc = .fast w → m.bptr ≠ 1) (htail : ∀ w, pc ≠ .tail w m.bptr)
    (htest : pc = .testClear → m.bptr % 2 ≠ 1) :
    ¬ (advance m pc).2.Owns ∧ (advance m pc).1.fptr = m.fptr ∧ (advance m pc).1.bptr = m.bptr := by
  cases pc <;> grind [advance, Pc.Owns, clearBit]

/-- The call that has the semaphore, while it keeps it. -/
theorem advance_own (howns : pc.Owns) (hjoin : ∀ w val, pc ≠ .join w val)
    (he : (advance m pc).2.Owns) (hhand : (advance m pc).2.hand = []) :
    (advance m pc).1.link = m.link ∧ (advance m pc).1.bptr = m.bptr ∧ pc.hand = [] ∧
      ∀ w, ¬ (advance m pc).2.Claims w := by
  cases pc <;> grind [advance, Pc.Owns, Pc.hand, Pc.Claims]

/-- The front pointer, to a call. -/
def Pc.frontOf (m : Mem) : Pc → Wptr
  | .casBack fptr | .restore fptr => fptr
  | _ => m.fptr

theorem Pc.claims_of_cleared {pc : Pc} (h : pc.Cleared w) : pc.Claims w := by
  cases pc <;> first | exact h | exact h.elim

namespace Sys

theorem view_node {x : Wptr} (hx : x ≠ 0) : s.view tok x = s.mem.link x := if_neg hx

theorem view_front : s.view tok 0 = s.frontView tok := if_pos rfl

theorem frontView_eq_frontOf : s.frontView tok = (s.own tok).frontOf s.mem := rfl

theorem frontView_eq (h : ¬ (s.own tok).Takes) : s.frontView tok = s.mem.fptr := by
  unfold frontView
  split
  · rename_i hown
    exact absurd (by rw [hown]; trivial) h
  · rename_i hown
    exact absurd (by rw [hown]; trivial) h
  · rfl

theorem frontView_congr (hown : s'.own tok' = s.own tok) (hfptr : s'.mem.fptr = s.mem.fptr) :
    s'.frontView tok' = s.frontView tok := by
  rw [frontView, frontView, hown, hfptr]

namespace Queued

theorem last_even (h : s.Queued q tok) : (q.getLast?.getD 0 : ℕ) % 2 = 0 := by
  cases hl : q.getLast? with
  | none => rfl
  | some x => exact h.even x (List.mem_of_getLast? hl)

theorem bptr_mod (h : s.Queued q tok) : s.mem.bptr % 2 = tok.bit := by
  rw [h.back, Nat.add_mod, h.last_even, Nat.zero_add, Nat.mod_mod,
    Nat.mod_eq_of_lt (Nat.lt_succ_of_le tok.bit_le)]

theorem clearBit_bptr (h : s.Queued q tok) : clearBit s.mem.bptr = q.getLast?.getD 0 := by
  rw [clearBit, h.bptr_mod, h.back, Nat.add_sub_cancel]

theorem ne_null (h : s.Queued q tok) : ∀ x ∈ q, x ≠ 0 := fun x hx e =>
  (List.nodup_cons.mp h.nodup).1 (by simp [← e, hx])

theorem nodup_anchor (h : s.Queued q tok) : (0 :: q).Nodup :=
  h.nodup.sublist ((List.sublist_append_right _ _).cons_cons _)

/-- The back pointer is null, up to the lock, when nobody is on the queue. -/
theorem nil_of_last (h : s.Queued q tok) (hlast : q.getLast?.getD 0 = 0) : q = [] := by
  by_contra hne
  rw [List.getLast?_eq_some_getLast hne, Option.getD_some] at hlast
  exact h.ne_null _ (List.getLast_mem hne) hlast

theorem waiting (h : s.Queued q tok) : s.waiting = (s.own tok).hand ++ q := by
  rw [Sys.waiting, h.log, List.append_assoc, List.drop_left]

end Queued

/-! ## Threads -/

variable [DecidableEq τ]

/-- Where a thread is, after a step of one of them. -/
theorem pc_of_update (hpc : s'.pc = update s.pc t e) {t' : τ} {pc : Pc} (h : s'.pc t' = pc) :
    t' = t ∧ e = pc ∨ t' ≠ t ∧ s.pc t' = pc := by
  rw [hpc] at h
  by_cases htt : t' = t
  · subst htt
    exact .inl ⟨rfl, (Function.update_self ..).symm.trans h⟩
  · exact .inr ⟨htt, (Function.update_of_ne htt ..).symm.trans h⟩

/-- What holds of where a thread is, after a step. -/
theorem of_update (hpc : s'.pc = update s.pc t e) {P : Pc → Prop} {t' : τ} (h : P (s'.pc t')) :
    t' = t ∧ P e ∨ t' ≠ t ∧ P (s.pc t') := by
  rcases pc_of_update hpc rfl with ⟨htt, he⟩ | ⟨htt, he⟩
  · exact .inl ⟨htt, he ▸ h⟩
  · exact .inr ⟨htt, he ▸ h⟩

theorem pc_self (hpc : s'.pc = update s.pc t e) : s'.pc t = e := by
  rw [hpc, Function.update_self]

theorem pc_ne (hpc : s'.pc = update s.pc t e) {t' : τ} (htt : t' ≠ t) : s'.pc t' = s.pc t' := by
  rw [hpc, Function.update_of_ne htt]

/-- Nobody comes to be joined, or has been. -/
theorem unjoined_of_update (hpc : s'.pc = update s.pc t e) (ht : ∀ w val, s.pc t ≠ .join w val)
    (he : ∀ w val, e ≠ .join w val) (x : Wptr) : s'.Unjoined x ↔ s.Unjoined x := by
  constructor
  · rintro ⟨t', val, ht'⟩
    rcases pc_of_update hpc ht' with ⟨-, h⟩ | ⟨-, h⟩
    · exact absurd h (he x val)
    · exact ⟨t', val, h⟩
  · rintro ⟨t', val, ht'⟩
    have htt : t' ≠ t := fun h => ht x val (h ▸ ht')
    exact ⟨t', val, (pc_ne hpc htt).trans ht'⟩

/-- **The claims**, when one of them goes on. -/
theorem Claimers.update (h : s.Claimers q tok) (hpc : s'.pc = update s.pc t e)
    (he : ∀ w, e.Claims w → (s.pc t).Claims w) (hcleared : ∀ w, e.Cleared w → s'.mem.link w = 0)
    (hlink : ∀ w, w ∉ 0 :: ((s.own tok).hand ++ q) → s.mem.link w = 0 → s'.mem.link w = 0)
    (hsub : ∀ x, x ∈ 0 :: ((s'.own tok').hand ++ q') → x ∈ 0 :: ((s.own tok).hand ++ q)) :
    s'.Claimers q' tok' := by
  have hold : ∀ {t' w}, (s'.pc t').Claims w → (s.pc t').Claims w := by
    intro t' w hc
    rcases of_update hpc hc with ⟨rfl, hc⟩ | ⟨-, hc⟩
    · exact he w hc
    · exact hc
  refine ⟨fun hc => h.even (hold hc), fun hc hm => h.away (hold hc) (hsub _ hm),
    fun hc hc' => h.once (hold hc) (hold hc'), fun {t' w} hc => ?_⟩
  rcases of_update hpc hc with ⟨-, hc⟩ | ⟨-, hc⟩
  · exact hcleared w hc
  · refine hlink w (h.away (t := t') ?_) (h.cleared hc)
    exact Pc.claims_of_cleared hc

/-- **The queue**, when a call goes on that does not touch it. -/
theorem Queued.update (h : s.Queued q tok) (hpc : s'.pc = update s.pc t e)
    (ht : ∀ w val, s.pc t ≠ .join w val) (he : ∀ w val, e ≠ .join w val)
    (hhand : ((s'.own tok').hand).Sublist (s.own tok).hand) (hqueued : s'.queued = s.queued)
    (henqueued : s'.enqueued ++ (s'.own tok').hand = s.enqueued ++ (s.own tok).hand)
    (hfront : s'.frontView tok' = s.frontView tok)
    (hlink : ∀ x ∈ q, s'.mem.link x = s.mem.link x)
    (hback : s'.mem.bptr = q.getLast?.getD 0 + tok'.bit) : s'.Queued q tok' := by
  refine ⟨?_, h.nodup.sublist ((hhand.append_right q).cons_cons 0), h.even,
    h.joining.congr ?_ (fun x hx => ?_) fun x _ =>
    unjoined_of_update hpc ht he x, hback, fun hj => ?_, fun hj hj' => ?_⟩
  · rw [hqueued, henqueued]
    exact h.log
  · rw [view_front, view_front, hfront]
  · rw [view_node (h.ne_null x hx), view_node (h.ne_null x hx), hlink x hx]
  · rcases pc_of_update hpc hj with ⟨-, hj⟩ | ⟨-, hj⟩
    · exact absurd hj (he _ _)
    · exact h.follows hj
  · rcases pc_of_update hpc hj with ⟨-, hj⟩ | ⟨-, hj⟩
    · exact absurd hj (he _ _)
    rcases pc_of_update hpc hj' with ⟨-, hj'⟩ | ⟨-, hj'⟩
    · exact absurd hj' (he _ _)
    · exact h.joinOnce hj hj'

omit [DecidableEq τ] in
/-- What the owner has seen stays while the same processes are to be joined. -/
theorem Seen.congr (hun : ∀ x ∈ q, s'.Unjoined x → s.Unjoined x) {pc : Pc}
    (hfptr : pc.Takes → s.mem.fptr = 0 → s'.mem.fptr = 0) (h : s.Seen q pc) : s'.Seen q pc := by
  cases pc with
  | back f | clearFront f =>
    obtain ⟨r, rfl, hf⟩ := h
    exact ⟨r, rfl, fun hn => hf (hun f List.mem_cons_self hn)⟩
  | casBack f | restore f =>
    obtain ⟨⟨r, rfl, hf⟩, hz⟩ := h
    exact ⟨⟨r, rfl, fun hn => hf (hun f List.mem_cons_self hn)⟩, hfptr trivial hz⟩
  | link f b =>
    obtain ⟨r, rfl, hf, hb⟩ := h
    exact ⟨r, rfl, fun hn => hf (hun f List.mem_cons_self hn), hb⟩
  | setFront f l =>
    obtain ⟨r, rfl, hf, hl⟩ := h
    exact ⟨r, rfl, fun hn => hf (hun f List.mem_cons_self hn),
      fun hn => hl (hun l (List.mem_cons_of_mem _ List.mem_cons_self) hn)⟩
  | setBit toTest => cases toTest <;> exact h
  | _ => trivial

omit [DecidableEq τ] in
/-- A call without the semaphore is not its owner's. -/
theorem Tokens.ne_call (h : s.Tokens q tok) (ht : ¬ (s.pc t).Owns) : tok ≠ .call t :=
  fun e => ht ((h.owns t).mpr e)

theorem own_of_ne (hpc : s'.pc = update s.pc t e) (htok : tok ≠ .call t) :
    s'.own tok = s.own tok := by
  cases tok with
  | call t' => exact pc_ne hpc fun e => htok (by rw [e])
  | _ => rfl

/-- **The token**, when a call without it goes on. -/
theorem Tokens.aside (h : s.Tokens q tok) (hpc : s'.pc = update s.pc t e)
    (ht : ¬ (s.pc t).Owns) (he : ¬ e.Owns) (hholding : s'.holding = s.holding)
    (hseen : s'.Seen q (s.own tok))
    (hwakes : ∀ pc, s.Wakes q pc → s'.Wakes q pc)
    (hself : tok = .free → s.Wakes q (s.pc t) → s'.Wakes q e) : s'.Tokens q tok := by
  refine ⟨hholding.trans h.holding, fun t' => ?_, own_of_ne hpc (h.ne_call ht) ▸ hseen,
    fun hfree hne => ?_⟩
  · by_cases htt : t' = t
    · subst htt
      rw [pc_self hpc]
      exact iff_of_false he (h.ne_call ht)
    · rw [pc_ne hpc htt]
      exact h.owns t'
  · obtain ⟨t', ht'⟩ := h.woken hfree hne
    by_cases htt : t' = t
    · subst htt
      exact ⟨t', by rw [pc_self hpc]; exact hself hfree ht'⟩
    · exact ⟨t', by rw [pc_ne hpc htt]; exact hwakes _ ht'⟩

/-- **A call without the semaphore** goes on, and writes to the `Link` of its process at most. -/
theorem Inv.aside (h : s.Inv q tok) (hpc : s'.pc = update s.pc t e)
    (hlogs : s'.holding = s.holding ∧ s'.queued = s.queued ∧ s'.enqueued = s.enqueued)
    (howns : ¬ (s.pc t).Owns ∧ ¬ e.Owns)
    (hjoin : (∀ w val, s.pc t ≠ .join w val) ∧ ∀ w val, e ≠ .join w val)
    (hclaims : ∀ w, e.Claims w → (s.pc t).Claims w)
    (hcleared : ∀ w, e.Cleared w → s'.mem.link w = 0)
    (hmem : s'.mem.fptr = s.mem.fptr ∧ s'.mem.bptr = s.mem.bptr)
    (hlink : ∀ x, s'.mem.link x = s.mem.link x ∨ (s.pc t).Claims x ∧ s'.mem.link x = 0)
    (hself : tok = .free → s.Wakes q (s.pc t) → s'.Wakes q e) : s'.Inv q tok := by
  obtain ⟨hq, hc, ht⟩ := h
  obtain ⟨hholding, hqueued, henqueued⟩ := hlogs
  have hown := own_of_ne hpc (ht.ne_call howns.1)
  have hsame : ∀ x ∈ q, s'.mem.link x = s.mem.link x := fun x hx => by
    rcases hlink x with hl | ⟨hcl, -⟩
    · exact hl
    · exact absurd (by simp [hx]) (hc.away hcl)
  have hun := unjoined_of_update hpc hjoin.1 hjoin.2
  refine ⟨hq.update hpc hjoin.1 hjoin.2 (by rw [hown]) hqueued (by rw [hown, henqueued]) ?_ hsame
    (hmem.2.trans hq.back), hc.update hpc hclaims hcleared (fun x _ hz => ?_)
    (fun x hx => by rwa [hown] at hx), ht.aside hpc howns.1 howns.2 hholding
    (ht.seen.congr (fun x _ => (hun x).mp) fun _ hz => hmem.1.trans hz) (fun pc hw => ?_) hself⟩
  · rw [frontView, frontView, hown, hmem.1]
  · rcases hlink x with hl | ⟨-, hl⟩
    · exact hl.trans hz
    · exact hl
  · cases pc with
    | join | testClear => trivial
    | test toTest =>
      cases toTest with
      | none => exact fun hz => hw (hmem.1.symm.trans hz)
      | some f => exact ⟨hw.1, fun hz => hw.2 ((hsame f hw.1).symm.trans hz)⟩
    | _ => exact hw.elim

/-! ## Coming onto the queue -/

/-- **A process comes onto the queue**; `val` was the back pointer. -/
theorem Queued.push (h : s.Queued q tok)
    (hpc : s'.pc = Function.update s.pc t (.join w s.mem.bptr))
    (hw : w ∉ 0 :: ((s.own tok).hand ++ q)) (heven : w % 2 = 0) (hcleared : s.mem.link w = 0)
    (ht : ∀ w val, s.pc t ≠ .join w val)
    (hmem : s'.mem = { s.mem with bptr := w }) (hqueued : s'.queued = s.queued ++ [w])
    (henqueued : s'.enqueued = s.enqueued) (hhand : (s'.own tok').hand = (s.own tok).hand)
    (hfront : s'.frontView tok' = s.frontView tok) (hbit : tok'.bit = 0) :
    s'.Queued (q ++ [w]) tok' := by
  have hwq : w ∉ q := fun hm => hw (by simp [hm])
  have hw0 : w ≠ 0 := fun e => hw (by simp [e])
  have hun : ∀ x ∈ q, s'.Unjoined x ↔ s.Unjoined x := by
    intro x hx
    constructor
    · rintro ⟨t', val, ht'⟩
      rcases pc_of_update hpc ht' with ⟨-, he⟩ | ⟨-, he⟩
      · exact absurd hx ((Pc.join.inj he).1 ▸ hwq)
      · exact ⟨t', val, he⟩
    · rintro ⟨t', val, ht'⟩
      have htt : t' ≠ t := fun e => ht x val (e ▸ ht')
      exact ⟨t', val, (pc_ne hpc htt).trans ht'⟩
  have hview : s'.view tok' = s.view tok := by
    funext x
    unfold view
    rw [hfront, hmem]
  refine ⟨?_, ?_, fun x hx => ?_, ?_, ?_, fun hj => ?_, fun hj hj' => ?_⟩
  · rw [hqueued, henqueued, hhand, h.log]
    simp only [List.append_assoc]
  · rw [hhand, ← List.append_assoc, ← List.cons_append]
    exact List.nodup_append.mpr ⟨h.nodup, List.nodup_singleton _, fun x hx y hy e =>
      hw (List.mem_singleton.mp hy ▸ e ▸ hx)⟩
  · rcases List.mem_append.mp hx with hx | hx
    · exact h.even x hx
    · rw [List.mem_singleton.mp hx]
      exact heven
  · rw [hview]
    exact h.joining.push (by rw [view_node hw0, hcleared]) ⟨t, _, pc_self hpc⟩ hun
  · rw [hmem, hbit]
    simp
  · rcases pc_of_update hpc hj with ⟨-, he⟩ | ⟨-, he⟩
    · obtain ⟨rfl, rfl⟩ := Pc.join.inj he
      rw [h.clearBit_bptr]
      exact Follows.push ..
    · exact (h.follows he).append _
  · rcases pc_of_update hpc hj with ⟨htt, he⟩ | ⟨htt, he⟩ <;>
      rcases pc_of_update hpc hj' with ⟨htt', he'⟩ | ⟨htt', he'⟩
    · rw [htt, htt']
    · exact absurd ((Pc.join.inj he).1 ▸ (h.follows he').mem) hwq
    · exact absurd ((Pc.join.inj he').1 ▸ (h.follows he).mem) hwq
    · exact h.joinOnce he he'

theorem Claimers.push (h : s.Claimers q tok)
    (hpc : s'.pc = Function.update s.pc t (.join w val))
    (ht : (s.pc t).Claims w) (hlink : s'.mem.link = s.mem.link)
    (hhand : (s'.own tok').hand = (s.own tok).hand) : s'.Claimers (q ++ [w]) tok' := by
  have hold : ∀ {t' x}, (s'.pc t').Claims x → t' ≠ t ∧ (s.pc t').Claims x := by
    intro t' x hc
    rcases of_update hpc hc with ⟨-, hc⟩ | hc
    · exact hc.elim
    · exact hc
  refine ⟨fun hc => h.even (hold hc).2, fun hc hm => ?_,
    fun hc hc' => h.once (hold hc).2 (hold hc').2, fun {t' x} hc => ?_⟩
  · obtain ⟨htt, hc⟩ := hold hc
    rw [hhand, ← List.append_assoc, ← List.cons_append] at hm
    rcases List.mem_append.mp hm with hm | hm
    · exact h.away hc hm
    · exact htt (h.once hc (List.mem_singleton.mp hm ▸ ht))
  · rw [hlink]
    rcases of_update hpc hc with ⟨-, hc⟩ | ⟨-, hc⟩
    · exact hc.elim
    · exact h.cleared hc

omit [DecidableEq τ] in
theorem Seen.push (hun : ∀ x ∈ q, s'.Unjoined x → s.Unjoined x) {pc : Pc}
    (hfptr : s'.mem.fptr = s.mem.fptr) (h : s.Seen q pc) : s'.Seen (q ++ [w]) pc := by
  have h := Seen.congr hun (fun _ hz => hfptr.trans hz) h
  cases pc with
  | back f | clearFront f =>
    obtain ⟨r, rfl, hf⟩ := h
    exact ⟨r ++ [w], rfl, hf⟩
  | casBack f | restore f =>
    obtain ⟨⟨r, rfl, hf⟩, hz⟩ := h
    exact ⟨⟨r ++ [w], rfl, hf⟩, hz⟩
  | link f b =>
    obtain ⟨r, rfl, hf, hb⟩ := h
    exact ⟨r ++ [w], rfl, hf, fun _ => by simp⟩
  | setFront f l =>
    obtain ⟨r, rfl, hf, hl⟩ := h
    exact ⟨r ++ [w], rfl, hf, hl⟩
  | setBit toTest =>
    cases toTest with
    | none => trivial
    | some f =>
      obtain ⟨c, r, rfl⟩ := h
      exact ⟨c, r ++ [w], rfl⟩
  | _ => trivial

/-- **The swap of the back pointer** queues the process, and takes the semaphore when it is free. -/
theorem Inv.tail (h : s.Inv q tok) (ht : s.pc t = .tail w s.mem.bptr) :
    ∃ tok', (s.advance t).Inv (q ++ [w]) tok' := by
  obtain ⟨hq, hc, htok⟩ := h
  have hstep : Sem.advance s.mem (s.pc t) =
      ({ s.mem with bptr := w }, .join w s.mem.bptr) := by
    rw [ht]
    exact if_pos rfl
  have hpc : (s.advance t).pc = update s.pc t (.join w s.mem.bptr) := by
    unfold Sys.advance
    rw [hstep]
  have hmem : (s.advance t).mem = { s.mem with bptr := w } := by
    unfold Sys.advance
    rw [hstep]
  have hholding : (s.advance t).holding = s.holding := by
    unfold Sys.advance
    rw [hstep, ht]
  have hqueued : (s.advance t).queued = s.queued ++ [w] := by
    unfold Sys.advance
    rw [hstep, ht]
  have henqueued : (s.advance t).enqueued = s.enqueued := by
    unfold Sys.advance
    rw [ht]
  have hclaims : (s.pc t).Claims w := by rw [ht]; rfl
  have hnot : ∀ w val, s.pc t ≠ .join w val := fun _ _ e => Pc.noConfusion (ht.symm.trans e)
  have hcleared : s.mem.link w = 0 := hc.cleared (t := t) (by rw [ht]; rfl)
  have hun : ∀ x ∈ q, (s.advance t).Unjoined x → s.Unjoined x := by
    rintro x hx ⟨t', val, ht'⟩
    rcases pc_of_update hpc ht' with ⟨-, he⟩ | ⟨-, he⟩
    · exact absurd (by simp [(Pc.join.inj he).1, hx]) (hc.away hclaims)
    · exact ⟨t', val, he⟩
  have hbit := hq.bptr_mod
  by_cases hfree : tok = .free
  · subst hfree
    have hown : (s.advance t).own (.call t) = .join w s.mem.bptr := pc_self hpc
    refine ⟨.call t, hq.push hpc (hc.away hclaims) (hc.even hclaims) hcleared hnot hmem hqueued
      henqueued ?_ ?_ rfl, hc.push hpc hclaims (by rw [hmem]) ?_, ?_⟩
    · rw [hown]
      rfl
    · rw [frontView, hown, hmem]
      rfl
    · rw [hown]
      rfl
    · refine ⟨hholding.trans htok.holding, fun t' => ?_, hown ▸ trivial, fun e => nomatch e⟩
      by_cases htt : t' = t
      · subst htt
        rw [pc_self hpc]
        exact iff_of_true hbit rfl
      · rw [pc_ne hpc htt, htok.owns t']
        exact iff_of_false (fun e => nomatch e) fun e => htt (Token.call.inj e).symm
  · have hbit0 := Token.bit_eq_zero.mpr hfree
    have hnotowns : ¬ (s.pc t).Owns := by rw [ht]; exact id
    have hown := own_of_ne hpc (htok.ne_call hnotowns)
    refine ⟨tok, hq.push hpc (hc.away hclaims) (hc.even hclaims) hcleared hnot hmem hqueued
      henqueued (by rw [hown]) ?_ hbit0, hc.push hpc hclaims (by rw [hmem]) (by rw [hown]), ?_⟩
    · rw [frontView, frontView, hown, hmem]
    · refine ⟨hholding.trans htok.holding, fun t' => ?_, ?_, fun e => absurd e hfree⟩
      · by_cases htt : t' = t
        · subst htt
          rw [pc_self hpc]
          refine iff_of_false (fun ho => ?_) (htok.ne_call hnotowns)
          exact absurd (hbit.symm.trans ho) (by rw [hbit0]; exact Nat.zero_ne_one)
        · rw [pc_ne hpc htt]
          exact htok.owns t'
      · rw [hown]
        exact htok.seen.push hun (by rw [hmem])

/-! ## Being joined -/

omit [DecidableEq τ] in
/-- The call that has taken the front pointer away has seen the first process joined. -/
theorem Inv.not_takes (h : s.Inv q tok) (ht : s.pc t = .join w val) (hz : clearBit val = 0) :
    ¬ (s.own tok).Takes := by
  intro htakes
  have hfol := h.queue.follows ht
  have hseen := h.tokens.seen
  have hanchor := (List.nodup_cons.mp h.queue.nodup_anchor).1
  rw [hz] at hfol
  revert htakes hseen
  cases s.own tok with
  | casBack f | restore f =>
    rintro - ⟨⟨r, rfl, hf⟩, -⟩
    exact hf ⟨t, val, hfol.eq_head hanchor ▸ ht⟩
  | _ => exact fun htakes => htakes.elim

/-- **The queue, when a process is joined.** -/
theorem Queued.join (h : s.Queued q tok) (ht : s.pc t = .join w val)
    (hpc : s'.pc = Function.update s.pc t e) (he : ∀ w val, e ≠ .join w val)
    (hhand : (s'.own tok).hand = (s.own tok).hand) (hqueued : s'.queued = s.queued)
    (henqueued : s'.enqueued = s.enqueued) (hview : s'.view tok (clearBit val) = w)
    (hsame : ∀ y ∈ 0 :: q, y ≠ clearBit val → s'.view tok y = s.view tok y)
    (hback : s'.mem.bptr = s.mem.bptr) : s'.Queued q tok := by
  have hun : ∀ x, s'.Unjoined x ↔ s.Unjoined x ∧ x ≠ w := by
    intro x
    constructor
    · rintro ⟨t', val', ht'⟩
      rcases pc_of_update hpc ht' with ⟨-, hj⟩ | ⟨htt, hj⟩
      · exact absurd hj (he x val')
      · exact ⟨⟨t', val', hj⟩, fun e => htt (h.joinOnce hj (e ▸ ht))⟩
    · rintro ⟨⟨t', val', ht'⟩, hx⟩
      have htt : t' ≠ t := fun e => hx (Pc.join.inj (ht'.symm.trans (e ▸ ht))).1
      exact ⟨t', val', (pc_ne hpc htt).trans ht'⟩
  refine ⟨?_, ?_, h.even, h.joining.join h.nodup_anchor (h.follows ht) hview hsame
    (fun hn => ((hun w).mp hn).2 rfl) fun y _ hy => by rw [hun y, and_iff_left hy],
    hback.trans h.back, fun hj => ?_, fun hj hj' => ?_⟩
  · rw [hqueued, henqueued, hhand]
    exact h.log
  · rw [hhand]
    exact h.nodup
  · rcases pc_of_update hpc hj with ⟨-, hj⟩ | ⟨-, hj⟩
    · exact absurd hj (he _ _)
    · exact h.follows hj
  · rcases pc_of_update hpc hj with ⟨-, hj⟩ | ⟨-, hj⟩
    · exact absurd hj (he _ _)
    rcases pc_of_update hpc hj' with ⟨-, hj'⟩ | ⟨-, hj'⟩
    · exact absurd hj' (he _ _)
    · exact h.joinOnce hj hj'

/-- **A process is joined**, and its call goes on: to pass the semaphore on if it has it, and to try
for it if not. -/
theorem Inv.join (h : s.Inv q tok) (ht : s.pc t = .join w val) : (s.advance t).Inv q tok := by
  have hstep : Sem.advance s.mem (s.pc t) = (if clearBit val = 0 then { s.mem with fptr := w }
      else { s.mem with link := update s.mem.link (clearBit val) w },
      if val % 2 = 1 then .front else .testClear) := by
    rw [ht]
    rfl
  have hpc : (s.advance t).pc = update s.pc t (if val % 2 = 1 then .front else .testClear) := by
    unfold Sys.advance
    rw [hstep]
  have hmem : (s.advance t).mem = if clearBit val = 0 then { s.mem with fptr := w }
      else { s.mem with link := update s.mem.link (clearBit val) w } := by
    unfold Sys.advance
    rw [hstep]
  have hlogs : (s.advance t).holding = s.holding ∧ (s.advance t).queued = s.queued ∧
      (s.advance t).enqueued = s.enqueued := by
    unfold Sys.advance
    rw [ht]
    exact ⟨rfl, rfl, rfl⟩
  generalize s.advance t = s' at hpc hmem hlogs
  have htakes := h.not_takes ht
  obtain ⟨hq, hc, htok⟩ := h
  have hfol := hq.follows ht
  have howns : (s.pc t).Owns ↔ val % 2 = 1 := by rw [ht]; exact Iff.rfl
  have hjoin : ∀ w' val', (if val % 2 = 1 then Pc.front else .testClear) ≠ .join w' val' := by
    intro w' val' he
    split_ifs at he
  -- the owner is another call, or this one, which has seen nothing
  have hown : s'.own tok = s.own tok ∨ s'.own tok = .front ∧ s.own tok = .join w val := by
    by_cases htc : tok = .call t
    · subst htc
      have hodd := howns.mp ((htok.owns t).mpr rfl)
      exact .inr ⟨(pc_self hpc).trans (if_pos hodd), ht⟩
    · exact .inl (own_of_ne hpc htc)
  have hhand : (s'.own tok).hand = (s.own tok).hand := by
    rcases hown with hown | ⟨hown, hown'⟩
    · rw [hown]
    · rw [hown, hown']
      rfl
  have hntakes : clearBit val = 0 → ¬ (s'.own tok).Takes := by
    intro hz
    rcases hown with hown | ⟨hown, -⟩
    · rw [hown]
      exact htakes hz
    · rw [hown]
      exact id
  have hfront : clearBit val ≠ 0 → s'.frontView tok = s.frontView tok := by
    intro hz
    rcases hown with hown | ⟨hown, hown'⟩
    · exact frontView_congr hown (by rw [hmem, if_neg hz])
    · rw [frontView, frontView, hown, hown', hmem, if_neg hz]
  have hun : ∀ x ∈ q, s'.Unjoined x → s.Unjoined x := by
    rintro x - ⟨t', val', ht'⟩
    rcases pc_of_update hpc ht' with ⟨-, hj⟩ | ⟨-, hj⟩
    · exact absurd hj (hjoin x val')
    · exact ⟨t', val', hj⟩
  refine ⟨hq.join ht hpc hjoin hhand hlogs.2.1 hlogs.2.2 ?_ (fun y hy hyc => ?_) ?_,
    hc.update hpc ?_ ?_ (fun x hx hz => ?_) fun x hx => ?_, hlogs.1.trans htok.holding,
    fun t' => ?_,
    ?_, fun hfree hne => ⟨t, ?_⟩⟩
  · by_cases hz : clearBit val = 0
    · rw [hz, view_front, frontView_eq (hntakes hz), hmem, if_pos hz]
    · rw [view_node hz, hmem, if_neg hz]
      exact Function.update_self ..
  · by_cases hz : clearBit val = 0
    · have hy0 : y ≠ 0 := fun e => hyc (e.trans hz.symm)
      rw [view_node hy0, view_node hy0, hmem, if_pos hz]
    · by_cases hy0 : y = 0
      · rw [hy0, view_front, view_front, hfront hz]
      · rw [view_node hy0, view_node hy0, hmem, if_neg hz]
        exact Function.update_of_ne hyc ..
  · rw [hmem]
    split_ifs <;> rfl
  · intro w' hw'
    split_ifs at hw' <;> exact hw'.elim
  · intro w' hw'
    split_ifs at hw' <;> exact hw'.elim
  · have hxc : clearBit val ≠ 0 → x ≠ clearBit val := fun hc0 e =>
      hx (by simp [e, hfol.anchor_or_mem.resolve_left hc0])
    rw [hmem]
    split_ifs with hc0
    · exact hz
    · exact (Function.update_of_ne (hxc hc0) ..).trans hz
  · rwa [hhand] at hx
  · by_cases htt : t' = t
    · subst htt
      rw [pc_self hpc, ← htok.owns t', howns]
      split_ifs with hodd
      · exact iff_of_true trivial hodd
      · exact iff_of_false id hodd
    · rw [pc_ne hpc htt]
      exact htok.owns t'
  · rcases hown with hown | ⟨hown, -⟩
    · rw [hown]
      refine htok.seen.congr hun fun htakes' hz => ?_
      have hc0 : clearBit val ≠ 0 := fun e => htakes e htakes'
      rw [hmem, if_neg hc0]
      exact hz
    · rw [hown]
      trivial
  · have heven : ¬ val % 2 = 1 := fun hodd => by
      have := (htok.owns t).mp (howns.mpr hodd)
      rw [hfree] at this
      cases this
    rw [pc_self hpc, if_neg heven]
    trivial

/-! ## The call that has the semaphore -/

omit [DecidableEq τ] in
theorem Tokens.not_free (h : s.Tokens q tok) (ht : (s.pc t).Owns) : tok = .call t :=
  (h.owns t).mp ht

/-- Who has the semaphore, after a step of one thread. -/
theorem Tokens.owns_update (h : s.Tokens q tok) (hpc : s'.pc = Function.update s.pc t e)
    (he : e.Owns ↔ tok' = .call t) (hother : ∀ t', t' ≠ t → (tok' = .call t' ↔ tok = .call t')) :
    ∀ t', (s'.pc t').Owns ↔ tok' = .call t' := by
  intro t'
  by_cases htt : t' = t
  · subst htt
    rw [pc_self hpc]
    exact he
  · rw [pc_ne hpc htt, hother t' htt]
    exact h.owns t'

/-- **The owner looks**, or writes to the front pointer while it has it. -/
theorem Inv.own (h : s.Inv q (.call t)) (hpc : s'.pc = update s.pc t e)
    (hlogs : s'.holding = s.holding ∧ s'.queued = s.queued ∧ s'.enqueued = s.enqueued)
    (he : e.Owns) (hjoin : (∀ w val, s.pc t ≠ .join w val) ∧ ∀ w val, e ≠ .join w val)
    (hclaims : ∀ w, ¬ e.Claims w) (hhand : e.hand = (s.pc t).hand)
    (hfront : s'.frontView (.call t) = s.frontView (.call t))
    (hmem : s'.mem.link = s.mem.link ∧ s'.mem.bptr = s.mem.bptr) (hseen : s'.Seen q e) :
    s'.Inv q (.call t) := by
  obtain ⟨hq, hc, ht⟩ := h
  have hhand' : (s'.own (.call t)).hand = (s.own (.call t)).hand := by
    change (s'.pc t).hand = _
    rw [pc_self hpc]
    exact hhand
  refine ⟨hq.update hpc hjoin.1 hjoin.2 (by rw [hhand']) hlogs.2.1 (by rw [hhand', hlogs.2.2])
    hfront
    (fun x _ => by rw [hmem.1]) (hmem.2.trans hq.back), hc.update hpc
    (fun w hw => absurd hw (hclaims w)) (fun w hw => absurd (Pc.claims_of_cleared hw) (hclaims w))
    (fun x _ hz => by rwa [hmem.1]) fun x hx => by rwa [hhand'] at hx,
    hlogs.1.trans ht.holding, ht.owns_update hpc (iff_of_true he rfl) fun _ _ => Iff.rfl, ?_,
    fun hfree => nomatch hfree⟩
  change s'.Seen q (s'.pc t)
  rw [pc_self hpc]
  exact hseen

/-- **The owner takes the first process** off the queue. -/
theorem Inv.take {f : Wptr} {r : List Wptr} (h : s.Inv (f :: r) (.call t))
    (hpc : s'.pc = update s.pc t (.enqueue f))
    (hlogs : s'.holding = s.holding ∧ s'.queued = s.queued ∧ s'.enqueued = s.enqueued)
    (hjoin : ∀ w val, s.pc t ≠ .join w val) (hhand : (s.pc t).hand = [])
    (hun : ¬ s.Unjoined f) (hhead : ∀ l r', r = l :: r' → ¬ s.Unjoined l)
    (hfptr : s'.mem.fptr = s.mem.link f) (hlink : s'.mem.link = s.mem.link)
    (hback : s'.mem.bptr = r.getLast?.getD 0) : s'.Inv r (.call t) := by
  obtain ⟨hq, hc, ht⟩ := h
  have hown : s'.own (.call t) = .enqueue f := pc_self hpc
  have hown' : (s.own (.call t)).hand = [] := hhand
  have hf0 : f ≠ 0 := hq.ne_null f List.mem_cons_self
  have hnodup := hq.nodup
  rw [hown', List.nil_append] at hnodup
  have hsame : ∀ x ∈ r, s'.view (.call t) x = s.view (.call t) x := fun x hx => by
    have hx0 := hq.ne_null x (List.mem_cons_of_mem _ hx)
    rw [view_node hx0, view_node hx0, hlink]
  have hunj := unjoined_of_update hpc hjoin fun _ _ => Pc.noConfusion
  refine ⟨⟨?_, ?_, fun x hx => hq.even x (List.mem_cons_of_mem _ hx), ?_, hback, fun hj => ?_,
    fun hj hj' => ?_⟩, hc.update hpc (fun _ hw => hw.elim) (fun _ hw => hw.elim)
    (fun x _ hz => by rwa [hlink]) fun x hx => ?_, hlogs.1.trans ht.holding,
    ht.owns_update hpc (iff_of_true trivial rfl) fun _ _ => Iff.rfl, ?_,
    fun hfree => nomatch hfree⟩
  · rw [hlogs.2.1, hlogs.2.2, hq.log, hown, hown', List.append_nil]
    exact List.append_cons _ _ _
  · rw [hown]
    exact hnodup
  · refine (hq.joining.pop ?_ hsame).congr rfl (fun _ _ => rfl) fun x _ => hunj x
    rw [view_front, view_node hf0, frontView_eq (by rw [hown]; exact id), hfptr]
  · rcases pc_of_update hpc hj with ⟨-, hj⟩ | ⟨-, hj⟩
    · exact Pc.noConfusion hj
    have hfol := (hq.follows hj).tail fun e => hun ⟨_, _, e ▸ hj⟩
    refine hfol.move fun e => ?_
    cases r with
    | nil => exact hfol
    | cons l r =>
      have hl := (e ▸ hfol).eq_head (List.nodup_cons.mp (List.nodup_cons.mp hnodup).2).1
      exact hhead l r rfl ⟨_, _, hl ▸ hj⟩
  · rcases pc_of_update hpc hj with ⟨-, hj⟩ | ⟨-, hj⟩
    · exact Pc.noConfusion hj
    rcases pc_of_update hpc hj' with ⟨-, hj'⟩ | ⟨-, hj'⟩
    · exact Pc.noConfusion hj'
    · exact hq.joinOnce hj hj'
  · rw [hown] at hx
    rw [hown']
    exact hx
  · rw [hown]
    trivial

end Sys

end Sem

end Ccsp

end Kroc
