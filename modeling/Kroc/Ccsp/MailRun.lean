import Kroc.Ccsp.Mail

/-!
# Ccsp/MailRun — the mail queues deliver every item once and in order

One lemma for each step of an enqueue and of a dequeue, which keep the invariant of the mail queue,
and what follows for every run.
-/

open Transition

namespace Kroc

namespace Ccsp

namespace Mail

open Function (update)

variable {τ : Type*} [DecidableEq τ]

section Steps

variable {workspace safety : Bool} {s : Sys τ} {q : List ℕ} {t : τ} {ptr : ℕ}

omit [DecidableEq τ] in
@[simp] theorem node_setNode (m : Mem) (ptr v : ℕ) :
    (m.setNode workspace ptr v).node workspace = update (m.node workspace) ptr v := by
  cases workspace <;> rfl

@[simp] theorem rq_setNode (m : Mem) (ptr v : ℕ) : (m.setNode workspace ptr v).rq = m.rq := by
  cases workspace <;> rfl

@[simp] theorem node_rq (m : Mem) (rq : RunQueue) :
    ({ m with rq := rq } : Mem).node workspace = m.node workspace := rfl

namespace Sys

omit [DecidableEq τ] in
theorem view_node {x : ℕ} (hx : x ≠ 0) : s.view workspace x = s.mem.node workspace x := if_neg hx

omit [DecidableEq τ] in
theorem view_front : s.view workspace 0 = s.frontView := if_pos rfl

omit [DecidableEq τ] in
/-- What is on its way. -/
theorem Inv.undelivered (h : s.Inv workspace q) : s.undelivered = s.deq.hand ++ q := by
  rw [Sys.undelivered, h.log, List.append_assoc, List.drop_left]

omit [DecidableEq τ] in
theorem inv_start {priofinity : Word} {pending : BatchPtr} {link next : ℕ → ℕ} :
    (start τ priofinity pending link next).Inv workspace [] where
  log := rfl
  nodup := by simp [start, Deq.hand]
  joining := rfl
  back := rfl
  follows := Enq.noConfusion
  fresh h := by rcases h with h | h <;> exact Enq.noConfusion h
  once h := by rcases h with h | h <;> exact Enq.noConfusion h
  joinOnce := Enq.noConfusion
  cleared := Enq.noConfusion
  seen := trivial

/-! ## Enqueues -/

/-- Where a thread is, after a step of one of them. -/
theorem of_update {f : τ → Enq} {e e' : Enq} {t' : τ} (h : update f t e t' = e') :
    t' = t ∧ e = e' ∨ t' ≠ t ∧ f t' = e' := by
  by_cases htt : t' = t
  · subst htt
    exact .inl ⟨rfl, (Function.update_self ..).symm.trans h⟩
  · exact .inr ⟨htt, (Function.update_of_ne htt ..).symm.trans h⟩

/-- A thread that goes from `s.enq t` to `e`, neither of which joins: who is to be joined stays. -/
theorem unjoined_update {m : Mem} {e : Enq} (h : ∀ a b, s.enq t ≠ .join a b)
    (he : ∀ a b, e ≠ .join a b) (x : ℕ) :
    ({ s with mem := m, enq := update s.enq t e } : Sys τ).Unjoined x ↔ s.Unjoined x := by
  constructor
  · rintro ⟨t', a, ht'⟩
    rcases of_update ht' with ⟨-, ht'⟩ | ⟨-, ht'⟩
    · exact absurd ht' (he a x)
    · exact ⟨t', a, ht'⟩
  · rintro ⟨t', a, ht'⟩
    have htt : t' ≠ t := fun e => h a x (e ▸ ht')
    exact ⟨t', a, (Function.update_of_ne htt ..).trans ht'⟩

/-- What a dequeue has seen stays when the nodes to be joined are the same. -/
theorem Seen.congr {τ : Type*} {s s' : Sys τ} {q : List ℕ}
    (hun : ∀ x ∈ q, s'.Unjoined x ↔ s.Unjoined x) :
    ∀ {pc : Deq}, s.Seen q pc → s'.Seen q pc
  | .back _, ⟨r, hq, h⟩ => ⟨r, hq, fun hn => h ((hun _ (by simp [hq])).mp hn)⟩
  | .casBack _, ⟨r, hq, h⟩ => ⟨r, hq, fun hn => h ((hun _ (by simp [hq])).mp hn)⟩
  | .next _, ⟨c, r, hq, h⟩ => ⟨c, r, hq, fun hn => h ((hun _ (by simp [hq])).mp hn)⟩
  | .setFront _ _, ⟨r, hq, h, h'⟩ =>
      ⟨r, hq, fun hn => h ((hun _ (by simp [hq])).mp hn),
        fun hn => h' ((hun _ (by simp [hq])).mp hn)⟩
  | .front, _ => trivial
  | .casFront _, _ => trivial
  | .poison _, _ => trivial

theorem Inv.call (h : s.Inv workspace q) (hidle : s.enq t = .idle)
    (hok : s.Allowed workspace (.call t ptr)) :
    ({ s with enq := update s.enq t (.clear ptr) } : Sys τ).Inv workspace q := by
  obtain ⟨hz, hmem, hnone⟩ := hok
  rw [h.undelivered] at hmem
  have hjoin : ∀ a b, s.enq t ≠ .join a b := fun a b e => Enq.noConfusion (hidle.symm.trans e)
  have hun := unjoined_update (m := s.mem) (e := .clear ptr) hjoin fun _ _ => Enq.noConfusion
  have hold : ∀ {t' p}, (update s.enq t (.clear ptr) t').Fresh p →
      t' = t ∧ p = ptr ∨ t' ≠ t ∧ p ≠ ptr ∧ (s.enq t').Fresh p := by
    rintro t' p (hf | hf) <;> rcases of_update hf with ⟨htt, he⟩ | ⟨htt, he⟩
    · exact .inl ⟨htt, (Enq.clear.inj he).symm⟩
    · exact .inr ⟨htt, fun e => (hnone t').1 (e ▸ he), .inl he⟩
    · exact Enq.noConfusion he
    · exact .inr ⟨htt, fun e => (hnone t').2 (e ▸ he), .inr he⟩
  refine ⟨h.log, h.nodup, h.joining.congr rfl (fun _ _ => rfl) fun x _ => hun x, h.back,
    fun ht => ?_, fun ht => ?_, fun ht ht' => ?_, fun ht ht' => ?_, fun ht => ?_,
    Seen.congr (fun x _ => hun x) h.seen⟩
  · rcases of_update ht with ⟨-, he⟩ | ⟨-, he⟩
    · exact Enq.noConfusion he
    · exact h.follows he
  · rcases hold ht with ⟨-, rfl⟩ | ⟨-, -, hf⟩
    · exact fun hm => (List.mem_cons.mp hm).elim hz hmem
    · exact h.fresh hf
  · rcases hold ht with ⟨htt, rfl⟩ | ⟨htt, hp, hf⟩ <;>
      rcases hold ht' with ⟨htt', hp'⟩ | ⟨htt', hp', hf'⟩
    · rw [htt, htt']
    · exact absurd rfl hp'
    · exact absurd hp' hp
    · exact h.once hf hf'
  · rcases of_update ht with ⟨-, he⟩ | ⟨-, he⟩
    · exact Enq.noConfusion he
    rcases of_update ht' with ⟨-, he'⟩ | ⟨-, he'⟩
    · exact Enq.noConfusion he'
    · exact h.joinOnce he he'
  · rcases of_update ht with ⟨-, he⟩ | ⟨-, he⟩
    · exact Enq.noConfusion he
    · exact h.cleared he

/-- A thread does not take another item into its hands. -/
theorem fresh_of_update {e : Enq} (he : ∀ p, e.Fresh p → (s.enq t).Fresh p) {t' : τ} {p : ℕ}
    (h : (update s.enq t e t').Fresh p) : (s.enq t').Fresh p := by
  by_cases htt : t' = t
  · rw [htt, Function.update_self] at h
    rw [htt]
    exact he p h
  · rwa [Function.update_of_ne htt] at h

/-- **The link word is cleared.** -/
theorem Inv.clear (h : s.Inv workspace q) (ht : s.enq t = .clear ptr) :
    ({ s with mem := s.mem.setNode workspace ptr 0, enq := update s.enq t (.swap ptr) } :
      Sys τ).Inv workspace q := by
  have hnot := h.fresh (.inl ht)
  obtain ⟨hz, hmem⟩ := not_or.mp (mt List.mem_cons.mpr hnot)
  have hjoin : ∀ a b, s.enq t ≠ .join a b := fun a b e => Enq.noConfusion (ht.symm.trans e)
  have hun := unjoined_update (m := s.mem.setNode workspace ptr 0) (e := .swap ptr) hjoin
    fun _ _ => Enq.noConfusion
  have hfresh : ∀ p, (Enq.swap ptr).Fresh p → (s.enq t).Fresh p := by
    rintro p (he | he)
    · exact Enq.noConfusion he
    · exact .inl (Enq.swap.inj he ▸ ht)
  have hzero : ∀ x, s.mem.node workspace x = 0 →
      (s.mem.setNode workspace ptr 0).node workspace x = 0 := by
    intro x hx
    rw [node_setNode, Function.update_apply]
    split_ifs
    · rfl
    · exact hx
  refine ⟨h.log, h.nodup, h.joining.congr ?_ (fun x hx => ?_) fun x _ => hun x, ?_,
    fun ht' => ?_, fun hf => h.fresh (fresh_of_update hfresh hf),
    fun hf hf' => h.once (fresh_of_update hfresh hf) (fresh_of_update hfresh hf'),
    fun he he' => ?_, fun he => ?_, Seen.congr (fun x _ => hun x) h.seen⟩
  · simp only [view_front, frontView, rq_setNode]
  · have hx0 : x ≠ 0 := fun e => (List.nodup_cons.mp h.nodup).1 (by simp [← e, hx])
    have hxp : x ≠ ptr := fun e => hmem (by simp [← e, hx])
    rw [view_node hx0, view_node hx0, node_setNode, Function.update_of_ne hxp]
  · rw [rq_setNode]
    exact h.back
  · rcases of_update ht' with ⟨-, he⟩ | ⟨-, he⟩
    · exact Enq.noConfusion he
    · exact h.follows he
  · rcases of_update he with ⟨-, he⟩ | ⟨-, he⟩
    · exact Enq.noConfusion he
    rcases of_update he' with ⟨-, he'⟩ | ⟨-, he'⟩
    · exact Enq.noConfusion he'
    · exact h.joinOnce he he'
  · rcases of_update he with ⟨-, he⟩ | ⟨-, he⟩
    · rw [Enq.swap.inj he, node_setNode, Function.update_self]
    · exact hzero _ (h.cleared he)

/-- **The swap** puts the item on the queue. -/
theorem Inv.swap (h : s.Inv workspace q) (ht : s.enq t = .swap ptr) :
    ({ s with
      mem := { s.mem with rq := { s.mem.rq with bptr := ptr } }
      enq := update s.enq t (.join s.mem.rq.bptr ptr)
      swapped := s.swapped ++ [ptr] } : Sys τ).Inv workspace (q ++ [ptr]) := by
  have hnot := h.fresh (.inr ht)
  obtain ⟨hz, hmem⟩ := not_or.mp (mt List.mem_cons.mpr hnot)
  have hq : ptr ∉ q := fun hm => hmem (List.mem_append_right _ hm)
  have hfresh : ∀ p, (Enq.join s.mem.rq.bptr ptr).Fresh p → (s.enq t).Fresh p := by
    rintro p (he | he) <;> exact Enq.noConfusion he
  have hlater : ∀ {t' p}, (update s.enq t (.join s.mem.rq.bptr ptr) t').Fresh p → p ≠ ptr := by
    rintro t' p hf rfl
    have htt := h.once (fresh_of_update hfresh hf) (.inr ht)
    rw [htt, Function.update_self] at hf
    rcases hf with hf | hf <;> exact Enq.noConfusion hf
  have hun : ∀ x ∈ q, ({ s with
      mem := { s.mem with rq := { s.mem.rq with bptr := ptr } }
      enq := update s.enq t (.join s.mem.rq.bptr ptr)
      swapped := s.swapped ++ [ptr] } : Sys τ).Unjoined x ↔ s.Unjoined x := by
    intro x hx
    constructor
    · rintro ⟨t', a, ht'⟩
      rcases of_update ht' with ⟨-, he⟩ | ⟨-, he⟩
      · exact absurd hx ((Enq.join.inj he).2 ▸ hq)
      · exact ⟨t', a, he⟩
    · rintro ⟨t', a, ht'⟩
      have htt : t' ≠ t := fun e => Enq.noConfusion (ht.symm.trans (e ▸ ht'))
      exact ⟨t', a, (Function.update_of_ne htt ..).trans ht'⟩
  refine ⟨?_, ?_, ?_, ?_, fun ht' => ?_, fun hf => ?_,
    fun hf hf' => h.once (fresh_of_update hfresh hf) (fresh_of_update hfresh hf'),
    fun he he' => ?_, fun he => ?_, ?_⟩
  · dsimp only
    rw [h.log]
    simp only [List.append_assoc]
  · have := h.nodup
    rw [← List.append_assoc, ← List.cons_append]
    exact List.nodup_append.mpr ⟨this, List.nodup_singleton _, fun x hx y hy e =>
      hnot (List.mem_singleton.mp hy ▸ e ▸ hx)⟩
  · refine Joining.push (P := s.Unjoined) h.joining ?_ ⟨t, _, Function.update_self ..⟩ hun
    rw [view_node hz]
    exact h.cleared ht
  · simp
  · rcases of_update ht' with ⟨-, he⟩ | ⟨-, he⟩
    · obtain ⟨rfl, rfl⟩ := Enq.join.inj he
      rw [h.back]
      exact Follows.push ..
    · exact (h.follows he).append _
  · have hp := h.fresh (fresh_of_update hfresh hf)
    rw [← List.append_assoc, ← List.cons_append]
    intro hm
    rcases List.mem_append.mp hm with hm | hm
    · exact hp hm
    · exact hlater hf (List.mem_singleton.mp hm)
  · rcases of_update he with ⟨htt, he⟩ | ⟨htt, he⟩ <;>
      rcases of_update he' with ⟨htt', he'⟩ | ⟨htt', he'⟩
    · rw [htt, htt']
    · exact absurd ((Enq.join.inj he).2 ▸ (h.follows he').mem) hq
    · exact absurd ((Enq.join.inj he').2 ▸ (h.follows he).mem) hq
    · exact h.joinOnce he he'
  · rcases of_update he with ⟨-, he⟩ | ⟨-, he⟩
    · exact Enq.noConfusion he
    · exact h.cleared he
  · have hseen := Seen.congr hun h.seen
    revert hseen
    dsimp only
    cases s.deq with
    | back p | casBack p => exact fun ⟨r, hq, hn⟩ => ⟨r ++ [ptr], by rw [hq]; rfl, hn⟩
    | next p => exact fun ⟨c, r, hq, hn⟩ => ⟨c, r ++ [ptr], by rw [hq]; rfl, hn⟩
    | setFront p n => exact fun ⟨r, hq, hn⟩ => ⟨r ++ [ptr], by rw [hq]; rfl, hn⟩
    | front | casFront | poison => exact id

/-- **A node is joined**, by a write that leads from the node in front of it. -/
theorem Inv.join {a b : ℕ} {m : Mem} (h : s.Inv workspace q) (ht : s.enq t = .join a b)
    (hview : ({ s with mem := m, enq := update s.enq t .idle } : Sys τ).view workspace a = b)
    (hsame : ∀ y ∈ 0 :: q, y ≠ a →
      ({ s with mem := m, enq := update s.enq t .idle } : Sys τ).view workspace y =
        s.view workspace y)
    (hback : m.rq.bptr = s.mem.rq.bptr)
    (hnode : ∀ x, x ∉ q → m.node workspace x = s.mem.node workspace x) :
    ({ s with mem := m, enq := update s.enq t .idle } : Sys τ).Inv workspace q := by
  have hfresh : ∀ p, Enq.idle.Fresh p → (s.enq t).Fresh p := by
    rintro p (he | he) <;> exact Enq.noConfusion he
  have hun : ∀ x, ({ s with mem := m, enq := update s.enq t .idle } : Sys τ).Unjoined x ↔
      s.Unjoined x ∧ x ≠ b := by
    intro x
    constructor
    · rintro ⟨t', a', ht'⟩
      rcases of_update ht' with ⟨-, he⟩ | ⟨htt, he⟩
      · exact Enq.noConfusion he
      · exact ⟨⟨t', a', he⟩, fun e => htt (h.joinOnce he (e ▸ ht))⟩
    · rintro ⟨⟨t', a', ht'⟩, hx⟩
      have htt : t' ≠ t := fun e => hx (Enq.join.inj (ht'.symm.trans (e ▸ ht))).2
      exact ⟨t', a', (Function.update_of_ne htt ..).trans ht'⟩
  have hnodup : (0 :: q).Nodup := h.nodup.sublist (List.sublist_append_right _ _ |>.cons_cons _)
  refine ⟨h.log, h.nodup, h.joining.join hnodup (h.follows ht) hview hsame
    (fun hn => ((hun b).mp hn).2 rfl) (fun y _ hy => by rw [hun y, and_iff_left hy]),
    hback.trans h.back, fun ht' => ?_, fun hf => h.fresh (fresh_of_update hfresh hf),
    fun hf hf' => h.once (fresh_of_update hfresh hf) (fresh_of_update hfresh hf'),
    fun he he' => ?_, fun {t' p} he => ?_, ?_⟩
  · rcases of_update ht' with ⟨-, he⟩ | ⟨-, he⟩
    · exact Enq.noConfusion he
    · exact h.follows he
  · rcases of_update he with ⟨-, he⟩ | ⟨-, he⟩
    · exact Enq.noConfusion he
    rcases of_update he' with ⟨-, he'⟩ | ⟨-, he'⟩
    · exact Enq.noConfusion he'
    · exact h.joinOnce he he'
  · rcases of_update he with ⟨-, he⟩ | ⟨-, he⟩
    · exact Enq.noConfusion he
    · have hp := h.fresh (.inr he)
      rw [hnode p fun hm => hp (by simp [hm])]
      exact h.cleared he
  · have hmono : ∀ {x}, ¬ s.Unjoined x →
        ¬ ({ s with mem := m, enq := update s.enq t .idle } : Sys τ).Unjoined x :=
      fun hn hn' => hn ((hun _).mp hn').1
    have hseen := h.seen
    revert hseen
    dsimp only
    cases s.deq with
    | back p | casBack p => exact fun ⟨r, hq, hn⟩ => ⟨r, hq, hmono hn⟩
    | next p => exact fun ⟨c, r, hq, hn⟩ => ⟨c, r, hq, hmono hn⟩
    | setFront p n => exact fun ⟨r, hq, hn, hn'⟩ => ⟨r, hq, hmono hn, hmono hn'⟩
    | front | casFront | poison => exact id

/-- **Every step of an enqueue** keeps the invariant. -/
theorem Inv.enqueue {s' : Sys τ} (h : s.Inv workspace q) (hs : s.enqueue workspace t = some s') :
    ∃ q', s'.Inv workspace q' := by
  obtain ⟨⟨m, e⟩, he, rfl⟩ := Option.map_eq_some_iff.mp hs
  cases ht : s.enq t with
  | idle =>
    rw [ht] at he
    cases he
  | clear ptr =>
    rw [ht] at he
    cases he
    exact ⟨q, h.clear ht⟩
  | swap ptr =>
    rw [ht] at he
    cases he
    exact ⟨q ++ [ptr], h.swap ht⟩
  | join a b =>
    rw [ht] at he
    have hfol := h.follows ht
    have hb : b ∉ s.deq.hand := fun hm =>
      (List.nodup_append.mp (List.nodup_cons.mp h.nodup).2).2.2 b hm b hfol.mem rfl
    have hz : ∀ x ∈ q, x ≠ 0 := fun x hx e =>
      (List.nodup_cons.mp h.nodup).1 (e ▸ List.mem_append_right _ hx)
    refine ⟨q, ?_⟩
    dsimp only [Mail.enqueue] at he ⊢
    split_ifs at he with ha
    · cases he
      subst ha
      refine h.join ht ?_ (fun y hy hy0 => ?_) rfl fun x _ => rfl
      · rw [view_front]
        unfold frontView
        dsimp only
        split
        · rename_i p hp
          exact if_neg fun e => hb (by rw [hp, e]; exact List.mem_singleton_self p)
        · rfl
      · rw [view_node hy0, view_node hy0]
        rfl
    · cases he
      have haq : a ∈ q := hfol.anchor_or_mem.resolve_left ha
      refine h.join ht ?_ (fun y _ hya => ?_) (by rw [rq_setNode]) fun x hx => ?_
      · rw [view_node ha]
        dsimp only
        rw [node_setNode, Function.update_self]
      · by_cases hy0 : y = 0
        · subst hy0
          simp only [view_front, frontView, rq_setNode]
        · rw [view_node hy0, view_node hy0]
          dsimp only
          rw [node_setNode, Function.update_of_ne hya]
      · have hxa : x ≠ a := fun e => hx (e ▸ haq)
        rw [node_setNode, Function.update_of_ne hxa]

omit [DecidableEq τ] in
/-- What others write to. -/
theorem Inv.other {link next : ℕ → ℕ} (h : s.Inv workspace q)
    (hok : s.Allowed workspace (.other link next)) :
    ({ s with mem := { s.mem with link := link, next := next } } : Sys τ).Inv workspace q := by
  refine ⟨h.log, h.nodup, h.joining.congr rfl (fun x hx => ?_) fun x _ => Iff.rfl, h.back,
    h.follows, h.fresh, h.once, h.joinOnce, fun {t' p} he => ?_, h.seen⟩
  · have hx0 : x ≠ 0 := fun e => (List.nodup_cons.mp h.nodup).1 (by simp [← e, hx])
    rw [view_node hx0, view_node hx0]
    exact hok x (.inl (by rw [h.undelivered]; exact List.mem_append_right _ hx))
  · exact (hok p (.inr ⟨t', he⟩)).trans (h.cleared he)

/-! ## Dequeues -/

omit [DecidableEq τ] in
theorem dequeue_inl {safety : Bool} {m : Mem} {pc : Deq}
    (h : Mail.dequeue workspace safety s.mem s.deq = (m, .inl pc)) :
    s.dequeue workspace safety = { s with mem := m, deq := pc } := by
  rw [Sys.dequeue, h]

omit [DecidableEq τ] in
theorem dequeue_null {safety : Bool} {m : Mem}
    (h : Mail.dequeue workspace safety s.mem s.deq = (m, .inr 0)) :
    s.dequeue workspace safety = { s with mem := m, deq := .front } := by
  rw [Sys.dequeue, h]
  rfl

omit [DecidableEq τ] in
theorem dequeue_inr {safety : Bool} {m : Mem} (hz : ptr ≠ 0)
    (h : Mail.dequeue workspace safety s.mem s.deq = (m, .inr ptr)) :
    s.dequeue workspace safety =
      { s with mem := m, deq := .front, returned := s.returned ++ [ptr] } := by
  rw [Sys.dequeue, h]
  dsimp only
  rw [if_neg hz]

omit [DecidableEq τ] in
theorem frontView_eq (h : ∀ p, s.deq ≠ .casFront p) : s.frontView = s.mem.rq.fptr := by
  unfold frontView
  split
  · rename_i p hp
    exact absurd hp (h p)
  · rfl

omit [DecidableEq τ] in
/-- The owner writes, and goes on: what is on the queue stays. -/
theorem Inv.move {m : Mem} {pc : Deq} (h : s.Inv workspace q) (hhand : pc.hand = s.deq.hand)
    (hfront : ({ s with mem := m, deq := pc } : Sys τ).frontView = s.frontView)
    (hback : m.rq.bptr = s.mem.rq.bptr)
    (hnode : ∀ x, x ∉ s.deq.hand → m.node workspace x = s.mem.node workspace x)
    (hseen : s.Seen q pc) : ({ s with mem := m, deq := pc } : Sys τ).Inv workspace q := by
  refine ⟨?_, ?_, h.joining.congr ?_ (fun x hx => ?_) fun x _ => Iff.rfl, hback.trans h.back,
    h.follows, ?_, h.once, h.joinOnce, fun {t' p} he => ?_, Seen.congr (fun _ _ => Iff.rfl) hseen⟩
  · dsimp only
    rw [hhand]
    exact h.log
  · dsimp only
    rw [hhand]
    exact h.nodup
  · rw [view_front, view_front, hfront]
  · have hx0 : x ≠ 0 := fun e => (List.nodup_cons.mp h.nodup).1 (by simp [← e, hx])
    rw [view_node hx0, view_node hx0]
    exact hnode x fun hm => (List.nodup_append.mp (List.nodup_cons.mp h.nodup).2).2.2 x hm x hx rfl
  · dsimp only
    rw [hhand]
    exact h.fresh
  · exact (hnode p fun hm => h.fresh (.inr he) (by simp [hm])).trans (h.cleared he)

omit [DecidableEq τ] in
/-- **A step that only reads.** -/
theorem Inv.look {pc : Deq} (h : s.Inv workspace q) (hd : ∀ p, s.deq ≠ .casFront p)
    (hpc : ∀ p, pc ≠ .casFront p) (hhand : pc.hand = s.deq.hand) (hseen : s.Seen q pc) :
    ({ s with deq := pc } : Sys τ).Inv workspace q :=
  h.move hhand (by rw [frontView_eq hd, frontView_eq hpc]) rfl (fun _ _ => rfl) hseen

omit [DecidableEq τ] in
/-- **The return.** -/
theorem Inv.return (h : s.Inv workspace q) (hd : s.deq = .poison ptr) :
    ({ s with deq := .front, returned := s.returned ++ [ptr] } : Sys τ).Inv workspace q := by
  have hhand : s.deq.hand = [ptr] := by rw [hd]; rfl
  have hlog := h.log
  have hnodup := h.nodup
  have hfresh := @Inv.fresh _ _ _ _ h
  rw [hhand] at hlog hnodup hfresh
  have hx0 : ∀ x ∈ q, x ≠ 0 := fun x hx e => (List.nodup_cons.mp h.nodup).1 (by simp [← e, hx])
  refine ⟨?_, ?_, h.joining.congr ?_ (fun x hx => ?_) fun x _ => Iff.rfl, h.back,
    h.follows, fun hf hm => hfresh hf ?_, h.once, h.joinOnce, h.cleared, trivial⟩
  · change s.swapped = s.returned ++ [ptr] ++ [] ++ q
    rw [List.append_nil]
    exact hlog
  · exact hnodup.sublist ((List.sublist_append_right _ _).cons_cons _)
  · rw [view_front, view_front, frontView_eq fun p e => Deq.noConfusion (hd.symm.trans e)]
    rfl
  · rw [view_node (hx0 x hx), view_node (hx0 x hx)]
  · exact List.Sublist.subset ((List.sublist_append_right _ _).cons_cons _) hm

omit [DecidableEq τ] in
/-- **The end of a dequeue** that has taken `ptr`. -/
theorem Inv.finish {safety : Bool} {m : Mem}
    (h : ({ s with mem := m, deq := .poison ptr } : Sys τ).Inv workspace q)
    (hs : Mail.dequeue workspace safety s.mem s.deq = (m, Mail.finish safety ptr)) :
    (s.dequeue workspace safety).Inv workspace q := by
  have hz : ptr ≠ 0 := fun e => (List.nodup_cons.mp h.nodup).1 (by simp [Deq.hand, e])
  unfold Mail.finish at hs
  split_ifs at hs
  · rw [dequeue_inl hs]
    exact h
  · rw [dequeue_inr hz hs]
    exact h.return rfl

omit [DecidableEq τ] in
/-- **The item of the only node is taken**, by the back pointer. -/
theorem Inv.takeLast {r : List ℕ} (h : s.Inv workspace (ptr :: r)) (hd : s.deq = .casBack ptr)
    (hun : ¬ s.Unjoined ptr) (hback : s.mem.rq.bptr = ptr) :
    ({ s with
      mem := { s.mem with rq := { s.mem.rq with bptr := 0 } }
      deq := .casFront ptr } : Sys τ).Inv workspace [] := by
  have hhand : s.deq.hand = [] := by rw [hd]; rfl
  have hlog := h.log
  have hnodup := h.nodup
  have hfresh := @Inv.fresh _ _ _ _ h
  rw [hhand, List.append_nil] at hlog
  rw [hhand, List.nil_append] at hnodup hfresh
  obtain rfl : r = [] := by
    by_contra hr
    have hlast := h.back
    rw [hback, List.getLast?_cons, Option.getD_some,
      List.getLast?_eq_some_getLast hr, Option.getD_some] at hlast
    exact (List.nodup_cons.mp (List.nodup_cons.mp hnodup).2).1 (hlast ▸ List.getLast_mem hr)
  have hfront : s.mem.rq.fptr = ptr := by
    obtain ⟨-, hn⟩ | ⟨hv, -⟩ := h.joining.head
    · exact absurd hn hun
    · rwa [view_front, frontView_eq fun p e => Deq.noConfusion (hd.symm.trans e)] at hv
  refine ⟨hlog.trans (List.append_nil _ ▸ rfl), hnodup, ?_, rfl, fun {t a b} ht => ?_, hfresh,
    h.once, h.joinOnce, h.cleared, trivial⟩
  · change view workspace _ 0 = 0
    rw [view_front]
    exact if_pos hfront
  · have hfol := h.follows ht
    exact absurd ⟨t, a, List.mem_singleton.mp hfol.mem ▸ ht⟩ hun

omit [DecidableEq τ] in
/-- **The first of several is taken**, by the front pointer. -/
theorem Inv.takeFirst {n : ℕ} {r : List ℕ} (h : s.Inv workspace (ptr :: n :: r))
    (hd : s.deq = .setFront ptr n) (hun : ¬ s.Unjoined ptr) (hun' : ¬ s.Unjoined n) :
    ({ s with
      mem := { s.mem with rq := { s.mem.rq with fptr := n } }
      deq := .poison ptr } : Sys τ).Inv workspace (n :: r) := by
  have hhand : s.deq.hand = [] := by rw [hd]; rfl
  have hlog := h.log
  have hnodup := h.nodup
  have hfresh := @Inv.fresh _ _ _ _ h
  rw [hhand, List.append_nil] at hlog
  rw [hhand, List.nil_append] at hnodup hfresh
  have hx0 : ∀ x ∈ ptr :: n :: r, x ≠ 0 := fun x hx e => (List.nodup_cons.mp hnodup).1 (e ▸ hx)
  obtain ⟨hptr, -⟩ := List.nodup_cons.mp (List.nodup_cons.mp hnodup).2
  have hnext : s.view workspace ptr = n := h.joining.2.2.2.1 hun'
  refine ⟨?_, hnodup, h.joining.pop ?_ fun x hx => ?_, ?_, fun {t a b} ht => ?_, hfresh,
    h.once, h.joinOnce, h.cleared, trivial⟩
  · rw [hlog]
    exact (List.append_cons _ _ _)
  · rw [hnext, view_front]
    rfl
  · have := hx0 x (List.mem_cons_of_mem _ hx)
    rw [view_node this, view_node this]
    rfl
  · rw [h.back, List.getLast?_cons_cons]
  · have hb : b ≠ ptr := fun e => hun ⟨t, a, e ▸ ht⟩
    have hfol := (h.follows ht).tail hb
    refine hfol.move fun e => hun' ⟨t, a, ?_⟩
    subst e
    rw [← hfol.eq_head hptr]
    exact ht

omit [DecidableEq τ] in
/-- **Every step of a dequeue** keeps the invariant. -/
theorem Inv.dequeue {safety : Bool} (h : s.Inv workspace q) :
    ∃ q', (s.dequeue workspace safety).Inv workspace q' := by
  have hseen := h.seen
  cases hd : s.deq with
  | front =>
    have hne : ∀ p, s.deq ≠ .casFront p := fun p e => Deq.noConfusion (hd.symm.trans e)
    refine ⟨q, ?_⟩
    by_cases hf : s.mem.rq.fptr = 0
    · rw [dequeue_null (m := s.mem) (by rw [hd, Mail.dequeue, if_neg (not_not.mpr hf)])]
      exact h.look hne (fun _ => Deq.noConfusion) (by rw [hd]) trivial
    · rw [dequeue_inl (m := s.mem) (by rw [hd, Mail.dequeue, if_pos hf])]
      have hview : s.view workspace 0 = s.mem.rq.fptr := view_front.trans (frontView_eq hne)
      obtain ⟨r, hq, hun, -⟩ := h.joining.exists_cons (hview ▸ hf)
      rw [hview] at hq hun
      exact h.look hne (fun _ => Deq.noConfusion) (by rw [hd]; rfl) ⟨r, hq, hun⟩
  | back p =>
    have hne : ∀ p, s.deq ≠ .casFront p := fun p e => Deq.noConfusion (hd.symm.trans e)
    rw [hd] at hseen
    obtain ⟨r, rfl, hun⟩ := hseen
    refine ⟨p :: r, ?_⟩
    rw [dequeue_inl (m := s.mem) (by rw [hd]; rfl)]
    split_ifs with hb
    · exact h.look hne (fun _ => Deq.noConfusion) (by rw [hd]; rfl) ⟨r, rfl, hun⟩
    · refine h.look hne (fun _ => Deq.noConfusion) (by rw [hd]; rfl) ?_
      cases r with
      | nil => exact absurd h.back.symm hb
      | cons c r => exact ⟨c, r, rfl, hun⟩
  | casBack p =>
    have hne : ∀ p, s.deq ≠ .casFront p := fun p e => Deq.noConfusion (hd.symm.trans e)
    rw [hd] at hseen
    obtain ⟨r, rfl, hun⟩ := hseen
    by_cases hb : s.mem.rq.bptr = p
    · refine ⟨[], ?_⟩
      rw [dequeue_inl (by rw [hd, Mail.dequeue, if_pos hb])]
      exact h.takeLast hd hun hb
    · refine ⟨p :: r, ?_⟩
      rw [dequeue_inl (m := s.mem) (by rw [hd, Mail.dequeue, if_neg hb])]
      refine h.look hne (fun _ => Deq.noConfusion) (by rw [hd]; rfl) ?_
      cases r with
      | nil => exact absurd h.back hb
      | cons c r => exact ⟨c, r, rfl, hun⟩
  | casFront p =>
    refine ⟨q, Inv.finish ?_ (by rw [hd]; rfl)⟩
    refine h.move (by rw [hd]; rfl) ?_ ?_ (fun x _ => ?_) trivial
    · have hold : s.frontView = if s.mem.rq.fptr = p then 0 else s.mem.rq.fptr := by
        rw [frontView, hd]
      rw [frontView_eq fun _ => Deq.noConfusion, hold]
      split_ifs <;> rfl
    · split_ifs <;> rfl
    · split_ifs <;> rfl
  | next p =>
    have hne : ∀ p, s.deq ≠ .casFront p := fun p e => Deq.noConfusion (hd.symm.trans e)
    rw [hd] at hseen
    obtain ⟨c, r, rfl, hun⟩ := hseen
    have hx0 : p ≠ 0 := fun e => (List.nodup_cons.mp h.nodup).1 (by simp [e])
    refine ⟨p :: c :: r, ?_⟩
    by_cases hf : s.mem.node workspace p = 0
    · rw [dequeue_null (m := s.mem) (by rw [hd, Mail.dequeue, if_neg (not_not.mpr hf)])]
      exact h.look hne (fun _ => Deq.noConfusion) (by rw [hd]; rfl) trivial
    · rw [dequeue_inl (m := s.mem) (by rw [hd, Mail.dequeue, if_pos hf])]
      refine h.look hne (fun _ => Deq.noConfusion) (by rw [hd]; rfl) ?_
      obtain ⟨hz, -⟩ | ⟨hc, hun'⟩ := h.joining.2.2.head
      · exact absurd (view_node hx0 ▸ hz) hf
      · rw [view_node hx0] at hc
        exact ⟨r, by rw [hc], hun, hc.symm ▸ hun'⟩
  | setFront p n =>
    rw [hd] at hseen
    obtain ⟨r, rfl, hun, hun'⟩ := hseen
    exact ⟨n :: r, (h.takeFirst hd hun hun').finish (by rw [hd]; rfl)⟩
  | poison p =>
    have hp : p ≠ 0 := fun e => (List.nodup_cons.mp h.nodup).1 (by simp [hd, Deq.hand, e])
    refine ⟨q, ?_⟩
    rw [dequeue_inr hp (by rw [hd]; rfl)]
    refine Inv.return (s := { s with mem := s.mem.setNode workspace p 0xffffffff }) ?_ hd
    refine h.move rfl ?_ (by rw [rq_setNode]) (fun x hx => ?_) hseen
    · simp only [frontView, rq_setNode]
    · rw [node_setNode, Function.update_of_ne fun e => hx (by rw [hd, e]; simp [Deq.hand])]

/-- **Every step keeps the invariant.** -/
theorem Inv.step {safety : Bool} {act : Act τ} {s' : Sys τ} (h : ∃ q, s.Inv workspace q)
    (hok : s.Allowed workspace act) (hs : s.step workspace safety act = some s') :
    ∃ q, s'.Inv workspace q := by
  obtain ⟨q, h⟩ := h
  cases act with
  | call t ptr =>
    rw [Sys.step] at hs
    split_ifs at hs with hidle
    cases hs
    exact ⟨q, h.call hidle hok⟩
  | enqueue t => exact h.enqueue hs
  | dequeue =>
    cases hs
    exact h.dequeue
  | other link next =>
    cases hs
    exact ⟨q, h.other hok⟩

/-! ## What is promised -/

omit [DecidableEq τ] in
/-- **`NULL` is returned** from a queue that is not empty only while an enqueue is in progress. -/
theorem Inv.null {safety : Bool} (h : s.Inv workspace q) (hne : s.undelivered ≠ [])
    (hnull : (Mail.dequeue workspace safety s.mem s.deq).2 = .inr 0) :
    ∃ t, s.enq t ≠ .idle := by
  have hbusy : ∀ {x}, s.Unjoined x → ∃ t, s.enq t ≠ .idle := by
    rintro x ⟨t, a, ht⟩
    exact ⟨t, fun e => Enq.noConfusion (e.symm.trans ht)⟩
  have hseen := h.seen
  have hnodup := h.nodup
  have hfinish : ∀ {p}, p ≠ 0 → Mail.finish safety p ≠ .inr 0 := by
    intro p hp he
    unfold Mail.finish at he
    split_ifs at he
    exact hp (Sum.inr.inj he)
  cases hd : s.deq with
  | front =>
    rw [hd] at hnull
    rw [h.undelivered, hd] at hne
    obtain ⟨b, r, rfl⟩ := List.exists_cons_of_ne_nil (show q ≠ [] from hne)
    have hb : b ≠ 0 := fun e => (List.nodup_cons.mp hnodup).1 (by simp [e])
    have hf : s.mem.rq.fptr = 0 := by
      by_contra hf
      rw [Mail.dequeue, if_pos hf] at hnull
      exact Sum.inl_ne_inr hnull
    have hview : s.view workspace 0 = 0 :=
      (view_front.trans (frontView_eq fun p e => Deq.noConfusion (hd.symm.trans e))).trans hf
    obtain ⟨-, hun⟩ | ⟨hz, -⟩ := h.joining.head
    · exact hbusy hun
    · exact absurd (hz.symm.trans hview) hb
  | next p =>
    rw [hd] at hnull hseen
    obtain ⟨c, r, rfl, -⟩ := hseen
    have hp : p ≠ 0 := fun e => (List.nodup_cons.mp hnodup).1 (by simp [e])
    have hc : c ≠ 0 := fun e => (List.nodup_cons.mp hnodup).1 (by simp [e])
    have hf : s.mem.node workspace p = 0 := by
      by_contra hf
      dsimp only [Mail.dequeue] at hnull
      rw [if_pos hf] at hnull
      exact Sum.inl_ne_inr hnull
    obtain ⟨-, hun⟩ | ⟨hz, -⟩ := h.joining.2.2.head
    · exact hbusy hun
    · rw [view_node hp] at hz
      exact absurd (hz.symm.trans hf) hc
  | back p =>
    rw [hd] at hnull
    exact absurd hnull Sum.inl_ne_inr
  | casBack p =>
    rw [hd, Mail.dequeue] at hnull
    split_ifs at hnull
  | casFront p =>
    rw [hd] at hnull
    exact absurd hnull (hfinish fun e => (List.nodup_cons.mp hnodup).1 (by simp [hd, Deq.hand, e]))
  | setFront p n =>
    rw [hd] at hnull hseen
    obtain ⟨r, rfl, -⟩ := hseen
    exact absurd hnull (hfinish fun e => (List.nodup_cons.mp hnodup).1 (by simp [e]))
  | poison p =>
    rw [hd] at hnull
    exact absurd (Sum.inr.inj hnull) fun e =>
      (List.nodup_cons.mp hnodup).1 (by simp [hd, Deq.hand, e])

end Sys

/-- How far a dequeue is from its end. -/
def Deq.rank : Deq → ℕ
  | .front => 6
  | .back _ => 5
  | .casBack _ => 4
  | .next _ => 3
  | .casFront _ | .setFront _ _ => 2
  | .poison _ => 1

/-- **A dequeue ends**: it has no loop. -/
theorem dequeue_rank {safety : Bool} {m m' : Mem} {pc pc' : Deq}
    (h : dequeue workspace safety m pc = (m', .inl pc')) : pc'.rank < pc.rank ∧ pc' ≠ .front := by
  have hfinish : ∀ {p}, Mail.finish safety p = .inl pc' → pc' = .poison p := by
    intro p he
    unfold Mail.finish at he
    split_ifs at he
    exact (Sum.inl.inj he).symm
  have h₂ := congrArg Prod.snd h
  cases pc <;> dsimp only [dequeue] at h₂
  case front =>
    split_ifs at h₂
    cases h₂
    exact ⟨by norm_num [Deq.rank], Deq.noConfusion⟩
  case back =>
    cases h₂
    split_ifs <;> exact ⟨by norm_num [Deq.rank], Deq.noConfusion⟩
  case casBack =>
    split_ifs at h₂ <;> cases h₂ <;> exact ⟨by norm_num [Deq.rank], Deq.noConfusion⟩
  case casFront =>
    rw [hfinish h₂]
    exact ⟨by norm_num [Deq.rank], Deq.noConfusion⟩
  case next =>
    split_ifs at h₂
    cases h₂
    exact ⟨by norm_num [Deq.rank], Deq.noConfusion⟩
  case setFront =>
    rw [hfinish h₂]
    exact ⟨by norm_num [Deq.rank], Deq.noConfusion⟩
  case poison => cases h₂

namespace Sys

omit [DecidableEq τ] in
/-- **While no enqueue is in progress** a dequeue returns the first item. -/
theorem returns_of_quiet {safety : Bool} {rest : List ℕ} : ∀ {s : Sys τ} {q : List ℕ},
    s.Inv workspace q → s.Quiet → s.undelivered = ptr :: rest →
      s.Returns workspace safety ptr := by
  suffices h : ∀ (n : ℕ) (s : Sys τ) (q : List ℕ), s.deq.rank = n → s.Inv workspace q → s.Quiet →
      s.undelivered = ptr :: rest → s.Returns workspace safety ptr from
    fun {_ _} hinv hq hu => h _ _ _ rfl hinv hq hu
  intro n
  induction n using Nat.strong_induction_on with
  | _ n ih =>
    intro s q hn h hquiet hu
    obtain ⟨q', h'⟩ := h.dequeue
    cases hd : (Mail.dequeue workspace safety s.mem s.deq).2 with
    | inl pc =>
      have hs := dequeue_inl (Prod.ext rfl hd)
      obtain ⟨hrank, hpc⟩ := dequeue_rank (Prod.ext rfl hd)
      rw [hs] at h'
      obtain ⟨k, hk, hfront, hret, hbusy⟩ := ih pc.rank (hn ▸ hrank) _ q' rfl h' hquiet hu
      refine ⟨k + 1, Nat.succ_pos k, ?_, ?_, fun j hj hjk => ?_⟩
      · rw [Function.iterate_succ_apply, hs]
        exact hfront
      · rw [Function.iterate_succ_apply, hs]
        exact hret
      · obtain ⟨j, rfl⟩ := Nat.exists_eq_succ_of_ne_zero hj.ne'
        rw [Function.iterate_succ_apply, hs]
        rcases Nat.eq_zero_or_pos j with rfl | hj
        · exact hpc
        · exact hbusy j hj (Nat.lt_of_succ_lt_succ hjk)
    | inr p =>
      have hp : p ≠ 0 := by
        rintro rfl
        obtain ⟨t, ht⟩ := h.null (by rw [hu]; exact List.cons_ne_nil _ _) hd
        exact ht (hquiet t)
      have hs := dequeue_inr hp (Prod.ext rfl hd)
      rw [hs] at h'
      refine ⟨1, Nat.one_pos, by rw [Function.iterate_one, hs], ?_, fun j hj hj' => ?_⟩
      · have hlog := h'.log
        rw [Function.iterate_one, hs]
        dsimp only [Deq.hand] at hlog ⊢
        rw [Sys.undelivered, hlog, List.append_nil, List.append_assoc, List.drop_left] at hu
        rw [(List.cons.inj hu).1]
      · exact absurd hj' (Nat.not_lt.mpr hj)

end Sys

/-- **The mail queues deliver every item once and in order**: what is returned is a prefix of what
has been swapped in; a dequeue that returns `NULL` while items are to be returned does so while an
enqueue is in progress; and when none is, a dequeue returns the first of them. -/
theorem mail_sound {safety : Bool} {priofinity : Word} {pending : BatchPtr} {link next : ℕ → ℕ}
    (hreach : Reach (Sys.step workspace safety) (Sys.Allowed workspace)
      (start τ priofinity pending link next) s) :
    s.swapped = s.returned ++ s.undelivered ∧ s.undelivered.Nodup ∧
      (s.undelivered ≠ [] → (dequeue workspace safety s.mem s.deq).2 = .inr 0 →
        ∃ t, s.enq t ≠ .idle) ∧
      (s.Quiet → s.deq = .front → ∀ ptr rest, s.undelivered = ptr :: rest →
        s.Returns workspace safety ptr) := by
  obtain ⟨q, h⟩ := hreach.invariant (I := fun s : Sys τ => ∃ q, s.Inv workspace q)
    ⟨[], Sys.inv_start⟩ fun hi hok hstep => Sys.Inv.step hi hok hstep
  refine ⟨?_, ?_, h.null, fun hquiet _ ptr rest hu => Sys.returns_of_quiet h hquiet hu⟩
  · rw [h.undelivered, h.log, List.append_assoc]
  · rw [h.undelivered]
    exact (List.nodup_cons.mp h.nodup).2

end Steps

/-- Two threads enqueue 8 and 16, and 16 is swapped in first.  Until it is joined a dequeue returns
`NULL`, then both are returned in the order of their swaps. -/
theorem mail_sound_two : ∃ s₁ s₂ s₃ : Sys Bool,
    (s₁.undelivered = [16, 8] ∧ (dequeue true false s₁.mem s₁.deq).2 = .inr 0 ∧
      ∃ t, s₁.enq t ≠ .idle) ∧
    (s₂.Quiet ∧ s₂.undelivered = [16, 8] ∧ s₂.Returns true false 16) ∧
    Reach (Sys.step true false) (Sys.Allowed true) (start Bool 1 0 (fun _ => 0) fun _ => 0) s₃ ∧
      s₃.returned = [16, 8] ∧ s₃.swapped = s₃.returned ++ s₃.undelivered := by
  have henq : ∀ (s : Sys Bool) (t : Bool), s.Allowed true (.enqueue t) := fun _ _ => trivial
  have hdeq : ∀ s : Sys Bool, s.Allowed true .dequeue := fun _ => trivial
  have hstart : Reach (Sys.step true false) (Sys.Allowed true)
      (start Bool 1 0 (fun _ => 0) fun _ => 0) (start Bool 1 0 (fun _ => 0) fun _ => 0) := .start
  have hcall := hstart.next
    (show Sys.Allowed true _ (.call false 8) from ⟨by decide, by decide, by decide⟩) rfl
  have hcall' := hcall.next
    (show Sys.Allowed true _ (.call true 16) from ⟨by decide, by decide, by decide⟩) rfl
  have hclear := (hcall'.next (henq _ false) rfl).next (henq _ true) rfl
  have hswap := (hclear.next (henq _ true) rfl).next (henq _ false) rfl
  have hjoin := hswap.next (henq _ false) rfl
  have hquiet := hjoin.next (henq _ true) rfl
  have hfirst :=
    (((hquiet.next (hdeq _) rfl).next (hdeq _) rfl).next (hdeq _) rfl).next (hdeq _) rfl
  have hboth := (((hfirst.next (hdeq _) rfl).next (hdeq _) rfl).next (hdeq _) rfl).next (hdeq _) rfl
  refine ⟨_, _, _, ⟨rfl, rfl, (mail_sound hjoin).2.2.1 (by decide) rfl⟩,
    ⟨?_, rfl, (mail_sound hquiet).2.2.2 ?_ rfl 16 [8] rfl⟩, hboth, rfl, (mail_sound hboth).1⟩
  all_goals exact fun t => by cases t <;> rfl

end Mail

end Ccsp

end Kroc
