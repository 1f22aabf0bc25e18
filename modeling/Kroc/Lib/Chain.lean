import Mathlib.Data.List.Nodup
import Mathlib.Tactic

/-!
# Lib/Chain — null-terminated chains and queues with a back pointer

A pointer `p` and a link function `next` determine at most one list: the nodes met on the way to
the null pointer `z`.  `Linked` says that this list is `l`; `Fifo` adds the back pointer of a queue,
which means something only while the queue is not empty.
-/

variable {α : Type*} {z p q w f b : α} {next next' : α → α} {l m : List α}

/-! ## Chains -/

/-- The nodes met from `p` along `next`, up to the null pointer `z`, are `l`. -/
def Linked (z : α) (next : α → α) : α → List α → Prop
  | p, [] => p = z
  | p, x :: l => p = x ∧ x ≠ z ∧ Linked z next (next x) l

namespace Linked

@[simp] theorem nil_iff : Linked z next p [] ↔ p = z := Iff.rfl

@[simp] theorem cons_iff {x : α} :
    Linked z next p (x :: l) ↔ p = x ∧ x ≠ z ∧ Linked z next (next x) l := Iff.rfl

/-- **A pointer determines its chain.** -/
theorem unique : ∀ {p : α} {l m : List α}, Linked z next p l → Linked z next p m → l = m
  | _, [], [], _, _ => rfl
  | _, [], _ :: _, hl, hm => absurd (hm.1.symm.trans hl) hm.2.1
  | _, _ :: _, [], hl, hm => absurd (hl.1.symm.trans hm) hl.2.1
  | _, x :: l, y :: m, hl, hm => by
      obtain rfl : x = y := hl.1.symm.trans hm.1
      rw [unique hl.2.2 hm.2.2]

/-- A chain depends on the links of its own nodes only. -/
theorem congr : ∀ {p : α} {l : List α}, (∀ x ∈ l, next' x = next x) → Linked z next p l →
    Linked z next' p l
  | _, [], _, h => h
  | _, x :: _, hsame, h => by
      refine ⟨h.1, h.2.1, ?_⟩
      rw [hsame x (by simp)]
      exact congr (fun y hy => hsame y (by simp [hy])) h.2.2

theorem ne_null : ∀ {p : α} {l : List α}, Linked z next p l → ∀ x ∈ l, x ≠ z
  | _, [], _, x, hx => absurd hx (List.not_mem_nil)
  | _, y :: _, h, x, hx => by
      rcases List.mem_cons.mp hx with rfl | hx
      · exact h.2.1
      · exact ne_null h.2.2 x hx

theorem null_iff (h : Linked z next p l) : p = z ↔ l = [] := by
  cases l with
  | nil => exact iff_of_true h rfl
  | cons x l => exact iff_of_false (h.1 ▸ h.2.1) (List.cons_ne_nil x l)

theorem exists_cons (h : Linked z next p l) (hp : p ≠ z) :
    ∃ m, l = p :: m ∧ Linked z next (next p) m := by
  cases l with
  | nil => exact absurd h hp
  | cons x m => exact ⟨m, by rw [h.1], h.1 ▸ h.2.2⟩

/-- The chain from a node in the middle is what follows it. -/
theorem drop : ∀ {p : α} {l m : List α} {x : α}, Linked z next p (l ++ x :: m) →
    Linked z next x (x :: m)
  | _, [], _, _, h => ⟨rfl, h.2.1, h.2.2⟩
  | _, _ :: _, _, _, h => drop h.2.2

/-- The next of a node is a node, or the end. -/
theorem next_mem {p : α} {l : List α} {x : α} (h : Linked z next p l) (hx : x ∈ l) :
    next x = z ∨ next x ∈ l := by
  obtain ⟨a, m, rfl⟩ := List.append_of_mem hx
  have hrest := (drop h).2.2
  cases m with
  | nil => exact Or.inl hrest
  | cons y m =>
    right
    rw [hrest.1]
    simp

/-- **No node is met twice**: the chain would never end. -/
theorem nodup : ∀ {p : α} {l : List α}, Linked z next p l → l.Nodup
  | _, [], _ => List.nodup_nil
  | _, x :: l, h => by
      refine List.nodup_cons.mpr ⟨fun hx => ?_, nodup h.2.2⟩
      obtain ⟨a, c, rfl⟩ := List.append_of_mem hx
      have heq := unique (drop h.2.2) (l := x :: c) (m := x :: (a ++ x :: c)) ⟨rfl, h.2.1, h.2.2⟩
      have hlen := congrArg List.length heq
      simp only [List.length_cons, List.length_append] at hlen
      omega

/-- A node in front of the chain. -/
theorem push_front (h : Linked z next p l) (hw : w ≠ z) (hnext : next' w = p)
    (hsame : ∀ x ∈ l, next' x = next x) : Linked z next' w (w :: l) :=
  ⟨rfl, hw, hnext ▸ h.congr hsame⟩

/-- A node behind the chain, linked from its last node. -/
theorem push_back : ∀ {p : α} {l : List α}, Linked z next p l → l ≠ [] → w ≠ z →
    next' w = z → (∀ x ∈ l.getLast?, next' x = w) → (∀ x ∈ l.dropLast, next' x = next x) →
    Linked z next' p (l ++ [w])
  | _, [], _, hne, _, _, _, _ => absurd rfl hne
  | _, [x], h, _, hw, hnull, hlast, _ => ⟨h.1, h.2.1, hlast x (by simp), hw, hnull⟩
  | _, x :: y :: l, h, _, hw, hnull, hlast, hsame => by
      refine ⟨h.1, h.2.1, ?_⟩
      rw [hsame x (by simp)]
      exact push_back h.2.2 (List.cons_ne_nil y l) hw hnull
        (fun v hv => hlast v (by simpa using hv)) fun v hv => hsame v (by simp [hv])

/-- A chain behind a chain, linked from its last node. -/
theorem append {f : α} : ∀ {p : α} {l : List α}, Linked z next p l → l ≠ [] →
    Linked z next' f m → (∀ x ∈ l.getLast?, next' x = f) →
    (∀ x ∈ l.dropLast, next' x = next x) → Linked z next' p (l ++ m)
  | _, [], _, hne, _, _, _ => absurd rfl hne
  | _, [x], h, _, hm, hlast, _ => ⟨h.1, h.2.1, hlast x (by simp) ▸ hm⟩
  | _, x :: y :: l, h, _, hm, hlast, hsame => by
      refine ⟨h.1, h.2.1, ?_⟩
      rw [hsame x (by simp)]
      exact append h.2.2 (List.cons_ne_nil y l) hm (fun v hv => hlast v (by simpa using hv))
        fun v hv => hsame v (by simp [hv])

/-- **Changing what follows a place**: only the link of the last node before it is written. -/
theorem relink {rest : List α} : ∀ {t : α} {front : List α},
    Linked z next (next t) (front ++ rest) → (t :: front).Nodup →
    (∀ x ∈ t :: front, x ≠ front.getLastD t → next' x = next x) →
    Linked z next' (next' (front.getLastD t)) m → Linked z next' (next' t) (front ++ m)
  | _, [], _, _, _, hm => hm
  | t, x :: front, h, hnodup, hsame, hm => by
      rw [List.getLastD_cons] at hsame hm
      have ht : t ≠ front.getLastD x := fun e =>
        (List.nodup_cons.mp hnodup).1 (e ▸ List.getLastD_mem_cons)
      refine ⟨(hsame t List.mem_cons_self ht).trans h.1, h.2.1, ?_⟩
      exact relink h.2.2 hnodup.of_cons (fun v hv => hsame v (List.mem_cons_of_mem _ hv)) hm

/-- The chain behind a place. -/
theorem behind {rest : List α} : ∀ {t : α} {front : List α},
    Linked z next (next t) (front ++ rest) → Linked z next (next (front.getLastD t)) rest
  | _, [], h => h
  | _, x :: front, h => by
      rw [List.getLastD_cons]
      exact behind h.2.2

theorem mem_place {t : α} {front : List α} : front.getLastD t ∈ t :: front :=
  List.getLastD_mem_cons

/-- A node that is not in the chain is not met behind the place. -/
theorem ne_place {t : α} {front rest : List α} (h : (t :: (front ++ rest)).Nodup) {x : α}
    (hx : x ∈ rest) : x ≠ front.getLastD t := by
  rintro rfl
  rw [← List.cons_append, List.nodup_append] at h
  exact h.2.2 _ mem_place _ hx rfl

/-- **Cutting nodes out**: the link before them is the link behind them. -/
theorem cut [DecidableEq α] {t : α} {front old rest : List α}
    (h : Linked z next (next t) (front ++ old)) (ht : t ∉ front ++ old)
    (hrest : Linked z next p rest) (hsub : rest ⊆ old) :
    Linked z (Function.update next (front.getLastD t) p)
      (Function.update next (front.getLastD t) p t) (front ++ rest) := by
  have hnodup : (t :: (front ++ old)).Nodup := List.nodup_cons.mpr ⟨ht, h.nodup⟩
  refine h.relink (hnodup.sublist (by simp)) (fun x _ hx => Function.update_of_ne hx ..) ?_
  rw [Function.update_self]
  exact hrest.congr fun x hx => Function.update_of_ne (ne_place hnodup (hsub hx)) ..

/-- **A node in the place of others**. -/
theorem splice [DecidableEq α] {t : α} {front old rest : List α}
    (h : Linked z next (next t) (front ++ old)) (ht : t ∉ front ++ old)
    (hrest : Linked z next p rest) (hsub : rest ⊆ old) (hw : w ≠ z) (hfront : w ∉ t :: front)
    (hwr : w ∉ rest) :
    Linked z (Function.update (Function.update next (front.getLastD t) w) w p)
      (Function.update (Function.update next (front.getLastD t) w) w p t)
      (front ++ w :: rest) := by
  have hnodup : (t :: (front ++ old)).Nodup := List.nodup_cons.mpr ⟨ht, h.nodup⟩
  have hne : ∀ x ∈ t :: front, x ≠ w := fun x hx e => hfront (e ▸ hx)
  refine h.relink (hnodup.sublist (by simp)) (fun x hx hlast => ?_) ?_
  · rw [Function.update_of_ne (hne x hx), Function.update_of_ne hlast]
  · rw [Function.update_of_ne (hne _ mem_place), Function.update_self]
    refine ⟨rfl, hw, ?_⟩
    rw [Function.update_self]
    refine hrest.congr fun x hx => ?_
    have hxw : x ≠ w := fun e => hwr (e ▸ hx)
    rw [Function.update_of_ne hxw,
      Function.update_of_ne (ne_place hnodup (hsub hx))]

end Linked

/-! ## Places in a chain -/

/-- The walk from the place behind `t` past the nodes that `pass`: the node in whose link it
ends. -/
def seekFrom [DecidableEq α] (z : α) (next : α → α) (pass : α → Bool) : ℕ → α → Option α
  | 0, _ => none
  | fuel + 1, t =>
    if next t ≠ z ∧ pass (next t) then seekFrom z next pass fuel (next t) else some t

/-- **The walk ends** behind the nodes that pass. -/
theorem Linked.seek_eq [DecidableEq α] {pass : α → Bool} : ∀ {fuel : ℕ} {t : α} {l : List α},
    Linked z next (next t) l → l.length < fuel →
    seekFrom z next pass fuel t = some ((l.takeWhile pass).getLastD t)
  | fuel + 1, t, [], h, _ => if_neg fun hne => hne.1 h
  | fuel + 1, t, x :: l, h, hlen => by
      rw [seekFrom, h.1]
      cases hx : pass x with
      | false =>
        rw [if_neg fun hp => Bool.false_ne_true hp.2, List.takeWhile_cons_of_neg (by simp [hx])]
        rfl
      | true =>
        rw [if_pos ⟨h.2.1, rfl⟩, List.takeWhile_cons_of_pos hx, List.getLastD_cons]
        exact Linked.seek_eq h.2.2 (Nat.lt_of_succ_lt_succ hlen)

/-! ## Queues -/

/-- A queue with front `f` and back `b` holding `l`; the back pointer of an empty queue is stale. -/
def Fifo (z : α) (next : α → α) (f b : α) (l : List α) : Prop :=
  Linked z next f l ∧ ∀ x ∈ l.getLast?, b = x

namespace Fifo

theorem nil (hf : f = z) : Fifo z next f b [] := ⟨hf, by simp⟩

theorem singleton (hw : w ≠ z) (hnull : next w = z) : Fifo z next w w [w] :=
  ⟨⟨rfl, hw, hnull⟩, by simp⟩

theorem congr (h : Fifo z next f b l) (hsame : ∀ x ∈ l, next' x = next x) :
    Fifo z next' f b l := ⟨h.1.congr hsame, h.2⟩

theorem unique (h : Fifo z next f b l) (h' : Fifo z next f b m) : l = m := h.1.unique h'.1

theorem null_iff (h : Fifo z next f b l) : f = z ↔ l = [] := h.1.null_iff

/-- The back pointer of a queue that is not empty is one of its nodes. -/
theorem back_mem (h : Fifo z next f b l) (hne : l ≠ []) : b ∈ l := by
  rw [h.2 _ (List.getLast?_eq_some_getLast hne)]
  exact List.getLast_mem hne

/-- **Removing the front.** -/
theorem pop {x : α} (h : Fifo z next f b (x :: l)) : f = x ∧ Fifo z next (next f) b l := by
  refine ⟨h.1.1, h.1.1 ▸ h.1.2.2, fun y hy => h.2 y ?_⟩
  cases l with
  | nil => simp at hy
  | cons v l => simpa using hy

theorem exists_pop (h : Fifo z next f b l) (hf : f ≠ z) :
    ∃ m, l = f :: m ∧ Fifo z next (next f) b m := by
  obtain ⟨m, rfl, -⟩ := h.1.exists_cons hf
  exact ⟨m, rfl, h.pop.2⟩

/-- The nodes before the last differ from the back pointer. -/
theorem ne_back (h : Fifo z next f b l) : ∀ x ∈ l.dropLast, x ≠ b := by
  intro x hx
  have hne : l ≠ [] := by
    rintro rfl
    simp at hx
  have hb : b = l.getLast hne := h.2 _ (List.getLast?_eq_some_getLast hne)
  have hnodup : (l.dropLast ++ [l.getLast hne]).Nodup := by
    rw [List.dropLast_append_getLast]
    exact h.1.nodup
  rintro rfl
  rw [List.nodup_append] at hnodup
  exact hnodup.2.2 x hx x (by simp [← hb]) rfl

/-- **Appending a node**: its link is null, the back node's link is the node, all other links of
the queue are as they were. -/
theorem push (h : Fifo z next f b l) (hw : w ≠ z) (hnull : next' w = z)
    (hback : f ≠ z → next' b = w) (hsame : ∀ x ∈ l, x ≠ b → next' x = next x)
    {f' : α} (hempty : f = z → f' = w) (hfull : f ≠ z → f' = f) :
    Fifo z next' f' w (l ++ [w]) := by
  refine ⟨?_, by simp⟩
  by_cases hf : f = z
  · obtain rfl := h.null_iff.mp hf
    exact ⟨hempty hf, hw, hnull⟩
  · have hne : l ≠ [] := fun hl => hf (h.null_iff.mpr hl)
    rw [hfull hf]
    exact h.1.push_back hne hw hnull (fun x hx => h.2 x hx ▸ hback hf)
      fun x hx => hsame x (List.mem_of_mem_dropLast hx) (h.ne_back x hx)

/-- **Appending a chain**, linked from the back node. -/
theorem append (h : Fifo z next f b l) {g d : α} (hm : Linked z next' g m)
    (hd : ∀ x ∈ m.getLast?, d = x) (hne : m ≠ []) (hback : f ≠ z → next' b = g)
    (hsame : ∀ x ∈ l, x ≠ b → next' x = next x) {f' : α} (hempty : f = z → f' = g)
    (hfull : f ≠ z → f' = f) : Fifo z next' f' d (l ++ m) := by
  by_cases hf : f = z
  · obtain rfl := h.null_iff.mp hf
    rw [hempty hf]
    exact ⟨hm, hd⟩
  · have hl : l ≠ [] := fun hl => hf (h.null_iff.mpr hl)
    rw [hfull hf]
    refine ⟨h.1.append hl hm (fun x hx => h.2 x hx ▸ hback hf)
      fun x hx => hsame x (List.mem_of_mem_dropLast hx) (h.ne_back x hx), fun x hx => hd x ?_⟩
    rwa [List.getLast?_append_of_ne_nil _ hne] at hx

end Fifo

/-! ## Routes -/

/-- The nodes met from `f` along `next`, up to and with `b`, are `l`; where `b` leads is
not said. -/
def Route (next : α → α) (f b : α) : List α → Prop
  | [] => False
  | [x] => f = x ∧ b = x
  | x :: y :: l => f = x ∧ Route next (next x) b (y :: l)

namespace Route

theorem ne_nil (h : Route next f b l) : l ≠ [] := by
  rintro rfl
  exact h

theorem singleton (w : α) : Route next w w [w] := ⟨rfl, rfl⟩

theorem getLast? : ∀ {f : α} {l : List α}, Route next f b l → l.getLast? = some b
  | _, [_], h => by rw [h.2]; rfl
  | _, _ :: _ :: _, h => by
      rw [List.getLast?_cons_cons]
      exact getLast? h.2

theorem back_mem (h : Route next f b l) : b ∈ l := List.mem_of_getLast? h.getLast?

theorem front_mem : ∀ {f : α} {l : List α}, Route next f b l → f ∈ l
  | _, [_], h => h.1 ▸ List.mem_cons_self
  | _, _ :: _ :: _, h => h.1 ▸ List.mem_cons_self

theorem congr : ∀ {f : α} {l : List α}, Route next f b l → (∀ x ∈ l, next' x = next x) →
    Route next' f b l
  | _, [_], h, _ => h
  | _, x :: _ :: _, h, hsame => by
      refine ⟨h.1, ?_⟩
      rw [hsame x List.mem_cons_self]
      exact congr h.2 fun v hv => hsame v (List.mem_cons_of_mem _ hv)

/-- **Going on** from the last node. -/
theorem push : ∀ {f : α} {l : List α}, Route next f b l → next' b = w →
    (∀ x ∈ l, x ≠ b → next' x = next x) → l.Nodup → Route next' f w (l ++ [w])
  | _, [x], h, hb, _, _ => ⟨h.1, by rw [← h.2]; exact hb, rfl⟩
  | _, x :: y :: l, h, hb, hsame, hnodup => by
      have hx : x ≠ b := fun e => (List.nodup_cons.mp hnodup).1 (e ▸ h.2.back_mem)
      refine ⟨h.1, ?_⟩
      rw [hsame x List.mem_cons_self hx]
      exact push h.2 hb (fun v hv => hsame v (List.mem_cons_of_mem _ hv)) hnodup.of_cons

/-- **Ending** after the last node. -/
theorem linked : ∀ {f : α} {l : List α}, Route next f b l → next' b = z →
    (∀ x ∈ l, x ≠ b → next' x = next x) → l.Nodup → (∀ x ∈ l, x ≠ z) → Linked z next' f l
  | _, [x], h, hb, _, _, hz => ⟨h.1, hz x List.mem_cons_self, by rw [← h.2]; exact hb⟩
  | _, x :: y :: l, h, hb, hsame, hnodup, hz => by
      have hx : x ≠ b := fun e => (List.nodup_cons.mp hnodup).1 (e ▸ h.2.back_mem)
      refine ⟨h.1, hz x List.mem_cons_self, ?_⟩
      rw [hsame x List.mem_cons_self hx]
      exact linked h.2 hb (fun v hv => hsame v (List.mem_cons_of_mem _ hv)) hnodup.of_cons
        fun v hv => hz v (List.mem_cons_of_mem _ hv)

end Route
