import Mathlib.Data.List.Nodup
import Mathlib.Tactic

/-!
# Lib/Joining — queues whose nodes are linked in a second step

A node comes onto a lock-free queue in two steps of its own: a swap of the back pointer, which fixes
its place, and a write to the link word of the node in front of it, which may come much later.
`Joining z next P a l` says that from the anchor `a` the nodes `l` are linked along `next`, except
that the link in front of a node of `P`, which is still to be joined, is the null pointer `z`.
-/

variable {α : Type*} {z a b c x w : α} {next next' : α → α} {P P' : α → Prop} {l m : List α}

/-! ## Neighbours -/

/-- `b` comes right after `a`, in `l` behind its anchor. -/
def Follows (a b : α) : α → List α → Prop
  | _, [] => False
  | x, y :: l => a = x ∧ b = y ∨ Follows a b y l

namespace Follows

theorem mem : ∀ {x : α} {l : List α}, Follows a b x l → b ∈ l
  | _, _ :: _, .inl h => h.2 ▸ List.mem_cons_self
  | _, _ :: _, .inr h => List.mem_cons_of_mem _ h.mem

theorem anchor_or_mem : ∀ {x : α} {l : List α}, Follows a b x l → a = x ∨ a ∈ l
  | _, _ :: _, .inl h => .inl h.1
  | _, _ :: _, .inr h => .inr (by
      rcases h.anchor_or_mem with rfl | h
      · exact List.mem_cons_self
      · exact List.mem_cons_of_mem _ h)

theorem append (m : List α) : ∀ {x : α} {l : List α}, Follows a b x l → Follows a b x (l ++ m)
  | _, _ :: _, .inl h => .inl h
  | _, _ :: _, .inr h => .inr (h.append m)

/-- A node that is put on comes after the last one. -/
theorem push (w : α) : ∀ (x : α) (l : List α), Follows (l.getLast?.getD x) w x (l ++ [w])
  | _, [] => .inl ⟨rfl, rfl⟩
  | _, [_] => .inr (.inl ⟨rfl, rfl⟩)
  | _, y :: y' :: l => .inr (by
      rw [List.getLast?_cons_cons]
      have h := push w y (y' :: l)
      rwa [List.getLast?_cons, Option.getD_some] at h ⊢)

/-- Behind the first node. -/
theorem tail (h : Follows a b x (c :: l)) (hb : b ≠ c) : Follows a b c l :=
  h.resolve_left fun e => hb e.2

/-- Another anchor, when it is not the node in front. -/
theorem move {y : α} (h : Follows a b x l) (ha : a ≠ x) : Follows a b y l := by
  cases l with
  | nil => exact h
  | cons c l => exact .inr (h.resolve_left fun e => ha e.1)

/-- What comes right after the anchor. -/
theorem eq_head (h : Follows x b x (c :: l)) (hx : x ∉ c :: l) : b = c := by
  rcases h with h | h
  · exact h.2
  · exact absurd (by
      rcases h.anchor_or_mem with rfl | h
      · exact List.mem_cons_self
      · exact List.mem_cons_of_mem _ h) hx

end Follows

/-! ## Queues -/

/-- From the anchor `a` the nodes are linked, but for those of `P`. -/
def Joining (z : α) (next : α → α) (P : α → Prop) : α → List α → Prop
  | a, [] => next a = z
  | a, b :: l => (P b → next a = z) ∧ (¬ P b → next a = b) ∧ Joining z next P b l

namespace Joining

theorem congr : ∀ {a : α} {l : List α}, Joining z next P a l → next' a = next a →
    (∀ x ∈ l, next' x = next x) → (∀ x ∈ l, P' x ↔ P x) → Joining z next' P' a l
  | _, [], h, ha, _, _ => ha.trans h
  | _, b :: _, h, ha, hl, hP => by
      have hb := hP b List.mem_cons_self
      refine ⟨fun hb' => ha.trans (h.1 (hb.mp hb')), fun hb' => ha.trans (h.2.1 fun hn =>
        hb' (hb.mpr hn)), ?_⟩
      exact congr h.2.2 (hl b List.mem_cons_self) (fun x hx => hl x (List.mem_cons_of_mem _ hx))
        fun x hx => hP x (List.mem_cons_of_mem _ hx)

/-- **Where the anchor leads** is the first node, or it is still to be joined. -/
theorem head (h : Joining z next P a (b :: l)) : next a = z ∧ P b ∨ next a = b ∧ ¬ P b := by
  by_cases hb : P b
  · exact .inl ⟨h.1 hb, hb⟩
  · exact .inr ⟨h.2.1 hb, hb⟩

/-- **A link that is not null** leads to the next node. -/
theorem exists_cons (h : Joining z next P a l) (ha : next a ≠ z) :
    ∃ m, l = next a :: m ∧ ¬ P (next a) ∧ Joining z next P (next a) m := by
  cases l with
  | nil => exact absurd h ha
  | cons b m =>
    obtain ⟨hz, -⟩ | ⟨hb, hP⟩ := h.head
    · exact absurd hz ha
    · exact ⟨m, by rw [hb], hb ▸ hP, hb ▸ h.2.2⟩

/-- **A node that is put on**, still to be joined. -/
theorem push : ∀ {a : α} {l : List α}, Joining z next P a l → next w = z → P' w →
    (∀ x ∈ l, P' x ↔ P x) → Joining z next P' a (l ++ [w])
  | _, [], h, hw, hP, _ => ⟨fun _ => h, fun hn => absurd hP hn, hw⟩
  | _, b :: _, h, hw, hP, hsame => by
      have hb := hsame b List.mem_cons_self
      refine ⟨fun hb' => h.1 (hb.mp hb'), fun hb' => h.2.1 fun hn => hb' (hb.mpr hn), ?_⟩
      exact push h.2.2 hw hP fun x hx => hsame x (List.mem_cons_of_mem _ hx)

/-- **A node that is joined.** -/
theorem join : ∀ {x : α} {l : List α}, Joining z next P x l → (x :: l).Nodup → Follows a b x l →
    next' a = b → (∀ y ∈ x :: l, y ≠ a → next' y = next y) → ¬ P' b →
    (∀ y ∈ l, y ≠ b → (P' y ↔ P y)) → Joining z next' P' x l
  | x, c :: l, h, hnodup, .inl ⟨ha, hb⟩, hnext, hsame, hP, hP' => by
      subst ha hb
      obtain ⟨hx, hl⟩ := List.nodup_cons.mp hnodup
      obtain ⟨hc, -⟩ := List.nodup_cons.mp hl
      refine ⟨fun hb => absurd hb hP, fun _ => hnext,
        h.2.2.congr ?_ (fun y hy => ?_) fun y hy => ?_⟩
      · exact hsame b (by simp) fun e => hx (e ▸ List.mem_cons_self)
      · exact hsame y (by simp [hy]) fun e => hx (e ▸ List.mem_cons_of_mem _ hy)
      · exact hP' y (List.mem_cons_of_mem _ hy) fun e => hc (e ▸ hy)
  | x, c :: l, h, hnodup, .inr hfol, hnext, hsame, hP, hP' => by
      obtain ⟨hx, hl⟩ := List.nodup_cons.mp hnodup
      have hxa : x ≠ a := fun e => hx (by
        rcases hfol.anchor_or_mem with ha | ha
        · exact (e.trans ha) ▸ List.mem_cons_self
        · exact e ▸ List.mem_cons_of_mem _ ha)
      have hcb : c ≠ b := fun e => (List.nodup_cons.mp hl).1 (e ▸ hfol.mem)
      have hc := hP' c List.mem_cons_self hcb
      have hxsame := hsame x List.mem_cons_self hxa
      refine ⟨fun hb => hxsame.trans (h.1 (hc.mp hb)),
        fun hb => hxsame.trans (h.2.1 fun hn => hb (hc.mpr hn)), ?_⟩
      exact join h.2.2 hl hfol hnext (fun y hy => hsame y (List.mem_cons_of_mem _ hy)) hP
        fun y hy => hP' y (List.mem_cons_of_mem _ hy)

/-- **Taking the first node off**: the anchor leads where it led. -/
theorem pop (h : Joining z next P a (b :: l)) (ha : next' a = next b)
    (hsame : ∀ x ∈ l, next' x = next x) : Joining z next' P a l := by
  cases l with
  | nil => exact ha.trans h.2.2
  | cons c l =>
    obtain ⟨-, -, hz, hc, hl⟩ := h
    refine ⟨fun hP => ha.trans (hz hP), fun hP => ha.trans (hc hP), ?_⟩
    exact hl.congr (hsame c List.mem_cons_self)
      (fun x hx => hsame x (List.mem_cons_of_mem _ hx)) fun _ _ => Iff.rfl

end Joining
