import Mathlib.Algebra.BigOperators.Group.Multiset.Basic
import Mathlib.Algebra.BigOperators.Group.Finset.Basic
import Mathlib.Algebra.Order.BigOperators.Group.Finset
import Mathlib.Data.Multiset.Count
import Mathlib.Tactic

/-!
# Lib/RefCount — nodes that know how many references there are to them

A graph of live nodes: each holds references to others and expects a number of references to
itself.  `Balanced g R D` says that the numbers are right when `R` are the references held outside
the graph and the nodes of `D` are *open*: one owner has taken its only reference to such a node,
and what the node held counts as held outside.  A recursion that visits a node opens it, works on
what it held, and closes or frees it; since no reference to an open node is left, it never comes to
one twice.
-/

namespace RefCount

variable {α : Type*} [DecidableEq α]

/-- The live nodes, the references each of them expects and the references it holds. -/
structure Graph (α : Type*) where
  nodes : Finset α
  due : α → ℕ
  out : α → Multiset α

namespace Graph

variable (g : Graph α)

/-- The references held by nodes that are not open. -/
def inner (D : Finset α) : Multiset α := ∑ a ∈ g.nodes \ D, g.out a

/-- The node is freed. -/
def erase (p : α) : Graph α := { g with nodes := g.nodes.erase p }

def setDue (p : α) (k : ℕ) : Graph α := { g with due := Function.update g.due p k }

/-- A new node that expects `k` references and holds none. -/
def insert (p : α) (k : ℕ) : Graph α where
  nodes := Insert.insert p g.nodes
  due := Function.update g.due p k
  out := Function.update g.out p 0

/-- **The counts are right**: every reference is to a live node that is not open, and every such
node is referred to as often as it expects, which is at least once. -/
structure Balanced (R : Multiset α) (D : Finset α) : Prop where
  opened : D ⊆ g.nodes
  live : ∀ p ∈ R + g.inner D, p ∈ g.nodes \ D
  due : ∀ p ∈ g.nodes \ D, g.due p = (R + g.inner D).count p
  pos : ∀ p ∈ g.nodes \ D, 0 < g.due p

variable {g} {f : Graph α} {R : Multiset α} {D : Finset α} {a p : α}

theorem inner_insert (ha : a ∈ g.nodes \ D) :
    g.inner D = g.out a + g.inner (Insert.insert a D) := by
  rw [inner, inner, Finset.sdiff_insert, Finset.add_sum_erase _ _ ha]

theorem inner_sdiff {C : Finset α} (hC : C ⊆ D) (hD : D ⊆ g.nodes) :
    g.inner (D \ C) = ∑ a ∈ C, g.out a + g.inner D := by
  have hsplit : g.nodes \ (D \ C) = g.nodes \ D ∪ C := by
    ext p
    have := @hC p
    have := @hD p
    simp only [Finset.mem_sdiff, Finset.mem_union]
    tauto
  rw [inner, inner, hsplit, Finset.sum_union, add_comm]
  rw [Finset.disjoint_left]
  exact fun p hp hpC => (Finset.mem_sdiff.mp hp).2 (hC hpC)

/-- What happens to open nodes does not matter, nor what freed nodes hold. -/
theorem Balanced.congr (h : g.Balanced R D) (hnodes : f.nodes = g.nodes)
    (hdue : ∀ p ∈ g.nodes \ D, f.due p = g.due p)
    (hout : ∀ p ∈ g.nodes \ D, f.out p = g.out p) : f.Balanced R D := by
  have hinner : f.inner D = g.inner D := by
    rw [inner, inner, hnodes]
    exact Finset.sum_congr rfl hout
  refine ⟨hnodes ▸ h.opened, ?_, ?_, ?_⟩
  · rw [hinner, hnodes]
    exact h.live
  · rw [hinner, hnodes]
    intro p hp
    rw [hdue p hp]
    exact h.due p hp
  · rw [hnodes]
    intro p hp
    rw [hdue p hp]
    exact h.pos p hp

theorem Balanced.mem (h : g.Balanced (p ::ₘ R) D) : p ∈ g.nodes \ D :=
  h.live p (by simp)

/-- **Opening a node** of which the only reference is in hand: what it holds is in hand. -/
theorem Balanced.open (h : g.Balanced (a ::ₘ R) D) (hdue : g.due a = 1) :
    g.Balanced (g.out a + R) (Insert.insert a D) := by
  have ha := h.mem
  have hM : a ::ₘ R + g.inner D =
      a ::ₘ (g.out a + R + g.inner (Insert.insert a D)) := by
    rw [inner_insert ha, Multiset.cons_add]
    congr 1
    abel
  have hnone : (g.out a + R + g.inner (Insert.insert a D)).count a = 0 := by
    have := h.due a ha
    rw [hM, Multiset.count_cons_self, hdue] at this
    omega
  have hsub : ∀ p ∈ g.nodes \ Insert.insert a D, p ∈ g.nodes \ D ∧ p ≠ a := by
    intro p hp
    simp only [Finset.mem_sdiff, Finset.mem_insert, not_or] at hp ⊢
    exact ⟨⟨hp.1, hp.2.2⟩, hp.2.1⟩
  refine ⟨?_, fun p hp => ?_, fun p hp => ?_, fun p hp => h.pos p (hsub p hp).1⟩
  · exact Finset.insert_subset (Finset.mem_sdiff.mp ha).1 h.opened
  · have hpa : p ≠ a := by
      rintro rfl
      exact Multiset.count_ne_zero.mpr hp hnone
    have := h.live p (by rw [hM]; exact Multiset.mem_cons_of_mem hp)
    simp only [Finset.mem_sdiff, Finset.mem_insert, not_or] at this ⊢
    exact ⟨this.1, hpa, this.2⟩
  · obtain ⟨hp', hpa⟩ := hsub p hp
    rw [h.due p hp', hM, Multiset.count_cons_of_ne hpa]

/-- **Closing nodes**: what they hold is no longer in hand, the references to them are. -/
theorem Balanced.close {S : Multiset α} {C : Finset α} (h : g.Balanced S D) (hC : C ⊆ D)
    (hdue : ∀ a ∈ C, g.due a = 1) (hR : S + C.val = R + ∑ a ∈ C, g.out a) :
    g.Balanced R (D \ C) := by
  have hM : R + g.inner (D \ C) = S + g.inner D + C.val := by
    rw [inner_sdiff hC h.opened, ← add_assoc, ← hR, add_right_comm]
  have hout : ∀ p ∈ C, (S + g.inner D).count p = 0 := by
    intro p hp
    rw [Multiset.count_eq_zero]
    exact fun hmem => (Finset.mem_sdiff.mp (h.live p hmem)).2 (hC hp)
  have hcases : ∀ p ∈ g.nodes \ (D \ C), p ∈ C ∨ p ∉ C ∧ p ∈ g.nodes \ D := by
    intro p hp
    simp only [Finset.mem_sdiff] at hp ⊢
    tauto
  refine ⟨Finset.sdiff_subset.trans h.opened, fun p hp => ?_, fun p hp => ?_, fun p hp => ?_⟩
  · rw [hM] at hp
    simp only [Finset.mem_sdiff, not_and, not_not]
    rcases Multiset.mem_add.mp hp with hp | hp
    · have := Finset.mem_sdiff.mp (h.live p hp)
      exact ⟨this.1, fun hpD => (this.2 hpD).elim⟩
    · exact ⟨h.opened (hC hp), fun _ => hp⟩
  · rw [hM, Multiset.count_add]
    rcases hcases p hp with hpC | ⟨hpC, hpD⟩
    · rw [hdue p hpC, hout p hpC, Multiset.count_eq_one_of_mem C.nodup hpC]
    · rw [h.due p hpD, Multiset.count_eq_zero_of_notMem hpC, add_zero]
  · rcases hcases p hp with hpC | ⟨-, hpD⟩
    · rw [hdue p hpC]
      exact Nat.one_pos
    · exact h.pos p hpD

/-- **Freeing an open node.** -/
theorem Balanced.free (h : g.Balanced R (Insert.insert a D)) (ha : a ∉ D) :
    (g.erase a).Balanced R D := by
  have hnodes : g.nodes.erase a \ D = g.nodes \ Insert.insert a D := by
    rw [Finset.sdiff_insert, Finset.erase_sdiff_comm]
  have hinner : (g.erase a).inner D = g.inner (Insert.insert a D) := by
    rw [inner, inner]
    change ∑ b ∈ g.nodes.erase a \ D, g.out b = _
    rw [hnodes]
  refine ⟨fun p hp => ?_, ?_, ?_, ?_⟩
  · refine Finset.mem_erase.mpr ⟨fun hpa => ha (hpa ▸ hp), h.opened (Finset.mem_insert_of_mem hp)⟩
  · rw [hinner]
    change ∀ p ∈ _, p ∈ g.nodes.erase a \ D
    rw [hnodes]
    exact h.live
  · rw [hinner]
    change ∀ p ∈ g.nodes.erase a \ D, g.due p = _
    rw [hnodes]
    exact h.due
  · change ∀ p ∈ g.nodes.erase a \ D, 0 < g.due p
    rw [hnodes]
    exact h.pos

/-- **The last reference** is given up and the node freed, while what it held is in hand. -/
theorem Balanced.last (h : g.Balanced (p ::ₘ R) D) (hdue : g.due p = 1) :
    (g.erase p).Balanced (g.out p + R) D :=
  (h.open hdue).free (Finset.mem_sdiff.mp h.mem).2

theorem inner_setDue (k : ℕ) : (g.setDue p k).inner D = g.inner D := rfl

/-- **A reference** that is not the last is given up. -/
theorem Balanced.dec (h : g.Balanced (p ::ₘ R) D) (hdue : 1 < g.due p) :
    (g.setDue p (g.due p - 1)).Balanced R D := by
  refine ⟨h.opened, fun q hq => h.live q ?_, fun q hq => ?_, fun q hq => ?_⟩
  · rw [Multiset.cons_add]
    exact Multiset.mem_cons_of_mem hq
  · have := h.due q hq
    rw [Multiset.cons_add, Multiset.count_cons] at this
    rw [inner_setDue]
    simp only [setDue, Function.update_apply]
    split_ifs at this ⊢ with hqp
    · rw [← hqp]
      omega
    · omega
  · simp only [setDue, Function.update_apply]
    split_ifs with hqp
    · omega
    · exact h.pos q hq

/-- **A new reference** to a live node. -/
theorem Balanced.inc (h : g.Balanced R D) (hp : p ∈ g.nodes \ D) :
    (g.setDue p (g.due p + 1)).Balanced (p ::ₘ R) D := by
  refine ⟨h.opened, fun q hq => ?_, fun q hq => ?_, fun q hq => ?_⟩
  · rw [Multiset.cons_add] at hq
    rcases Multiset.mem_cons.mp hq with rfl | hq
    · exact hp
    · exact h.live q hq
  · have := h.due q hq
    rw [Multiset.cons_add, Multiset.count_cons, inner_setDue]
    simp only [setDue, Function.update_apply]
    split_ifs with hqp
    · rw [← hqp, this]
    · rw [this, add_zero]
  · simp only [setDue, Function.update_apply]
    split_ifs with hqp
    · omega
    · exact h.pos q hq

theorem inner_insert_new (hp : p ∉ g.nodes) (k : ℕ) : (g.insert p k).inner D = g.inner D := by
  have hout : ∀ a ∈ g.nodes \ D, (g.insert p k).out a = g.out a := by
    intro a ha
    refine Function.update_of_ne ?_ _ _
    rintro rfl
    exact hp (Finset.mem_sdiff.mp ha).1
  rw [inner, inner]
  change ∑ a ∈ Insert.insert p g.nodes \ D, (g.insert p k).out a = _
  by_cases hpD : p ∈ D
  · rw [Finset.insert_sdiff_of_mem _ hpD]
    exact Finset.sum_congr rfl hout
  · rw [Finset.insert_sdiff_of_notMem _ hpD, Finset.sum_insert (by simp [hp])]
    simp only [insert, Function.update_self, zero_add]
    exact Finset.sum_congr rfl hout

/-- **A new node** of which all references are in hand. -/
theorem Balanced.add (h : g.Balanced R D) (hp : p ∉ g.nodes) {k : ℕ} (hk : 0 < k) :
    (g.insert p k).Balanced (Multiset.replicate k p + R) D := by
  have hpD : p ∉ D := fun hmem => hp (h.opened hmem)
  have hnew : (R + g.inner D).count p = 0 := by
    rw [Multiset.count_eq_zero]
    exact fun hmem => hp (Finset.mem_sdiff.mp (h.live p hmem)).1
  refine ⟨h.opened.trans (Finset.subset_insert _ _), fun q hq => ?_, fun q hq => ?_,
    fun q hq => ?_⟩
  · rw [inner_insert_new hp, add_assoc] at hq
    change q ∈ Insert.insert p g.nodes \ D
    rw [Finset.insert_sdiff_of_notMem _ hpD, Finset.mem_insert]
    rcases Multiset.mem_add.mp hq with hq | hq
    · exact .inl (Multiset.eq_of_mem_replicate hq)
    · exact .inr (h.live q hq)
  · change q ∈ Insert.insert p g.nodes \ D at hq
    rw [Finset.insert_sdiff_of_notMem _ hpD, Finset.mem_insert] at hq
    rw [inner_insert_new hp, add_assoc, Multiset.count_add, Multiset.count_replicate]
    simp only [insert, Function.update_apply]
    rcases hq with rfl | hq
    · rw [if_pos rfl, if_pos rfl, hnew, add_zero]
    · have hqp : q ≠ p := by
        rintro rfl
        exact hp (Finset.mem_sdiff.mp hq).1
      rw [if_neg hqp, if_neg hqp.symm, zero_add]
      exact h.due q hq
  · change q ∈ Insert.insert p g.nodes \ D at hq
    rw [Finset.insert_sdiff_of_notMem _ hpD, Finset.mem_insert] at hq
    simp only [insert, Function.update_apply]
    split_ifs with hqp
    · exact hk
    · exact h.pos q (hq.resolve_left hqp)

/-- **A node holds other references than before**: those it has given up are in hand. -/
theorem Balanced.rewire {S : Multiset α} (h : g.Balanced R D) (ha : a ∈ g.nodes \ D)
    (hnodes : f.nodes = g.nodes) (hdue : f.due = g.due)
    (hout : ∀ b ∈ g.nodes \ D, b ≠ a → f.out b = g.out b)
    (hR : S + f.out a = R + g.out a) : f.Balanced S D := by
  have ha' : a ∈ f.nodes \ D := hnodes ▸ ha
  have hrest : f.inner (Insert.insert a D) = g.inner (Insert.insert a D) := by
    rw [inner, inner, hnodes]
    refine Finset.sum_congr rfl fun b hb => ?_
    simp only [Finset.mem_sdiff, Finset.mem_insert, not_or] at hb
    exact hout b (Finset.mem_sdiff.mpr ⟨hb.1, hb.2.2⟩) hb.2.1
  have hM : S + f.inner D = R + g.inner D := by
    rw [inner_insert ha', inner_insert ha, ← add_assoc, hR, hrest, add_assoc]
  exact ⟨hnodes ▸ h.opened, by rw [hM, hnodes]; exact h.live,
    by rw [hM, hnodes, hdue]; exact h.due, by rw [hnodes, hdue]; exact h.pos⟩

/-- Opening a node leaves fewer to open. -/
theorem card_insert_lt {K : Finset α} (ha : a ∈ K) (haD : a ∉ D) :
    (K \ Insert.insert a D).card < (K \ D).card := by
  rw [Finset.sdiff_insert]
  exact Finset.card_erase_lt_of_mem (Finset.mem_sdiff.mpr ⟨ha, haD⟩)

end Graph

end RefCount
