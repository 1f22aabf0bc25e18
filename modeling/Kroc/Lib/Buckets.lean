import Mathlib.Data.List.Nodup
import Mathlib.Data.List.Pairwise
import Mathlib.Tactic

/-!
# Lib/Buckets — things sorted into buckets

Of a list `q` of buckets each has a list of things, `f`; `q.flatMap f` is everything that is in a
bucket.
-/

open Function (update)

variable {α β : Type*} {q : List α} {f g : α → List β} {a b : α} {x : β}

namespace Buckets

/-- What is in a bucket is in no other. -/
theorem notMem_of_ne (h : (q.flatMap f).Nodup) (ha : a ∈ q) (hb : b ∈ q) (hne : a ≠ b)
    (hx : x ∈ f a) : x ∉ f b := by
  obtain ⟨-, hdisj⟩ := List.nodup_flatMap.mp h
  have : Std.Symm (Function.onFun List.Disjoint f) := ⟨fun _ _ h => List.Disjoint.symm h⟩
  exact fun hxb => hdisj.forall ha hb hne hx hxb

variable [DecidableEq α]

theorem flatMap_update_of_notMem (ha : a ∉ q) (l : List β) :
    q.flatMap (update f a l) = q.flatMap f :=
  List.flatMap_congr fun b hb => by
    have hne : b ≠ a := fun e => ha (e ▸ hb)
    rw [Function.update_of_ne hne]

/-- **A new bucket** behind the others. -/
theorem flatMap_concat (ha : a ∉ q) (l : List β) :
    (q ++ [a]).flatMap (update f a l) = q.flatMap f ++ l := by
  rw [List.flatMap_append, flatMap_update_of_notMem ha, List.flatMap_singleton,
    Function.update_self]

/-- **A new thing** in a bucket. -/
theorem flatMap_push_perm (hq : q.Nodup) (ha : a ∈ q) (x : β) :
    (q.flatMap (update f a (f a ++ [x]))).Perm (x :: q.flatMap f) := by
  obtain ⟨l, m, rfl⟩ := List.append_of_mem ha
  rw [List.nodup_append, List.nodup_cons] at hq
  have hl : a ∉ l := fun h => hq.2.2 a h a (by simp) rfl
  rw [List.flatMap_append, List.flatMap_append, List.flatMap_cons, List.flatMap_cons,
    flatMap_update_of_notMem hl, flatMap_update_of_notMem hq.2.1.1, Function.update_self,
    List.append_assoc, ← List.append_assoc]
  refine List.perm_middle.trans ?_
  rw [List.append_assoc]
  rfl

end Buckets
