import Mathlib.Tactic

/-!
# Lib/Extents — stretches of addresses

An extent is where it starts and how many bytes it has.  Extents lie within each other or apart from
each other; what lies within extents that are apart is apart.
-/

/-- The addresses from `start` on, `size` of them. -/
structure Extent where
  start : ℕ
  size : ℕ
  deriving DecidableEq

namespace Extent

variable {e f r t : Extent}

/-- The first address behind. -/
def stop (e : Extent) : ℕ := e.start + e.size

def Within (e r : Extent) : Prop := r.start ≤ e.start ∧ e.stop ≤ r.stop

def Apart (e f : Extent) : Prop := e.stop ≤ f.start ∨ f.stop ≤ e.start

theorem Within.refl (e : Extent) : e.Within e := ⟨Nat.le_refl _, Nat.le_refl _⟩

theorem Within.trans (h : e.Within f) (h' : f.Within r) : e.Within r :=
  ⟨h'.1.trans h.1, h.2.trans h'.2⟩

theorem Apart.symm (h : e.Apart f) : f.Apart e := Or.symm h

/-- **What lies within extents that are apart** is apart. -/
theorem Apart.mono (h : r.Apart t) (he : e.Within r) (hf : f.Within t) : e.Apart f :=
  h.imp (fun h => he.2.trans (h.trans hf.1)) fun h => hf.2.trans (h.trans he.1)

end Extent
