import Mathlib.Data.List.Infix
import Mathlib.Tactic

/-!
# Lib/Demand — what is taken because something asks for it

Modules provide names and need names.  A scan goes over the modules in a fixed order and takes those
that provide a name asked for, and what such a module needs is asked for from then on; the scans are
repeated until one of them asks for nothing new.

**The scans end, and with exactly what is wanted** (`loop_eq`), whatever the order of the modules.
-/

namespace Demand

variable {M N K : Type*}

/-- Modules under keys, with the names each provides and needs. -/
structure Modules (M N K : Type*) where
  key : M → K
  provides : M → N → Bool
  needs : M → List N

/-- The names asked for, and the keys of the modules taken. -/
structure State (N K : Type*) where
  asked : List N
  taken : List K

namespace Modules

section Algorithm

variable (Γ : Modules M N K) [DecidableEq K]

/-- What a scan does at a module. -/
def visit (s : State N K) (m : M) : State N K :=
  if Γ.key m ∈ s.taken then s
  else if s.asked.any (Γ.provides m) then
    ⟨(Γ.needs m).foldl (fun asked n => n :: asked) s.asked, Γ.key m :: s.taken⟩
  else s

/-- One scan. -/
def scan (ms : List M) (s : State N K) : State N K := ms.foldl Γ.visit s

/-- Scans, until one asks for nothing new. -/
def loop [DecidableEq N] (ms : List M) : ℕ → State N K → Option (State N K)
  | 0, _ => none
  | fuel + 1, s => if (Γ.scan ms s).asked = s.asked then some (Γ.scan ms s) else
      loop ms fuel (Γ.scan ms s)

/-- **The names that are asked for**: the first ones, and what a module needs that provides such a
name. -/
inductive Asked (ms : List M) (start : List N) : N → Prop
  | start {n : N} : n ∈ start → Asked ms start n
  | needs {m : M} {n n' : N} :
    m ∈ ms → Asked ms start n → Γ.provides m n → n' ∈ Γ.needs m → Asked ms start n'

/-- The module provides a name that is asked for. -/
def Wanted (ms : List M) (start : List N) (m : M) : Prop := ∃ n, Γ.Asked ms start n ∧ Γ.provides m n

/-- **Where the scans are**: only what is wanted has been taken, and what it needs is asked for. -/
structure Sound (ms : List M) (start : List N) (s : State N K) : Prop where
  starts : ∀ n ∈ start, n ∈ s.asked
  asked : ∀ n ∈ s.asked, Γ.Asked ms start n
  wanted : ∀ m ∈ ms, Γ.key m ∈ s.taken → Γ.Wanted ms start m
  needs : ∀ m ∈ ms, Γ.key m ∈ s.taken → ∀ n ∈ Γ.needs m, n ∈ s.asked

end Algorithm

variable {Γ : Modules M N K} {ms l : List M} {start : List N} {s : State N K} {m : M}

theorem mem_ask {ns asked : List N} {n : N} :
    n ∈ ns.foldl (fun asked n => n :: asked) asked ↔ n ∈ ns ∨ n ∈ asked := by
  rw [List.foldl_flip_cons_eq_append', List.mem_append, List.mem_reverse]

theorem length_ask (ns asked : List N) :
    (ns.foldl (fun asked n => n :: asked) asked).length = ns.length + asked.length := by
  rw [List.foldl_flip_cons_eq_append', List.length_append, List.length_reverse]

/-- The scans start with nothing taken. -/
theorem sound_start (Γ : Modules M N K) (ms : List M) (start : List N) :
    Γ.Sound ms start ⟨start, []⟩ :=
  ⟨fun _ hn => hn, fun _ hn => .start hn, fun _ _ h => absurd h List.not_mem_nil,
    fun _ _ h => absurd h List.not_mem_nil⟩

/-- Scans that have closed have asked for all there is to ask for. -/
theorem Sound.asked_iff (hs : Γ.Sound ms start s)
    (hclosed : ∀ m ∈ ms, ∀ n ∈ s.asked, Γ.provides m n → Γ.key m ∈ s.taken) {n : N} :
    n ∈ s.asked ↔ Γ.Asked ms start n := by
  refine ⟨hs.asked n, fun h => ?_⟩
  induction h with
  | start hn => exact hs.starts _ hn
  | needs hm _ hprovides hn ih => exact hs.needs _ hm (hclosed _ hm _ ih hprovides) _ hn

/-! ## One scan -/

variable [DecidableEq K]

theorem Sound.visit (hs : Γ.Sound ms start s) (hkeys : (ms.map Γ.key).Nodup) (hm : m ∈ ms) :
    Γ.Sound ms start (Γ.visit s m) := by
  unfold Modules.visit
  split_ifs with htaken hprovides
  · exact hs
  · obtain ⟨n, hn, hmn⟩ := List.any_eq_true.mp hprovides
    have hwanted : Γ.Wanted ms start m := ⟨n, hs.asked n hn, hmn⟩
    have hsame : ∀ m' ∈ ms, Γ.key m' = Γ.key m → m' = m := fun m' hm' heq =>
      List.inj_on_of_nodup_map hkeys hm' hm heq
    refine ⟨fun n hn => mem_ask.mpr (Or.inr (hs.starts n hn)), fun n' hn' => ?_,
      fun m' hm' hk => ?_,
      fun m' hm' hk n' hn' => ?_⟩
    · rcases mem_ask.mp hn' with hn' | hn'
      · exact .needs hm (hs.asked n hn) hmn hn'
      · exact hs.asked n' hn'
    · rcases List.mem_cons.mp hk with heq | hk
      · rw [hsame m' hm' heq]
        exact hwanted
      · exact hs.wanted m' hm' hk
    · rcases List.mem_cons.mp hk with heq | hk
      · rw [hsame m' hm' heq] at hn'
        exact mem_ask.mpr (Or.inl hn')
      · exact mem_ask.mpr (Or.inr (hs.needs m' hm' hk n' hn'))
  · exact hs

theorem Sound.scan (hkeys : (ms.map Γ.key).Nodup) (hl : ∀ m ∈ l, m ∈ ms)
    (hs : Γ.Sound ms start s) : Γ.Sound ms start (Γ.scan l s) := by
  induction l generalizing s with
  | nil => exact hs
  | cons m l ih =>
    exact ih (fun m' hm' => hl m' (List.mem_cons_of_mem _ hm'))
      (hs.visit hkeys (hl m List.mem_cons_self))

/-- **Nothing is given up**: names stay asked for and modules stay taken. -/
theorem visit_grows (Γ : Modules M N K) (s : State N K) (m : M) :
    s.asked.length ≤ (Γ.visit s m).asked.length ∧ s.taken ⊆ (Γ.visit s m).taken := by
  unfold visit
  split_ifs
  · exact ⟨le_rfl, List.Subset.refl _⟩
  · exact ⟨by rw [length_ask]; omega, List.subset_cons_self _ _⟩
  · exact ⟨le_rfl, List.Subset.refl _⟩

theorem scan_grows (Γ : Modules M N K) (l : List M) (s : State N K) :
    s.asked.length ≤ (Γ.scan l s).asked.length ∧ s.taken ⊆ (Γ.scan l s).taken := by
  induction l generalizing s with
  | nil => exact ⟨le_rfl, List.Subset.refl _⟩
  | cons m l ih =>
    obtain ⟨hasked, htaken⟩ := visit_grows Γ s m
    obtain ⟨hasked', htaken'⟩ := ih (Γ.visit s m)
    exact ⟨hasked.trans hasked', List.Subset.trans htaken htaken'⟩

/-- A visit that asks for nothing new. -/
theorem visit_asked (h : (Γ.visit s m).asked.length = s.asked.length) :
    (Γ.visit s m).asked = s.asked := by
  unfold visit at h ⊢
  split_ifs at h ⊢
  · rfl
  · rw [length_ask] at h
    rw [List.length_eq_zero_iff.mp (show (Γ.needs m).length = 0 by omega)]
    rfl
  · rfl

/-- **A scan that asks for nothing new has taken whatever provides a name asked for.** -/
theorem scan_closed (h : (Γ.scan l s).asked = s.asked) :
    ∀ m ∈ l, ∀ n ∈ s.asked, Γ.provides m n → Γ.key m ∈ (Γ.scan l s).taken := by
  induction l generalizing s with
  | nil => exact fun m hm => absurd hm List.not_mem_nil
  | cons m l ih =>
    have hgrows := (scan_grows Γ l (Γ.visit s m))
    have hvisit : (Γ.visit s m).asked = s.asked := by
      have hlen := congrArg List.length h
      have := (visit_grows Γ s m).1
      have := hgrows.1
      refine visit_asked ?_
      rw [scan, List.foldl_cons] at hlen
      rw [scan] at this
      omega
    intro m' hm' n hn hprovides
    rcases List.mem_cons.mp hm' with rfl | hm'
    · refine hgrows.2 ?_
      unfold visit
      split_ifs with htaken hany
      · exact htaken
      · exact List.mem_cons_self
      · exact absurd (List.any_eq_true.mpr ⟨n, hn, hprovides⟩) hany
    · exact ih (h.trans hvisit.symm) m' hm' n (hvisit ▸ hn) hprovides

/-- **A scan that asks for something new has taken another module.** -/
theorem scan_takes (h : (Γ.scan l s).asked ≠ s.asked) :
    ∃ m ∈ l, Γ.key m ∉ s.taken ∧ Γ.key m ∈ (Γ.scan l s).taken := by
  induction l generalizing s with
  | nil => exact absurd rfl h
  | cons m l ih =>
    by_cases hvisit : Γ.visit s m = s
    · obtain ⟨m', hm', hnot, htaken⟩ := ih (s := s) (by rwa [scan, List.foldl_cons, hvisit] at h)
      refine ⟨m', List.mem_cons_of_mem _ hm', hnot, ?_⟩
      rwa [scan, List.foldl_cons, hvisit]
    · refine ⟨m, List.mem_cons_self, fun htaken => hvisit (if_pos htaken),
        (scan_grows Γ l (Γ.visit s m)).2 ?_⟩
      unfold visit at hvisit ⊢
      split_ifs at hvisit ⊢ with htaken hany
      · exact absurd rfl hvisit
      · exact List.mem_cons_self
      · exact absurd rfl hvisit

/-! ## All scans -/

/-- The modules that have not been taken. -/
def left (Γ : Modules M N K) (ms : List M) (s : State N K) : ℕ :=
  ms.countP fun m => Γ.key m ∉ s.taken

theorem left_lt {s' : State N K} (hsub : s.taken ⊆ s'.taken) (hm : m ∈ ms)
    (hnot : Γ.key m ∉ s.taken) (htaken : Γ.key m ∈ s'.taken) : Γ.left ms s' < Γ.left ms s := by
  have hle : ∀ l : List M, (l.countP fun m => Γ.key m ∉ s'.taken) ≤
      l.countP fun m => Γ.key m ∉ s.taken := fun l =>
    List.countP_mono_left fun m' _ h => by
      rw [decide_eq_true_eq] at h ⊢
      exact fun hk => h (hsub hk)
  obtain ⟨l, l', rfl⟩ := List.append_of_mem hm
  rw [left, left, List.countP_append, List.countP_append,
    List.countP_cons_of_neg (by simpa using htaken), List.countP_cons_of_pos (by simpa using hnot)]
  have := hle l
  have := hle l'
  omega

/-- **The scans end with what is wanted.** -/
theorem loop_eq [DecidableEq N] (hkeys : (ms.map Γ.key).Nodup) (hs : Γ.Sound ms start s) {fuel : ℕ}
    (hfuel : Γ.left ms s < fuel) : ∃ s', Γ.loop ms fuel s = some s' ∧
      ∀ m ∈ ms, Γ.key m ∈ s'.taken ↔ Γ.Wanted ms start m := by
  induction fuel generalizing s with
  | zero => exact absurd hfuel (Nat.not_lt_zero _)
  | succ fuel ih =>
    have hscan := hs.scan hkeys fun m hm => hm
    rw [loop]
    split_ifs with hsame
    · have hclosed := scan_closed hsame
      rw [← hsame] at hclosed
      refine ⟨_, rfl, fun m hm => ⟨hscan.wanted m hm, fun ⟨n, hn, hprovides⟩ => ?_⟩⟩
      exact hclosed m hm n ((hscan.asked_iff hclosed).mpr hn) hprovides
    · obtain ⟨m, hm, hnot, htaken⟩ := scan_takes hsame
      have := left_lt (scan_grows Γ ms s).2 hm hnot htaken
      exact ih hscan (by omega)

theorem left_le (Γ : Modules M N K) (ms : List M) (s : State N K) : Γ.left ms s ≤ ms.length :=
  List.countP_le_length

end Modules

end Demand
