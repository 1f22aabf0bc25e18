import Kroc.Occ21.InterferenceCalls

/-!
# Occ21/InterferenceRun — mapping a procedure

Runs of the mapper: variables are created, killed and resurrected, scopes and mapping ranges are
opened and left again.  At any moment the live variables have numbers of their own, the row has
their bits, and those of one range are marked with each other; what is put away for later keeps that
too.
-/

open Triangle

namespace Kroc

namespace Occ21

variable {s s' : Vars} {n m i j p : ℕ}

/-! ## Runs -/

/-- What is put away while a scope or a mapping range is open: the live variables, as a row of
bits and as a set, or the start of the range around. -/
inductive Frame
  | scope (varrow : ℕ) (liveVar : ℕ → BitVec (2 ^ 5)) (lives : Set ℕ)
  | range (varBase : ℕ)

/-- Mapping a procedure: `lives` are the variables that are live. -/
structure Mapper where
  vars : Vars
  lives : Set ℕ
  frames : List Frame

inductive VarCall
  | createVar (nptr : ℕ)
  | killVar (nptr : ℕ)
  | resurrectVar (nptr : ℕ)
  | createImmortalvar (nptr : ℕ)
  | saveScope
  | restoreScope
  | allocFixedws (slot size : ℤ) (new : ℕ)
  | alloctemp (tempptr : ℕ)
  | enterRange
  | leaveRange

/-- Scopes and ranges are left in the order in which they were entered. -/
def VarCall.apply (t : Mapper) : VarCall → Option Mapper
  | createVar nptr =>
    (Occ21.createVar nptr t.vars).map fun s => { t with vars := s, lives := insert nptr t.lives }
  | killVar nptr =>
    (Occ21.killVar nptr t.vars).map fun s => { t with vars := s, lives := t.lives \ {nptr} }
  | resurrectVar nptr =>
    (Occ21.resurrectVar nptr t.vars).map fun s => { t with vars := s, lives := insert nptr t.lives }
  | createImmortalvar nptr =>
    (Occ21.createImmortalvar nptr t.vars).map fun s => { t with vars := s }
  | saveScope => some { t with frames := .scope t.vars.varrow t.vars.liveVar t.lives :: t.frames }
  | restoreScope =>
    match t.frames with
    | .scope varrow liveVar lives :: frames =>
      some ⟨Occ21.restoreScope varrow liveVar t.vars, lives, frames⟩
    | _ => none
  | allocFixedws slot size new =>
    (Occ21.allocFixedws slot size new t.vars).map fun (nptr, s) =>
      { t with vars := s, lives := insert nptr t.lives }
  | alloctemp tempptr =>
    (Occ21.alloctemp tempptr t.vars).map fun s =>
      { t with vars := s, lives := insert tempptr t.lives }
  | enterRange =>
    some
      { t with
        vars := { t.vars with varBase := t.vars.numVar }
        frames := .range t.vars.varBase :: t.frames }
  | leaveRange =>
    match t.frames with
    | .range varBase :: frames =>
      some
        { t with
          vars := { freeFixedwslist t.vars with numVar := t.vars.varBase, varBase := varBase }
          frames := frames }
    | _ => none

/-- The name has no number yet, and is no fixed area. -/
def Vars.New (s : Vars) (nptr : ℕ) : Prop := (s.node nptr).varNum = none ∧ nptr ∉ s.fixedwsList

/-- **The order in which calls are made**: a variable is created once, killed while it is live and
resurrected in its range while no temporary has its number, and what a range has created is not live
any more when the range is left. -/
def VarCall.Orderly (t : Mapper) : VarCall → Prop
  | createVar nptr => t.vars.New nptr
  | killVar nptr => nptr ∈ t.lives
  | resurrectVar nptr => ∃ n, (t.vars.node nptr).varNum = some n ∧ t.vars.inRange n = true ∧
      t.vars.varList n = nptr ∧ ∀ u ∈ t.lives, (t.vars.node u).varNum = some n → u = nptr
  | createImmortalvar nptr => t.vars.New nptr
  | saveScope => True
  | restoreScope => ∃ varrow row lives frames, t.frames = .scope varrow row lives :: frames
  | allocFixedws _ _ new => t.vars.New new
  | alloctemp tempptr => t.vars.New tempptr
  | enterRange => True
  | leaveRange => (∃ varBase frames, t.frames = .range varBase :: frames) ∧
      ∀ u ∈ t.lives, ∀ n, (t.vars.node u).varNum = some n → n < t.vars.varBase

inductive Reach (t₀ : Mapper) : List VarCall → Mapper → Prop
  | nil : Reach t₀ [] t₀
  | snoc {calls : List VarCall} {c : VarCall} {t t' : Mapper} (h : Reach t₀ calls t)
      (hc : c.Orderly t) (heq : c.apply t = some t') : Reach t₀ (calls ++ [c]) t'

/-- A procedure is about to be mapped: the map and the row are clear, and no name has a number.  The
arrays may have grown while others were mapped. -/
structure Mapper.Initial (t : Mapper) : Prop where
  maxvar_pow : ∃ k ≤ 9, t.vars.maxvar = 64 * 2 ^ k
  maxvar_eq : t.vars.maxvar = 32 * t.vars.varrow
  varBase : t.vars.varBase = 0
  numVar : t.vars.numVar = 0
  varMap : ∀ w, t.vars.varMap w = 0
  liveVar : ∀ w, t.vars.liveVar w = 0
  varNum : ∀ u, (t.vars.node u).varNum = none
  fixed : ∀ f ∈ t.vars.fixedwsList, (t.vars.node f).tag = .reservedws
  lives : t.lives = ∅
  frames : t.frames = []

/-! ## The invariant -/

/-- Two numbers are in the same of the mapping ranges that start at `bases`. -/
def SameRange (bases : List ℕ) (i j : ℕ) : Prop := ∀ b ∈ bases, b ≤ i ↔ b ≤ j

/-- A set of variables that are or were live together, with its row of bits. -/
structure Vars.Kept (s : Vars) (lives : Set ℕ) (row : ℕ → BitVec (2 ^ 5)) (bases : List ℕ)
    (num : ℕ) : Prop where
  numbered : ∀ u ∈ lives, ∃ n < num, (s.node u).varNum = some n ∧
    (s.varList n = u ∨ (s.node (s.varList n)).tag.isTemp = true)
  alone : ∀ u ∈ lives, ∀ v ∈ lives, (s.node u).varNum = (s.node v).varNum → u = v
  live_iff : ∀ n, testbit row n = true ↔ ∃ u ∈ lives, (s.node u).varNum = some n
  marked : ∀ u ∈ lives, ∀ v ∈ lives, ∀ i j, (s.node u).varNum = some i →
    (s.node v).varNum = some j → i ≠ j → SameRange bases i j → testPair s.varMap i j = true

/-- The starts of the ranges around. -/
def rangesOf : List Frame → List ℕ
  | [] => []
  | .scope .. :: rest => rangesOf rest
  | .range varBase :: rest => varBase :: rangesOf rest

/-- What is put away can come back. -/
def Vars.FramesKept (s : Vars) : ℕ → ℕ → List Frame → Prop
  | _, _, [] => True
  | base, num, .scope varrow row lives :: rest =>
    (varrow ≤ s.varrow ∧ ∀ n ≥ 32 * varrow, testbit row n = false) ∧
      s.Kept lives row (base :: rangesOf rest) num ∧ s.FramesKept base num rest
  | base, _, .range varBase :: rest => varBase ≤ base ∧ s.FramesKept varBase base rest

structure Mapper.Inv (t : Mapper) : Prop where
  sized : t.vars.Sized
  listed : ∀ n < t.vars.numVar, (t.vars.node (t.vars.varList n)).varNum = some n
  fixed : ∀ f ∈ t.vars.fixedwsList, (t.vars.node f).tag = .reservedws ∧
    ∀ n, (t.vars.node f).varNum = some n → n < t.vars.numVar ∧ t.vars.varList n = f
  kept : t.vars.Kept t.lives t.vars.liveVar (t.vars.varBase :: rangesOf t.frames) t.vars.numVar
  frames : t.vars.FramesKept t.vars.varBase t.vars.numVar t.frames

/-- Variables of numbers below `num`, and bits of the map, are still what they were. -/
structure Vars.Extends (num : ℕ) (s s' : Vars) : Prop where
  varrow : s.varrow ≤ s'.varrow
  varNum : ∀ u n, n < num → (s.node u).varNum = some n → (s'.node u).varNum = some n
  varList : ∀ n < num, s'.varList n = s.varList n
  temp : ∀ n < num, (s.node (s.varList n)).tag.isTemp = true →
    (s'.node (s.varList n)).tag.isTemp = true
  map : ∀ i j, testPair s.varMap i j = true → testPair s'.varMap i j = true

theorem Vars.Extends.mono {num num' : ℕ} (h : Vars.Extends num s s') (hle : num' ≤ num) :
    Vars.Extends num' s s' :=
  ⟨h.varrow, fun u n hn => h.varNum u n (hn.trans_le hle),
    fun n hn => h.varList n (hn.trans_le hle), fun n hn => h.temp n (hn.trans_le hle), h.map⟩

theorem Vars.Kept.extends {lives : Set ℕ} {row : ℕ → BitVec (2 ^ 5)} {bases : List ℕ} {num : ℕ}
    (h : s.Kept lives row bases num) (he : Vars.Extends num s s') :
    s'.Kept lives row bases num := by
  have hnum : ∀ u ∈ lives, (s'.node u).varNum = (s.node u).varNum := fun u hu => by
    obtain ⟨n, hn, hu, -⟩ := h.numbered u hu
    rw [he.varNum u n hn hu, hu]
  refine ⟨fun u hu => ?_, fun u hu v hv heq => ?_, fun n => ?_, fun u hu v hv i j hi hj => ?_⟩
  · obtain ⟨n, hn, hun, hor⟩ := h.numbered u hu
    refine ⟨n, hn, he.varNum u n hn hun, ?_⟩
    rw [he.varList n hn]
    exact hor.imp_right (he.temp n hn)
  · rw [hnum u hu, hnum v hv] at heq
    exact h.alone u hu v hv heq
  · rw [h.live_iff]
    exact exists_congr fun u => and_congr_right fun hu => by rw [hnum u hu]
  · rw [hnum u hu] at hi
    rw [hnum v hv] at hj
    exact fun hne hr => he.map i j (h.marked u hu v hv i j hi hj hne hr)

theorem Vars.Kept.mono {lives : Set ℕ} {row : ℕ → BitVec (2 ^ 5)} {bases : List ℕ} {num num' : ℕ}
    (h : s.Kept lives row bases num) (hle : num ≤ num') : s.Kept lives row bases num' :=
  ⟨fun u hu => by
    obtain ⟨n, hn, hu⟩ := h.numbered u hu
    exact ⟨n, hn.trans_le hle, hu⟩, h.alone, h.live_iff, h.marked⟩

theorem Vars.FramesKept.extends : ∀ {frames : List Frame} {base num num' : ℕ},
    s.FramesKept base num frames → base ≤ num → Vars.Extends num s s' → num ≤ num' →
      s'.FramesKept base num' frames
  | [], _, _, _, _, _, _, _ => trivial
  | .scope .. :: _, _, _, _, h, hle, he, hnum =>
    ⟨⟨h.1.1.trans he.varrow, h.1.2⟩, (h.2.1.extends he).mono hnum, h.2.2.extends hle he hnum⟩
  | .range _ :: _, _, _, _, h, hle, he, _ => ⟨h.1, h.2.extends h.1 (he.mono hle) le_rfl⟩

/-- Two live variables that are in the current mapping range. -/
def Mapper.Together (t : Mapper) (i j : ℕ) : Prop :=
  ∃ u ∈ t.lives, ∃ v ∈ t.lives, (t.vars.node u).varNum = some i ∧ (t.vars.node v).varNum = some j ∧
    t.vars.inRange i = true ∧ t.vars.inRange j = true

/-- The call creates a variable that interferes with all that there are in the current range, and
one of the two is that one. -/
def VarCall.Immortal (t : Mapper) (i j : ℕ) : VarCall → Prop
  | createImmortalvar _ => (i = t.vars.numVar ∧ t.vars.inRange j = true) ∨
      (j = t.vars.numVar ∧ t.vars.inRange i = true)
  | _ => False

end Occ21

end Kroc
