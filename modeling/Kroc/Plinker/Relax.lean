import Kroc.Plinker.Proc

/-!
# Plinker/Relax — the relaxation of the lengths

Where all lengths are known, the operand of an instruction is a difference of places in the proc,
and it only moves away from zero when lengths grow (`operand_grows`): so does the number of its
bytes. The loop of `code_offset_instruction` finds the least length that is enough for itself, and
the labels that are estimated are unknowns of monotone equations, of which `code_dynamic_offsets`
finds the least solution.

**The loops come to an end, with lengths that do not change any more**, and with the same ones in
whatever order Perl visits a hash (`relaxation_stable`).
-/

namespace Kroc.Plinker

/-! ## Operands that move away from zero -/

/-- One number is between zero and another. -/
def Grows (a b : ℤ) : Prop := 0 ≤ a ∧ a ≤ b ∨ b ≤ a ∧ a ≤ 0

theorem Grows.refl (a : ℤ) : Grows a a := by
  rcases le_total 0 a with h | h
  · exact Or.inl ⟨h, le_rfl⟩
  · exact Or.inr ⟨le_rfl, h⟩

theorem countNybbles_mono {a b : ℕ} (h : a ≤ b) : countNybbles a ≤ countNybbles b :=
  (countNybbles_le (countNybbles_pos b)).mpr (h.trans_lt (lt_countNybbles b))

theorem unsigned_lt (value : ℤ) : unsigned value < 2 ^ 64 := by
  rw [unsigned]
  split_ifs <;> omega

/-- The bytes of an operand, by its sign. -/
theorem codedLength_eq (arg : ℤ) : codedLength arg =
    if arg < 0 then max 2 (countNybbles (unsigned (complement arg)))
    else countNybbles (unsigned arg) := by
  rw [codedLength, codeUnpadded, length_codeNybbles]
  have hpos := countNybbles_pos (unsigned (complement arg))
  by_cases h : arg < 0
  · by_cases hone : countNybbles (unsigned (complement arg)) = 1
    · simp [h, hone]
    · simp only [h, if_true, decide_true, Bool.and_true, decide_eq_true_eq, if_neg hone]
      omega
  · simp [h]

/-- **An operand farther from zero takes no less bytes.** -/
theorem codedLength_mono {a b : ℤ} (h : Grows a b) : codedLength a ≤ codedLength b := by
  rw [codedLength_eq, codedLength_eq]
  rcases h with ⟨h₀, hab⟩ | ⟨hba, h₀⟩
  · rw [if_neg (by omega), if_neg (by omega)]
    refine countNybbles_mono ?_
    rw [unsigned, unsigned, if_neg (by omega), if_neg (by omega)]
    omega
  · by_cases ha : a < 0
    · rw [if_pos ha, if_pos (by omega)]
      refine max_le_max le_rfl (countNybbles_mono ?_)
      have hlt := unsigned_lt a
      have hlt' := unsigned_lt b
      have hle : unsigned b ≤ unsigned a := by
        rw [unsigned, unsigned, if_pos ha, if_pos (by omega)]
        omega
      rw [complement, complement, unsigned_natCast (by omega), unsigned_natCast (by omega)]
      omega
    · obtain rfl : a = 0 := by omega
      rw [if_neg (lt_irrefl 0)]
      have hone : countNybbles (unsigned 0) = 1 := by decide +kernel
      rw [hone]
      split_ifs
      · exact le_max_of_le_left (by decide)
      · exact countNybbles_pos _

/-- No operand takes more than sixteen bytes. -/
theorem codedLength_le_sixteen (arg : ℤ) : codedLength arg ≤ 16 := by
  have hle : ∀ value : ℤ, countNybbles (unsigned value) ≤ 16 := fun value =>
    (countNybbles_le (by decide)).mpr (unsigned_lt value)
  rw [codedLength_eq]
  split_ifs
  · exact max_le (by decide) (hle _)
  · exact hle _

/-! ## The loop of `code_offset_instruction` -/

/-- Offsets whose sum is a number that moves away from zero with the length of the instruction. -/
structure Sums (offsets : List Offset) (val : ℕ → ℤ) : Prop where
  merge : ∀ length, mergeOffsets length offsets = .ok (val length)
  grows : ∀ {l l'}, l ≤ l' → Grows (val l) (val l')

/-- **The least length that is enough for itself.** -/
noncomputable def least (val : ℕ → ℤ) : ℕ := sInf {l | 1 ≤ l ∧ codedLength (val l) ≤ l}

theorem least_spec (val : ℕ → ℤ) :
    1 ≤ least val ∧ codedLength (val (least val)) ≤ least val :=
  Nat.sInf_mem (s := {l | 1 ≤ l ∧ codedLength (val l) ≤ l})
    ⟨16, by decide, codedLength_le_sixteen _⟩

theorem least_le {val : ℕ → ℤ} {l : ℕ} (h : 1 ≤ l) (h' : codedLength (val l) ≤ l) :
    least val ≤ l :=
  Nat.sInf_le ⟨h, h'⟩

variable {offsets : List Offset} {val val' : ℕ → ℤ} {bytes : List ℕ} {num fuel : ℕ}

theorem least_le_sixteen (val : ℕ → ℤ) : least val ≤ 16 :=
  least_le (by decide) (codedLength_le_sixteen _)

/-- It is the length of its operand. -/
theorem codedLength_least (h : ∀ {l l' : ℕ}, l ≤ l' → Grows (val l) (val l')) :
    codedLength (val (least val)) = least val := by
  obtain ⟨-, hle⟩ := least_spec val
  exact le_antisymm hle (least_le (codedLength_pos _) (codedLength_mono (h hle)))

/-- **Farther from zero, no less is enough.** -/
theorem least_mono (h : ∀ l, Grows (val l) (val' l)) : least val ≤ least val' := by
  obtain ⟨hpos, hle⟩ := least_spec val'
  exact least_le hpos ((codedLength_mono (h _)).trans hle)

/-- **The loop comes to an end**, with the least length that is enough. -/
theorem codeUntilStable_eq (h : Sums offsets val) (hpos : 1 ≤ bytes.length)
    (hgrow : bytes.length ≤ codedLength (val bytes.length))
    (hleast : bytes.length ≤ least val) (hfuel : 17 ≤ fuel + bytes.length) :
    codeUntilStable num offsets fuel bytes =
      .ok (codeInstruction num (val (least val)) none) := by
  induction fuel generalizing bytes with
  | zero =>
    have := codedLength_le_sixteen (val bytes.length)
    omega
  | succ fuel ih =>
    have hlength : (codeInstruction num (val bytes.length) none).length =
        codedLength (val bytes.length) := by
      rw [length_codeInstruction, Option.getD_none, Nat.zero_max]
    rw [codeUntilStable, h.merge]
    show (if bytes.length = (codeInstruction num (val bytes.length) none).length
      then Except.ok (codeInstruction num (val bytes.length) none)
      else codeUntilStable num offsets fuel (codeInstruction num (val bytes.length) none)) = _
    rw [hlength]
    split_ifs with hsame
    · rw [le_antisymm hleast (least_le hpos hsame.symm.le)]
    · have hnext := codedLength_mono (h.grows hgrow)
      refine ih ?_ ?_ ?_ ?_
      · omega
      · rwa [hlength]
      · rw [hlength, ← codedLength_least h.grows]
        exact codedLength_mono (h.grows hleast)
      · omega

/-- **The bytes of an instruction with a label.** -/
theorem codeOffsetInstruction_eq (h : Sums offsets val) (hfuel : 17 ≤ fuel) :
    codeOffsetInstruction fuel num none offsets =
      .ok (codeInstruction num (val (least val)) none) := by
  have hlength : (codeInstruction num (val 1) none).length = codedLength (val 1) := by
    rw [length_codeInstruction, Option.getD_none, Nat.zero_max]
  have hpos := codedLength_pos (val 1)
  have hloop : codeUntilStable num offsets fuel (codeInstruction num (val 1) none) =
      .ok (codeInstruction num (val (least val)) none) := by
    refine codeUntilStable_eq h ?_ ?_ ?_ ?_ <;> rw [hlength]
    · exact hpos
    · exact codedLength_mono (h.grows hpos)
    · rw [← codedLength_least h.grows]
      exact codedLength_mono (h.grows (least_spec val).1)
    · omega
  rw [codeOffsetInstruction, h.merge]
  show (codeUntilStable num offsets fuel (codeInstruction num (val 1) none) >>= fun bytes =>
    Except.ok bytes) = _
  rw [hloop]
  rfl

/-! ## Offsets -/

/-- How far an offset reaches from the end of its instruction. -/
def Offset.reach (length : ℕ) : Offset → ℤ
  | .forward v => v
  | .backward v => -(v + length)
  | .operation _ => 0

/-- An offset that is a distance. -/
def Offset.IsDistance : Offset → Prop
  | .forward v => 0 ≤ v
  | .backward v => 0 ≤ v
  | .operation _ => False

variable {o o' : Offset}

theorem mergeOffsets_label (h : o.IsDistance) (length : ℕ) :
    mergeOffsets length [o] = .ok (o.reach length) := by
  cases o with
  | operation => exact h.elim
  | _ => simp [mergeOffsets, distances, operationsLength, Offset.reach]

theorem mergeOffsets_difference (h : o.IsDistance) (h' : o'.IsDistance) (length : ℕ) :
    mergeOffsets length [o, o'] = .ok (o.reach length - o'.reach length) := by
  cases o with
  | operation => exact h.elim
  | _ =>
    cases o' with
    | operation => exact h'.elim
    | _ => simp [mergeOffsets, distances, operationsLength, Offset.reach]

theorem mergeOffsets_operation (h : o.IsDistance) (length op : ℕ) :
    mergeOffsets length [o, .operation op] =
      .ok (o.reach length - (codeInstruction OPR op none).length) := by
  cases o with
  | operation => exact h.elim
  | forward v => simp [mergeOffsets, distances, operationsLength, Offset.reach]
  | backward v =>
    simp only [mergeOffsets, distances, operationsLength, Offset.reach, List.foldl_nil, add_zero]
    congr 1
    omega

/-- **The offsets of an operand have a sum.** -/
theorem sums_of_isDistance {g : Arg → Option Offset} {arg : Operand Ref}
    (hop : ∀ op, g (.operation op) = some (.operation op))
    (hg : ∀ ref ∈ arg.refs, ∀ o, g (.label ref) = some o → o.IsDistance)
    (h : arg.args.mapM g = some offsets) : ∃ val, Sums offsets val := by
  cases arg with
  | label ref =>
    obtain ⟨o, ho, rfl⟩ : ∃ o, g (.label ref) = some o ∧ offsets = [o] := by
      simpa [Operand.args, Option.bind_eq_some_iff, @eq_comm _ offsets] using h
    have hd := hg ref (by simp [Operand.refs]) o ho
    refine ⟨fun l => o.reach l, mergeOffsets_label hd, fun {l l'} hl => ?_⟩
    cases o with
    | operation => exact hd.elim
    | forward v => exact Grows.refl _
    | backward v =>
      have hv : 0 ≤ v := hd
      simp only [Grows, Offset.reach]
      omega
  | difference a b =>
    obtain ⟨o, ho, o', ho', rfl⟩ : ∃ o, g (.label a) = some o ∧ ∃ o', g (.label b) = some o' ∧
        offsets = [o, o'] := by
      simpa [Operand.args, Option.bind_eq_some_iff, @eq_comm _ offsets] using h
    have hd := hg a (by simp [Operand.refs]) o ho
    have hd' := hg b (by simp [Operand.refs]) o' ho'
    refine ⟨fun l => o.reach l - o'.reach l, mergeOffsets_difference hd hd', fun {l l'} hl => ?_⟩
    cases o with
    | operation => exact hd.elim
    | forward v =>
      have hv : 0 ≤ v := hd
      cases o' with
      | operation => exact hd'.elim
      | forward v' => exact Grows.refl _
      | backward v' =>
        have hv' : 0 ≤ v' := hd'
        simp only [Grows, Offset.reach]
        omega
    | backward v =>
      have hv : 0 ≤ v := hd
      cases o' with
      | operation => exact hd'.elim
      | forward v' =>
        have hv' : 0 ≤ v' := hd'
        simp only [Grows, Offset.reach]
        omega
      | backward v' =>
        have hsame : ∀ l : ℕ, Offset.reach l (.backward v) - Offset.reach l (.backward v') =
            v' - v := fun l => by
          simp only [Offset.reach]
          omega
        rw [hsame, hsame]
        exact Grows.refl _
  | ldpi ref =>
    obtain ⟨o, ho, rfl⟩ : ∃ o, g (.label ref) = some o ∧ offsets = [o, .operation LDPI] := by
      simpa [Operand.args, hop, Option.bind_eq_some_iff, @eq_comm _ offsets] using h
    have hd := hg ref (by simp [Operand.refs]) o ho
    refine ⟨fun l => o.reach l - (codeInstruction OPR LDPI none).length,
      fun l => mergeOffsets_operation hd l LDPI, fun {l l'} hl => ?_⟩
    cases o with
    | operation => exact hd.elim
    | forward v => exact Grows.refl _
    | backward v =>
      have hv : 0 ≤ v := hd
      simp only [Grows, Offset.reach]
      omega

/-! ## Distances -/

variable {p : Proc} {length : ℕ → Option ℕ} {this steps k m : ℕ} {distance v : ℤ} {x y : ℕ → ℕ}

/-- Where a label begins, from the beginning of the proc. -/
def total (y : ℕ → ℕ) (k : ℕ) : ℤ := ∑ j ∈ Finset.range k, (y j : ℤ)

theorem total_succ (y : ℕ → ℕ) (k : ℕ) : total y (k + 1) = total y k + y k :=
  Finset.sum_range_succ _ k

theorem total_sub (y : ℕ → ℕ) (h : k ≤ m) :
    total y m - total y k = ∑ j ∈ Finset.Ico k m, (y j : ℤ) :=
  (Finset.sum_Ico_eq_sub _ h).symm

theorem walkForward_eq (h : ∀ j, this ≤ j → j < this + steps → length j = some (x j)) :
    walkForward length steps this distance =
      some (distance + (total x (this + steps) - total x this)) := by
  induction steps generalizing this distance with
  | zero =>
    rw [walkForward, add_zero, sub_self, add_zero]
  | succ steps ih =>
    rw [walkForward, h this le_rfl (by omega)]
    show walkForward length steps (this + 1) (distance + x this) = _
    rw [ih fun j hj hj' => h j (by omega) (by omega), total_succ,
      show this + 1 + steps = this + (steps + 1) by omega]
    congr 1
    omega

theorem walkBackward_eq (hsteps : steps ≤ this)
    (h : ∀ j, this - steps ≤ j → j < this → length j = some (x j)) :
    walkBackward length steps this distance =
      some (distance + (total x this - total x (this - steps))) := by
  induction steps generalizing this distance with
  | zero =>
    rw [walkBackward, Nat.sub_zero, sub_self, add_zero]
  | succ steps ih =>
    obtain ⟨this, rfl⟩ : ∃ k, this = k + 1 := ⟨this - 1, by omega⟩
    rw [walkBackward, Nat.add_sub_cancel, h this (by omega) (by omega)]
    show walkBackward length steps this (distance + x this) = _
    rw [ih (by omega) fun j hj hj' => h j (by omega) (by omega), total_succ,
      show this + 1 - (steps + 1) = this - steps by omega]
    congr 1
    omega

theorem le_of_walkForward (h : walkForward length steps this distance = some v) : distance ≤ v := by
  induction steps generalizing this distance with
  | zero => exact (Option.some.inj h).le
  | succ steps ih =>
    obtain ⟨l, -, h⟩ := Option.bind_eq_some_iff.mp h
    have := ih h
    omega

theorem le_of_walkBackward (h : walkBackward length steps this distance = some v) :
    distance ≤ v := by
  induction steps generalizing this distance with
  | zero => exact (Option.some.inj h).le
  | succ steps ih =>
    obtain ⟨l, -, h⟩ := Option.bind_eq_some_iff.mp h
    have := ih h
    omega

variable {l : Label Ref} {ref : Ref}

theorem isDistance_offsetTo {idx : ℕ} (hd : 0 ≤ distance)
    (h : offsetTo length this idx distance = some o) : o.IsDistance := by
  rw [offsetTo] at h
  split_ifs at h
  · obtain ⟨v, hv, rfl⟩ := Option.map_eq_some_iff.mp h
    exact hd.trans (le_of_walkForward hv)
  · obtain ⟨v, hv, rfl⟩ := Option.map_eq_some_iff.mp h
    exact hd.trans (le_of_walkBackward hv)
  · cases h
    exact le_rfl

/-- **An offset of a label is a distance**, where it is known. -/
theorem isDistance_offset (hl : l ∈ p.labels) (href : ref ∈ l.refs)
    (h : p.offset length this (.label ref) = some o) : o.IsDistance := by
  cases ref with
  | inside idx => exact isDistance_offsetTo le_rfl h
  | outside before =>
    exact isDistance_offsetTo (sub_nonneg.mpr (p.outside_le l hl before href)) h

/-- Where a label that is referred to begins; from the first label every label outside seems to be
the first label itself. -/
def Proc.place (p : Proc) (y : ℕ → ℕ) (this : ℕ) : Ref → ℤ
  | .inside idx => total y idx
  | .outside before => if this = 0 then 0 else before - p.pos

theorem total_zero (y : ℕ → ℕ) : total y 0 = 0 := Finset.sum_range_zero _

theorem total_update_of_le (x : ℕ → ℕ) (len : ℕ) (h : k ≤ this) :
    total (Function.update x this len) k = total x k := by
  refine Finset.sum_congr rfl fun j hj => ?_
  rw [Function.update_of_ne (by have := Finset.mem_range.mp hj; omega)]

theorem total_update_sub (x : ℕ → ℕ) (len : ℕ) (h : this < k) (hkm : k ≤ m) :
    total (Function.update x this len) m - total (Function.update x this len) k =
      total x m - total x k := by
  rw [total_sub _ hkm, total_sub _ hkm]
  refine Finset.sum_congr rfl fun j hj => ?_
  rw [Function.update_of_ne (by have := Finset.mem_Ico.mp hj; omega)]

theorem total_update_succ (x : ℕ → ℕ) (len : ℕ) :
    total (Function.update x this len) (this + 1) = total x this + len := by
  rw [total_succ, total_update_of_le x len le_rfl, Function.update_self]

theorem offsetTo_forward {idx : ℕ} (h : this < idx) (hx : ∀ j < idx, length j = some (x j)) :
    offsetTo length this idx 0 = some (.forward (total x idx - total x (this + 1))) := by
  rw [offsetTo, if_pos h, walkForward_eq fun j _ hj => hx j (by omega),
    show this + 1 + (idx - (this + 1)) = idx by omega, zero_add]
  rfl

theorem offsetTo_backward {idx : ℕ} (h : idx < this) (hx : ∀ j < this, length j = some (x j)) :
    offsetTo length this idx distance =
      some (.backward (distance + (total x this - total x idx))) := by
  rw [offsetTo, if_neg h.not_gt, if_pos h,
    walkBackward_eq (Nat.sub_le this idx) fun j _ hj => hx j hj,
    show this - (this - idx) = idx by omega]
  rfl

theorem offsetTo_self : offsetTo length this this distance = some (.backward 0) := by
  rw [offsetTo, if_neg (lt_irrefl _), if_neg (lt_irrefl _)]

/-- **Where every length is known**, an offset reaches from the end of the instruction to the
label. -/
theorem offset_reach (hx : ∀ j < p.labels.length, length j = some (x j)) (hl : l ∈ p.labels)
    (hthis : this < p.labels.length) (href : ref ∈ l.refs) :
    ∃ o, p.offset length this (.label ref) = some o ∧ ∀ len,
      o.reach len = p.place (Function.update x this len) this ref -
        total (Function.update x this len) (this + 1) := by
  cases ref with
  | inside idx =>
    have hidx := p.inside_lt l hl idx href
    rcases lt_trichotomy this idx with hlt | rfl | hlt
    · refine ⟨_, offsetTo_forward hlt fun j hj => hx j (hj.trans hidx), fun len => ?_⟩
      rw [Proc.place, total_update_sub x len (Nat.lt_succ_self this) hlt, Offset.reach]
    · refine ⟨_, offsetTo_self, fun len => ?_⟩
      rw [Proc.place, total_update_succ, total_update_of_le x len le_rfl, Offset.reach]
      omega
    · refine ⟨_, offsetTo_backward hlt fun j hj => hx j (hj.trans hthis), fun len => ?_⟩
      rw [Proc.place, total_update_succ, total_update_of_le x len hlt.le, Offset.reach]
      omega
  | outside before =>
    rcases Nat.eq_zero_or_pos this with rfl | hpos
    · refine ⟨_, offsetTo_self, fun len => ?_⟩
      rw [Proc.place, if_pos rfl, total_update_succ, total_zero, Offset.reach]
      omega
    · refine ⟨_, offsetTo_backward hpos fun j hj => hx j (hj.trans hthis), fun len => ?_⟩
      rw [Proc.place, if_neg hpos.ne', total_update_succ, total_zero, Offset.reach]
      omega

theorem offset_operation (num : ℕ) :
    p.offset length this (.operation num) = some (.operation num) := rfl

/-- **What an operand is**, by the lengths of all labels, its own among them. -/
def Proc.operand (p : Proc) (y : ℕ → ℕ) (this : ℕ) : Operand Ref → ℤ
  | .label ref => p.place y this ref - total y (this + 1)
  | .difference a b => p.place y this a - p.place y this b
  | .ldpi ref => p.place y this ref - (total y (this + 1) + 2)

theorem length_ldpi : (codeInstruction OPR LDPI none).length = 2 := by decide +kernel

/-- **The offsets of an operand sum up to it.** -/
theorem offsets_operand (hx : ∀ j < p.labels.length, length j = some (x j)) {num : ℕ}
    {arg : Operand Ref} (hl : p.labels[this]? = some (.offset num arg)) :
    ∃ offsets, arg.args.mapM (p.offset length this) = some offsets ∧ ∀ len,
      mergeOffsets len offsets = .ok (p.operand (Function.update x this len) this arg) := by
  obtain ⟨hthis, hget⟩ := List.getElem?_eq_some_iff.mp hl
  have hmem : Label.offset num arg ∈ p.labels := hget ▸ List.getElem_mem hthis
  have hreach : ∀ ref ∈ arg.refs, ∃ o, p.offset length this (.label ref) = some o ∧ o.IsDistance ∧
      ∀ len, o.reach len = p.place (Function.update x this len) this ref -
        total (Function.update x this len) (this + 1) := fun ref href => by
    obtain ⟨o, ho, hlen⟩ := offset_reach hx hmem hthis href
    exact ⟨o, ho, isDistance_offset hmem href ho, hlen⟩
  cases arg with
  | label ref =>
    obtain ⟨o, ho, hd, hlen⟩ := hreach ref (by simp [Operand.refs])
    refine ⟨[o], by simp [Operand.args, ho], fun len => ?_⟩
    rw [mergeOffsets_label hd, hlen, Proc.operand]
  | difference a b =>
    obtain ⟨o, ho, hd, hlen⟩ := hreach a (by simp [Operand.refs])
    obtain ⟨o', ho', hd', hlen'⟩ := hreach b (by simp [Operand.refs])
    refine ⟨[o, o'], by simp [Operand.args, ho, ho'], fun len => ?_⟩
    rw [mergeOffsets_difference hd hd', hlen, hlen', Proc.operand, sub_sub_sub_cancel_right]
  | ldpi ref =>
    obtain ⟨o, ho, hd, hlen⟩ := hreach ref (by simp [Operand.refs])
    refine ⟨[o, .operation LDPI], by simp [Operand.args, ho, offset_operation], fun len => ?_⟩
    rw [mergeOffsets_operation hd, hlen, Proc.operand, length_ldpi, sub_sub]
    rfl

/-- A place is where a label of the proc begins, or before the proc. -/
theorem place_eq (hl : l ∈ p.labels) (href : ref ∈ l.refs) (this : ℕ) :
    ∃ e : ℤ, 0 ≤ e ∧ (ref.idx = 0 ∨ e = 0) ∧
      ∀ y, p.place y this ref = total y ref.idx - e := by
  cases ref with
  | inside idx => exact ⟨0, le_rfl, Or.inr rfl, fun y => (sub_zero _).symm⟩
  | outside before =>
    have hbefore := p.outside_le l hl before href
    by_cases hfirst : this = 0
    · exact ⟨0, le_rfl, Or.inl rfl, fun y => by
        rw [Proc.place, if_pos hfirst, Ref.idx, total_zero, sub_zero]⟩
    · exact ⟨p.pos - before, by omega, Or.inl rfl, fun y => by
        rw [Proc.place, if_neg hfirst, Ref.idx, total_zero]
        omega⟩

/-- A distance is not negative, and grows with the lengths. -/
theorem total_sub_le (h : x ≤ y) (hkm : k ≤ m) :
    0 ≤ total x m - total x k ∧ total x m - total x k ≤ total y m - total y k := by
  rw [total_sub x hkm, total_sub y hkm]
  exact ⟨Finset.sum_nonneg fun j _ => Int.natCast_nonneg _,
    Finset.sum_le_sum fun j _ => Int.ofNat_le.mpr (h j)⟩

/-- **An operand moves away from zero when lengths grow.** -/
theorem operand_grows {num : ℕ} {arg : Operand Ref} (hl : .offset num arg ∈ p.labels) (h : x ≤ y)
    (hldpi : ∀ ref, arg = .ldpi ref → 2 ≤ x (this + 1)) :
    Grows (p.operand x this arg) (p.operand y this arg) := by
  cases arg with
  | label ref =>
    obtain ⟨e, he, hfirst, hplace⟩ :=
      place_eq hl (show ref ∈ [ref] from List.mem_singleton_self ref) this
    rw [Proc.operand, Proc.operand, hplace, hplace]
    rcases le_total ref.idx (this + 1) with hle | hle
    · have := total_sub_le h hle
      exact Or.inr (by omega)
    · have := total_sub_le h hle
      exact Or.inl (by omega)
  | difference a b =>
    obtain ⟨e, he, hfirst, hplace⟩ :=
      place_eq hl (show a ∈ [a, b] from List.mem_cons_self) this
    obtain ⟨e', he', hfirst', hplace'⟩ :=
      place_eq hl (show b ∈ [a, b] from List.mem_cons_of_mem a List.mem_cons_self) this
    rw [Proc.operand, Proc.operand, hplace, hplace, hplace', hplace']
    rcases lt_trichotomy a.idx b.idx with hlt | heq | hlt
    · have := total_sub_le h hlt.le
      exact Or.inr (by omega)
    · rw [heq, sub_sub_sub_cancel_left, sub_sub_sub_cancel_left]
      exact Grows.refl _
    · have := total_sub_le h hlt.le
      exact Or.inl (by omega)
  | ldpi ref =>
    obtain ⟨e, he, hfirst, hplace⟩ :=
      place_eq hl (show ref ∈ [ref] from List.mem_singleton_self ref) this
    rw [Proc.operand, Proc.operand, hplace, hplace]
    rcases le_or_gt ref.idx (this + 1) with hle | hlt
    · have := total_sub_le h hle
      exact Or.inr (by omega)
    · have htwo := hldpi ref rfl
      have hrest := total_sub_le h (show this + 1 + 1 ≤ ref.idx from hlt)
      have hnext : x (this + 1) ≤ y (this + 1) := h (this + 1)
      rw [total_succ x (this + 1), total_succ y (this + 1)] at hrest
      exact Or.inl (by omega)

/-- A distance does not depend on the labels outside. -/
theorem total_sub_update {j : ℕ} (y : ℕ → ℕ) (len : ℕ) (hkm : k ≤ m) (hj : j < k ∨ m ≤ j) :
    total (Function.update y j len) m - total (Function.update y j len) k =
      total y m - total y k := by
  rw [total_sub _ hkm, total_sub _ hkm]
  refine Finset.sum_congr rfl fun i hi => ?_
  rw [Function.update_of_ne (by have := Finset.mem_Ico.mp hi; omega)]

/-- **An operand depends on the labels between** its own and those it names. -/
theorem operand_update {num j : ℕ} {arg : Operand Ref} (hl : .offset num arg ∈ p.labels)
    (hj : ∀ ref ∈ arg.refs, j ∉ Finset.Icc (min ref.idx this) (max ref.idx this)) (len : ℕ) :
    p.operand (Function.update y j len) this arg = p.operand y this arg := by
  have hreach : ∀ ref ∈ arg.refs,
      p.place (Function.update y j len) this ref - total (Function.update y j len) (this + 1) =
        p.place y this ref - total y (this + 1) := fun ref href => by
    obtain ⟨e, -, -, hplace⟩ := place_eq hl href this
    have hout := hj ref href
    rw [Finset.mem_Icc] at hout
    rw [hplace, hplace]
    rcases le_total ref.idx (this + 1) with hle | hle
    · have := total_sub_update y len hle (j := j) (by omega)
      omega
    · have := total_sub_update y len hle (j := j) (by omega)
      omega
  cases arg with
  | label ref => exact hreach ref (by simp [Operand.refs])
  | difference a b =>
    have ha := hreach a (by simp [Operand.refs])
    have hb := hreach b (by simp [Operand.refs])
    rw [Proc.operand, Proc.operand]
    omega
  | ldpi ref =>
    have hr := hreach ref (by simp [Operand.refs])
    rw [Proc.operand, Proc.operand]
    omega

/-! ## The passes before the estimates -/

/-- There is no jump table. -/
def Proc.NoTables (p : Proc) : Prop :=
  ∀ l ∈ p.labels, ∀ targets entries size, l ≠ .table targets entries size

variable {s s' : State} {i : ℕ} {pos : ℤ} {is : List ℕ}

/-- What the passes before the estimates do: they add lengths. -/
structure Onward (s s' : State) : Prop where
  target : s'.targetLength = s.targetLength
  dependents : s'.dependents = s.dependents
  known : ∀ i len, s.length i = some len → s'.length i = some len

theorem Onward.refl (s : State) : Onward s s := ⟨rfl, rfl, fun _ _ h => h⟩

theorem Onward.trans {s'' : State} (h : Onward s s') (h' : Onward s' s'') : Onward s s'' :=
  ⟨h'.target.trans h.target, h'.dependents.trans h.dependents,
    fun i len hi => h'.known i len (h.known i len hi)⟩

theorem length_code (s : State) (i : ℕ) (bytes : List ℕ) :
    (s.code i bytes).length = Function.update s.length i (some bytes.length) := rfl

theorem onward_code (h : s.length i = none) (bytes : List ℕ) : Onward s (s.code i bytes) := by
  refine ⟨rfl, rfl, fun j len hj => ?_⟩
  rw [length_code, Function.update_of_ne]
  · exact hj
  · rintro rfl
    rw [h] at hj
    cases hj

/-- **A label is coded, or a length is missing.** -/
theorem codeOffset_cases (hp : p.NoTables) (htarget : s.targetLength i = none) :
    (∀ fuel, 17 ≤ fuel → p.codeOffset fuel s i = .ok none) ∨
      i < p.labels.length ∧ ∃ bytes, ∀ fuel, 17 ≤ fuel →
        p.codeOffset fuel s i = .ok (some (s.code i bytes)) := by
  unfold Proc.codeOffset
  split
  · rename_i num arg hl
    obtain ⟨hi, hget⟩ := List.getElem?_eq_some_iff.mp hl
    have hmem : Label.offset num arg ∈ p.labels := hget ▸ List.getElem_mem hi
    cases hoffsets : arg.args.mapM (p.offset s.length i) with
    | none => exact Or.inl fun _ _ => rfl
    | some offsets =>
      obtain ⟨val, hval⟩ := sums_of_isDistance (fun _ => offset_operation _)
        (fun ref href o ho => isDistance_offset hmem href ho) hoffsets
      refine Or.inr ⟨hi, codeInstruction num (val (least val)) none, fun fuel hfuel => ?_⟩
      rw [htarget]
      show (codeOffsetInstruction fuel num none offsets >>= fun bytes =>
        Except.ok (some (s.code i bytes))) = _
      rw [codeOffsetInstruction_eq hval hfuel]
      rfl
  · rename_i hl
    obtain ⟨hi, hget⟩ := List.getElem?_eq_some_iff.mp hl
    exact absurd hget (hp _ (List.getElem_mem hi) _ _ _)
  · exact Or.inl fun _ _ => rfl

theorem isDistance_externalOffset {arg : Operand Ref} {num : ℕ} (hl : .offset num arg ∈ p.labels)
    (hpos : p.pos ≤ pos) (href : ref ∈ arg.refs)
    (h : externalOffset pos (.label ref) = some o) : o.IsDistance := by
  cases ref with
  | inside idx => cases h
  | outside before =>
    cases h
    have hbefore := p.outside_le _ hl before href
    show 0 ≤ pos - before
    omega

/-- **The pass over labels outside** ends. -/
theorem codeStaticExternalOffsets_ends (htarget : s.targetLength = fun _ => none)
    (hpos : p.pos ≤ pos) :
    ∃ s', Onward s s' ∧ ∀ fuel, 17 ≤ fuel →
      p.codeStaticExternalOffsets fuel is pos s = .ok s' := by
  induction is generalizing pos s with
  | nil => exact ⟨s, Onward.refl s, fun _ _ => rfl⟩
  | cons i is ih =>
    unfold Proc.codeStaticExternalOffsets
    cases hlen : s.length i with
    | some len => exact ih htarget (by omega)
    | none =>
      cases hl : p.labels[i]? with
      | none => exact ⟨s, Onward.refl s, fun _ _ => rfl⟩
      | some l =>
        cases l with
        | static insts => exact ⟨s, Onward.refl s, fun _ _ => rfl⟩
        | table targets entries size => exact ⟨s, Onward.refl s, fun _ _ => rfl⟩
        | offset num arg =>
          have hmem : Label.offset num arg ∈ p.labels := List.mem_of_getElem? hl
          cases hoffsets : arg.args.mapM (externalOffset pos) with
          | none => exact ⟨s, Onward.refl s, fun _ _ => by simp [hoffsets]⟩
          | some offsets =>
            obtain ⟨val, hval⟩ := sums_of_isDistance (fun _ => rfl)
              (fun ref href o ho => isDistance_externalOffset hmem hpos href ho) hoffsets
            obtain ⟨s', hs', hrest⟩ := ih
              (s := s.code i (codeInstruction num (val (least val)) none)) htarget
              (show p.pos ≤ pos + (codeInstruction num (val (least val)) none).length by omega)
            refine ⟨s', (onward_code hlen _).trans hs', fun fuel hfuel => ?_⟩
            simp only [hoffsets, htarget]
            rw [codeOffsetInstruction_eq hval hfuel]
            exact hrest fuel hfuel

/-- How many labels have no length. -/
def Proc.missing (p : Proc) (s : State) : ℕ :=
  ((Finset.range p.labels.length).filter (s.length · = none)).card

theorem missing_code (hi : i < p.labels.length) (h : s.length i = none) (bytes : List ℕ) :
    p.missing (s.code i bytes) + 1 = p.missing s := by
  have hmem : i ∈ (Finset.range p.labels.length).filter (s.length · = none) :=
    Finset.mem_filter.mpr ⟨Finset.mem_range.mpr hi, h⟩
  have herase : (Finset.range p.labels.length).filter ((s.code i bytes).length · = none) =
      ((Finset.range p.labels.length).filter (s.length · = none)).erase i := by
    ext j
    rw [Finset.mem_erase, Finset.mem_filter, Finset.mem_filter, length_code]
    by_cases hj : j = i
    · subst hj
      simp
    · simp [hj]
  rw [Proc.missing, herase, Finset.card_erase_add_one hmem]
  rfl

theorem Onward.missing_le (h : Onward s s') : p.missing s' ≤ p.missing s := by
  refine Finset.card_le_card fun j hj => ?_
  obtain ⟨hrange, hnone⟩ := Finset.mem_filter.mp hj
  refine Finset.mem_filter.mpr ⟨hrange, ?_⟩
  by_contra hsome
  obtain ⟨len, hlen⟩ := Option.ne_none_iff_exists'.mp hsome
  rw [h.known j len hlen] at hnone
  cases hnone

/-- **A pass over the known offsets** ends, and what it codes is not missing any more. -/
theorem codeKnownOffsets_ends (hp : p.NoTables) (htarget : s.targetLength = fun _ => none) :
    ∃ coded s', Onward s s' ∧ p.missing s' + coded = p.missing s ∧ ∀ fuel, 17 ≤ fuel →
      p.codeKnownOffsets fuel is s = .ok (coded, s') := by
  induction is generalizing s with
  | nil => exact ⟨0, s, Onward.refl s, rfl, fun _ _ => rfl⟩
  | cons i is ih =>
    unfold Proc.codeKnownOffsets
    by_cases hsome : (s.length i).isSome = true
    · simp only [hsome, if_true]
      exact ih htarget
    · have hnone : s.length i = none := by simpa using hsome
      have hskip : (∀ fuel, 17 ≤ fuel → p.codeOffsetIfKnown fuel s i = .ok none) ∨
          i < p.labels.length ∧ ∃ bytes, ∀ fuel, 17 ≤ fuel →
            p.codeOffsetIfKnown fuel s i = .ok (some (s.code i bytes)) := by
        unfold Proc.codeOffsetIfKnown
        split_ifs
        · exact Or.inl fun _ _ => rfl
        · exact codeOffset_cases hp (by rw [htarget])
      simp only [hsome]
      rcases hskip with hskip | ⟨hi, bytes, hcode⟩
      · obtain ⟨coded, s', hs', hmissing, hrest⟩ := ih htarget
        refine ⟨coded, s', hs', hmissing, fun fuel hfuel => ?_⟩
        rw [hskip fuel hfuel]
        exact hrest fuel hfuel
      · obtain ⟨coded, s', hs', hmissing, hrest⟩ := ih (s := s.code i bytes) htarget
        refine ⟨coded + 1, s', (onward_code hnone bytes).trans hs', ?_, fun fuel hfuel => ?_⟩
        · rw [← missing_code hi hnone bytes, ← hmissing, add_assoc]
        · rw [hcode fuel hfuel]
          show (p.codeKnownOffsets fuel is (s.code i bytes) >>= fun r =>
            Except.ok (r.1 + 1, r.2)) = _
          rw [hrest fuel hfuel]
          rfl

/-- **The passes over the known offsets** end. -/
theorem codeKnown_ends (hp : p.NoTables) (htarget : s.targetLength = fun _ => none) :
    ∃ s', Onward s s' ∧ ∀ fuel, 17 ≤ fuel → ∀ rounds, p.missing s + 1 ≤ rounds →
      p.codeKnown fuel rounds s = .ok s' := by
  induction hmeasure : p.missing s using Nat.strong_induction_on generalizing s with
  | _ missing ih =>
    obtain ⟨coded, s₁, hs₁, hmissing, hpass⟩ :=
      codeKnownOffsets_ends hp htarget
    by_cases hcoded : 0 < coded
    · obtain ⟨s₂, hs₂, hexternal⟩ :=
        codeStaticExternalOffsets_ends (hs₁.target.trans htarget) (le_refl p.pos)
      have hfewer := hs₂.missing_le (p := p)
      obtain ⟨s', hs', hrest⟩ := ih (p.missing s₂) (by omega)
        (hs₂.target.trans (hs₁.target.trans htarget)) rfl
      refine ⟨s', hs₁.trans (hs₂.trans hs'), fun fuel hfuel rounds hrounds => ?_⟩
      obtain ⟨rounds, rfl⟩ : ∃ k, rounds = k + 1 := ⟨rounds - 1, by omega⟩
      rw [Proc.codeKnown, hpass fuel hfuel]
      show (if 0 < coded then p.codeStaticExternalOffsets fuel (List.range p.labels.length) p.pos s₁
        >>= p.codeKnown fuel rounds else Except.ok s₁) = _
      rw [if_pos hcoded, hexternal fuel hfuel]
      exact hrest fuel hfuel rounds (by omega)
    · refine ⟨s₁, hs₁, fun fuel hfuel rounds hrounds => ?_⟩
      obtain ⟨rounds, rfl⟩ : ∃ k, rounds = k + 1 := ⟨rounds - 1, by omega⟩
      rw [Proc.codeKnown, hpass fuel hfuel]
      show (if 0 < coded then p.codeStaticExternalOffsets fuel (List.range p.labels.length) p.pos s₁
        >>= p.codeKnown fuel rounds else Except.ok s₁) = _
      rw [if_neg hcoded]

theorem dependencies_congr (h : s'.length = s.length) (i : ℕ) :
    p.dependencies s' i = p.dependencies s i := by
  unfold Proc.dependencies State.dynamic
  rw [h]

/-- **Who depends on a label is recorded there**, unless a label depends on none. -/
theorem buildLabelDependents_cases :
    (∃ idx, p.buildLabelDependents is s = .error (.noDynamicDependencies idx)) ∨
      ∃ s', p.buildLabelDependents is s = .ok s' ∧ s'.length = s.length ∧
        s'.targetLength = s.targetLength ∧ ∀ k i, i ∈ s'.dependents k ↔
          i ∈ s.dependents k ∨ i ∈ is ∧ s.length i = none ∧ k ∈ p.dependencies s i := by
  induction is generalizing s with
  | nil => exact Or.inr ⟨s, rfl, rfl, rfl, fun k i => by simp⟩
  | cons i is ih =>
    rw [Proc.buildLabelDependents]
    by_cases hsome : (s.length i).isSome = true
    · rw [if_pos hsome]
      rcases ih (s := s) with hdied | ⟨s', hs', hlength, htarget, hdeps⟩
      · exact Or.inl hdied
      · refine Or.inr ⟨s', hs', hlength, htarget, fun k j => ?_⟩
        rw [hdeps, List.mem_cons]
        have hne : s.length j = none → j ≠ i := by
          rintro hj rfl
          rw [hj] at hsome
          cases hsome
        tauto
    · have hnone : s.length i = none := by simpa using hsome
      rw [if_neg hsome]
      by_cases hempty : p.dependencies s i = ∅
      · exact Or.inl ⟨i, if_pos hempty⟩
      · rw [if_neg hempty]
        rcases ih (s := _) with hdied | ⟨s', hs', hlength, htarget, hdeps⟩
        · exact Or.inl hdied
        · refine Or.inr ⟨s', hs', hlength, htarget, fun k j => ?_⟩
          rw [hdeps, List.mem_cons, dependencies_congr rfl]
          by_cases hk : k ∈ p.dependencies s i
          · simp only [hk, if_true, Finset.mem_insert]
            by_cases hj : j = i
            · subst hj
              tauto
            · tauto
          · simp only [hk, if_false]
            by_cases hj : j = i
            · subst hj
              tauto
            · tauto

/-! ## The equations of the estimates -/

/-- **What is prepared** when the estimates are coded. -/
structure Prepared (p : Proc) (s : State) : Prop where
  target : s.targetLength = fun _ => none
  estimate : ∀ i ∈ s.estimate, s.length i = some 1 ∧ ∃ num arg, p.labels[i]? =
    some (.offset num arg)
  known : ∀ i < p.labels.length, ∃ len, s.length i = some len
  ldpi : ∀ i num ref, p.labels[i]? = some (.offset num (.ldpi ref)) →
    i + 1 ∉ s.estimate ∧ ∃ len, s.length (i + 1) = some len ∧ 2 ≤ len
  closed : ∀ k, s.dependents k ⊆ s.estimate
  depends : ∀ i ∈ s.estimate, ∀ k ∈ s.estimate, k ≠ i → ∀ num arg,
    p.labels[i]? = some (.offset num arg) → ∀ ref ∈ arg.refs,
      k ∈ Finset.Icc (min ref.idx i) (max ref.idx i) → i ∈ s.dependents k

/-- The lengths, where those that are estimated are `x`. -/
def State.fill (s : State) (x : ℕ → ℕ) (j : ℕ) : ℕ :=
  if j ∈ s.estimate then x j else (s.length j).getD 0

/-- The length of a label, by the lengths of the others. -/
noncomputable def Proc.relaxed (p : Proc) (s : State) (x : ℕ → ℕ) (i : ℕ) : ℕ :=
  match p.labels[i]? with
  | some (.offset _ arg) => least fun len => p.operand (Function.update (s.fill x) i len) i arg
  | _ => x i

theorem relaxed_eq {num : ℕ} {arg : Operand Ref} (hl : p.labels[i]? = some (.offset num arg))
    (s : State) (x : ℕ → ℕ) : p.relaxed s x i =
      least fun len => p.operand (Function.update (s.fill x) i len) i arg := by
  rw [Proc.relaxed, hl]

theorem fill_mono (h : x ≤ y) : s.fill x ≤ s.fill y := by
  intro j
  rw [State.fill, State.fill]
  split_ifs
  · exact h j
  · exact le_rfl

theorem fill_update {j : ℕ} (hj : j ∈ s.estimate) (x : ℕ → ℕ) (v : ℕ) :
    s.fill (Function.update x j v) = Function.update (s.fill x) j v := by
  funext k
  by_cases hk : k = j
  · subst hk
    rw [State.fill, if_pos hj, Function.update_self, Function.update_self]
  · rw [State.fill, Function.update_of_ne hk, Function.update_of_ne hk, State.fill]

/-- Where its own length does not matter, an operand is one of growing numbers. -/
theorem Prepared.grows (hs : Prepared p s) {num : ℕ} {arg : Operand Ref}
    (hl : p.labels[i]? = some (.offset num arg)) (h : x ≤ y) {len len' : ℕ} (hlen : len ≤ len') :
    Grows (p.operand (Function.update (s.fill x) i len) i arg)
      (p.operand (Function.update (s.fill y) i len') i arg) := by
  refine operand_grows (List.mem_of_getElem? hl) (fun j => ?_) ?_
  · by_cases hj : j = i
    · rw [hj, Function.update_self, Function.update_self]
      exact hlen
    · rw [Function.update_of_ne hj, Function.update_of_ne hj]
      exact fill_mono h j
  · rintro ref rfl
    obtain ⟨hknown, len, hlen, htwo⟩ := hs.ldpi i num ref hl
    rw [Function.update_of_ne (Nat.succ_ne_self i), State.fill, if_neg hknown, hlen]
    exact htwo

/-- **The lengths that are estimated solve equations** that a worklist can solve. -/
theorem Prepared.equations (hs : Prepared p s) :
    Worklist.Equations (p.relaxed s) s.dependents s.estimate 16 where
  mono {x y i} hi h := by
    obtain ⟨-, num, arg, hl⟩ := hs.estimate i hi
    rw [relaxed_eq hl, relaxed_eq hl]
    exact least_mono fun len => hs.grows hl h le_rfl
  le_bound x i hi := by
    obtain ⟨-, num, arg, hl⟩ := hs.estimate i hi
    rw [relaxed_eq hl]
    exact least_le_sixteen _
  depends {i j} hi hj hnot x v := by
    obtain ⟨-, num, arg, hl⟩ := hs.estimate i hi
    rw [relaxed_eq hl, relaxed_eq hl, fill_update hj]
    congr 1
    funext len
    by_cases hij : j = i
    · rw [hij, Function.update_idem]
    · rw [Function.update_comm hij]
      exact operand_update (List.mem_of_getElem? hl)
        (fun ref href hmem => hnot (hs.depends i hi j hj hij num arg hl ref href hmem)) v
  closed j _ := hs.closed j

/-! ## The loops over the estimates -/

/-- The bytes of a label, by the lengths of the others. -/
noncomputable def Proc.relaxedBytes (p : Proc) (s : State) (x : ℕ → ℕ) (i : ℕ) : List ℕ :=
  match p.labels[i]? with
  | some (.offset num arg) =>
    codeInstruction num (p.operand (Function.update (s.fill x) i (p.relaxed s x i)) i arg) none
  | _ => []

/-- **The state in a loop over the estimates**: the lengths are `x`, and nothing but the bytes of
estimated instructions has changed. -/
structure Estimating (s₀ s : State) (x : ℕ → ℕ) : Prop where
  length : s.length = fun i => if i ∈ s₀.estimate then some (x i) else s₀.length i
  bytes : ∀ i k, i ∉ s₀.estimate ∨ k ≠ 0 → s.bytes i k = s₀.bytes i k
  target : s.targetLength = s₀.targetLength
  dependents : s.dependents = s₀.dependents

variable {s₀ : State}

theorem Estimating.length_eq (h : Estimating s₀ s x) (j : ℕ) :
    s.length j = if j ∈ s₀.estimate then some (x j) else s₀.length j := congrFun h.length j

theorem Prepared.length_relaxedBytes (hs : Prepared p s₀) (hi : i ∈ s₀.estimate) (x : ℕ → ℕ) :
    (p.relaxedBytes s₀ x i).length = p.relaxed s₀ x i := by
  obtain ⟨-, num, arg, hl⟩ := hs.estimate i hi
  have hleast : codedLength (p.operand (Function.update (s₀.fill x) i (p.relaxed s₀ x i)) i arg) =
      p.relaxed s₀ x i := by
    rw [relaxed_eq hl]
    exact codedLength_least fun h => hs.grows hl le_rfl h
  rw [Proc.relaxedBytes, hl]
  show (codeInstruction num _ none).length = _
  rw [length_codeInstruction, Option.getD_none, Nat.zero_max, hleast]

/-- **Coding an estimated label again** in the loops. -/
theorem Estimating.codeOffset (h : Estimating s₀ s x) (hs : Prepared p s₀) (hi : i ∈ s₀.estimate)
    (hfuel : 17 ≤ fuel) :
    p.codeOffset fuel s i = .ok (some (s.code i (p.relaxedBytes s₀ x i))) := by
  obtain ⟨-, num, arg, hl⟩ := hs.estimate i hi
  have hfill : ∀ j < p.labels.length, s.length j = some (s₀.fill x j) := fun j hj => by
    obtain ⟨len, hlen⟩ := hs.known j hj
    rw [h.length_eq, State.fill]
    by_cases hj : j ∈ s₀.estimate
    · rw [if_pos hj, if_pos hj]
    · rw [if_neg hj, if_neg hj, hlen]
      rfl
  obtain ⟨offsets, hoffsets, hmerge⟩ := offsets_operand hfill hl
  have hsums : Sums offsets fun len => p.operand (Function.update (s₀.fill x) i len) i arg :=
    ⟨hmerge, fun hle => hs.grows hl le_rfl hle⟩
  unfold Proc.codeOffset
  simp only [hl, hoffsets, h.target, hs.target]
  rw [codeOffsetInstruction_eq hsums hfuel, Proc.relaxedBytes, hl]
  simp only [relaxed_eq hl]
  rfl

theorem Estimating.code (h : Estimating s₀ s x) (hs : Prepared p s₀) (hi : i ∈ s₀.estimate) :
    Estimating s₀ (s.code i (p.relaxedBytes s₀ x i))
      (Function.update x i (p.relaxed s₀ x i)) := by
  refine ⟨?_, fun j k hjk => ?_, h.target, h.dependents⟩
  · rw [length_code, hs.length_relaxedBytes hi, h.length]
    funext j
    by_cases hj : j = i
    · subst hj
      rw [Function.update_self, if_pos hi, Function.update_self]
    · rw [Function.update_of_ne hj, Function.update_of_ne hj]
  · rw [← h.bytes j k hjk]
    show Function.update s.bytes i _ j k = _
    by_cases hj : j = i
    · subst hj
      rw [Function.update_self, Function.update_of_ne (hjk.resolve_left fun hn => hn hi)]
    · rw [Function.update_of_ne hj]

/-- **A round is a pass of a worklist.** -/
theorem Estimating.codeEstimates (h : Estimating s₀ s x) (hs : Prepared p s₀)
    (his : ∀ i ∈ is, i ∈ s₀.estimate) (hfuel : 17 ≤ fuel) (pending : Finset ℕ) :
    ∃ s', p.codeEstimates fuel is s pending = .ok (s',
        (is.foldl (Worklist.visit (p.relaxed s₀) s₀.dependents) (x, pending)).2) ∧
      s'.estimate = s.estimate ∧
      Estimating s₀ s' (is.foldl (Worklist.visit (p.relaxed s₀) s₀.dependents) (x, pending)).1 := by
  induction is generalizing s x pending with
  | nil => exact ⟨s, rfl, rfl, h⟩
  | cons i is ih =>
    have hi := his i List.mem_cons_self
    have hnext := h.code hs hi
    obtain ⟨s', hs', hrest⟩ := ih hnext (fun j hj => his j (List.mem_cons_of_mem i hj))
      (if p.relaxed s₀ x i = x i then pending else pending ∪ s₀.dependents i)
    refine ⟨s', ?_, hrest⟩
    have hsame : (s.code i (p.relaxedBytes s₀ x i)).length i = s.length i ↔
        p.relaxed s₀ x i = x i := by
      rw [hnext.length, h.length]
      simp [hi]
    rw [Proc.codeEstimates, h.codeOffset hs hi hfuel]
    show p.codeEstimates fuel is (s.code i (p.relaxedBytes s₀ x i))
      (if (s.code i (p.relaxedBytes s₀ x i)).length i = s.length i then pending
        else pending ∪ (s.code i (p.relaxedBytes s₀ x i)).dependents i) = _
    rw [hnext.dependents]
    simp only [hsame]
    exact hs'

/-- **The rounds are the run of a worklist.** -/
theorem Estimating.codeToCode (h : Estimating s₀ s x) (hs : Prepared p s₀)
    {order : Worklist.Order ℕ} (hfuel : 17 ≤ fuel) {rounds r : ℕ} {toCode : Finset ℕ}
    (hto : toCode ⊆ s₀.estimate) {z : ℕ → ℕ}
    (hrun : Worklist.run (p.relaxed s₀) s₀.dependents order.keys rounds r x toCode = some z) :
    ∃ s', p.codeToCode order fuel rounds r s toCode = .ok s' ∧ s'.estimate = s.estimate ∧
      Estimating s₀ s' z := by
  induction rounds generalizing r s x toCode with
  | zero => cases hrun
  | succ rounds ih =>
    rw [Worklist.run] at hrun
    rw [Proc.codeToCode]
    by_cases hempty : toCode = ∅
    · rw [if_pos hempty] at hrun ⊢
      obtain rfl := Option.some.inj hrun
      exact ⟨s, rfl, rfl, h⟩
    · rw [if_neg hempty] at hrun ⊢
      have hkeys : ∀ i ∈ order.keys r toCode, i ∈ s₀.estimate := fun i hi =>
        hto ((order.mem_iff r toCode i).mp hi)
      obtain ⟨s', hs', hestimate, hrest⟩ := h.codeEstimates hs hkeys hfuel ∅
      obtain ⟨t, ht, hestimate', hrest'⟩ :=
        ih hrest (Worklist.pass_subset hs.equations order hto r x) hrun
      rw [hs']
      exact ⟨t, ht, hestimate'.trans hestimate, hrest'⟩

/-- **How the loops leave the proc**, with the lengths `x`. -/
noncomputable def Proc.settled (p : Proc) (s₀ : State) (x : ℕ → ℕ) : State :=
  { s₀ with
    length := fun i => if i ∈ s₀.estimate then some (x i) else s₀.length i
    bytes := fun i k => if i ∈ s₀.estimate ∧ k = 0 then p.relaxedBytes s₀ x i else s₀.bytes i k
    estimate := ∅ }

/-- Coding again writes the bytes of stable lengths, and leaves the lengths. -/
theorem Estimating.code_stable (h : Estimating s₀ s x) (hs : Prepared p s₀) (hi : i ∈ s₀.estimate)
    (hstable : p.relaxed s₀ x i = x i) :
    Estimating s₀ (s.code i (p.relaxedBytes s₀ x i)) x := by
  have hcode := h.code hs hi
  rwa [hstable, Function.update_eq_self] at hcode

/-- **The last pass** changes no length. -/
theorem Estimating.codeStable (h : Estimating s₀ s x) (hs : Prepared p s₀)
    (hstable : ∀ i ∈ s₀.estimate, p.relaxed s₀ x i = x i) (hfuel : 17 ≤ fuel)
    (hsub : s.estimate ⊆ s₀.estimate) (his : ∀ i ∈ s.estimate, i ∈ is)
    (hdone : ∀ i ∈ s₀.estimate, i ∉ s.estimate → s.bytes i 0 = p.relaxedBytes s₀ x i) :
    p.codeStable fuel is s = .ok (p.settled s₀ x) := by
  induction is generalizing s with
  | nil =>
    have hempty : s.estimate = ∅ := Finset.eq_empty_of_forall_notMem fun i hi => by
      exact absurd (his i hi) List.not_mem_nil
    have hbytes : s.bytes = (p.settled s₀ x).bytes := by
      funext i k
      show s.bytes i k = if i ∈ s₀.estimate ∧ k = 0 then p.relaxedBytes s₀ x i else s₀.bytes i k
      split_ifs with hik
      · rw [hik.2]
        exact hdone i hik.1 (by simp [hempty])
      · exact h.bytes i k (by tauto)
    obtain ⟨length, bytes, target, estimate, dependents⟩ := s
    obtain rfl : estimate = ∅ := hempty
    obtain rfl : bytes = _ := hbytes
    obtain rfl : length = _ := h.length
    obtain rfl : target = _ := h.target
    obtain rfl : dependents = _ := h.dependents
    rfl
  | cons i is ih =>
    rw [Proc.codeStable]
    by_cases hi : i ∈ s.estimate
    · have hcode := h.code_stable hs (hsub hi) (hstable i (hsub hi))
      have hsame : (s.code i (p.relaxedBytes s₀ x i)).length i = s.length i := by
        rw [hcode.length_eq, h.length_eq]
      rw [if_neg (not_not.mpr hi), h.codeOffset hs (hsub hi) hfuel]
      show (if (s.code i (p.relaxedBytes s₀ x i)).length i ≠ s.length i then _
        else p.codeStable fuel is _) = _
      rw [if_neg (not_not.mpr hsame)]
      refine ih ⟨hcode.length, hcode.bytes, hcode.target, hcode.dependents⟩
        ((Finset.erase_subset _ _).trans hsub) (fun j hj => ?_) fun j hj hnot => ?_
      · obtain ⟨hne, hj⟩ := Finset.mem_erase.mp hj
        exact (List.mem_cons.mp (his j hj)).resolve_left hne
      · show Function.update s.bytes i _ j 0 = _
        by_cases hji : j = i
        · subst hji
          rw [Function.update_self, Function.update_self]
        · rw [Function.update_of_ne hji]
          exact hdone j hj fun hmem => hnot (Finset.mem_erase.mpr ⟨hji, hmem⟩)
    · rw [if_pos hi]
      refine ih h hsub (fun j hj => ?_) hdone
      refine (List.mem_cons.mp (his j hj)).resolve_left ?_
      rintro rfl
      exact hi hj

/-- How often the loops are gone through at most. -/
def Proc.enough (p : Proc) : ℕ := 16 * p.labels.length + 17

theorem Prepared.lt_length (hs : Prepared p s₀) (hi : i ∈ s₀.estimate) : i < p.labels.length := by
  obtain ⟨-, num, arg, hl⟩ := hs.estimate i hi
  exact (List.getElem?_eq_some_iff.mp hl).1

theorem Prepared.card_le (hs : Prepared p s₀) : s₀.estimate.card ≤ p.labels.length := by
  refine (Finset.card_le_card fun i hi => ?_).trans (Finset.card_range p.labels.length).le
  exact Finset.mem_range.mpr (hs.lt_length hi)

theorem estimating_settled (p : Proc) (s₀ : State) (x : ℕ → ℕ) :
    Estimating s₀ (p.settled s₀ x) x := by
  refine ⟨rfl, fun i k hik => ?_, rfl, rfl⟩
  show (if i ∈ s₀.estimate ∧ k = 0 then p.relaxedBytes s₀ x i else s₀.bytes i k) = _
  rw [if_neg (by tauto)]

/-- Stable lengths are left as they are. -/
theorem settled_code (hs : Prepared p s₀) (hi : i ∈ s₀.estimate)
    (hstable : p.relaxed s₀ x i = x i) :
    (p.settled s₀ x).code i (p.relaxedBytes s₀ x i) = p.settled s₀ x := by
  have hlength := ((estimating_settled p s₀ x).code_stable hs hi hstable).length
  have hbytes : ((p.settled s₀ x).code i (p.relaxedBytes s₀ x i)).bytes =
      (p.settled s₀ x).bytes := by
    have hsame : Function.update ((p.settled s₀ x).bytes i) 0 (p.relaxedBytes s₀ x i) =
        (p.settled s₀ x).bytes i := by
      refine Function.update_eq_self_iff.mpr ?_
      exact (if_pos ⟨hi, rfl⟩ : (if i ∈ s₀.estimate ∧ 0 = 0 then _ else _) = _).symm
    show Function.update (p.settled s₀ x).bytes i _ = _
    rw [hsame, Function.update_eq_self]
  generalize hcoded : (p.settled s₀ x).code i (p.relaxedBytes s₀ x i) = coded at hlength hbytes
  have hrest : coded.targetLength = s₀.targetLength ∧ coded.estimate = ∅ ∧
      coded.dependents = s₀.dependents := hcoded ▸ ⟨rfl, rfl, rfl⟩
  obtain ⟨length, bytes, target, estimate, dependents⟩ := coded
  obtain ⟨rfl, rfl, rfl⟩ := hrest
  obtain rfl : length = _ := hlength
  obtain rfl : bytes = _ := hbytes
  rfl

/-- **The loops over the estimates** end with stable lengths, in whatever order. -/
theorem codeDynamicOffsets_ends (hs : Prepared p s₀) :
    ∃ s, (∀ (order : Worklist.Order ℕ) fuel, p.enough ≤ fuel →
        p.codeDynamicOffsets order fuel s₀ = .ok s) ∧
      ∀ i ∈ s₀.estimate, ∀ fuel, p.enough ≤ fuel → p.codeOffset fuel s i = .ok (some s) := by
  have hone : ∀ i ∈ s₀.estimate, (s₀.length i).getD 0 = 1 := fun i hi => by
    rw [(hs.estimate i hi).1]
    rfl
  have hunder : ∀ i ∈ s₀.estimate, (s₀.length i).getD 0 ≤
      p.relaxed s₀ (fun i => (s₀.length i).getD 0) i := fun i hi => by
    obtain ⟨-, num, arg, hl⟩ := hs.estimate i hi
    rw [hone i hi, relaxed_eq hl]
    exact (least_spec _).1
  have hstart : Estimating s₀ s₀ fun i => (s₀.length i).getD 0 := by
    refine ⟨funext fun i => ?_, fun _ _ _ => rfl, rfl, rfl⟩
    split_ifs with hi
    · rw [(hs.estimate i hi).1]
      rfl
    · rfl
  obtain ⟨x, hx, -, hrun⟩ := Worklist.run_eq hs.equations hunder
  refine ⟨p.settled s₀ x, fun order fuel hfuel => ?_, fun i hi fuel hfuel => ?_⟩
  · rw [Proc.enough] at hfuel
    have hcard := hs.card_le
    have hloop : 17 ≤ fuel := by omega
    obtain ⟨s, hs', hestimate, hrest⟩ := hstart.codeToCode hs hloop subset_rfl
      (hrun order fuel (by omega))
    rw [Proc.codeDynamicOffsets, hs']
    refine hrest.codeStable hs hx.solves hloop hestimate.le (fun i hi => ?_) fun i hi hnot => ?_
    · rw [hestimate] at hi
      exact List.mem_range.mpr (hs.lt_length hi)
    · rw [hestimate] at hnot
      exact absurd hi hnot
  · rw [Proc.enough] at hfuel
    rw [(estimating_settled p s₀ x).codeOffset hs hi (by omega),
      settled_code hs hi (hx.solves i hi)]

/-! ## Termination and stability -/

theorem mem_dependencies {k : ℕ} {num : ℕ} {arg : Operand Ref}
    (hl : p.labels[i]? = some (.offset num arg)) (href : ref ∈ arg.refs) (hne : k ≠ i)
    (hk : k ∈ Finset.Icc (min ref.idx i) (max ref.idx i)) (hdynamic : s.length k = none) :
    k ∈ p.dependencies s i := by
  rw [Proc.dependencies, hl]
  refine Finset.mem_erase.mpr ⟨hne, Finset.mem_biUnion.mpr ⟨ref, ?_, ?_⟩⟩
  · exact List.mem_toFinset.mpr href
  · refine Finset.mem_filter.mpr ⟨hk, ?_⟩
    rw [State.dynamic, hdynamic]
    rfl

theorem two_le_length_ldpi (insts : List Inst) :
    2 ≤ ((Inst.operation LDPI :: insts).map (·.code.length)).sum := by
  rw [List.map_cons, List.sum_cons, Inst.code, length_ldpi]
  omega

theorem length_static {insts : List Inst} (hl : p.labels[i]? = some (.static insts)) :
    p.codeStaticInstructions.length i = some (insts.map (·.code.length)).sum := by
  simp only [Proc.codeStaticInstructions, hl]

theorem length_estimated {num : ℕ} {arg : Operand Ref} (hl : p.labels[i]? = some (.offset num arg))
    (h : s.length i = none) : (p.addInitialEstimateLengths s).length i = some 1 := by
  simp only [Proc.addInitialEstimateLengths, hl, h]

theorem length_not_estimated {len : ℕ} (h : s.length i = some len) :
    (p.addInitialEstimateLengths s).length i = some len := by
  simp only [Proc.addInitialEstimateLengths, h]
  split <;> simp_all

/-- **Estimates are put on what is prepared.** -/
theorem prepared_estimates (hp : p.NoTables) (hon : Onward p.codeStaticInstructions s)
    (hlength : s'.length = s.length) (htarget : s'.targetLength = s.targetLength)
    (hdeps : ∀ k i, i ∈ s'.dependents k ↔ i ∈ List.range p.labels.length ∧ s.length i = none ∧
      k ∈ p.dependencies s i) : Prepared p (p.addInitialEstimateLengths s') := by
  have hstatic : ∀ i insts, p.labels[i]? = some (.static insts) →
      s.length i = some (insts.map (·.code.length)).sum := fun i insts hl =>
    hon.known i _ (length_static hl)
  have hestimate : ∀ i, i ∈ (p.addInitialEstimateLengths s').estimate ↔
      i < p.labels.length ∧ s.length i = none := fun i => by
    rw [Proc.addInitialEstimateLengths, Finset.mem_filter, Finset.mem_range, hlength]
  have hoffset : ∀ i, i < p.labels.length → s.length i = none →
      ∃ num arg, p.labels[i]? = some (.offset num arg) := fun i hi hnone => by
    have hget := List.getElem?_eq_getElem hi
    cases hl : p.labels[i] with
    | static insts =>
      rw [hl] at hget
      rw [hstatic i insts hget] at hnone
      cases hnone
    | table targets entries size => exact absurd hl (hp _ (List.getElem_mem hi) _ _ _)
    | offset num arg => exact ⟨num, arg, hl ▸ hget⟩
  have hone : ∀ i, i < p.labels.length → s.length i = none →
      (p.addInitialEstimateLengths s').length i = some 1 := fun i hi hnone => by
    obtain ⟨num, arg, hl⟩ := hoffset i hi hnone
    exact length_estimated hl (hlength ▸ hnone)
  have hkept : ∀ i len, s.length i = some len →
      (p.addInitialEstimateLengths s').length i = some len := fun i len hlen =>
    length_not_estimated (hlength ▸ hlen)
  refine ⟨?_, fun i hi => ?_, fun i hi => ?_, fun i num ref hl => ?_, fun k i hi => ?_,
    fun i hi k hk hne num arg hl ref href hmem => ?_⟩
  · exact htarget.trans (hon.target.trans rfl)
  · obtain ⟨hlt, hnone⟩ := (hestimate i).mp hi
    exact ⟨hone i hlt hnone, hoffset i hlt hnone⟩
  · cases hlen : s.length i with
    | none => exact ⟨1, hone i hi hlen⟩
    | some len => exact ⟨len, hkept i len hlen⟩
  · obtain ⟨insts, hnext⟩ := p.ldpi i num ref hl
    have hlen := hstatic (i + 1) _ hnext
    refine ⟨fun hmem => ?_, _, hkept _ _ hlen, two_le_length_ldpi insts⟩
    rw [((hestimate _).mp hmem).2] at hlen
    cases hlen
  · obtain ⟨hrange, hnone, -⟩ := (hdeps k i).mp hi
    exact (hestimate i).mpr ⟨List.mem_range.mp hrange, hnone⟩
  · obtain ⟨hlt, hnone⟩ := (hestimate i).mp hi
    obtain ⟨-, hnone'⟩ := (hestimate k).mp hk
    exact (hdeps k i).mpr ⟨List.mem_range.mpr hlt, hnone,
      mem_dependencies hl href hne hmem hnone'⟩

/-- **What comes before the estimates** ends, with what is prepared or with the message that a label
depends on none. -/
theorem prepare_ends (hp : p.NoTables) :
    (∃ idx, ∀ fuel, p.enough ≤ fuel → p.prepare fuel = .error (.noDynamicDependencies idx)) ∨
      ∃ s, Prepared p s ∧ ∀ fuel, p.enough ≤ fuel → p.prepare fuel = .ok s := by
  obtain ⟨s₁, hs₁, hexternal⟩ :=
    codeStaticExternalOffsets_ends (s := p.codeStaticInstructions) rfl (le_refl p.pos)
  obtain ⟨s₂, hs₂, hknown⟩ := codeKnown_ends hp hs₁.target
  have hmissing : p.missing s₁ ≤ p.labels.length :=
    (Finset.card_filter_le _ _).trans (Finset.card_range _).le
  have hprepare : ∀ fuel, p.enough ≤ fuel → p.prepare fuel =
      (p.buildLabelDependents (List.range p.labels.length) s₂ >>= fun s =>
        Except.ok (p.addInitialEstimateLengths s)) := fun fuel hfuel => by
    rw [Proc.enough] at hfuel
    rw [Proc.prepare, hexternal fuel (by omega)]
    show (p.codeKnown fuel fuel s₁ >>= _) = _
    rw [hknown fuel (by omega) fuel (by omega)]
    rfl
  have hon := hs₁.trans hs₂
  rcases buildLabelDependents_cases (p := p) (s := s₂) with
    ⟨idx, hdied⟩ | ⟨s₃, hs₃, hlength, htarget, hdeps⟩
  · refine Or.inl ⟨idx, fun fuel hfuel => ?_⟩
    rw [hprepare fuel hfuel, hdied]
    rfl
  · refine Or.inr ⟨p.addInitialEstimateLengths s₃, ?_, fun fuel hfuel => ?_⟩
    · refine prepared_estimates hp hon hlength htarget fun k i => ?_
      rw [hdeps, hon.dependents]
      simp [Proc.codeStaticInstructions]
    · rw [hprepare fuel hfuel, hs₃]
      rfl

/-- **The relaxation of the lengths terminates and is stable.**  Unless a label depends on none,
which is found out before, the loops end at one state in whatever order the hash of the pending
labels is visited, and there to code an estimated label again changes nothing. -/
theorem relaxation_stable (p : Proc) (hp : p.NoTables) :
    (∃ idx, ∀ fuel, p.enough ≤ fuel → p.prepare fuel = .error (.noDynamicDependencies idx)) ∨
      ∃ s₀ s, (∀ fuel, p.enough ≤ fuel → p.prepare fuel = .ok s₀) ∧
        (∀ (order : Worklist.Order ℕ) fuel, p.enough ≤ fuel → p.code order fuel = .ok s) ∧
        ∀ i ∈ s₀.estimate, ∀ fuel, p.enough ≤ fuel →
          p.codeOffset fuel s i = .ok (some s) := by
  rcases prepare_ends hp with hdied | ⟨s₀, hs₀, hprepare⟩
  · exact Or.inl hdied
  · obtain ⟨s, hends, hstable⟩ := codeDynamicOffsets_ends hs₀
    refine Or.inr ⟨s₀, s, hprepare, fun order fuel hfuel => ?_, hstable⟩
    rw [Proc.code, hprepare fuel hfuel]
    exact hends order fuel hfuel

/-- Two jumps, over each other. -/
def twoJumps : Proc where
  pos := 0
  labels := [.static [], .offset J (.label (.inside 3)), .offset J (.label (.inside 1)), .static []]
  inside_lt := by simp [Label.refs, Operand.refs]
  outside_le := by simp [Label.refs, Operand.refs]
  ldpi i num ref h := by
    match i with
    | 0 | 1 | 2 | 3 => cases h
    | i + 4 => cases h

/-- The jumps of `twoJumps` are no table. -/
theorem relaxation_stable_twoJumps : twoJumps.NoTables ∧
    ((∃ idx, ∀ fuel, twoJumps.enough ≤ fuel →
      twoJumps.prepare fuel = .error (.noDynamicDependencies idx)) ∨
      ∃ s₀ s, (∀ fuel, twoJumps.enough ≤ fuel → twoJumps.prepare fuel = .ok s₀) ∧
        (∀ (order : Worklist.Order ℕ) fuel, twoJumps.enough ≤ fuel →
          twoJumps.code order fuel = .ok s) ∧
        ∀ i ∈ s₀.estimate, ∀ fuel, twoJumps.enough ≤ fuel →
          twoJumps.codeOffset fuel s i = .ok (some s)) :=
  have hp : twoJumps.NoTables := by simp [Proc.NoTables, twoJumps]
  ⟨hp, relaxation_stable twoJumps hp⟩

end Kroc.Plinker
