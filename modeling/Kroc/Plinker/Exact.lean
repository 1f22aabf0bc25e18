import Kroc.Plinker.Relax

/-!
# Plinker/Exact — the operands of a proc are right when its coding is done

`code_offset_instruction` codes an operand by the lengths that are known when it is called.  A label
is **exact** when the operand in its bytes is right whatever the lengths that are not known turn out
to be; what is coded later then does not matter.

**When `generate_code` is done with a proc every label is exact** (`code_exact`), by whichever pass
it was coded, where it is not an entry of a jump table.
-/

namespace Kroc.Plinker

variable {p : Proc} {s s' s'' : State} {i j fuel num : ℕ} {pos : ℤ} {is : List ℕ} {y : ℕ → ℕ}
  {arg : Operand Ref} {ref : Ref} {o : Offset} {offsets : List Offset} {bytes : List ℕ}

/-! ## Calls that may die -/

/-- What is bound does not die, and what comes after it does not. -/
theorem except_bind_eq_ok {ε α β : Type} {x : Except ε α} {f : α → Except ε β} {b : β}
    (h : x >>= f = .ok b) : ∃ a, x = .ok a ∧ f a = .ok b := by
  cases x with
  | error e => cases h
  | ok a => exact ⟨a, rfl, h⟩

/-! ## Operands -/

/-- Lengths for all labels, those that are known among them. -/
def State.Completes (s : State) (y : ℕ → ℕ) : Prop := ∀ j len, s.length j = some len → y j = len

/-- Where a label that is referred to is, from the beginning of the proc. -/
def Proc.site (p : Proc) (y : ℕ → ℕ) : Ref → ℤ
  | .inside idx => total y idx
  | .outside before => before - p.pos

/-- **What an operand stands for**: how far it is from the end of the instruction to a label, or
from the end of the `LDPI` behind it, or from one label to another. -/
def Proc.meant (p : Proc) (y : ℕ → ℕ) (this : ℕ) : Operand Ref → ℤ
  | .label ref => p.site y ref - total y (this + 1)
  | .difference a b => p.site y a - p.site y b
  | .ldpi ref => p.site y ref - (total y (this + 1) + 2)

/-- **A label is exact**: its length is that of its bytes, and they have the operand that is meant,
whatever the lengths that are not known. -/
def Proc.Exact (p : Proc) (s : State) (i : ℕ) : Prop :=
  ∀ num arg, p.labels[i]? = some (.offset num arg) → s.targetLength i = none →
    s.length i = some (s.bytes i 0).length ∧
      ∀ y, s.Completes y → s.bytes i 0 = codeInstruction num (p.meant y i arg) none

/-- What is exact stays so while lengths are added and its own bytes are left alone. -/
theorem Proc.Exact.frame (h : p.Exact s i)
    (hlength : ∀ j len, s.length j = some len → s'.length j = some len)
    (hbytes : ∀ num arg, p.labels[i]? = some (.offset num arg) → s.length i ≠ none →
      s'.bytes i 0 = s.bytes i 0)
    (htarget : s'.targetLength i = none → s.targetLength i = none) : p.Exact s' i := by
  intro num arg hl ht
  obtain ⟨hlen, hoperand⟩ := h num arg hl (htarget ht)
  rw [hbytes num arg hl (by rw [hlen]; exact Option.some_ne_none _)]
  exact ⟨hlength i _ hlen, fun y hy => hoperand y fun j len hj => hy j len (hlength j len hj)⟩

/-! ## Offsets reach their labels -/

theorem eq_of_walkForward {length : ℕ → Option ℕ} {this steps : ℕ} {distance v : ℤ}
    (hy : ∀ j len, length j = some len → y j = len)
    (h : walkForward length steps this distance = some v) :
    v = distance + (total y (this + steps) - total y this) := by
  induction steps generalizing this distance with
  | zero =>
    cases h
    rw [add_zero, sub_self, add_zero]
  | succ steps ih =>
    obtain ⟨len, hlen, h⟩ := Option.bind_eq_some_iff.mp h
    rw [ih h, ← hy this len hlen, total_succ, show this + 1 + steps = this + (steps + 1) by omega]
    omega

theorem eq_of_walkBackward {length : ℕ → Option ℕ} {this steps : ℕ} {distance v : ℤ}
    (hy : ∀ j len, length j = some len → y j = len) (hsteps : steps ≤ this)
    (h : walkBackward length steps this distance = some v) :
    v = distance + (total y this - total y (this - steps)) := by
  induction steps generalizing this distance with
  | zero =>
    cases h
    rw [Nat.sub_zero, sub_self, add_zero]
  | succ steps ih =>
    obtain ⟨this, rfl⟩ : ∃ k, this = k + 1 := ⟨this - 1, by omega⟩
    rw [walkBackward, Nat.add_sub_cancel] at h
    obtain ⟨len, hlen, h⟩ := Option.bind_eq_some_iff.mp h
    rw [ih (by omega) h, ← hy this len hlen, total_succ,
      show this + 1 - (steps + 1) = this - steps by omega]
    omega

/-- **An offset inside reaches its label.** -/
theorem offsetTo_reach {length : ℕ → Option ℕ} {this idx : ℕ}
    (hy : ∀ j len, length j = some len → y j = len)
    (h : offsetTo length this idx 0 = some o) :
    o.reach (y this) = total y idx - total y (this + 1) := by
  rw [offsetTo] at h
  split_ifs at h with hlt hgt
  · obtain ⟨v, hv, rfl⟩ := Option.map_eq_some_iff.mp h
    rw [Offset.reach, eq_of_walkForward hy hv, show this + 1 + (idx - (this + 1)) = idx by omega,
      zero_add]
  · obtain ⟨v, hv, rfl⟩ := Option.map_eq_some_iff.mp h
    rw [Offset.reach, eq_of_walkBackward hy (Nat.sub_le this idx) hv,
      show this - (this - idx) = idx by omega, total_succ]
    omega
  · cases h
    obtain rfl : this = idx := by omega
    rw [Offset.reach, total_succ]
    omega

/-- **An offset outside reaches its label**, from any label but the first. -/
theorem offsetTo_outside {length : ℕ → Option ℕ} {this : ℕ} {distance : ℤ}
    (hy : ∀ j len, length j = some len → y j = len) (hthis : this ≠ 0)
    (h : offsetTo length this 0 distance = some o) :
    o.reach (y this) = -distance - total y (this + 1) := by
  rw [offsetTo, if_neg (Nat.not_lt_zero this), if_pos (Nat.pos_of_ne_zero hthis)] at h
  obtain ⟨v, hv, rfl⟩ := Option.map_eq_some_iff.mp h
  rw [Offset.reach, eq_of_walkBackward hy (Nat.sub_le this 0) hv, Nat.sub_zero, Nat.sub_self,
    total_zero, total_succ]
  omega

/-- An offset of a reference that reaches its label. -/
def Proc.Reaches (p : Proc) (y : ℕ → ℕ) (this : ℕ) (ref : Ref) (o : Offset) : Prop :=
  o.IsDistance ∧ o.reach (y this) = p.site y ref - total y (this + 1)

/-- What `code_offset` finds reaches its label, from any label but the first. -/
theorem reaches_offset (hl : p.labels[i]? = some (.offset num arg)) (href : ref ∈ arg.refs)
    (hthis : i ≠ 0) (hy : s.Completes y)
    (h : p.offset s.length i (.label ref) = some o) : p.Reaches y i ref o := by
  refine ⟨isDistance_offset (List.mem_of_getElem? hl) href h, ?_⟩
  cases ref with
  | inside idx => exact offsetTo_reach hy h
  | outside before => rw [offsetTo_outside hy hthis h, Proc.site, neg_sub]

/-- What `code_static_external_offsets` finds reaches its label. -/
theorem reaches_externalOffset (hl : p.labels[i]? = some (.offset num arg)) (href : ref ∈ arg.refs)
    (hpos : pos = p.pos + total y i) (h : externalOffset pos (.label ref) = some o) :
    p.Reaches y i ref o := by
  have htotal : 0 ≤ total y i := Finset.sum_nonneg fun _ _ => Int.natCast_nonneg _
  refine ⟨isDistance_externalOffset (List.mem_of_getElem? hl) (by omega) href h, ?_⟩
  cases ref with
  | inside idx => cases h
  | outside before =>
    cases h
    rw [Offset.reach, Proc.site, total_succ, hpos]
    omega

/-- **The offsets of an operand sum up to what is meant.** -/
theorem mergeOffsets_meant {g : Arg → Option Offset}
    (hop : ∀ op, g (.operation op) = some (.operation op))
    (hg : ∀ ref ∈ arg.refs, ∀ o, g (.label ref) = some o → p.Reaches y i ref o)
    (h : arg.args.mapM g = some offsets) :
    mergeOffsets (y i) offsets = .ok (p.meant y i arg) := by
  cases arg with
  | label ref =>
    obtain ⟨o, ho, rfl⟩ : ∃ o, g (.label ref) = some o ∧ offsets = [o] := by
      simpa [Operand.args, Option.bind_eq_some_iff, @eq_comm _ offsets] using h
    obtain ⟨hd, hreach⟩ := hg ref (by simp [Operand.refs]) o ho
    rw [mergeOffsets_label hd, hreach, Proc.meant]
  | difference a b =>
    obtain ⟨o, ho, o', ho', rfl⟩ : ∃ o, g (.label a) = some o ∧ ∃ o', g (.label b) = some o' ∧
        offsets = [o, o'] := by
      simpa [Operand.args, Option.bind_eq_some_iff, @eq_comm _ offsets] using h
    obtain ⟨hd, hreach⟩ := hg a (by simp [Operand.refs]) o ho
    obtain ⟨hd', hreach'⟩ := hg b (by simp [Operand.refs]) o' ho'
    rw [mergeOffsets_difference hd hd', hreach, hreach', Proc.meant, sub_sub_sub_cancel_right]
  | ldpi ref =>
    obtain ⟨o, ho, rfl⟩ : ∃ o, g (.label ref) = some o ∧ offsets = [o, .operation LDPI] := by
      simpa [Operand.args, hop, Option.bind_eq_some_iff, @eq_comm _ offsets] using h
    obtain ⟨hd, hreach⟩ := hg ref (by simp [Operand.refs]) o ho
    rw [mergeOffsets_operation hd, hreach, Proc.meant, length_ldpi, sub_sub]
    rfl

/-! ## Coding makes exact -/

/-- The loop ends with bytes that have the operand for their own length. -/
theorem codeUntilStable_ok {bytes' : List ℕ}
    (h : codeUntilStable num offsets fuel bytes' = .ok bytes) :
    ∃ v, mergeOffsets bytes.length offsets = .ok v ∧ bytes = codeInstruction num v none := by
  induction fuel generalizing bytes' with
  | zero => cases h
  | succ fuel ih =>
    rw [codeUntilStable] at h
    obtain ⟨v, hv, h⟩ := except_bind_eq_ok h
    dsimp only at h
    split_ifs at h with hstable
    · cases h
      exact ⟨v, hstable ▸ hv, rfl⟩
    · exact ih h

theorem codeOffsetInstruction_ok (h : codeOffsetInstruction fuel num none offsets = .ok bytes) :
    ∃ v, mergeOffsets bytes.length offsets = .ok v ∧ bytes = codeInstruction num v none := by
  obtain ⟨v, -, h⟩ := except_bind_eq_ok h
  obtain ⟨bytes', hbytes, h⟩ := except_bind_eq_ok h
  cases h
  exact codeUntilStable_ok hbytes

/-- **A label is exact when it is coded** with offsets that reach their labels. -/
theorem exact_code {g : Arg → Option Offset} (hl : p.labels[i]? = some (.offset num arg))
    (hop : ∀ op, g (.operation op) = some (.operation op))
    (hg : ∀ y, (s.code i bytes).Completes y → ∀ ref ∈ arg.refs, ∀ o,
      g (.label ref) = some o → p.Reaches y i ref o)
    (hoffsets : arg.args.mapM g = some offsets)
    (hcode : codeOffsetInstruction fuel num (s.targetLength i) offsets = .ok bytes) :
    p.Exact (s.code i bytes) i := by
  intro num' arg' hl' htarget
  obtain ⟨rfl, rfl⟩ : num' = num ∧ arg' = arg := by
    rw [hl] at hl'
    cases hl'
    exact ⟨rfl, rfl⟩
  have hlength : (s.code i bytes).length i = some bytes.length := Function.update_self ..
  have hbytes : (s.code i bytes).bytes i 0 = bytes := by
    show Function.update s.bytes i (Function.update (s.bytes i) 0 bytes) i 0 = bytes
    rw [Function.update_self, Function.update_self]
  change s.targetLength i = none at htarget
  rw [htarget] at hcode
  obtain ⟨v, hv, hcoded⟩ := codeOffsetInstruction_ok hcode
  rw [hbytes]
  refine ⟨hlength, fun y hy => ?_⟩
  have hmeant := mergeOffsets_meant hop (hg y hy) hoffsets
  rw [hy i _ hlength, hv] at hmeant
  rw [hcoded, Except.ok.inj hmeant]

/-- Lengths that complete what is coded completed it before, where the length was not known. -/
theorem Completes.of_code (hnone : s.length i = none) (hy : (s.code i bytes).Completes y) :
    s.Completes y := by
  intro j len hj
  refine hy j len ?_
  rw [length_code, Function.update_of_ne]
  · exact hj
  · rintro rfl
    rw [hnone] at hj
    cases hj

/-! ## One label is coded -/

/-- A label with an operand is not the first. -/
theorem Formed.ne_zero (hp : Formed p.labels) (hl : p.labels[i]? = some (.offset num arg)) :
    i ≠ 0 := by
  rintro rfl
  obtain ⟨insts, hinsts⟩ := hp.first
  rw [hl] at hinsts
  cases hinsts

/-- An entry of a jump table. -/
def Proc.Entry (p : Proc) (i : ℕ) : Prop :=
  ∃ targets entries size, Label.table targets entries size ∈ p.labels ∧ i ∈ entries

/-- **What coding a label does**: the others keep their lengths and their bytes, and the label is
exact if no length was lost. -/
structure Recoded (p : Proc) (s s' : State) (i : ℕ) : Prop where
  length : ∀ j, j ≠ i → s'.length j = s.length j
  known : s'.length i ≠ none
  bytes : ∀ j num arg, j ≠ i → p.labels[j]? = some (.offset num arg) → s'.bytes j 0 = s.bytes j 0
  target : ∀ j, s'.targetLength j = none → s.targetLength j = none
  entry : ∀ j, s'.targetLength j ≠ none → s.targetLength j ≠ none ∨ p.Entry j
  estimate : s'.estimate = s.estimate
  dependents : s'.dependents = s.dependents
  exact : (∀ y, s'.Completes y → s.Completes y) → p.Exact s' i

theorem recoded_code {g : Arg → Option Offset} (hl : p.labels[i]? = some (.offset num arg))
    (hop : ∀ op, g (.operation op) = some (.operation op))
    (hg : ∀ y, s.Completes y → ∀ ref ∈ arg.refs, ∀ o,
      g (.label ref) = some o → p.Reaches y i ref o)
    (hoffsets : arg.args.mapM g = some offsets)
    (hcode : codeOffsetInstruction fuel num (s.targetLength i) offsets = .ok bytes) :
    Recoded p s (s.code i bytes) i where
  length j hj := Function.update_of_ne hj ..
  known := by
    rw [length_code, Function.update_self]
    exact Option.some_ne_none _
  bytes j num arg hj _ := by
    show Function.update s.bytes i (Function.update (s.bytes i) 0 bytes) j 0 = s.bytes j 0
    rw [Function.update_of_ne hj]
  target _ h := h
  entry _ h := Or.inl h
  estimate := rfl
  dependents := rfl
  exact hsame := exact_code hl hop (fun y hy => hg y (hsame y hy)) hoffsets hcode

theorem recoded_table {targets : List Ref} {entries : List ℕ} {size : ℕ × ℕ}
    (hp : Formed p.labels) (hl : p.labels[i]? = some (.table targets entries size))
    (h : s.codeTable i entries size = .ok (some s')) : Recoded p s s' i := by
  obtain ⟨insts, hload⟩ := hp.load i targets entries size hl
  rw [State.codeTable] at h
  split_ifs at h with hempty
  cases hlengths : entries.mapM s.length with
  | none =>
    rw [hlengths] at h
    cases h
  | some lengths =>
    rw [hlengths] at h
    dsimp only at h
    split_ifs at h with hmax
    cases h
    refine ⟨fun j hj => Function.update_of_ne hj .., ?_, fun j num arg _ hj => ?_, fun j hj => ?_,
      fun j hj => ?_, rfl, rfl, fun _ num arg hi => ?_⟩
    · show Function.update s.length i (some 0) i ≠ none
      rw [Function.update_self]
      exact Option.some_ne_none _
    · show Function.update s.bytes size.1 _ j 0 = s.bytes j 0
      rw [Function.update_of_ne]
      rintro rfl
      rw [hload] at hj
      cases hj
    · dsimp only at hj
      split_ifs at hj
      exact hj
    · dsimp only at hj
      split_ifs at hj with hmem
      · exact Or.inr ⟨targets, entries, size, List.mem_of_getElem? hl, hmem⟩
      · exact Or.inl hj
    · rw [hl] at hi
      cases hi

/-- **`code_offset` codes a label**, or a table. -/
theorem recoded_codeOffset (hp : Formed p.labels)
    (h : p.codeOffset fuel s i = .ok (some s')) : Recoded p s s' i := by
  unfold Proc.codeOffset at h
  split at h
  · rename_i num arg hl
    cases hoffsets : arg.args.mapM (p.offset s.length i) with
    | none =>
      rw [hoffsets] at h
      cases h
    | some offsets =>
      rw [hoffsets] at h
      obtain ⟨bytes, hcode, h⟩ := except_bind_eq_ok h
      cases h
      exact recoded_code hl offset_operation
        (fun y hy ref href o ho => reaches_offset hl href (hp.ne_zero hl) hy ho) hoffsets hcode
  · rename_i hl
    exact recoded_table hp hl h
  · cases h

/-! ## The passes before the estimates -/

/-- **What a pass does**: it adds lengths, and what it codes is exact. -/
structure Passed (p : Proc) (s s' : State) : Prop where
  length : ∀ j len, s.length j = some len → s'.length j = some len
  target : ∀ j, s'.targetLength j = none → s.targetLength j = none
  entry : ∀ j, s'.targetLength j ≠ none → s.targetLength j ≠ none ∨ p.Entry j
  dependents : s'.dependents = s.dependents
  exact : (∀ j, s.length j ≠ none → p.Exact s j) → ∀ j, s'.length j ≠ none → p.Exact s' j

theorem Passed.refl (p : Proc) (s : State) : Passed p s s :=
  ⟨fun _ _ h => h, fun _ h => h, fun _ h => Or.inl h, rfl, fun h => h⟩

theorem Passed.known (h : Passed p s s') (hj : s.length j ≠ none) : s'.length j ≠ none := by
  obtain ⟨len, hlen⟩ := Option.ne_none_iff_exists'.mp hj
  rw [h.length j len hlen]
  exact Option.some_ne_none _

theorem Passed.trans (h : Passed p s s') (h' : Passed p s' s'') : Passed p s s'' where
  length j len hj := h'.length j len (h.length j len hj)
  target j hj := h.target j (h'.target j hj)
  entry j hj := (h'.entry j hj).elim (h.entry j) Or.inr
  dependents := h'.dependents.trans h.dependents
  exact hexact := h'.exact (h.exact hexact)

/-- To code a label that has no length is a pass. -/
theorem Recoded.passed (h : Recoded p s s' i) (hnone : s.length i = none) :
    Passed p s s' := by
  have hlength : ∀ j len, s.length j = some len → s'.length j = some len := by
    intro j len hj
    rw [h.length j]
    · exact hj
    · rintro rfl
      rw [hnone] at hj
      cases hj
  refine ⟨hlength, h.target, h.entry, h.dependents, fun hexact j hj => ?_⟩
  by_cases hji : j = i
  · subst hji
    exact h.exact fun y hy k len hk => hy k len (hlength k len hk)
  · rw [h.length j hji] at hj
    exact (hexact j hj).frame hlength (fun num arg hl _ => h.bytes j num arg hji hl) (h.target j)

/-- **The pass over labels outside**, from a label whose position is known. -/
theorem passed_codeStaticExternalOffsets {m : ℕ}
    (hpos : ∀ y, s.Completes y → pos = p.pos + total y i)
    (h : p.codeStaticExternalOffsets fuel (List.range' i m) pos s = .ok s') :
    Passed p s s' := by
  induction m generalizing i pos s with
  | zero =>
    cases h
    exact Passed.refl p _
  | succ m ih =>
    rw [List.range'_succ, Proc.codeStaticExternalOffsets] at h
    cases hlen : s.length i with
    | some len =>
      rw [hlen] at h
      refine ih (fun y hy => ?_) h
      rw [hpos y hy, total_succ, hy i len hlen]
      omega
    | none =>
      rw [hlen] at h
      dsimp only at h
      split at h
      · rename_i num arg hl
        cases hoffsets : arg.args.mapM (externalOffset pos) with
        | none =>
          rw [hoffsets] at h
          cases h
          exact Passed.refl p _
        | some offsets =>
          rw [hoffsets] at h
          obtain ⟨bytes, hcode, h⟩ := except_bind_eq_ok h
          have hrecoded : Recoded p s (s.code i bytes) i := recoded_code hl (fun _ => rfl)
            (fun y hy ref href o ho => reaches_externalOffset hl href (hpos y hy) ho) hoffsets hcode
          refine (hrecoded.passed hlen).trans (ih (fun y hy => ?_) h)
          rw [hpos y (Completes.of_code hlen hy), total_succ,
            hy i bytes.length (Function.update_self ..)]
          omega
      · cases h
        exact Passed.refl p _

/-- **The pass over known offsets.** -/
theorem passed_codeKnownOffsets (hp : Formed p.labels) {coded : ℕ}
    (h : p.codeKnownOffsets fuel is s = .ok (coded, s')) : Passed p s s' := by
  induction is generalizing s coded with
  | nil =>
    cases h
    exact Passed.refl p _
  | cons i is ih =>
    rw [Proc.codeKnownOffsets] at h
    split_ifs at h with hsome
    · exact ih h
    · have hnone : s.length i = none := by simpa using hsome
      obtain ⟨r, hr, h⟩ := except_bind_eq_ok h
      cases r with
      | none => exact ih h
      | some s₁ =>
        obtain ⟨⟨coded', s₂⟩, hrest, h⟩ := except_bind_eq_ok h
        cases h
        rw [Proc.codeOffsetIfKnown] at hr
        split_ifs at hr with hany
        · cases hr
        · exact ((recoded_codeOffset hp hr).passed hnone).trans (ih hrest)

theorem passed_codeKnown (hp : Formed p.labels) {rounds : ℕ}
    (h : p.codeKnown fuel rounds s = .ok s') : Passed p s s' := by
  induction rounds generalizing s with
  | zero => cases h
  | succ rounds ih =>
    rw [Proc.codeKnown] at h
    obtain ⟨⟨coded, s₁⟩, hknown, h⟩ := except_bind_eq_ok h
    dsimp only at h
    split_ifs at h with hcoded
    · obtain ⟨s₂, hexternal, h⟩ := except_bind_eq_ok h
      rw [List.range_eq_range'] at hexternal
      refine (passed_codeKnownOffsets hp hknown).trans (Passed.trans ?_ (ih h))
      exact passed_codeStaticExternalOffsets (fun y _ => by rw [total_zero, add_zero]) hexternal
    · cases h
      exact passed_codeKnownOffsets hp hknown

/-! ## The estimates -/

/-- The lengths that are no estimates. -/
def State.unestimated (s : State) : State :=
  { s with length := fun j => if j ∈ s.estimate then none else s.length j }

theorem unestimated_of_notMem (h : j ∉ s.estimate) : s.unestimated.length j = s.length j := if_neg h

theorem length_of_unestimated {len : ℕ} (h : s.unestimated.length j = some len) :
    j ∉ s.estimate ∧ s.length j = some len := by
  by_cases hj : j ∈ s.estimate
  · rw [State.unestimated] at h
    dsimp only at h
    rw [if_pos hj] at h
    cases h
  · exact ⟨hj, unestimated_of_notMem hj ▸ h⟩

/-- **While estimates are coded** every other label is exact, whatever the estimates turn out to
be. -/
structure Estimated (p : Proc) (s : State) : Prop where
  exact : ∀ j, j ∉ s.estimate → p.Exact s.unestimated j
  known : ∀ j, j < p.labels.length → s.length j ≠ none
  entry : ∀ j, s.targetLength j ≠ none → p.Entry j
  closed : ∀ k, s.dependents k ⊆ s.estimate

/-- To code an estimate again leaves the others exact. -/
theorem Estimated.recoded (h : Estimated p s) (hi : i ∈ s.estimate) (hr : Recoded p s s' i) :
    Estimated p s' := by
  have hne : ∀ {j}, j ∉ s.estimate → j ≠ i := by
    rintro j hj rfl
    exact hj hi
  refine ⟨fun j hj => ?_, fun j hj => ?_, fun j hj => ?_, fun k => ?_⟩
  · rw [hr.estimate] at hj
    refine (h.exact j hj).frame (fun k len hk => ?_)
      (fun num arg hl _ => hr.bytes j num arg (hne hj) hl) (hr.target j)
    obtain ⟨hk, hlen⟩ := length_of_unestimated hk
    rw [unestimated_of_notMem (by rw [hr.estimate]; exact hk), hr.length k (hne hk), hlen]
  · by_cases hji : j = i
    · subst hji
      exact hr.known
    · rw [hr.length j hji]
      exact h.known j hj
  · exact (hr.entry j hj).elim (h.entry j) id
  · rw [hr.dependents, hr.estimate]
    exact h.closed k

theorem estimated_codeEstimates (hp : Formed p.labels) {pending pending' : Finset ℕ}
    (h : Estimated p s) (his : ∀ i ∈ is, i ∈ s.estimate) (hpending : pending ⊆ s.estimate)
    (hcode : p.codeEstimates fuel is s pending = .ok (s', pending')) :
    Estimated p s' ∧ s'.estimate = s.estimate ∧ pending' ⊆ s.estimate := by
  induction is generalizing s pending with
  | nil =>
    cases hcode
    exact ⟨h, rfl, hpending⟩
  | cons i is ih =>
    have hi := his i List.mem_cons_self
    rw [Proc.codeEstimates] at hcode
    obtain ⟨r, hr, hcode⟩ := except_bind_eq_ok hcode
    cases r with
    | none => cases hcode
    | some s₁ =>
      have hrecoded := recoded_codeOffset hp hr
      have h₁ := h.recoded hi hrecoded
      have hsame := hrecoded.estimate
      obtain ⟨hs', hestimate, hsub⟩ := ih h₁
        (fun k hk => by rw [hsame]; exact his k (List.mem_cons_of_mem i hk)) (by
          split_ifs
          · rw [hsame]
            exact hpending
          · rw [hsame]
            exact Finset.union_subset hpending (hsame ▸ h₁.closed i)) hcode
      exact ⟨hs', hestimate.trans hsame, hsame ▸ hsub⟩

theorem estimated_codeToCode (hp : Formed p.labels) {order : Worklist.Order ℕ}
    {rounds r : ℕ} {toCode : Finset ℕ} (h : Estimated p s) (htodo : toCode ⊆ s.estimate)
    (hcode : p.codeToCode order fuel rounds r s toCode = .ok s') :
    Estimated p s' ∧ s'.estimate = s.estimate := by
  induction rounds generalizing s r toCode with
  | zero => cases hcode
  | succ rounds ih =>
    rw [Proc.codeToCode] at hcode
    split_ifs at hcode with hempty
    · cases hcode
      exact ⟨h, rfl⟩
    · obtain ⟨⟨s₁, pending⟩, hpass, hcode⟩ := except_bind_eq_ok hcode
      obtain ⟨h₁, hsame, hsub⟩ := estimated_codeEstimates hp h
        (fun i hi => htodo ((order.mem_iff r toCode i).mp hi)) (Finset.empty_subset _) hpass
      obtain ⟨h', hestimate⟩ := ih h₁ (hsame ▸ hsub) hcode
      exact ⟨h', hestimate.trans hsame⟩

/-- **The last round makes every estimate exact**, since it finds the lengths that it used. -/
theorem exact_codeStable (hp : Formed p.labels)
    (hentry : ∀ j, s.targetLength j ≠ none → p.Entry j)
    (hexact : ∀ j, j ∉ s.estimate → p.Exact s j) (h : p.codeStable fuel is s = .ok s') :
    s'.length = s.length ∧ (∀ j, s'.targetLength j ≠ none → p.Entry j) ∧
      ∀ j, j ∉ s.estimate ∨ j ∈ is → p.Exact s' j := by
  induction is generalizing s with
  | nil =>
    cases h
    exact ⟨rfl, hentry, fun j hj => hexact j (hj.resolve_right List.not_mem_nil)⟩
  | cons i is ih =>
    rw [Proc.codeStable] at h
    split_ifs at h with hi
    · obtain ⟨r, hr, h⟩ := except_bind_eq_ok h
      cases r with
      | none => cases h
      | some s₁ =>
        dsimp only at h
        have hsame : s₁.length i = s.length i := by
          by_contra hne
          rw [if_pos hne] at h
          cases h
        rw [if_neg (not_not.mpr hsame)] at h
        have hrecoded := recoded_codeOffset hp hr
        have hlength : s₁.length = s.length := by
          funext j
          by_cases hji : j = i
          · rw [hji, hsame]
          · exact hrecoded.length j hji
        have hall : ∀ j, j ∉ s.estimate.erase i → p.Exact s₁ j := by
          intro j hj
          by_cases hji : j = i
          · subst hji
            refine hrecoded.exact fun y hy => ?_
            rw [State.Completes, ← hlength]
            exact hy
          · refine (hexact j fun hmem => hj (Finset.mem_erase.mpr ⟨hji, hmem⟩)).frame
              (fun k len hk => hlength ▸ hk) (fun num arg hl _ => hrecoded.bytes j num arg hji hl)
              (hrecoded.target j)
        obtain ⟨hlength', hentry', hrest⟩ := ih (s := { s₁ with estimate := s₁.estimate.erase i })
          (fun j hj => (hrecoded.entry j hj).elim (hentry j) id)
          (fun j hj => hall j (hrecoded.estimate ▸ hj)) h
        refine ⟨hlength'.trans hlength, hentry', fun j hj => hrest j ?_⟩
        rw [hrecoded.estimate]
        by_cases hji : j = i
        · exact Or.inl fun hmem => (Finset.mem_erase.mp hmem).1 hji
        · rcases hj with hj | hj
          · exact Or.inl fun hmem => hj (Finset.mem_of_mem_erase hmem)
          · exact Or.inr ((List.mem_cons.mp hj).resolve_left hji)
    · obtain ⟨hlength, hentry', hall⟩ := ih hentry hexact h
      refine ⟨hlength, hentry', fun j hj => hall j ?_⟩
      rcases hj with hj | hj
      · exact Or.inl hj
      · rcases List.mem_cons.mp hj with rfl | hj
        · exact Or.inl hi
        · exact Or.inr hj

/-! ## A proc is coded -/

/-- To record who depends on a label changes nothing else. -/
theorem buildLabelDependents_ok (h : p.buildLabelDependents is s = .ok s') :
    s'.length = s.length ∧ s'.bytes = s.bytes ∧ s'.targetLength = s.targetLength ∧
      ∀ k i, i ∈ s'.dependents k → i ∈ s.dependents k ∨ i ∈ is ∧ s.length i = none := by
  induction is generalizing s with
  | nil =>
    cases h
    exact ⟨rfl, rfl, rfl, fun k i hi => Or.inl hi⟩
  | cons i is ih =>
    have hmem : ∀ {s₁ : State} (k j), j ∈ s₁.dependents k ∨ j ∈ is ∧ s.length j = none →
        (j ∈ s₁.dependents k → j ∈ s.dependents k ∨ j = i ∧ s.length i = none) →
        j ∈ s.dependents k ∨ j ∈ i :: is ∧ s.length j = none := by
      rintro s₁ k j (hj | ⟨hj, hnone⟩) hback
      · rcases hback hj with hj | ⟨rfl, hnone⟩
        · exact Or.inl hj
        · exact Or.inr ⟨List.mem_cons_self, hnone⟩
      · exact Or.inr ⟨List.mem_cons_of_mem i hj, hnone⟩
    rw [Proc.buildLabelDependents] at h
    split_ifs at h with hsome hempty
    · obtain ⟨hlength, hbytes, htarget, hdeps⟩ := ih h
      exact ⟨hlength, hbytes, htarget, fun k j hj => hmem k j (hdeps k j hj) Or.inl⟩
    · obtain ⟨hlength, hbytes, htarget, hdeps⟩ := ih h
      refine ⟨hlength, hbytes, htarget, fun k j hj => hmem k j (hdeps k j hj) fun hj => ?_⟩
      dsimp only at hj
      split_ifs at hj with hk
      · rcases Finset.mem_insert.mp hj with rfl | hj
        · exact Or.inr ⟨rfl, by simpa using hsome⟩
        · exact Or.inl hj
      · exact Or.inl hj

/-- What is prepared is exact where it is no estimate. -/
theorem estimated_prepare (hp : Formed p.labels) (h : p.prepare fuel = .ok s) :
    Estimated p s := by
  obtain ⟨s₁, hexternal, h⟩ := except_bind_eq_ok h
  obtain ⟨s₂, hknown, h⟩ := except_bind_eq_ok h
  obtain ⟨s₃, hdeps, h⟩ := except_bind_eq_ok h
  cases h
  rw [List.range_eq_range'] at hexternal
  have hpassed₁ : Passed p p.codeStaticInstructions s₁ :=
    passed_codeStaticExternalOffsets (fun y _ => by rw [total_zero, add_zero]) hexternal
  have hpassed₂ := passed_codeKnown hp hknown
  obtain ⟨hlength, hbytes, htarget, hdependents⟩ := buildLabelDependents_ok hdeps
  have hstatic : ∀ j, p.codeStaticInstructions.length j ≠ none →
      p.Exact p.codeStaticInstructions j := by
    intro j hj num arg hl
    refine absurd ?_ hj
    simp only [Proc.codeStaticInstructions, hl]
  have hexact : ∀ j, s₂.length j ≠ none → p.Exact s₂ j :=
    hpassed₂.exact (hpassed₁.exact hstatic)
  have hestimate : ∀ j, j ∈ (p.addInitialEstimateLengths s₃).estimate ↔
      j < p.labels.length ∧ s₂.length j = none := fun j => by
    rw [Proc.addInitialEstimateLengths, Finset.mem_filter, Finset.mem_range, hlength]
  refine ⟨fun j hj num arg hl => ?_, fun j hj hnone => ?_, fun j hj => ?_,
    fun k j hj => ?_⟩
  · have hknown : s₂.length j ≠ none := fun hnone =>
      hj ((hestimate j).mpr ⟨(List.getElem?_eq_some_iff.mp hl).1, hnone⟩)
    refine (hexact j hknown).frame (fun k len hk => ?_) (fun _ _ _ _ => by rw [← hbytes]; rfl)
      (fun ht => by rw [← htarget]; exact ht) num arg hl
    rw [unestimated_of_notMem]
    · exact length_not_estimated (hlength ▸ hk)
    · rw [hestimate, hk]
      exact fun h => Option.some_ne_none _ h.2
  · have hget := List.getElem?_eq_getElem hj
    cases hlen : s₃.length j with
    | some len =>
      rw [length_not_estimated hlen] at hnone
      cases hnone
    | none =>
      rw [Proc.addInitialEstimateLengths] at hnone
      dsimp only at hnone
      rw [hget, hlen] at hnone
      cases hl : p.labels[j] with
      | static insts => rw [hl] at hnone; cases hnone
      | offset num arg => rw [hl] at hnone; cases hnone
      | table targets entries size => rw [hl] at hnone; cases hnone
  · have ht : s₂.targetLength j ≠ none := by rw [← htarget]; exact hj
    rcases hpassed₂.entry j ht with ht | hentry
    · exact (hpassed₁.entry j ht).elim (absurd rfl) id
    · exact hentry
  · rcases hdependents k j hj with hj | ⟨hj, hnone⟩
    · rw [hpassed₂.dependents, hpassed₁.dependents] at hj
      exact absurd hj (Finset.notMem_empty j)
    · exact (hestimate j).mpr ⟨List.mem_range.mp hj, hnone⟩

/-- **When a proc is coded every label is exact** and has a length. -/
theorem code_exact (hp : Formed p.labels) {order : Worklist.Order ℕ}
    (h : p.code order fuel = .ok s) :
    (∀ j, j < p.labels.length → s.length j ≠ none ∧ p.Exact s j) ∧
      ∀ j, s.targetLength j ≠ none → p.Entry j := by
  obtain ⟨s₀, hprepare, h⟩ := except_bind_eq_ok h
  obtain ⟨s₁, hloop, h⟩ := except_bind_eq_ok h
  obtain ⟨h₁, -⟩ := estimated_codeToCode hp (estimated_prepare hp hprepare) subset_rfl hloop
  obtain ⟨hlength, hentry, hexact⟩ := exact_codeStable hp h₁.entry
    (fun j hj => (h₁.exact j hj).frame (fun k len hk => (length_of_unestimated hk).2)
      (fun _ _ _ _ => rfl) id) h
  refine ⟨fun j hj => ⟨?_, hexact j (Or.inr (List.mem_range.mpr hj))⟩, hentry⟩
  rw [hlength]
  exact h₁.known j hj

end Kroc.Plinker
