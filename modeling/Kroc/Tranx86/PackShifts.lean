import Kroc.Lib.Shifts

/-!
# Tranx86/PackShifts — merging shifts

The case of `codeblock_pack_sequences` (`tools/tranx86/optimise.c`) for `INS_SHL` and `INS_SHR`,
with the instructions of `structs.h` that it reads and writes.

What a merged run does is the run itself only where no bit is shifted out and its place filled
again, or everything is shifted out and the count shows it; the theorem says exactly where.
-/

namespace Kroc

namespace Tranx86

/-- `int` -/
abbrev Word := BitVec 32

/-! ## Instructions -/

/-- `ins_sib_arg` -/
structure SibArg where
  base : Word
  index : Word
  disp : Word
  scale : Word
  deriving DecidableEq

/-- `regconst`: a number, or a pointer to text or to an `ins_sib_arg`. -/
inductive RegConst
  | int (n : Word)
  | text (s : String)
  | sib (s : SibArg)
  deriving DecidableEq

/-- `ARG_MODEMASK`: what the low bits of the flags can be. -/
inductive ArgMode
  | undefined | reg | const | regind | cond | label | namedlabel | text | regindsib | freg
  | flabel | blabel | inslabel | labrefs
  deriving DecidableEq

/-- `ins_arg`.  `flags` are the bits above the mode other than `ARG_DISP`. -/
structure Arg where
  mode : ArgMode
  hasDisp : Bool
  flags : Word
  regconst : RegConst
  disp : Word
  deriving DecidableEq

/-- The types of instructions that are told apart here. -/
inductive InsType
  | move | xor | shl | shr | anno | cleanup
  | other (type : ℕ)
  deriving DecidableEq

/-- `ins_chain`, without the links. -/
structure Ins where
  type : InsType
  inArgs : List Arg
  outArgs : List Arg
  deriving DecidableEq

/-- `rtl_compare_args` -/
def rtlCompareArgs (arg₁ arg₂ : Arg) : Bool :=
  if arg₁.mode ≠ arg₂.mode ∨ arg₁.hasDisp ≠ arg₂.hasDisp ∨ arg₁.flags ≠ arg₂.flags then false
  else if arg₁.hasDisp ∧ arg₁.disp ≠ arg₂.disp then false
  else match arg₁.mode with
    | .reg | .const | .regind | .cond | .label | .inslabel | .freg | .namedlabel | .text
    | .regindsib => arg₁.regconst = arg₂.regconst
    | .flabel | .blabel | .undefined | .labrefs => false

/-- `rtl_next_instr` passes over it: an annotation, or outside `INS_FIRST` to `INS_LAST`. -/
def Ins.skipped (ins : Ins) : Bool :=
  match ins.type with
  | .anno | .cleanup => true
  | .other type => type < 1 || 120 < type
  | _ => false

/-! ## The pass -/

/-- The count, the operand and the result of a shift. -/
def Ins.operands (ins : Ins) : Option (Arg × Arg × Arg) :=
  match ins.inArgs, ins.outArgs with
  | count :: op :: _, out :: _ => some (count, op, out)
  | _, _ => none

/-- The condition of the loop. -/
def Ins.continues (tmp next : Ins) : Bool :=
  (next.type = .shl || next.type = .shr) &&
    match tmp.operands, next.operands with
    | some (_, op, out), some (count, op', out') =>
      count.mode = .const && rtlCompareArgs op op' && rtlCompareArgs out out'
    | _, _ => false

/-- `ArgConst (arg)` -/
def Arg.const (arg : Arg) : Word :=
  match arg.regconst with
  | .int n => n
  | _ => 0

/-- `ArgConst (ins->in_args[0])` -/
def Ins.count (ins : Ins) : Word := (ins.inArgs.head?.map Arg.const).getD 0

/-- The total, with the instruction. -/
def Ins.addTo (ins : Ins) (i : Word) : Word :=
  let i := if ins.type = .shl then i - ins.count else i + ins.count
  if i.toInt ≤ -32 ∨ 32 ≤ i.toInt then i ||| 0xffff0000 else i

/-- `in_args[0]->regconst = n` -/
def Ins.setCount (ins : Ins) (n : Word) : Ins :=
  { ins with inArgs := ins.inArgs.modifyHead fun arg => { arg with regconst := .int n } }

/-- What becomes of the last instruction of a run. -/
def Ins.merged (ins : Ins) (i : Word) : Ins :=
  if i = 0 then { ins with type := .cleanup }
  else if i.toInt ≤ -32 ∨ 32 ≤ i.toInt then
    if (ins.outArgs.head?.map Arg.hasDisp).getD false then
      { ins with type := .move, inArgs := (ins.setCount 0).inArgs.take 1 }
    else { ins with type := .xor, inArgs := ins.outArgs.take 1 }
  else if i.toInt < 0 then { ins.setCount (-i) with type := .shl }
  else { ins.setCount i with type := .shr }

/-- The loop: `ins` is the last instruction of the run so far, `i` the total with it, `skipped` what
was passed over behind it. -/
def packRun (tmp ins : Ins) (alone : Bool) (i : Word) (skipped : List Ins) : List Ins → List Ins
  | [] => (if alone then ins else ins.merged i) :: skipped
  | next :: chain =>
    if next.skipped then packRun tmp ins alone i (skipped ++ [next]) chain
    else if tmp.continues next then
      { ins with type := .cleanup } :: skipped ++ packRun tmp next false (next.addTo i) [] chain
    else (if alone then ins else ins.merged i) :: skipped ++ next :: chain

/-- The case for `INS_SHL` and `INS_SHR`. -/
def packShifts (tmp : Ins) (chain : List Ins) : List Ins :=
  if tmp.continues tmp then packRun tmp tmp true (tmp.addTo 0) [] chain else tmp :: chain

/-- The loop over the chain, which has `n` instructions. -/
def packChain : ℕ → List Ins → List Ins
  | 0, chain => chain
  | _ + 1, [] => []
  | n + 1, tmp :: chain =>
    match packShifts tmp chain with
    | [] => []
    | tmp :: chain => tmp :: packChain n chain

/-- `codeblock_pack_sequences` -/
def packSequences (head : List Ins) : List Ins := packChain head.length head

/-! ## What instructions do -/

/-- Where an argument is: what `rtl_compare_args` compares. -/
def Arg.place (arg : Arg) : Arg := if arg.hasDisp then arg else { arg with disp := 0 }

/-- The values of registers and memory. -/
abbrev State := Arg → Word

def Arg.value (arg : Arg) (σ : State) : Word :=
  if arg.mode = .const then arg.const else σ arg.place

/-- What an instruction does to the values; with one argument, `INS_XOR` takes the result for the
other. -/
def Ins.exec (σ : State) (ins : Ins) : State :=
  match ins.type, ins.inArgs, ins.outArgs with
  | .shl, count :: op :: _, out :: _ =>
    Function.update σ out.place (op.value σ <<< (count.value σ).toNat)
  | .shr, count :: op :: _, out :: _ =>
    Function.update σ out.place (op.value σ >>> (count.value σ).toNat)
  | .move, arg :: _, out :: _ => Function.update σ out.place (arg.value σ)
  | .xor, [arg], out :: _ => Function.update σ out.place (out.value σ ^^^ arg.value σ)
  | .xor, arg :: arg' :: _, out :: _ =>
    Function.update σ out.place (arg.value σ ^^^ arg'.value σ)
  | _, _, _ => σ

def execAll (chain : List Ins) (σ : State) : State := chain.foldl Ins.exec σ

/-! ## Operands -/

variable {p : Arg} {ins tmp next : Ins} {σ : State} {i : Word}

/-- `rtl_compare_args` allows the mode. -/
def ArgMode.Comparable (mode : ArgMode) : Prop :=
  mode ≠ .flabel ∧ mode ≠ .blabel ∧ mode ≠ .undefined ∧ mode ≠ .labrefs

/-- **`rtl_compare_args` compares places.** -/
theorem rtlCompareArgs_iff {a b : Arg} :
    rtlCompareArgs a b = true ↔ a.place = b.place ∧ a.mode.Comparable := by
  obtain ⟨mode, hasDisp, flags, regconst, disp⟩ := a
  obtain ⟨mode', hasDisp', flags', regconst', disp'⟩ := b
  unfold rtlCompareArgs Arg.place ArgMode.Comparable
  cases hasDisp <;> cases hasDisp' <;> cases mode <;> simp <;> grind

@[simp] theorem place_mode (a : Arg) : a.place.mode = a.mode := by
  unfold Arg.place
  split_ifs <;> rfl

/-- **A shift of the operand `p`** by a constant. -/
def Ins.ShiftOf (p : Arg) (ins : Ins) : Prop :=
  (ins.type = .shl ∨ ins.type = .shr) ∧ ∃ count op out, ins.operands = some (count, op, out) ∧
    count.mode = .const ∧ op.place = p ∧ out.place = p

/-- The count, positive to the right. -/
def Ins.amount (ins : Ins) : ℤ := if ins.type = .shl then -ins.count.toNat else ins.count.toNat

theorem Arg.value_of_place {a : Arg} (ha : a.place = p) (hp : p.mode ≠ .const) :
    a.value σ = σ p := by
  rw [Arg.value, if_neg, ha]
  rwa [← place_mode, ha]

theorem Ins.ShiftOf.exists_args (h : ins.ShiftOf p) : ∃ count op out args outs,
    ins = ⟨ins.type, count :: op :: args, out :: outs⟩ ∧ count.mode = .const ∧ op.place = p ∧
      out.place = p := by
  obtain ⟨-, count, op, out, hops, hc, hop, hout⟩ := h
  obtain ⟨type, inArgs, outArgs⟩ := ins
  unfold Ins.operands at hops
  split at hops
  · obtain ⟨rfl, rfl, rfl⟩ := by simpa using hops
    rename_i hin hout'
    dsimp only at hin hout'
    subst hin hout'
    exact ⟨_, _, _, _, _, rfl, hc, hop, hout⟩
  · exact absurd hops (by simp)

/-- **What a shift does to its operand.** -/
theorem Ins.ShiftOf.exec (h : ins.ShiftOf p) (hp : p.mode ≠ .const) :
    ins.exec σ p = Shifts.shift (σ p) ins.amount := by
  obtain ⟨count, op, out, args, outs, heq, hc, hop, hout⟩ := h.exists_args
  have hvalue := Arg.value_of_place (σ := σ) hop hp
  have hcount : count.value σ = ins.count := by
    rw [Arg.value, if_pos hc, heq]
    rfl
  rcases h.1 with ht | ht
  · have hexec : ins.exec σ = Function.update σ out.place
        (op.value σ <<< (count.value σ).toNat) := by
      rw [heq, ht]
      rfl
    rw [hexec, hout, Function.update_self, hvalue, hcount, Ins.amount, if_pos ht,
      Shifts.shift_neg_natCast]
  · have hexec : ins.exec σ = Function.update σ out.place
        (op.value σ >>> (count.value σ).toNat) := by
      rw [heq, ht]
      rfl
    rw [hexec, hout, Function.update_self, hvalue, hcount, Ins.amount, if_neg (by simp [ht]),
      Shifts.shift_natCast]

/-- The total, as an integer: a shift by the whole word or more is marked in the upper bits. -/
def total (i s : ℤ) : ℤ := if i + s ≤ -32 ∨ 32 ≤ i + s then (i + s) % 65536 - 65536 else i + s

theorem toInt_or_mark (i : Word) : (i ||| 0xffff0000).toInt = i.toInt % 65536 - 65536 := by
  have hsplit : i ||| 0xffff0000#32 = 0xffff0000#32 ||| (i &&& 0xffff#32) := by
    rw [show 0xffff#32 = ~~~0xffff0000#32 by decide]
    apply BitVec.eq_of_getLsbD_eq
    intro k hk
    simp only [BitVec.getLsbD_or, BitVec.getLsbD_and, BitVec.getLsbD_not, hk, decide_true,
      Bool.true_and]
    cases i.getLsbD k <;> cases (0xffff0000#32).getLsbD k <;> rfl
  have hlow : (i &&& 0xffff#32).toNat = i.toNat % 2 ^ 16 := by
    rw [BitVec.toNat_and, show (0xffff#32).toNat = 2 ^ 16 - 1 from rfl,
      Nat.and_two_pow_sub_one_eq_mod]
  have hnat : (i ||| 0xffff0000#32).toNat = 0xffff0000 + i.toNat % 2 ^ 16 := by
    rw [hsplit, BitVec.toNat_or, hlow, show (0xffff0000#32).toNat = 0xffff <<< 16 from rfl,
      ← Nat.shiftLeft_add_eq_or_of_lt (Nat.mod_lt _ (by decide))]
    rfl
  rw [show (0xffff0000 : Word) = 0xffff0000#32 from rfl, BitVec.toInt_eq_toNat_cond, hnat,
    BitVec.toInt_eq_toNat_cond]
  have := i.isLt
  split_ifs <;> omega

theorem Ins.amount_le (hc : ins.count.toNat < 32) : -31 ≤ ins.amount ∧ ins.amount ≤ 31 := by
  rw [Ins.amount]
  split_ifs <;> omega

/-- **Adding an instruction to the total.** -/
theorem Ins.addTo_toInt (hc : ins.count.toNat < 32) (h₁ : -65536 ≤ i.toInt) (h₂ : i.toInt ≤ 31) :
    (ins.addTo i).toInt = total i.toInt ins.amount := by
  have hle := Ins.amount_le hc
  have hcount : ins.count.toInt = ins.count.toNat := by
    rw [BitVec.toInt_eq_toNat_of_lt (by omega)]
  have hsum : (if ins.type = .shl then i - ins.count else i + ins.count).toInt =
      i.toInt + ins.amount := by
    rw [Ins.amount] at hle ⊢
    split_ifs at hle ⊢ with ht
    · rw [BitVec.toInt_sub, hcount, Int.bmod_eq_of_le (by omega) (by omega), Int.sub_eq_add_neg]
    · rw [BitVec.toInt_add, hcount, Int.bmod_eq_of_le (by omega) (by omega)]
  unfold Ins.addTo total
  generalize (if ins.type = .shl then i - ins.count else i + ins.count) = t at hsum ⊢
  dsimp only
  rw [hsum]
  split_ifs with hout
  · rw [toInt_or_mark, hsum]
  · exact hsum

theorem total_bounds (i s : ℤ) : -65536 ≤ total i s ∧ total i s ≤ 31 := by
  rw [total]
  split_ifs <;> omega

/-! ## When the total stays within the word -/

/-- From some point on the partial counts stay within 31 of `c`, a multiple of `2 ^ 16`, which is
zero at the start or was reached from below. -/
def CountedFrom (c : ℤ) (l : List ℤ) : Prop :=
  65536 ∣ c ∧ ∃ j, (∀ k, j ≤ k → |(l.take k).sum - c| ≤ 31) ∧ ((l.take j).sum < c ∨ j = 0 ∧ c = 0)

theorem countedFrom_nil {c : ℤ} : CountedFrom c [] ↔ c = 0 := by
  constructor
  · rintro ⟨hc, j, hj, h⟩
    have hk := abs_le.mp (hj j le_rfl)
    simp only [List.take_nil, List.sum_nil] at hk h
    omega
  · rintro rfl
    exact ⟨by decide, 0, by simp, .inr ⟨rfl, rfl⟩⟩

theorem countedFrom_concat {c s : ℤ} {l : List ℤ} : CountedFrom c (l ++ [s]) ↔
    65536 ∣ c ∧ |l.sum + s - c| ≤ 31 ∧ (l.sum + s < c ∨ CountedFrom c l) := by
  have hlow : ∀ k, k ≤ l.length → (l ++ [s]).take k = l.take k := fun k hk =>
    List.take_append_of_le_length hk
  have hhigh : ∀ k, l.length < k → ((l ++ [s]).take k).sum = l.sum + s := fun k hk => by
    rw [List.take_of_length_le (by simpa using hk), List.sum_append, List.sum_singleton]
  have hall : ∀ k, l.length ≤ k → l.take k = l := fun k hk => List.take_of_length_le hk
  constructor
  · rintro ⟨hc, j, hj, h⟩
    have hlast := hj (max j (l.length + 1)) (le_max_left _ _)
    rw [hhigh _ (by omega)] at hlast
    refine ⟨hc, hlast, ?_⟩
    rcases Nat.lt_or_ge l.length j with hlt | hle
    · rw [hhigh j hlt] at h
      exact .inl (h.resolve_right fun h => by omega)
    · rw [hlow j hle] at h
      refine .inr ⟨hc, j, fun k hk => ?_, h⟩
      rcases Nat.le_total k l.length with hkl | hkl
      · rw [← hlow k hkl]
        exact hj k hk
      · rw [hall k hkl, ← hall l.length le_rfl, ← hlow _ le_rfl]
        exact hj _ hle
  · rintro ⟨hc, hlast, h | ⟨-, j, hj, h⟩⟩
    · refine ⟨hc, l.length + 1, fun k hk => ?_, .inl ?_⟩
      · rwa [hhigh k hk]
      · rwa [hhigh _ (Nat.lt_succ_self _)]
    · refine ⟨hc, min j l.length, fun k hk => ?_, ?_⟩
      · rcases Nat.lt_or_ge l.length k with hlt | hle
        · rwa [hhigh k hlt]
        · rw [hlow k hle]
          rcases Nat.le_total j l.length with hjl | hjl
          · exact hj k (by rwa [min_eq_left hjl] at hk)
          · have hend : l.take k = l.take j := by
              rw [hall k (by rwa [min_eq_right hjl] at hk), hall j hjl]
            rw [hend]
            exact hj j le_rfl
      · rw [hlow _ (min_le_right _ _)]
        rcases Nat.le_total j l.length with hjl | hjl
        · rwa [min_eq_left hjl]
        · have hend : l.take l.length = l.take j := by rw [hall _ le_rfl, hall j hjl]
          rw [min_eq_right hjl, hend]
          exact h.imp_right fun h => ⟨by omega, h.2⟩

/-- **The total of a run** is its sum modulo `2 ^ 16`, and is below the word where it counts. -/
theorem foldl_total (l : List ℤ) (hl : ∀ s ∈ l, -31 ≤ s ∧ s ≤ 31) :
    (-65536 ≤ l.foldl total 0 ∧ l.foldl total 0 ≤ 31) ∧ (65536 : ℤ) ∣ l.sum - l.foldl total 0 ∧
      ∀ c, CountedFrom c l ↔ -32 < l.foldl total 0 ∧ l.foldl total 0 = l.sum - c := by
  induction l using List.reverseRecOn with
  | nil =>
    refine ⟨by decide, by decide, fun c => countedFrom_nil.trans ?_⟩
    simp only [List.foldl_nil, List.sum_nil]
    omega
  | append_singleton l s ih =>
    obtain ⟨⟨h₁, h₂⟩, hdvd, hiff⟩ := ih fun x hx => hl x (by simp [hx])
    have hs := hl s (by simp)
    rw [List.foldl_append, List.foldl_cons, List.foldl_nil, List.sum_append, List.sum_singleton]
    generalize l.foldl total 0 = v at *
    refine ⟨total_bounds v s, ?_, fun c => ?_⟩
    · rw [total]
      split_ifs <;> omega
    · rw [countedFrom_concat, hiff, abs_le, total]
      split_ifs with hout <;> omega

/-- **The run is kept**: every partial count is between zero and the net count, which is below the
word; or the net count is not counted from below the word, so that nothing is left. -/
def Kept (l : List ℤ) : Prop :=
  (|l.sum| ≤ 31 ∧ Shifts.Between l) ∨ ¬ ∃ c, CountedFrom c l

/-- What is left in place of a run with the total `t`. -/
def shiftTotal (x : Word) (t : ℤ) : Word := if -32 < t then Shifts.shift x t else 0

/-- **One shift by the total is the run** exactly when the run is kept. -/
theorem run_eq_shiftTotal_iff (l : List ℤ) (hl : ∀ s ∈ l, -31 ≤ s ∧ s ≤ 31) :
    (∀ x, Shifts.run l x = shiftTotal x (l.foldl total 0)) ↔ Kept l := by
  obtain ⟨⟨-, hle⟩, -, hiff⟩ := foldl_total l hl
  have hstart : CountedFrom 0 l ∨ ∃ k, ((32 : ℕ) : ℤ) ≤ |(l.take k).sum| := by
    by_cases hk : ∃ k, ((32 : ℕ) : ℤ) ≤ |(l.take k).sum|
    · exact .inr hk
    · refine .inl ⟨by decide, 0, fun k _ => ?_, .inr ⟨rfl, rfl⟩⟩
      rw [sub_zero]
      have := not_le.mp (not_exists.mp hk k)
      push_cast at this
      omega
  unfold Kept shiftTotal
  rcases lt_or_ge (-32) (l.foldl total 0) with hin | hout
  · have hcount : ∃ c, CountedFrom c l :=
      ⟨l.sum - l.foldl total 0, (hiff _).mpr ⟨hin, by ring⟩⟩
    simp only [if_pos hin, hcount, not_true_eq_false, or_false]
    rcases hstart with h₀ | ⟨k, hk⟩
    · have ht : l.foldl total 0 = l.sum := by
        have := ((hiff 0).mp h₀).2
        rwa [sub_zero] at this
      have hsum : |l.sum| ≤ 31 := by
        rw [abs_le]
        omega
      have hlt : |l.sum| < (32 : ℕ) := by
        push_cast
        omega
      rw [ht, Shifts.run_eq_shift_iff hlt]
      exact (and_iff_right hsum).symm
    · refine iff_of_false (fun h => ?_) fun ⟨hsum, hbetween⟩ => ?_
      · refine Shifts.shift_allOnes_ne_zero (w := 32) (s := l.foldl total 0) ?_ ((h _).symm.trans
          (Shifts.run_eq_zero hk _))
        rw [abs_lt]
        push_cast
        omega
      · have := hbetween k
        rw [abs_le] at hsum
        rcases le_abs.mp hk with hk | hk <;> omega
  · have hnone : ¬ ∃ c, CountedFrom c l := fun ⟨c, hc⟩ => by
      have := ((hiff c).mp hc).1
      omega
    simp only [if_neg (not_lt.mpr hout)]
    refine iff_of_true (fun x => ?_) (.inr hnone)
    obtain ⟨k, hk⟩ := hstart.resolve_left fun h => hnone ⟨0, h⟩
    exact Shifts.run_eq_zero hk x

/-! ## The pass on a run -/

/-- An operand of shifts: a place that can be compared. -/
def Arg.IsOperand (p : Arg) : Prop := p.mode ≠ .const ∧ p.mode.Comparable

/-- **The loop goes on** over the shifts of one operand. -/
theorem continues_iff (h : tmp.ShiftOf p) (hp : p.IsOperand) :
    tmp.continues next = true ↔ next.ShiftOf p := by
  obtain ⟨-, count, op, out, hops, -, hop, hout⟩ := h
  have hmode : op.mode.Comparable ∧ out.mode.Comparable := by
    rw [← place_mode, hop, ← place_mode out, hout]
    exact ⟨hp.2, hp.2⟩
  unfold Ins.continues Ins.ShiftOf
  rw [hops, Bool.and_eq_true, Bool.or_eq_true, decide_eq_true_iff, decide_eq_true_iff]
  refine and_congr_right fun _ => ?_
  cases hnext : next.operands with
  | none => simp
  | some args =>
    obtain ⟨count', op', out'⟩ := args
    dsimp only
    rw [Bool.and_eq_true, Bool.and_eq_true, decide_eq_true_iff, rtlCompareArgs_iff,
      rtlCompareArgs_iff, hop, hout]
    constructor
    · rintro ⟨⟨hc, ho, -⟩, hr, -⟩
      exact ⟨count', op', out', rfl, hc, ho.symm, hr.symm⟩
    · rintro ⟨c, o, r, heq, hc, ho, hr⟩
      obtain ⟨rfl, rfl, rfl⟩ := by simpa using heq
      exact ⟨⟨hc, ho.symm, hmode.1⟩, hr.symm, hmode.2⟩

theorem Ins.ShiftOf.not_skipped (h : ins.ShiftOf p) : ins.skipped = false := by
  unfold Ins.skipped
  rcases h.1 with ht | ht <;> rw [ht]

theorem exec_skipped (h : ins.skipped = true) : ins.exec σ = σ := by
  unfold Ins.skipped at h
  unfold Ins.exec
  grind

/-- The last instruction of a run, with another direction and count. -/
theorem Ins.ShiftOf.setCount (h : ins.ShiftOf p) (type : InsType) (ht : type = .shl ∨ type = .shr)
    (n : Word) : Ins.ShiftOf p { ins.setCount n with type := type } ∧
      Ins.count { ins.setCount n with type := type } = n := by
  obtain ⟨count, op, out, args, outs, heq, hc, hop, hout⟩ := h.exists_args
  have hset : ({ ins.setCount n with type := type } : Ins) =
      ⟨type, { count with regconst := .int n } :: op :: args, out :: outs⟩ := by
    rw [heq]
    rfl
  rw [hset]
  exact ⟨⟨ht, _, _, _, rfl, hc, hop, hout⟩, rfl⟩

/-- **What becomes of the last instruction** is a shift by the total. -/
theorem Ins.ShiftOf.merged_exec (h : ins.ShiftOf p) (hp : p.IsOperand) (hi : i.toInt ≤ 31) :
    (ins.merged i).exec σ p = shiftTotal (σ p) i.toInt := by
  obtain ⟨count, op, out, args, outs, heq, hc, hop, hout⟩ := h.exists_args
  unfold Ins.merged shiftTotal
  by_cases hz : i = 0
  · subst hz
    rw [if_pos rfl, exec_skipped rfl]
    simp [Shifts.shift]
  rw [if_neg hz]
  by_cases hin : -32 < i.toInt
  · rw [if_neg (by omega), if_pos hin]
    have hnat : i.toInt = if 2 * i.toNat < 2 ^ 32 then (i.toNat : ℤ) else i.toNat - 2 ^ 32 :=
      BitVec.toInt_eq_toNat_cond i
    have hlt := i.isLt
    by_cases hneg : i.toInt < 0
    · obtain ⟨hshift, hcount⟩ := h.setCount .shl (.inl rfl) (-i)
      have hnegNat : ((-i).toNat : ℤ) = -i.toInt := by
        rw [BitVec.toNat_neg]
        split_ifs at hnat <;> omega
      rw [if_pos hneg, hshift.exec hp.1, Ins.amount, if_pos rfl, hcount, hnegNat, neg_neg]
    · obtain ⟨hshift, hcount⟩ := h.setCount .shr (.inr rfl) i
      have hposNat : (i.toNat : ℤ) = i.toInt := by
        split_ifs at hnat <;> omega
      rw [if_neg hneg, hshift.exec hp.1, Ins.amount, if_neg (by simp), hcount, hposNat]
  · rw [if_pos (by omega), if_neg hin]
    have houts : ins.outArgs = out :: outs := by
      rw [heq]
    have hins : (ins.setCount 0).inArgs.take 1 = [{ count with regconst := .int 0 }] := by
      rw [heq]
      rfl
    rw [hins, houts]
    split_ifs
    · show Function.update σ out.place _ p = 0
      rw [hout, Function.update_self, Arg.value, if_pos hc]
      rfl
    · show Function.update σ out.place (out.value σ ^^^ out.value σ) p = 0
      rw [hout, Function.update_self]
      exact BitVec.xor_self

/-- The chain goes on with something that ends the run. -/
def Ends (p : Arg) (rest : List Ins) : Prop :=
  ∀ next ∈ rest.head?, next.skipped = false ∧ ¬ next.ShiftOf p

/-- The shifts of a part of the chain. -/
def amounts (seg : List Ins) : List ℤ := (seg.filter fun ins => !ins.skipped).map Ins.amount

/-- A part of the chain with shifts of the operand `p` only, by less than the word. -/
def Shifting (p : Arg) (seg : List Ins) : Prop :=
  ∀ ins ∈ seg, ins.skipped = true ∨ ins.ShiftOf p ∧ ins.count.toNat < 32

theorem amounts_cons_skipped {seg : List Ins} (h : ins.skipped = true) :
    amounts (ins :: seg) = amounts seg := by
  simp [amounts, h]

theorem amounts_cons_shift {seg : List Ins} (h : ins.ShiftOf p) :
    amounts (ins :: seg) = ins.amount :: amounts seg := by
  simp [amounts, h.not_skipped]

theorem amounts_bounds {seg : List Ins} (h : Shifting p seg) :
    ∀ s ∈ amounts seg, -31 ≤ s ∧ s ≤ 31 := by
  intro s hs
  obtain ⟨ins, hins, rfl⟩ := List.mem_map.mp hs
  obtain ⟨hmem, hnot⟩ := List.mem_filter.mp hins
  rcases h ins hmem with hskip | ⟨-, hc⟩
  · simp [hskip] at hnot
  · exact Ins.amount_le hc

/-- **What a run does to its operand.** -/
theorem execAll_eq_run {seg : List Ins} (h : Shifting p seg) (hp : p.IsOperand) (σ : State) :
    execAll seg σ p = Shifts.run (amounts seg) (σ p) := by
  induction seg generalizing σ with
  | nil => rfl
  | cons ins seg ih =>
    have htail : Shifting p seg := fun x hx => h x (List.mem_cons_of_mem _ hx)
    rw [execAll, List.foldl_cons]
    rw [show seg.foldl Ins.exec (ins.exec σ) = execAll seg (ins.exec σ) from rfl, ih htail]
    rcases h ins List.mem_cons_self with hskip | ⟨hshift, -⟩
    · rw [exec_skipped hskip, amounts_cons_skipped hskip]
    · rw [hshift.exec hp.1, amounts_cons_shift hshift, Shifts.run_cons]

theorem execAll_skipped {seg : List Ins} (h : ∀ ins ∈ seg, ins.skipped = true) (σ : State) :
    execAll seg σ = σ := by
  induction seg generalizing σ with
  | nil => rfl
  | cons ins seg ih =>
    rw [execAll, List.foldl_cons, exec_skipped (h ins List.mem_cons_self)]
    exact ih (fun x hx => h x (List.mem_cons_of_mem _ hx)) σ

theorem Ins.ShiftOf.continues_false (h : tmp.ShiftOf p) (hp : p.IsOperand)
    (hnext : ¬ next.ShiftOf p) : tmp.continues next = false := by
  rw [← Bool.not_eq_true]
  exact fun hc => hnext ((continues_iff h hp).mp hc)

/-- The loop at the end of a run. -/
theorem packRun_end (h : tmp.ShiftOf p) (hp : p.IsOperand) {rest : List Ins} (hrest : Ends p rest)
    (alone : Bool) (skipped : List Ins) : packRun tmp ins alone i skipped rest =
      (if alone then ins else ins.merged i) :: skipped ++ rest := by
  cases rest with
  | nil => rw [packRun, List.append_nil]
  | cons next rest =>
    obtain ⟨hskip, hshift⟩ := hrest next rfl
    rw [packRun, if_neg (by simp [hskip]), if_neg (by simp [h.continues_false hp hshift])]

/-- The loop where no shift follows. -/
theorem packRun_skipped (h : tmp.ShiftOf p) (hp : p.IsOperand) {rest : List Ins}
    (hrest : Ends p rest) (alone : Bool) {l : List Ins} (hl : ∀ x ∈ l, x.skipped = true)
    (skipped : List Ins) : packRun tmp ins alone i skipped (l ++ rest) =
      (if alone then ins else ins.merged i) :: (skipped ++ l) ++ rest := by
  induction l generalizing skipped with
  | nil => simpa using packRun_end h hp hrest alone skipped
  | cons x l ih =>
    rw [List.cons_append, packRun, if_pos (hl x List.mem_cons_self),
      ih fun y hy => hl y (List.mem_cons_of_mem _ hy)]
    simp

/-- **The loop over a run**: an instruction is left, and those before and behind it are skipped. -/
theorem packRun_run (h : tmp.ShiftOf p) (hp : p.IsOperand) {rest : List Ins} (hrest : Ends p rest)
    {seg : List Ins} (hseg : Shifting p seg) (alone : Bool) (skipped : List Ins)
    (hins : ins.ShiftOf p) (hskipped : ∀ x ∈ skipped, x.skipped = true) (h₁ : -65536 ≤ i.toInt)
    (h₂ : i.toInt ≤ 31) (hfirst : alone = false ∨ amounts seg ≠ []) :
    ∃ (idle : List Ins) (last : Ins) (t : Word) (l : List Ins),
      packRun tmp ins alone i skipped (seg ++ rest) =
        idle ++ last.merged t :: l ++ rest ∧ (∀ x ∈ idle ++ l, x.skipped = true) ∧
      idle.length + l.length = skipped.length + seg.length ∧ last.ShiftOf p ∧
      t.toInt = (amounts seg).foldl total i.toInt := by
  induction seg generalizing ins i alone skipped with
  | nil =>
    have halone : alone = false := hfirst.resolve_right fun h => h rfl
    refine ⟨[], ins, i, skipped, ?_, by simpa using hskipped, by simp, hins, rfl⟩
    rw [List.nil_append, packRun_end h hp hrest, halone]
    rfl
  | cons x seg ih =>
    have htail : Shifting p seg := fun y hy => hseg y (List.mem_cons_of_mem _ hy)
    rcases hseg x List.mem_cons_self with hskip | ⟨hshift, hc⟩
    · rw [amounts_cons_skipped hskip] at hfirst ⊢
      obtain ⟨idle, last, t, l, heq, hidle, hlen, hlast, ht⟩ := ih htail alone (skipped ++ [x])
        hins (fun y hy => (List.mem_append.mp hy).elim (hskipped y)
          fun hy => List.mem_singleton.mp hy ▸ hskip) h₁ h₂ hfirst
      refine ⟨idle, last, t, l, ?_, hidle, ?_, hlast, ht⟩
      · rw [List.cons_append, packRun, if_pos hskip, heq]
      · rw [hlen]
        simp only [List.length_append, List.length_cons, List.length_nil]
        omega
    · rw [amounts_cons_shift hshift, List.foldl_cons, ← Ins.addTo_toInt hc h₁ h₂]
      obtain ⟨hb₁, hb₂⟩ := total_bounds i.toInt x.amount
      rw [← Ins.addTo_toInt hc h₁ h₂] at hb₁ hb₂
      obtain ⟨idle, last, t, l, heq, hidle, hlen, hlast, ht⟩ :=
        ih htail false [] hshift (by simp) hb₁ hb₂ (.inl rfl)
      refine ⟨{ ins with type := .cleanup } :: skipped ++ idle, last, t, l, ?_, ?_, ?_, hlast, ht⟩
      · rw [List.cons_append, packRun, if_neg (by simp [hshift.not_skipped]),
          if_pos ((continues_iff h hp).mpr hshift), heq]
        simp
      · intro y hy
        simp only [List.cons_append, List.mem_cons, List.append_assoc, List.mem_append] at hy
        rcases hy with rfl | hy | hy | hy
        · rfl
        · exact hskipped y hy
        · exact hidle y (List.mem_append_left _ hy)
        · exact hidle y (List.mem_append_right _ hy)
      · simp only [List.length_append, List.length_cons, List.length_nil] at hlen ⊢
        omega

/-! ## The pass on the chain -/

theorem packSequences_cons {x y : Ins} {c c' : List Ins} (h : packShifts x c = y :: c')
    (hlen : c'.length = c.length) : packSequences (x :: c) = y :: packSequences c' := by
  rw [packSequences, List.length_cons, packChain, h, packSequences, hlen]

/-- The pass leaves an instruction of another type alone. -/
theorem packShifts_other (c : List Ins) (h : ins.type ≠ .shl ∧ ins.type ≠ .shr) :
    packShifts ins c = ins :: c := by
  have hfalse : ins.continues ins = false := by
    simp [Ins.continues, h.1, h.2]
  rw [packShifts, hfalse]
  rfl

theorem packSequences_skipped {l : List Ins} (h : ∀ x ∈ l, x.skipped = true) (c : List Ins) :
    packSequences (l ++ c) = l ++ packSequences c := by
  induction l with
  | nil => rfl
  | cons x l ih =>
    have hx := h x List.mem_cons_self
    have htype : x.type ≠ .shl ∧ x.type ≠ .shr := by
      unfold Ins.skipped at hx
      constructor <;> intro ht <;> rw [ht] at hx <;> exact absurd hx (by simp)
    rw [List.cons_append, packSequences_cons (packShifts_other _ htype) rfl,
      ih fun y hy => h y (List.mem_cons_of_mem _ hy)]
    rfl

/-- A merged instruction is a shift of the operand, or no shift. -/
theorem Ins.ShiftOf.merged_cases (h : ins.ShiftOf p) (i : Word) :
    (ins.merged i).ShiftOf p ∨ (ins.merged i).type ≠ .shl ∧ (ins.merged i).type ≠ .shr := by
  unfold Ins.merged
  split_ifs
  · exact .inr (by simp)
  · exact .inr (by simp)
  · exact .inr (by simp)
  · exact .inl (h.setCount .shl (.inl rfl) _).1
  · exact .inl (h.setCount .shr (.inr rfl) _).1

/-- **What was left is left alone** when the pass comes to it. -/
theorem packSequences_left (h : ins.ShiftOf p ∨ ins.type ≠ .shl ∧ ins.type ≠ .shr)
    (hp : p.IsOperand) {l rest : List Ins} (hl : ∀ x ∈ l, x.skipped = true) (hrest : Ends p rest) :
    packSequences (ins :: l ++ rest) = ins :: l ++ packSequences rest := by
  have hstep : packShifts ins (l ++ rest) = ins :: (l ++ rest) := by
    rcases h with h | h
    · rw [packShifts, if_pos ((continues_iff h hp).mpr h), packRun_skipped h hp hrest true hl]
      rfl
    · exact packShifts_other _ h
  rw [List.cons_append, packSequences_cons hstep rfl, packSequences_skipped hl, List.cons_append]

theorem execAll_around {idle l : List Ins} (h : ∀ x ∈ idle ++ l, x.skipped = true) (σ : State) :
    execAll (idle ++ ins :: l) σ = ins.exec σ := by
  have hidle := execAll_skipped (fun x hx => h x (List.mem_append_left _ hx)) σ
  rw [execAll, List.foldl_append, List.foldl_cons]
  rw [show idle.foldl Ins.exec σ = execAll idle σ from rfl, hidle]
  exact execAll_skipped (fun x hx => h x (List.mem_append_right _ hx)) _

theorem kept_of_length {l : List ℤ} (hl : ∀ s ∈ l, -31 ≤ s ∧ s ≤ 31) (hlen : l.length ≤ 1) :
    Kept l := by
  rcases l with _ | ⟨s, _ | ⟨s', l⟩⟩
  · exact .inl ⟨by simp, fun k => by simp⟩
  · have hs := hl s List.mem_cons_self
    refine .inl ⟨by simpa [abs_le] using hs, fun k => ?_⟩
    cases k <;> simp
  · exact absurd hlen (by simp)

/-- A run of more than one shift is merged. -/
theorem packSequences_merged (hp : p.IsOperand) {seg rest : List Ins}
    (hseg : Shifting p (tmp :: seg)) (hrest : Ends p rest) (hshift : tmp.ShiftOf p)
    (hc : tmp.count.toNat < 32) (hmore : amounts seg ≠ []) :
    ∃ left, packSequences (tmp :: seg ++ rest) = left ++ packSequences rest ∧
      left.length = (tmp :: seg).length ∧
      ((∀ σ, execAll left σ p = execAll (tmp :: seg) σ p) ↔ Kept (amounts (tmp :: seg))) := by
  have htail : Shifting p seg := fun y hy => hseg y (List.mem_cons_of_mem _ hy)
  have hzero : (0 : Word).toInt = 0 := rfl
  have hadd : (tmp.addTo 0).toInt = total 0 tmp.amount :=
    Ins.addTo_toInt hc (by decide) (by decide)
  obtain ⟨hb₁, hb₂⟩ := total_bounds 0 tmp.amount
  rw [← hadd] at hb₁ hb₂
  obtain ⟨idle, last, t, l, hrun, hidle, hlen, hlast, ht⟩ := packRun_run hshift hp hrest htail
    true [] hshift (by simp) hb₁ hb₂ (.inr hmore)
  have hpack : packShifts tmp (seg ++ rest) = idle ++ last.merged t :: l ++ rest := by
    rw [packShifts, if_pos ((continues_iff hshift hp).mpr hshift), hrun]
  rw [List.length_nil, Nat.zero_add] at hlen
  have hl : ∀ x ∈ l, x.skipped = true := fun x hx => hidle x (List.mem_append_right _ hx)
  have hpass : packSequences (tmp :: seg ++ rest) =
      (idle ++ last.merged t :: l) ++ packSequences rest := by
    rw [List.cons_append]
    cases idle with
    | nil =>
      have hpack : packShifts tmp (seg ++ rest) = last.merged t :: (l ++ rest) := hpack
      have hlen' : (l ++ rest).length = (seg ++ rest).length := by
        simp only [List.length_append, List.length_nil] at hlen ⊢
        omega
      rw [packSequences_cons hpack hlen', packSequences_skipped hl]
      rfl
    | cons a idle =>
      have hpack : packShifts tmp (seg ++ rest) = a :: (idle ++ (last.merged t :: l ++ rest)) := by
        simpa using hpack
      have hlen' : (idle ++ (last.merged t :: l ++ rest)).length = (seg ++ rest).length := by
        simp only [List.length_append, List.length_cons] at hlen ⊢
        omega
      rw [packSequences_cons hpack hlen', packSequences_skipped fun y hy => hidle y (by simp [hy]),
        packSequences_left (hlast.merged_cases t) hp hl hrest]
      simp
  have hbounds := amounts_bounds hseg
  have htotal : t.toInt = (amounts (tmp :: seg)).foldl total 0 := by
    rw [ht, hadd, amounts_cons_shift hshift, List.foldl_cons]
  have hexec : ∀ σ, execAll (idle ++ last.merged t :: l) σ p =
      shiftTotal (σ p) ((amounts (tmp :: seg)).foldl total 0) := fun σ => by
    rw [execAll_around hidle, hlast.merged_exec hp, htotal]
    rw [htotal]
    exact (foldl_total _ hbounds).1.2
  refine ⟨idle ++ last.merged t :: l, hpass, by simp; omega, ?_⟩
  rw [← run_eq_shiftTotal_iff _ hbounds]
  simp only [hexec, execAll_eq_run hseg hp]
  exact ⟨fun h x => (h fun _ => x).symm, fun h σ => (h (σ p)).symm⟩

/-- **Merging keeps the meaning of a run exactly where the run is kept.** -/
theorem packSequences_run_iff (hp : p.IsOperand) {seg rest : List Ins} (hseg : Shifting p seg)
    (hrest : Ends p rest) :
    ∃ left, packSequences (seg ++ rest) = left ++ packSequences rest ∧ left.length = seg.length ∧
      ((∀ σ, execAll left σ p = execAll seg σ p) ↔ Kept (amounts seg)) := by
  induction seg with
  | nil => exact ⟨[], rfl, rfl, iff_of_true (fun σ => rfl) (kept_of_length (by simp [amounts])
      (by simp [amounts]))⟩
  | cons x seg ih =>
    have htail : Shifting p seg := fun y hy => hseg y (List.mem_cons_of_mem _ hy)
    rcases hseg x List.mem_cons_self with hskip | ⟨hshift, hc⟩
    · obtain ⟨left, heq, hlen, hiff⟩ := ih htail
      have hone : ∀ y ∈ [x], y.skipped = true := fun y hy => List.mem_singleton.mp hy ▸ hskip
      refine ⟨x :: left, ?_, by simp [hlen], ?_⟩
      · have := packSequences_skipped hone (seg ++ rest)
        rw [heq] at this
        exact this
      · rw [amounts_cons_skipped hskip, ← hiff]
        simp only [execAll, List.foldl_cons, exec_skipped hskip]
    · rcases eq_or_ne (amounts seg) [] with hnil | hmore
      · have hl : ∀ y ∈ seg, y.skipped = true := fun y hy => by
          have := List.filter_eq_nil_iff.mp (List.map_eq_nil_iff.mp hnil) y hy
          simpa using this
        refine ⟨x :: seg, packSequences_left (.inl hshift) hp hl hrest, rfl,
          iff_of_true (fun σ => rfl) (kept_of_length (amounts_bounds hseg) ?_)⟩
        rw [amounts_cons_shift hshift, hnil]
        rfl
      · exact packSequences_merged hp hseg hrest hshift hc hmore

/-- `INS_SHL` or `INS_SHR` of a register by a constant. -/
def shiftReg (type : InsType) (count reg : Word) : Ins :=
  ⟨type, [⟨.const, false, 0, .int count, 0⟩, ⟨.reg, false, 0, .int reg, 0⟩],
    [⟨.reg, false, 0, .int reg, 0⟩]⟩

theorem shiftReg_shiftOf {type : InsType} (ht : type = .shl ∨ type = .shr) (count reg : Word) :
    (shiftReg type count reg).ShiftOf ⟨.reg, false, 0, .int reg, 0⟩ :=
  ⟨ht, _, _, _, rfl, rfl, rfl, rfl⟩

/-- Two shifts to the left. -/
theorem packSequences_run_iff_left :
    ∃ left, packSequences ([shiftReg .shl 4 1, shiftReg .shl 3 1] ++ []) =
      left ++ packSequences [] ∧
      left.length = 2 ∧
      ((∀ σ, execAll left σ ⟨.reg, false, 0, .int 1, 0⟩ =
        execAll [shiftReg .shl 4 1, shiftReg .shl 3 1] σ ⟨.reg, false, 0, .int 1, 0⟩) ↔
          Kept (amounts [shiftReg .shl 4 1, shiftReg .shl 3 1])) := by
  refine packSequences_run_iff ⟨by decide, by decide, by decide, by decide, by decide⟩
    (fun ins hins => .inr ?_) fun next hnext => absurd hnext (by simp)
  rcases List.mem_pair.mp hins with rfl | rfl
  · exact ⟨shiftReg_shiftOf (.inl rfl) 4 1, by decide⟩
  · exact ⟨shiftReg_shiftOf (.inl rfl) 3 1, by decide⟩

/-- **Shifts that cancel** do not leave the value as it was: the upper bits are lost. -/
theorem packSequences_cancel : ¬ ∀ σ : State,
    execAll (packSequences [shiftReg .shl 4 1, shiftReg .shr 4 1]) σ ⟨.reg, false, 0, .int 1, 0⟩ =
      execAll [shiftReg .shl 4 1, shiftReg .shr 4 1] σ ⟨.reg, false, 0, .int 1, 0⟩ := fun h =>
  absurd (h fun _ => 0xf0000000) (by decide)

end Tranx86

end Kroc
