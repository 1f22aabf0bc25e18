import Kroc.Plinker.Instruction
import Kroc.Lib.Worklist

/-!
# Plinker/Proc — the code of a proc

`tools/plinker/Linker.pm`, from `code_static_instructions` to `code_dynamic_offsets`.  A proc is a
row of labels, each with instructions that have no label for an operand, or with one that has.  How
long such an instruction is depends on the distance to its label, and the distance on how long the
instructions between are.

What is known is coded first; the others start at an estimate and are coded again until nothing
changes, in the order in which Perl visits a hash.
-/

namespace Kroc.Plinker

/-! ## Procs -/

/-- `$instructions->primary ('LDC')` -/
def LDC : ℕ := 0x40

/-- `$instructions->numeric ('LDPI')` -/
def LDPI : ℕ := 0x1B

/-- A label that is referred to: of the same proc, with its `idx`, or outside, with its `pos`. -/
inductive Ref
  | inside (idx : ℕ)
  | outside (pos : ℤ)
  deriving DecidableEq

/-- `$arg_idx` of `build_label_dependencies` -/
def Ref.idx : Ref → ℕ
  | .inside idx => idx
  | .outside _ => 0

/-- One of the arguments of an instruction: a label, or the name of an operation. -/
inductive Arg
  | label (ref : Ref)
  | operation (num : ℕ)

/-- The operands with labels that `expand_etc_ops` makes, a label being referred to by a `ρ`. -/
inductive Operand (ρ : Type)
  | label (ref : ρ)
  | difference (a b : ρ)
  | ldpi (ref : ρ)

/-- `ref ($arg) =~ /^ARRAY/ ? @$arg : $arg` -/
def Operand.args : Operand Ref → List Arg
  | .label ref => [.label ref]
  | .difference a b => [.label a, .label b]
  | .ldpi ref => [.label ref, .operation LDPI]

/-- The labels of an operand. -/
def Operand.refs {ρ : Type} : Operand ρ → List ρ
  | .label ref => [ref]
  | .difference a b => [a, b]
  | .ldpi ref => [ref]

/-- An instruction without a label: a special one, with the bytes it stands for itself, or one with
a number, or one that has to be coded as an operation. -/
inductive Inst
  | special (bytes : List ℕ)
  | primary (num : ℕ) (arg : ℤ)
  | operation (num : ℕ)

/-- What `isolate_static_sections` leaves of a label: instructions without labels, one instruction
with a label, or a jump table with the labels of its jumps and the place of the instruction that
loads the size of a jump. -/
inductive Label (ρ : Type)
  | static (insts : List Inst)
  | offset (num : ℕ) (arg : Operand ρ)
  | table (targets : List ρ) (entries : List ℕ) (size : ℕ × ℕ)

/-- The labels that a label refers to. -/
def Label.refs {ρ : Type} : Label ρ → List ρ
  | .static _ => []
  | .offset _ arg => arg.refs
  | .table targets _ _ => targets

/-- **How the labels of a proc are formed**: the first is static, for `link` begins it with
directives, and the size of a jump table is loaded by an instruction without a label. -/
structure Formed {ρ : Type} (labels : List (Label ρ)) : Prop where
  first : ∃ insts, labels[0]? = some (.static insts)
  load : ∀ (i : ℕ) (targets : List ρ) (entries : List ℕ) (size : ℕ × ℕ),
    labels[i]? = some (.table targets entries size) →
      ∃ insts, labels[size.1]? = some (.static insts)

/-- **A proc**, at its position.  Its references are resolved; a label outside was coded before, for
`build_coding_order` puts it there; and `expand_etc_ops` puts `LDPI` behind the offset for it, where
`isolate_static_sections` begins a label. -/
structure Proc where
  pos : ℤ
  labels : List (Label Ref)
  inside_lt : ∀ l ∈ labels, ∀ idx, .inside idx ∈ l.refs → idx < labels.length
  outside_le : ∀ l ∈ labels, ∀ before, .outside before ∈ l.refs → before ≤ pos
  ldpi : ∀ i num ref, labels[i]? = some (.offset num (.ldpi ref)) →
    ∃ insts, labels[i + 1]? = some (.static (.operation LDPI :: insts))

/-- What the passes write: the lengths of labels and the bytes of their instructions, the lengths to
which jumps are padded, which lengths are estimates, and who depends on a label. -/
structure State where
  length : ℕ → Option ℕ
  bytes : ℕ → ℕ → List ℕ
  targetLength : ℕ → Option ℕ
  estimate : Finset ℕ
  dependents : ℕ → Finset ℕ

/-- A `die`, or a loop that has not come to its end. -/
inductive Died
  | unfinished
  | noOffsets
  | emptyTable
  | noTableLength
  | noDynamicDependencies (idx : ℕ)
  | notCoded
  | lengthChanged
  | positioning
  deriving DecidableEq

/-! ## Instructions without labels -/

/-- `code_static_instruction` -/
def Inst.code : Inst → List ℕ
  | .special bytes => bytes
  | .primary num arg => codeInstruction num arg none
  | .operation num => codeInstruction OPR num none

/-- `code_static_instructions` and `tag_complete_labels` -/
def Proc.codeStaticInstructions (p : Proc) : State where
  length i := match p.labels[i]? with
    | some (.static insts) => some (insts.map (·.code.length)).sum
    | _ => none
  bytes i k := match p.labels[i]? with
    | some (.static insts) => (insts[k]?.map (·.code)).getD []
    | _ => []
  targetLength _ := none
  estimate := ∅
  dependents _ := ∅

/-! ## Instructions with labels -/

/-- The distance `$o->{'v'}` in the direction `$o->{'d'}`, or the name of an operation. -/
inductive Offset
  | forward (v : ℤ)
  | backward (v : ℤ)
  | operation (num : ℕ)

/-- `$diff` of `merge_offsets` -/
def operationsLength : List Offset → ℕ
  | [] => 0
  | .operation num :: offsets => (codeInstruction OPR num none).length + operationsLength offsets
  | _ :: offsets => operationsLength offsets

/-- `@d` of `merge_offsets`: each distance from the end of the instruction. -/
def distances (length diff : ℤ) : List Offset → List ℤ
  | [] => []
  | .forward v :: offsets => (v - diff) :: distances length diff offsets
  | .backward v :: offsets => -(v + length + diff) :: distances length diff offsets
  | .operation _ :: offsets => distances length diff offsets

/-- `merge_offsets` -/
def mergeOffsets (length : ℕ) (offsets : List Offset) : Except Died ℤ :=
  match distances length (operationsLength offsets) offsets with
  | [] => .error .noOffsets
  | d :: ds => .ok (ds.foldl (· - ·) d)

/-- `do { … } until ($stable)` -/
def codeUntilStable (num : ℕ) (offsets : List Offset) : ℕ → List ℕ → Except Died (List ℕ)
  | 0, _ => .error .unfinished
  | fuel + 1, bytes => do
    let newBytes := codeInstruction num (← mergeOffsets bytes.length offsets) none
    if bytes.length = newBytes.length then .ok newBytes
    else codeUntilStable num offsets fuel newBytes

/-- `code_offset_instruction` -/
def codeOffsetInstruction (fuel num : ℕ) (length : Option ℕ) (offsets : List Offset) :
    Except Died (List ℕ) := do
  let bytes := codeInstruction num (← mergeOffsets 1 offsets) none
  let bytes ← codeUntilStable num offsets fuel bytes
  match length with
  | none => .ok bytes
  | some length => do
    .ok (codeInstruction num (← mergeOffsets bytes.length offsets) (some length))

/-- What is written where an instruction with a label is coded. -/
def State.code (s : State) (i : ℕ) (bytes : List ℕ) : State :=
  { s with
    length := Function.update s.length i (some bytes.length)
    bytes := Function.update s.bytes i (Function.update (s.bytes i) 0 bytes) }

/-- `code_table` -/
def State.codeTable (s : State) (this : ℕ) (entries : List ℕ) (size : ℕ × ℕ) :
    Except Died (Option State) :=
  if entries = [] then .error .emptyTable
  else match entries.mapM s.length with
    | none => .ok none
    | some lengths =>
      let maxLength := lengths.foldl max 0
      if maxLength = 0 then .error .noTableLength
      else .ok (some { s with
        targetLength := fun i => if i ∈ entries then some maxLength else s.targetLength i
        bytes := Function.update s.bytes size.1
          (Function.update (s.bytes size.1) size.2 (codeInstruction LDC maxLength none))
        length := Function.update s.length this (some 0) })

/-- The loop from `$p` forwards, `steps` labels on: nothing where a length is missing. -/
def walkForward (length : ℕ → Option ℕ) : ℕ → ℕ → ℤ → Option ℤ
  | 0, _, distance => some distance
  | steps + 1, p, distance => do walkForward length steps (p + 1) (distance + (← length p))

/-- The loop from the label before `$p` backwards. -/
def walkBackward (length : ℕ → Option ℕ) : ℕ → ℕ → ℤ → Option ℤ
  | 0, _, distance => some distance
  | steps + 1, p, distance => do walkBackward length steps (p - 1) (distance + (← length (p - 1)))

/-- The offset of a label that is, or seems to be, at `$target`, and farther by `$distance`. -/
def offsetTo (length : ℕ → Option ℕ) (this target : ℕ) (distance : ℤ) : Option Offset :=
  if this < target then
    (walkForward length (target - (this + 1)) (this + 1) distance).map .forward
  else if target < this then
    (walkBackward length (this - target) this distance).map .backward
  else some (.backward 0)

/-- One argument of `code_offset`. -/
def Proc.offset (p : Proc) (length : ℕ → Option ℕ) (this : ℕ) : Arg → Option Offset
  | .operation num => some (.operation num)
  | .label (.inside idx) => offsetTo length this idx 0
  | .label (.outside before) => offsetTo length this 0 (p.pos - before)

/-- `code_offset`: nothing where it returns `0`. -/
def Proc.codeOffset (p : Proc) (fuel : ℕ) (s : State) (this : ℕ) : Except Died (Option State) :=
  match p.labels[this]? with
  | some (.offset num arg) => match arg.args.mapM (p.offset s.length this) with
    | none => .ok none
    | some offsets => do
      .ok (some (s.code this (← codeOffsetInstruction fuel num (s.targetLength this) offsets)))
  | some (.table _ entries size) => s.codeTable this entries size
  | _ => .ok none

/-! ## The passes before the estimates -/

/-- `code_offset_if_known` -/
def Proc.codeOffsetIfKnown (p : Proc) (fuel : ℕ) (s : State) (this : ℕ) :
    Except Died (Option State) :=
  if (p.labels[this]?.elim [] (·.refs)).any fun ref => ref matches .outside _ then .ok none
  else p.codeOffset fuel s this

/-- `code_known_offsets` on some labels -/
def Proc.codeKnownOffsets (p : Proc) (fuel : ℕ) : List ℕ → State → Except Died (ℕ × State)
  | [], s => .ok (0, s)
  | i :: is, s =>
    if (s.length i).isSome then p.codeKnownOffsets fuel is s
    else do
      match ← p.codeOffsetIfKnown fuel s i with
      | none => p.codeKnownOffsets fuel is s
      | some s' =>
        let (coded, s'') ← p.codeKnownOffsets fuel is s'
        .ok (coded + 1, s'')

/-- One argument of `code_static_external_offsets`: nothing where it returns. -/
def externalOffset (pos : ℤ) : Arg → Option Offset
  | .operation num => some (.operation num)
  | .label (.inside _) => none
  | .label (.outside before) => some (.backward (pos - before))

/-- `code_static_external_offsets` from a label on, which is at `pos` -/
def Proc.codeStaticExternalOffsets (p : Proc) (fuel : ℕ) :
    List ℕ → ℤ → State → Except Died State
  | [], _, s => .ok s
  | i :: is, pos, s =>
    match s.length i with
    | some length => p.codeStaticExternalOffsets fuel is (pos + length) s
    | none => match p.labels[i]? with
      | some (.offset num arg) => match arg.args.mapM (externalOffset pos) with
        | none => .ok s
        | some offsets => do
          let bytes ← codeOffsetInstruction fuel num (s.targetLength i) offsets
          p.codeStaticExternalOffsets fuel is (pos + bytes.length) (s.code i bytes)
      | _ => .ok s

/-- `while (code_known_offsets (…) > 0) { code_static_external_offsets (…) }` -/
def Proc.codeKnown (p : Proc) (fuel : ℕ) : ℕ → State → Except Died State
  | 0, _ => .error .unfinished
  | rounds + 1, s => do
    let (coded, s) ← p.codeKnownOffsets fuel (List.range p.labels.length) s
    if 0 < coded then
      p.codeKnown fuel rounds
        (← p.codeStaticExternalOffsets fuel (List.range p.labels.length) p.pos s)
    else .ok s

/-! ## The estimates -/

/-- `dynamic_label_map`: a label without a length, or with the length `0`. -/
def State.dynamic (s : State) (i : ℕ) : Bool := s.length i = none ∨ s.length i = some 0

/-- `%deps` of `build_label_dependencies` -/
def Proc.dependencies (p : Proc) (s : State) (this : ℕ) : Finset ℕ :=
  ((p.labels[this]?.elim [] (·.refs)).toFinset.biUnion fun ref =>
    (Finset.Icc (min ref.idx this) (max ref.idx this)).filter (s.dynamic · = true)).erase this

/-- `build_label_dependents` on some labels -/
def Proc.buildLabelDependents (p : Proc) : List ℕ → State → Except Died State
  | [], s => .ok s
  | i :: is, s =>
    if (s.length i).isSome then p.buildLabelDependents is s
    else if p.dependencies s i = ∅ then .error (.noDynamicDependencies i)
    else p.buildLabelDependents is
      { s with
        dependents := fun k =>
          if k ∈ p.dependencies s i then insert i (s.dependents k) else s.dependents k }

/-- `add_initial_estimate_lengths` -/
def Proc.addInitialEstimateLengths (p : Proc) (s : State) : State :=
  { s with
    length := fun i => match p.labels[i]?, s.length i with
      | some (.table ..), none => some 0
      | some _, none => some 1
      | _, known => known
    estimate := (Finset.range p.labels.length).filter (s.length · = none) }

/-- `foreach my $k (keys (%$to_code))` -/
def Proc.codeEstimates (p : Proc) (fuel : ℕ) :
    List ℕ → State → Finset ℕ → Except Died (State × Finset ℕ)
  | [], s, pending => .ok (s, pending)
  | i :: is, s, pending => do
    match ← p.codeOffset fuel s i with
    | none => .error .notCoded
    | some s' =>
      p.codeEstimates fuel is s'
        (if s'.length i = s.length i then pending else pending ∪ s'.dependents i)

/-- `while (keys (%$to_code))`, `order` being that of the keys in each round -/
def Proc.codeToCode (p : Proc) (order : Worklist.Order ℕ) (fuel : ℕ) :
    ℕ → ℕ → State → Finset ℕ → Except Died State
  | 0, _, _, _ => .error .unfinished
  | rounds + 1, r, s, toCode =>
    if toCode = ∅ then .ok s
    else do
      let (s, pending) ← p.codeEstimates fuel (order.keys r toCode) s ∅
      p.codeToCode order fuel rounds (r + 1) s pending

/-- `# Code all the labels again now they are stable` -/
def Proc.codeStable (p : Proc) (fuel : ℕ) : List ℕ → State → Except Died State
  | [], s => .ok s
  | i :: is, s =>
    if i ∉ s.estimate then p.codeStable fuel is s
    else do
      match ← p.codeOffset fuel s i with
      | none => .error .notCoded
      | some s' =>
        if s'.length i ≠ s.length i then .error .lengthChanged
        else p.codeStable fuel is { s' with estimate := s'.estimate.erase i }

/-- `code_dynamic_offsets` -/
def Proc.codeDynamicOffsets (p : Proc) (order : Worklist.Order ℕ) (fuel : ℕ) (s : State) :
    Except Died State := do
  p.codeStable fuel (List.range p.labels.length) (← p.codeToCode order fuel fuel 0 s s.estimate)

/-- What `generate_code` does with a proc before `code_dynamic_offsets`. -/
def Proc.prepare (p : Proc) (fuel : ℕ) : Except Died State := do
  let labels := List.range p.labels.length
  let s ← p.codeStaticExternalOffsets fuel labels p.pos p.codeStaticInstructions
  let s ← p.codeKnown fuel fuel s
  let s ← p.buildLabelDependents labels s
  .ok (p.addInitialEstimateLengths s)

/-- What `generate_code` does with a proc. -/
def Proc.code (p : Proc) (order : Worklist.Order ℕ) (fuel : ℕ) : Except Died State := do
  p.codeDynamicOffsets order fuel (← p.prepare fuel)

end Kroc.Plinker
