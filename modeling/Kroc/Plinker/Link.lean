import Kroc.Plinker.Proc

/-!
# Plinker/Link — the byte code of a link

`tools/plinker/Linker.pm`, `generate_code`, `jump_entry` and `shift_labels`, and `assemble` of
`tools/plinker/TVM.pm`.  The procs, stubs and data blocks of the coding order are placed one after
the other, each at a position that its alignment allows; then a jump to the last of them is put in
front, and everything is shifted by its length.

**A block is aligned in the byte code when the length of the jump is** (`aligned_iff`): the jump has
four bytes where the code before the entry is shorter than `2 ^ 16`, so that no `.ALIGN` above `2`
is honoured.
-/

namespace Kroc.Plinker

/-! ## Links -/

/-- `$instructions->numeric ('FFICALL')` -/
def FFICALL : ℕ := 0x25

/-- A label that is referred to before it has a position: of the same proc, with its `idx`, or of
another block of the coding order. -/
inductive Name
  | inside (idx : ℕ)
  | outside (block label : ℕ)

/-- An operand or a label whose references are resolved. -/
def Operand.map {ρ σ : Type} (f : ρ → σ) : Operand ρ → Operand σ
  | .label ref => .label (f ref)
  | .difference a b => .difference (f a) (f b)
  | .ldpi ref => .ldpi (f ref)

def Label.map {ρ σ : Type} (f : ρ → σ) : Label ρ → Label σ
  | .static insts => .static insts
  | .offset num arg => .offset num (arg.map f)
  | .table targets entries size => .table (targets.map f) entries size

/-- What `link` begins a label with: the file, the line and the alignment that it carries, and the
`.SETLAB` itself.  A directive stands for no bytes. -/
def beginLabel {ρ : Type} (carried : ℕ) (ops : List (Inst ⊕ Label ρ)) : List (Inst ⊕ Label ρ) :=
  List.replicate (carried + 1) (.inl (.special [])) ++ ops

/-- `$cinst` as a label, if there is anything in it. -/
def staticSection {ρ : Type} (cinst : List Inst) : List (Label ρ) :=
  if cinst.isEmpty then [] else [.static cinst]

/-- `isolate_static_sections`, from `$cinst` on: an instruction with a label is a label of its
own. -/
def isolateStaticSections {ρ : Type} : List Inst → List (Inst ⊕ Label ρ) → List (Label ρ)
  | cinst, [] => staticSection cinst
  | cinst, .inl inst :: ops => isolateStaticSections (cinst ++ [inst]) ops
  | cinst, .inr label :: ops => staticSection cinst ++ label :: isolateStaticSections [] ops

/-- What is in `$cinst` comes first. -/
theorem isolateStaticSections_cons {ρ : Type} (inst : Inst) (cinst : List Inst)
    (ops : List (Inst ⊕ Label ρ)) :
    ∃ insts, (isolateStaticSections (inst :: cinst) ops)[0]? = some (.static insts) := by
  induction ops generalizing cinst with
  | nil => exact ⟨inst :: cinst, rfl⟩
  | cons op ops ih =>
    cases op with
    | inl inst' => exact ih (cinst ++ [inst'])
    | inr label => exact ⟨inst :: cinst, rfl⟩

/-- **The first label of a proc is static**, whatever is in it. -/
theorem beginLabel_static {ρ : Type} (carried : ℕ) (ops : List (Inst ⊕ Label ρ)) :
    ∃ insts, (isolateStaticSections [] (beginLabel carried ops))[0]? = some (.static insts) := by
  rw [beginLabel, List.replicate_succ, List.cons_append, isolateStaticSections]
  exact isolateStaticSections_cons _ _ _

/-- **The labels of a proc** that has no position yet, as `isolate_static_sections` leaves them. -/
structure ProcLabels where
  labels : List (Label Name)
  formed : Formed labels
  inside_lt : ∀ l ∈ labels, ∀ idx, .inside idx ∈ l.refs → idx < labels.length
  ldpi : ∀ i num ref, labels[i]? = some (.offset num (.ldpi ref)) →
    ∃ insts, labels[i + 1]? = some (.static (.operation LDPI :: insts))

/-- What is in a block: a proc, a stub with its name and instructions, or data. -/
inductive Body
  | proc (p : ProcLabels)
  | stub (name : List Char) (insts : List Inst)
  | data (bytes : List ℕ)

/-- A block of the coding order, with the argument of its `.ALIGN` or `0`. -/
structure Block where
  align : ℕ
  body : Body

/-- **A link**: the blocks in their coding order, the last of which is the entry point. -/
structure Link where
  blocks : List Block
  entry : blocks ≠ []

/-! ## Positions -/

/-- A label with its position, its length and its bytes. -/
structure PlacedLabel where
  pos : ℕ
  length : ℕ
  bytes : List ℕ

/-- A block with its position, and its labels. -/
structure Placed where
  pos : ℕ
  labels : List PlacedLabel

/-- `tag_positions`: the labels and the position behind them. -/
def tagPositions : ℕ → List (ℕ × List ℕ) → List PlacedLabel × ℕ
  | pos, [] => ([], pos)
  | pos, (length, bytes) :: labels =>
    let (placed, last) := tagPositions (pos + length) labels
    (⟨pos, length, bytes⟩ :: placed, last)

/-- `%alignment` -/
def alignment : ℕ → Option ℕ
  | 1 => some 0x1
  | 2 => some 0x3
  | 3 => some 0x7
  | 4 => some 0xf
  | _ => none

/-- The position of a block, from the first that is free. -/
def alignPos (pos align : ℕ) : ℕ :=
  match alignment align with
  | none => pos
  | some mask => if pos &&& mask ≠ 0 then Nat.ldiff pos mask + (mask + 1) else pos

theorem alignment_eq {align mask : ℕ} (h : alignment align = some mask) :
    mask = 2 ^ align - 1 ∧ 1 ≤ align ∧ align ≤ 4 := by
  match align, h with
  | 1, h | 2, h | 3, h | 4, h =>
    cases h
    decide

/-- To clear the lower bits is to go down to a multiple. -/
theorem ldiff_eq (pos k : ℕ) : Nat.ldiff pos (2 ^ k - 1) = pos / 2 ^ k * 2 ^ k := by
  rw [← Nat.shiftRight_eq_div_pow, ← Nat.shiftLeft_eq]
  refine Nat.eq_of_testBit_eq fun i => ?_
  rw [Nat.testBit_ldiff, Nat.testBit_two_pow_sub_one, Nat.testBit_shiftLeft, Nat.testBit_shiftRight]
  by_cases h : i < k
  · simp [h]
  · simp [h, show k + (i - k) = i by omega, Nat.le_of_not_lt h]

theorem le_alignPos (pos align : ℕ) : pos ≤ alignPos pos align := by
  rw [alignPos]
  split
  · exact le_rfl
  · rename_i mask hmask
    obtain ⟨rfl, -⟩ := alignment_eq hmask
    split_ifs
    · have hpow : 0 < 2 ^ align := by positivity
      have hdiv := Nat.div_add_mod pos (2 ^ align)
      have hmod := Nat.mod_lt pos hpow
      rw [ldiff_eq, mul_comm]
      omega
    · exact le_rfl

/-- **The position of a block is aligned.** -/
theorem dvd_alignPos {pos align : ℕ} (h : 1 ≤ align) (h' : align ≤ 4) :
    2 ^ align ∣ alignPos pos align := by
  have hmask : alignment align = some (2 ^ align - 1) := by
    interval_cases align <;> rfl
  have hpow : 2 ^ align - 1 + 1 = 2 ^ align := Nat.sub_add_cancel (Nat.one_le_two_pow)
  rw [alignPos, hmask]
  dsimp only
  rw [Nat.and_two_pow_sub_one_eq_mod, ldiff_eq, hpow]
  split_ifs with hmod
  · exact Nat.dvd_add (Nat.dvd_mul_left _ _) dvd_rfl
  · exact Nat.dvd_of_mod_eq_zero (not_not.mp hmod)

theorem le_tagPositions (pos : ℕ) (labels : List (ℕ × List ℕ)) :
    pos ≤ (tagPositions pos labels).2 ∧
      ∀ l ∈ (tagPositions pos labels).1, l.pos ≤ (tagPositions pos labels).2 := by
  induction labels generalizing pos with
  | nil => exact ⟨le_rfl, fun l hl => absurd hl List.not_mem_nil⟩
  | cons label labels ih =>
    obtain ⟨hle, hall⟩ := ih (pos + label.1)
    refine ⟨(Nat.le_add_right _ _).trans hle, fun l hl => ?_⟩
    rcases List.mem_cons.mp hl with rfl | hl
    · exact (Nat.le_add_right _ _).trans hle
    · exact hall l hl

/-! ## The layout -/

/-- **What `generate_code` has placed**, none of it behind the next position. -/
structure Layout where
  pos : ℕ
  ffiIdx : ℕ
  blocks : List Placed
  le_pos : ∀ b ∈ blocks, ∀ l ∈ b.labels, l.pos ≤ pos

/-- Nothing is placed. -/
def Layout.empty : Layout := ⟨0, 0, [], fun _ hb => absurd hb List.not_mem_nil⟩

/-- `$arg->{'pos'}`, which is `0` where there is none. -/
def Layout.find (y : Layout) (block label : ℕ) : ℕ :=
  (((y.blocks[block]?).bind (·.labels[label]?)).map (·.pos)).getD 0

theorem Layout.find_le (y : Layout) (block label : ℕ) : y.find block label ≤ y.pos := by
  rw [Layout.find]
  cases hb : y.blocks[block]? with
  | none => exact Nat.zero_le _
  | some b =>
    cases hl : b.labels[label]? with
    | none => simp [hl]
    | some l =>
      simpa [hl] using y.le_pos b (List.mem_of_getElem? hb) l (List.mem_of_getElem? hl)

/-- A reference with the position of a label outside. -/
def Layout.resolve (y : Layout) : Name → Ref
  | .inside idx => .inside idx
  | .outside block label => .outside (y.find block label)

theorem Operand.refs_map {ρ σ : Type} (f : ρ → σ) (arg : Operand ρ) :
    (arg.map f).refs = arg.refs.map f := by
  cases arg <;> rfl

theorem Label.refs_map {ρ σ : Type} (f : ρ → σ) (l : Label ρ) : (l.map f).refs = l.refs.map f := by
  cases l with
  | static insts => rfl
  | offset num arg => exact arg.refs_map f
  | table targets entries size => rfl

/-- A label that is resolved to a difference for `LDPI` is one. -/
theorem Label.map_eq_ldpi {ρ σ : Type} {f : ρ → σ} {l : Label ρ} {num : ℕ} {ref : σ}
    (h : l.map f = .offset num (.ldpi ref)) : ∃ name, l = .offset num (.ldpi name) := by
  cases l with
  | static insts => cases h
  | table targets entries size => cases h
  | offset num' arg =>
    cases arg with
    | label name => cases h
    | difference a b => cases h
    | ldpi name =>
      obtain rfl : num' = num := by injection h
      exact ⟨name, rfl⟩

/-- **A proc at its position**, behind everything that is placed. -/
def ProcLabels.at (p : ProcLabels) (y : Layout) (pos : ℕ) (h : y.pos ≤ pos) : Proc where
  pos := pos
  labels := p.labels.map (Label.map y.resolve)
  inside_lt l hl idx hidx := by
    obtain ⟨l', hl', rfl⟩ := List.mem_map.mp hl
    rw [Label.refs_map] at hidx
    obtain ⟨name, hname, hresolve⟩ := List.mem_map.mp hidx
    rw [List.length_map]
    cases name with
    | outside block label => cases hresolve
    | inside idx' =>
      cases hresolve
      exact p.inside_lt l' hl' idx hname
  outside_le l hl before hbefore := by
    obtain ⟨l', hl', rfl⟩ := List.mem_map.mp hl
    rw [Label.refs_map] at hbefore
    obtain ⟨name, hname, hresolve⟩ := List.mem_map.mp hbefore
    cases name with
    | inside idx => cases hresolve
    | outside block label =>
      cases hresolve
      exact Int.ofNat_le.mpr ((y.find_le block label).trans h)
  ldpi i num ref hl := by
    rw [List.getElem?_map] at hl ⊢
    obtain ⟨l, hl, hmap⟩ := Option.map_eq_some_iff.mp hl
    obtain ⟨name, rfl⟩ := Label.map_eq_ldpi hmap
    obtain ⟨insts, hnext⟩ := p.ldpi i num name hl
    exact ⟨insts, by rw [hnext]; rfl⟩

/-! ## Placing -/

/-- The bytes of a label of a proc. -/
def Proc.labelBytes (p : Proc) (s : State) (i : ℕ) : List ℕ :=
  match p.labels[i]? with
  | some (.static insts) => (List.range insts.length).flatMap (s.bytes i)
  | some (.offset ..) => s.bytes i 0
  | _ => []

/-- The lengths and the bytes of the labels of a proc. -/
def Proc.coded (p : Proc) (s : State) : List (ℕ × List ℕ) :=
  (List.range p.labels.length).map fun i => ((s.length i).getD 0, p.labelBytes s i)

/-- `$stub =~ /^C\.tvmspecial\.(\d)/` -/
def tvmspecial (name : List Char) : Option ℕ :=
  if name.take 13 = "C.tvmspecial.".toList then
    (name.drop 13).head?.bind fun c => if c.isDigit then some (c.toNat - '0'.toNat) else none
  else none

/-- `build_ffi_call`: the instructions of a stub, and `$ffi_idx` behind it. -/
def buildFfiCall (name : List Char) (insts : List Inst) (ffiIdx : ℕ) : List Inst × ℕ :=
  match tvmspecial name with
  | some d => (insts ++ [.primary LDC (-(d + 1)), .operation FFICALL], ffiIdx)
  | none => (insts ++ [.primary LDC ffiIdx, .operation FFICALL], ffiIdx + 1)

/-- What is coded of a block at a position: its labels, and `$ffi_idx` behind it. -/
def Body.code (order : Worklist.Order ℕ) (fuel : ℕ) (y : Layout) (pos : ℕ) (h : y.pos ≤ pos) :
    Body → Except Died (List (ℕ × List ℕ) × ℕ)
  | .proc p => do .ok ((p.at y pos h).coded (← (p.at y pos h).code order fuel), y.ffiIdx)
  | .stub name insts =>
    let (insts, ffiIdx) := buildFfiCall name insts y.ffiIdx
    .ok ([((insts.map (·.code.length)).sum, insts.flatMap (·.code))], ffiIdx)
  | .data bytes => .ok ([(bytes.length, bytes)], y.ffiIdx)

/-- A block is placed. -/
def Layout.append (y : Layout) (pos : ℕ) (h : y.pos ≤ pos) (labels : List (ℕ × List ℕ))
    (ffiIdx : ℕ) : Layout where
  pos := (tagPositions pos labels).2
  ffiIdx := ffiIdx
  blocks := y.blocks ++ [⟨pos, (tagPositions pos labels).1⟩]
  le_pos b hb l hl := by
    obtain ⟨hle, hall⟩ := le_tagPositions pos labels
    rcases List.mem_append.mp hb with hb | hb
    · exact (y.le_pos b hb l hl).trans (h.trans hle)
    · obtain rfl := List.mem_singleton.mp hb
      exact hall l hl

/-- One round of the loop of `generate_code`. -/
def Layout.place (order : Worklist.Order ℕ) (fuel : ℕ) (y : Layout) (b : Block) :
    Except Died Layout := do
  let pos := alignPos y.pos b.align
  let (labels, ffiIdx) ← b.body.code order fuel y pos (le_alignPos y.pos b.align)
  .ok (y.append pos (le_alignPos y.pos b.align) labels ffiIdx)

/-- `generate_code` -/
def generateCode (order : Worklist.Order ℕ) (fuel : ℕ) : List Block → Layout → Except Died Layout
  | [], y => .ok y
  | b :: bs, y => do generateCode order fuel bs (← y.place order fuel b)

/-! ## The entry -/

/-- The position of the entry point, the last block. -/
def Layout.entryPos (y : Layout) : ℕ := (y.blocks.getLast?.map (·.pos)).getD 0

/-- `jump_entry` -/
def jumpEntry (entryPos : ℕ) : PlacedLabel :=
  let bytes := padTo (fun bytes => codeInstruction PFIX 0 none ++ bytes) 4 4
    (codeInstruction J entryPos none)
  ⟨0, bytes.length, bytes⟩

/-- `shift_labels` -/
def Placed.shift (shift : ℕ) (b : Placed) : Placed :=
  ⟨b.pos + shift, b.labels.map fun l => { l with pos := l.pos + shift }⟩

/-- `assemble`, from a position on -/
def assemble : List PlacedLabel → ℕ → Except Died (List ℕ)
  | [], _ => .ok []
  | l :: ls, pos =>
    if l.pos < pos then .error .positioning
    else do .ok (List.replicate (l.pos - pos) 0 ++ l.bytes ++
      (← assemble ls (l.pos + l.bytes.length)))

/-- The blocks at their last positions, and the byte code. -/
structure Image where
  blocks : List Placed
  bytecode : List ℕ

/-- What `link` and `assemble` make of a layout. -/
def Layout.image (y : Layout) : Except Died Image := do
  let jump := jumpEntry y.entryPos
  let blocks := y.blocks.map (Placed.shift jump.length)
  .ok ⟨blocks, ← assemble (jump :: blocks.flatMap (·.labels)) 0⟩

/-- **The byte code of a link.** -/
def Link.image (l : Link) (order : Worklist.Order ℕ) (fuel : ℕ) : Except Died Image := do
  (← generateCode order fuel l.blocks .empty).image

/-! ## Alignment -/

variable {order : Worklist.Order ℕ} {fuel : ℕ} {y y' : Layout} {image : Image}

theorem place_eq_ok {b : Block} (h : y.place order fuel b = .ok y') :
    ∃ labels, y'.blocks = y.blocks ++ [⟨alignPos y.pos b.align, labels⟩] := by
  rw [Layout.place] at h
  cases hcode : b.body.code order fuel y _ (le_alignPos y.pos b.align) with
  | error e =>
    rw [hcode] at h
    cases h
  | ok r =>
    rw [hcode] at h
    cases h
    exact ⟨_, rfl⟩

/-- **Every block has its place**, at an aligned position. -/
theorem generateCode_blocks {bs : List Block} (h : generateCode order fuel bs y = .ok y') :
    ∃ placed, y'.blocks = y.blocks ++ placed ∧
      List.Forall₂ (fun b (p : Placed) => 1 ≤ b.align → b.align ≤ 4 → 2 ^ b.align ∣ p.pos) bs
        placed := by
  induction bs generalizing y with
  | nil =>
    cases h
    exact ⟨[], (List.append_nil _).symm, .nil⟩
  | cons b bs ih =>
    rw [generateCode] at h
    cases hplace : y.place order fuel b with
    | error e =>
      rw [hplace] at h
      cases h
    | ok y₁ =>
      rw [hplace] at h
      obtain ⟨labels, hblocks⟩ := place_eq_ok hplace
      obtain ⟨placed, hrest, haligned⟩ := ih h
      refine ⟨⟨alignPos y.pos b.align, labels⟩ :: placed, ?_, .cons dvd_alignPos haligned⟩
      rw [hrest, hblocks, List.append_assoc]
      rfl

theorem codeUnpadded_eq (num : ℕ) (arg : ℤ) :
    codeInstruction num arg none = (codeUnpadded num arg).1 := rfl

/-- **The entry jump has four bytes**, or more where its distance takes more. -/
theorem length_jumpEntry (entryPos : ℕ) :
    (jumpEntry entryPos).length = max 4 (codedLength entryPos) := by
  show (padTo _ 4 4 (codeInstruction J entryPos none)).length = _
  rw [codeUnpadded_eq PFIX, padTo_front 4 4 (by omega), List.length_append, List.length_replicate,
    codeUnpadded_eq, length_codeUnpadded]
  omega

theorem image_eq_ok (h : y.image = .ok image) :
    image.blocks = y.blocks.map (Placed.shift (jumpEntry y.entryPos).length) ∧
      assemble (jumpEntry y.entryPos :: image.blocks.flatMap (·.labels)) 0 =
        .ok image.bytecode := by
  rw [Layout.image] at h
  cases hcode : assemble (jumpEntry y.entryPos ::
      (y.blocks.map (Placed.shift (jumpEntry y.entryPos).length)).flatMap (·.labels)) 0 with
  | error e =>
    rw [hcode] at h
    cases h
  | ok bytecode =>
    rw [hcode] at h
    cases h
    exact ⟨rfl, hcode⟩

/-- **The bytes of a label stand at its position.** -/
theorem assemble_at {ls : List PlacedLabel} {pos : ℕ} {bytes : List ℕ}
    (h : assemble ls pos = .ok bytes) :
    ∀ l ∈ ls, pos ≤ l.pos ∧ l.bytes <+: bytes.drop (l.pos - pos) := by
  induction ls generalizing pos bytes with
  | nil => exact fun l hl => absurd hl List.not_mem_nil
  | cons l ls ih =>
    rw [assemble] at h
    split_ifs at h with hpos
    cases hrest : assemble ls (l.pos + l.bytes.length) with
    | error e =>
      rw [hrest] at h
      cases h
    | ok rest =>
      rw [hrest] at h
      cases h
      have hlength : (List.replicate (l.pos - pos) 0 ++ l.bytes).length =
          l.pos + l.bytes.length - pos := by
        rw [List.length_append, List.length_replicate]
        omega
      intro l' hl'
      rcases List.mem_cons.mp hl' with rfl | hl'
      · refine ⟨not_lt.mp hpos, ?_⟩
        rw [List.append_assoc, List.drop_left' (List.length_replicate ..)]
        exact List.prefix_append _ _
      · obtain ⟨hle, hat⟩ := ih hrest l' hl'
        refine ⟨by omega, ?_⟩
        rw [show l'.pos - pos = (List.replicate (l.pos - pos) 0 ++ l.bytes).length +
          (l'.pos - (l.pos + l.bytes.length)) by omega, List.drop_length_add_append]
        exact hat

/-- **Alignment is honoured** where every `.ALIGN k` of a block, `k` from `1` to `4`, has it at a
multiple of `2 ^ k`. -/
def Aligned (blocks : List Block) (image : Image) : Prop :=
  ∀ (i : ℕ) (b : Block) (placed : Placed), blocks[i]? = some b → image.blocks[i]? = some placed →
    1 ≤ b.align → b.align ≤ 4 → 2 ^ b.align ∣ placed.pos

/-- **When alignment is honoured**: the bytes of every label stand at its position, and the blocks
are aligned if and only if the entry jump, whose length is that of the distance to the entry point
but no less than four, keeps every alignment. -/
theorem aligned_iff (l : Link) (order : Worklist.Order ℕ) (fuel : ℕ) (y : Layout) (image : Image)
    (hy : generateCode order fuel l.blocks .empty = .ok y) (himage : y.image = .ok image) :
    (∀ placed ∈ image.blocks, ∀ label ∈ placed.labels,
      label.bytes <+: image.bytecode.drop label.pos) ∧
    (Aligned l.blocks image ↔
      ∀ b ∈ l.blocks, 1 ≤ b.align → b.align ≤ 4 →
        2 ^ b.align ∣ max 4 (codedLength y.entryPos)) := by
  obtain ⟨hblocks, hassemble⟩ := image_eq_ok himage
  obtain ⟨placed, hplaced, haligned⟩ := generateCode_blocks hy
  rw [show Layout.empty.blocks = [] from rfl, List.nil_append] at hplaced
  rw [hplaced, length_jumpEntry] at hblocks
  have hdvd : ∀ (i : ℕ) (b : Block) (p : Placed), l.blocks[i]? = some b → placed[i]? = some p →
      1 ≤ b.align → b.align ≤ 4 → 2 ^ b.align ∣ p.pos := fun i b p hb hp => by
    obtain ⟨hi, rfl⟩ := List.getElem?_eq_some_iff.mp hb
    obtain ⟨hi', rfl⟩ := List.getElem?_eq_some_iff.mp hp
    exact (List.forall₂_iff_get.mp haligned).2 i hi hi'
  refine ⟨fun b hb label hlabel => ?_, fun h b hb hpos hle => ?_, fun h i b p hb hp hpos hle => ?_⟩
  · have hmem : label ∈ image.blocks.flatMap (·.labels) := List.mem_flatMap.mpr ⟨b, hb, hlabel⟩
    exact (assemble_at hassemble label (List.mem_cons_of_mem _ hmem)).2
  · obtain ⟨i, hi⟩ := List.mem_iff_getElem?.mp hb
    obtain ⟨hi', -⟩ := List.getElem?_eq_some_iff.mp hi
    have hp := List.getElem?_eq_getElem (haligned.length_eq ▸ hi')
    have hshifted := h i b _ hi (by rw [hblocks, List.getElem?_map, hp]; rfl) hpos hle
    exact (Nat.dvd_add_right (hdvd i b _ hi hp hpos hle)).mp hshifted
  · rw [hblocks, List.getElem?_map] at hp
    obtain ⟨p', hp', rfl⟩ := Option.map_eq_some_iff.mp hp
    exact (Nat.dvd_add_right (hdvd i b p' hb hp' hpos hle)).mpr
      (h b (List.mem_of_getElem? hb) hpos hle)

/-- The visits in the order of the labels. -/
def inOrder : Worklist.Order ℕ where
  keys _ todo := todo.sort (· ≤ ·)
  nodup _ todo := todo.sort_nodup (· ≤ ·)
  mem_iff _ _ _ := Finset.mem_sort (· ≤ ·)

/-- A proc of no bytes, with an `.ALIGN`. -/
def oneProc (align : ℕ) : Link where
  blocks := [⟨align, .proc
    { labels := [.static []]
      formed := ⟨⟨[], rfl⟩, fun i targets entries size h => by
        match i with
        | 0 => cases h
        | i + 1 => cases h⟩
      inside_lt := by simp [Label.refs]
      ldpi := fun i num ref h => by
        match i with
        | 0 => cases h
        | i + 1 => cases h }⟩]
  entry := List.cons_ne_nil _ _

/-- With `.ALIGN 2` it is honoured. -/
theorem aligned_iff_oneProc : ∃ y image,
    generateCode inOrder 17 (oneProc 2).blocks .empty = .ok y ∧ y.image = .ok image ∧
      (∀ placed ∈ image.blocks, ∀ label ∈ placed.labels,
        label.bytes <+: image.bytecode.drop label.pos) ∧
      (Aligned (oneProc 2).blocks image ↔ ∀ b ∈ (oneProc 2).blocks, 1 ≤ b.align → b.align ≤ 4 →
        2 ^ b.align ∣ max 4 (codedLength y.entryPos)) := by
  have hends : ((generateCode inOrder 17 (oneProc 2).blocks .empty).toOption.bind fun y =>
      y.image.toOption).isSome = true := by decide +kernel
  obtain ⟨image, himage⟩ := Option.isSome_iff_exists.mp hends
  obtain ⟨y, hy, himage⟩ := Option.bind_eq_some_iff.mp himage
  cases hcode : generateCode inOrder 17 (oneProc 2).blocks .empty with
  | error e =>
    rw [hcode] at hy
    cases hy
  | ok y' =>
    rw [hcode] at hy
    cases hy
    cases hlast : y.image with
    | error e =>
      rw [hlast] at himage
      cases himage
    | ok image' =>
      exact ⟨y, image', rfl, hlast, aligned_iff (oneProc 2) inOrder 17 y image' hcode hlast⟩

/-- With `.ALIGN 3` it is not: the entry jump takes four bytes, and the proc is at `4`. -/
theorem not_aligned_oneProc : ¬ ∀ (l : Link) (order : Worklist.Order ℕ) (fuel : ℕ) (image : Image),
    l.image order fuel = .ok image → Aligned l.blocks image := by
  intro h
  have hpos : (((oneProc 3).image inOrder 17).toOption.bind fun image =>
      image.blocks[0]?.map (·.pos)) = some 4 := by decide +kernel
  obtain ⟨image, himage, hpos⟩ := Option.bind_eq_some_iff.mp hpos
  obtain ⟨placed, hplaced, hpos⟩ := Option.map_eq_some_iff.mp hpos
  cases hcode : (oneProc 3).image inOrder 17 with
  | error e =>
    rw [hcode] at himage
    cases himage
  | ok image' =>
    rw [hcode] at himage
    cases himage
    have hdvd := h (oneProc 3) inOrder 17 image hcode 0 _ placed rfl hplaced (by decide) (by decide)
    rw [hpos] at hdvd
    exact absurd hdvd (by decide)

end Kroc.Plinker
