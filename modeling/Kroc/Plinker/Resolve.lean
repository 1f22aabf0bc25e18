import Kroc.Plinker.Exact
import Kroc.Plinker.Link

/-!
# Plinker/Resolve — every reference reads back as its label

An instruction with a label, in a proc of the coding order: its bytes stand in the byte code where
its label was placed, and the operand that the prefixes make of them is the distance, in the byte
code, that its labels stand for.  That the positions are the last ones is the work of
`generate_code` with everything it places, of `jump_entry`, of `shift_labels` and of `assemble`.

**Every reference is resolved** (`references_resolved`).  `code_offset` measures to a label of
another block through the first label of the proc, which would not do from the first label itself;
but that one is static.
-/

namespace Kroc.Plinker

variable {order : Worklist.Order ℕ} {fuel : ℕ} {y y' : Layout} {image : Image}

/-! ## What is meant in the byte code -/

/-- A label of a block. -/
def Image.label (image : Image) (block label : ℕ) : Option PlacedLabel :=
  (image.blocks[block]?).bind (·.labels[label]?)

/-- The position of a name in a block. -/
def Image.position (image : Image) (block : ℕ) : Name → Option ℕ
  | .inside idx => (image.label block idx).map (·.pos)
  | .outside block label => (image.label block label).map (·.pos)

/-- **The operand that is meant** by an instruction in a block, which ends at `stop`: the distance
to a label, that from one label to another, or that to a label from the end of the `LDPI` behind. -/
def Image.operand (image : Image) (block stop : ℕ) : Operand Name → Option ℤ
  | .label name => do some ((← image.position block name : ℕ) - stop)
  | .difference a b => do
    some ((← image.position block a : ℕ) - (← image.position block b : ℕ))
  | .ldpi name => do some ((← image.position block name : ℕ) - (stop + 2))

/-- **An instruction is resolved**: its bytes stand at its position, and are read as the function
`fn` with the operand that is meant. -/
def Image.Resolves (image : Image) (block label fn : ℕ) (arg : Operand Name) : Prop :=
  ∃ placed operand, image.label block label = some placed ∧
    image.operand block (placed.pos + placed.bytes.length) arg = some operand ∧
    placed.bytes <+: image.bytecode.drop placed.pos ∧
    Decodes fn (BitVec.ofInt 32 operand) placed.bytes

/-! ## Where labels are placed -/

theorem getElem?_tagPositions (pos : ℕ) (labels : List (ℕ × List ℕ)) (i : ℕ) :
    (tagPositions pos labels).1[i]? = labels[i]?.map fun l =>
      ⟨pos + ((labels.take i).map Prod.fst).sum, l.1, l.2⟩ := by
  induction labels generalizing pos i with
  | nil => rfl
  | cons l labels ih =>
    cases i with
    | zero => rfl
    | succ i =>
      rw [tagPositions, List.getElem?_cons_succ, ih, List.getElem?_cons_succ, List.take_succ_cons,
        List.map_cons, List.sum_cons, add_assoc]

/-- The lengths of a proc that is coded. -/
def State.lengths (s : State) (j : ℕ) : ℕ := (s.length j).getD 0

theorem completes_lengths (s : State) : s.Completes s.lengths := by
  intro j len hj
  rw [State.lengths, hj, Option.getD_some]

/-- **A label of a proc is placed** behind those before it. -/
theorem getElem?_coded (p : Proc) (s : State) (pos : ℕ) {i : ℕ} (hi : i < p.labels.length) :
    ∃ k : ℕ, (k : ℤ) = pos + total s.lengths i ∧
      (tagPositions pos (p.coded s)).1[i]? = some ⟨k, s.lengths i, p.labelBytes s i⟩ := by
  have hget : (p.coded s)[i]? = some (s.lengths i, p.labelBytes s i) := by
    rw [Proc.coded, List.getElem?_map, List.getElem?_range hi]
    rfl
  have htake : ((p.coded s).take i).map Prod.fst = (List.range i).map s.lengths := by
    rw [Proc.coded, ← List.map_take, List.take_range, min_eq_left hi.le, List.map_map]
    rfl
  refine ⟨pos + ((List.range i).map s.lengths).sum, ?_, ?_⟩
  · rw [Nat.cast_add, total, ← Nat.cast_sum]
    rfl
  · rw [getElem?_tagPositions, hget, htake]
    rfl

/-- The block of the coding order at `k` was placed behind those before it, and what was placed
stays. -/
theorem generateCode_at {bs : List Block} {k : ℕ} {b : Block}
    (h : generateCode order fuel bs y = .ok y') (hk : bs[k]? = some b) :
    ∃ yk yk' : Layout, yk.place order fuel b = .ok yk' ∧ yk.blocks.length = y.blocks.length + k ∧
      yk'.blocks <+: y'.blocks := by
  induction bs generalizing y k with
  | nil => cases hk
  | cons b' bs ih =>
    obtain ⟨y₁, hplace, hrest⟩ := except_bind_eq_ok h
    cases k with
    | zero =>
      cases hk
      obtain ⟨placed, hplaced, -⟩ := generateCode_blocks hrest
      exact ⟨y, y₁, hplace, rfl, placed, hplaced.symm⟩
    | succ k =>
      obtain ⟨yk, yk', hyk, hlength, hbefore⟩ := ih hrest hk
      obtain ⟨labels, hblocks⟩ := place_eq_ok hplace
      refine ⟨yk, yk', hyk, ?_, hbefore⟩
      rw [hlength, hblocks, List.length_append, List.length_singleton]
      omega

/-- **A proc of a link**: it was coded at its position, and its labels were placed there. -/
theorem proc_at {bs : List Block} {k : ℕ} {b : Block} {q : ProcLabels}
    (h : generateCode order fuel bs .empty = .ok y') (hk : bs[k]? = some b)
    (hq : b.body = .proc q) : ∃ (yk : Layout) (pos : ℕ) (hpos : yk.pos ≤ pos) (s : State),
      (q.at yk pos hpos).code order fuel = .ok s ∧ yk.blocks.length = k ∧
      yk.blocks <+: y'.blocks ∧
      y'.blocks[k]? = some ⟨pos, (tagPositions pos ((q.at yk pos hpos).coded s)).1⟩ := by
  obtain ⟨yk, yk', hplace, hlength, hbefore⟩ := generateCode_at h hk
  rw [show Layout.empty.blocks.length = 0 from rfl, zero_add] at hlength
  obtain ⟨⟨labels, ffiIdx⟩, hcode, hplace⟩ := except_bind_eq_ok hplace
  cases hplace
  rw [hq] at hcode
  obtain ⟨s, hs, hcode⟩ := except_bind_eq_ok hcode
  cases hcode
  refine ⟨yk, _, _, s, hs, hlength, (List.prefix_append _ _).trans hbefore, ?_⟩
  obtain ⟨rest, hrest⟩ := hbefore
  rw [← hrest, Layout.append]
  dsimp only
  rw [List.append_assoc, ← hlength, List.getElem?_append_right le_rfl, Nat.sub_self]
  rfl

/-! ## Positions in the byte code -/

theorem image_label {d : ℕ} (h : image.blocks = y.blocks.map (Placed.shift d)) (block label : ℕ) :
    image.label block label = ((y.blocks[block]?).bind (·.labels[label]?)).map fun l =>
      { l with pos := l.pos + d } := by
  rw [Image.label, h, List.getElem?_map]
  cases y.blocks[block]? with
  | none => rfl
  | some placed => exact List.getElem?_map ..

/-- What was placed before is found where it is at last, but for the entry jump. -/
theorem find_add {yk : Layout} {d block label : ℕ} {placed : PlacedLabel}
    (h : image.blocks = y.blocks.map (Placed.shift d)) (hbefore : yk.blocks <+: y.blocks)
    (hblock : block < yk.blocks.length) (hplaced : image.label block label = some placed) :
    yk.find block label + d = placed.pos := by
  rw [image_label h, List.prefix_iff_getElem?.mp hbefore block hblock,
    ← List.getElem?_eq_getElem hblock] at hplaced
  obtain ⟨l, hl, rfl⟩ := Option.map_eq_some_iff.mp hplaced
  rw [Layout.find, hl]
  rfl

/-- **Nothing is placed beyond the byte code.** -/
theorem assemble_le {ls : List PlacedLabel} {pos : ℕ} {bytes : List ℕ}
    (h : assemble ls pos = .ok bytes) :
    ∀ l ∈ ls, l.pos + l.bytes.length ≤ pos + bytes.length := by
  induction ls generalizing pos bytes with
  | nil => exact fun l hl => absurd hl List.not_mem_nil
  | cons l ls ih =>
    rw [assemble] at h
    split_ifs at h with hpos
    obtain ⟨rest, hrest, h⟩ := except_bind_eq_ok h
    cases h
    intro l' hl'
    rw [List.length_append, List.length_append, List.length_replicate]
    rcases List.mem_cons.mp hl' with rfl | hl'
    · omega
    · have := ih hrest l' hl'
      omega

/-- A placed label is in the byte code. -/
theorem label_at (h : y.image = .ok image) {block label : ℕ} {placed : PlacedLabel}
    (hplaced : image.label block label = some placed) :
    placed.bytes <+: image.bytecode.drop placed.pos ∧
      placed.pos + placed.bytes.length ≤ image.bytecode.length := by
  obtain ⟨-, hassemble⟩ := image_eq_ok h
  obtain ⟨b, hb, hl⟩ := Option.bind_eq_some_iff.mp hplaced
  have hmem : placed ∈ jumpEntry y.entryPos :: image.blocks.flatMap (·.labels) :=
    List.mem_cons_of_mem _
      (List.mem_flatMap.mpr ⟨b, List.mem_of_getElem? hb, List.mem_of_getElem? hl⟩)
  have hle := assemble_le hassemble placed hmem
  exact ⟨(assemble_at hassemble placed hmem).2, by omega⟩

/-! ## References are resolved -/

theorem Label.map_eq_table {ρ σ : Type} {f : ρ → σ} {l : Label ρ} {targets : List σ}
    {entries : List ℕ} {size : ℕ × ℕ} (h : l.map f = .table targets entries size) :
    ∃ names, l = .table names entries size := by
  cases l with
  | static insts => cases h
  | offset num arg => cases h
  | table names entries' size' =>
    cases h
    exact ⟨names, rfl⟩

/-- Labels are formed as their names were. -/
theorem Formed.resolved {labels : List (Label Name)} (h : Formed labels) (yk : Layout) :
    Formed (labels.map (Label.map yk.resolve)) where
  first := by
    obtain ⟨insts, hinsts⟩ := h.first
    exact ⟨insts, by rw [List.getElem?_map, hinsts]; rfl⟩
  load i targets entries size hl := by
    rw [List.getElem?_map] at hl ⊢
    obtain ⟨l, hl, hmap⟩ := Option.map_eq_some_iff.mp hl
    obtain ⟨names, rfl⟩ := Label.map_eq_table hmap
    obtain ⟨insts, hinsts⟩ := h.load i names entries size hl
    exact ⟨insts, by rw [hinsts]; rfl⟩

section Instruction

variable {yk : Layout} {q : ProcLabels} {pos d k i : ℕ} {hpos : yk.pos ≤ pos} {s : State}

/-- **A name is where its reference is meant to be**, behind the entry jump. -/
theorem position_site (hblocks : image.blocks = y.blocks.map (Placed.shift d))
    (hbefore : yk.blocks <+: y.blocks) (hlength : yk.blocks.length = k)
    (hk : y.blocks[k]? = some ⟨pos, (tagPositions pos ((q.at yk pos hpos).coded s)).1⟩)
    {name : Name}
    (hinside : ∀ idx, name = .inside idx → idx < q.labels.length)
    (houtside : ∀ block label, name = .outside block label →
      block < k ∧ image.label block label ≠ none) :
    ∃ n : ℕ, image.position k name = some n ∧
      (n : ℤ) = pos + d + (q.at yk pos hpos).site s.lengths (yk.resolve name) ∧
      ∃ block label placed, image.label block label = some placed ∧ n = placed.pos := by
  cases name with
  | inside idx =>
    have hidx : idx < (q.at yk pos hpos).labels.length := by
      rw [ProcLabels.at, List.length_map]
      exact hinside idx rfl
    obtain ⟨n, hn, hget⟩ := getElem?_coded (q.at yk pos hpos) s pos hidx
    have hplaced : image.label k idx =
        some ⟨n + d, s.lengths idx, (q.at yk pos hpos).labelBytes s idx⟩ := by
      rw [image_label hblocks, hk, Option.bind_some, hget]
      rfl
    refine ⟨n + d, by rw [Image.position, hplaced]; rfl, ?_, k, idx, _, hplaced, rfl⟩
    rw [Nat.cast_add, hn, Layout.resolve, Proc.site]
    ring
  | outside block label =>
    obtain ⟨hblock, hsome⟩ := houtside block label rfl
    obtain ⟨placed, hplaced⟩ := Option.ne_none_iff_exists'.mp hsome
    have hfind := find_add hblocks hbefore (hlength ▸ hblock) hplaced
    refine ⟨placed.pos, by rw [Image.position, hplaced]; rfl, ?_, block, label, placed, hplaced,
      rfl⟩
    rw [← hfind, Layout.resolve, Proc.site, ProcLabels.at, Nat.cast_add]
    ring

/-- **The operand in the byte code is the one that is meant**, and not larger than the byte code. -/
theorem operand_meant (himage : y.image = .ok image)
    (hblocks : image.blocks = y.blocks.map (Placed.shift d)) (hbefore : yk.blocks <+: y.blocks)
    (hlength : yk.blocks.length = k)
    (hk : y.blocks[k]? = some ⟨pos, (tagPositions pos ((q.at yk pos hpos).coded s)).1⟩)
    {arg : Operand Name} {stop : ℕ} (hstop : (stop : ℤ) = pos + d + total s.lengths (i + 1))
    (hle : stop ≤ image.bytecode.length)
    (hinside : ∀ idx, .inside idx ∈ arg.refs → idx < q.labels.length)
    (houtside : ∀ block label, .outside block label ∈ arg.refs →
      block < k ∧ image.label block label ≠ none) :
    image.operand k stop arg = some ((q.at yk pos hpos).meant s.lengths i (arg.map yk.resolve)) ∧
      |(q.at yk pos hpos).meant s.lengths i (arg.map yk.resolve)| ≤ image.bytecode.length + 2 := by
  have hname : ∀ name ∈ arg.refs, ∃ n : ℕ, image.position k name = some n ∧
      (n : ℤ) = pos + d + (q.at yk pos hpos).site s.lengths (yk.resolve name) ∧
      n ≤ image.bytecode.length := fun name hmem => by
    obtain ⟨n, hn, hsite, block, label, placed, hplaced, rfl⟩ :=
      position_site hblocks hbefore hlength hk
        (fun idx h => hinside idx (h ▸ hmem)) (fun block label h => houtside block label (h ▸ hmem))
    have := (label_at himage hplaced).2
    exact ⟨placed.pos, hn, hsite, by omega⟩
  cases arg with
  | label name =>
    obtain ⟨n, hn, hsite, hn'⟩ := hname name (by simp [Operand.refs])
    rw [Image.operand, hn, Operand.map, Proc.meant, abs_le]
    refine ⟨congrArg some ?_, ?_, ?_⟩ <;> omega
  | difference a b =>
    obtain ⟨n, hn, hsite, hn'⟩ := hname a (by simp [Operand.refs])
    obtain ⟨m, hm, hsite', hm'⟩ := hname b (by simp [Operand.refs])
    rw [Image.operand, hn, hm, Operand.map, Proc.meant, abs_le]
    refine ⟨congrArg some ?_, ?_, ?_⟩ <;> omega
  | ldpi name =>
    obtain ⟨n, hn, hsite, hn'⟩ := hname name (by simp [Operand.refs])
    rw [Image.operand, hn, Operand.map, Proc.meant, abs_le]
    refine ⟨congrArg some ?_, ?_, ?_⟩ <;> omega

end Instruction

/-- **An instruction with a label is resolved**, which is no entry of a jump table, and whose labels
outside the proc are of blocks that were coded before. -/
theorem instruction_resolved (l : Link) (h : l.image order fuel = .ok image)
    (hsize : image.bytecode.length + 2 < 2 ^ 63) {k i fn : ℕ} {b : Block} {q : ProcLabels}
    {arg : Operand Name} (hb : l.blocks[k]? = some b) (hq : b.body = .proc q)
    (hi : q.labels[i]? = some (.offset (16 * fn) arg))
    (hentry : ∀ targets entries size, Label.table targets entries size ∈ q.labels → i ∉ entries)
    (houtside : ∀ block label, .outside block label ∈ arg.refs →
      block < k ∧ image.label block label ≠ none) :
    image.Resolves k i fn arg := by
  obtain ⟨y, hy, himage⟩ := except_bind_eq_ok h
  obtain ⟨yk, pos, hpos, s, hs, hlength, hbefore, hk⟩ := proc_at hy hb hq
  obtain ⟨hblocks, -⟩ := image_eq_ok himage
  obtain ⟨hcoded, hentries⟩ := code_exact (p := q.at yk pos hpos) (q.formed.resolved yk) hs
  have hlt : i < (q.at yk pos hpos).labels.length := by
    rw [ProcLabels.at, List.length_map]
    exact (List.getElem?_eq_some_iff.mp hi).1
  have hl : (q.at yk pos hpos).labels[i]? = some (.offset (16 * fn) (arg.map yk.resolve)) := by
    rw [ProcLabels.at, List.getElem?_map, hi]
    rfl
  have htarget : s.targetLength i = none := by
    by_contra hsome
    obtain ⟨targets, entries, size, hmem, hin⟩ := hentries i hsome
    obtain ⟨l', hl', hmap⟩ := List.mem_map.mp hmem
    obtain ⟨names, rfl⟩ := Label.map_eq_table hmap
    exact hentry names entries size hl' hin
  obtain ⟨hlen, hbytes⟩ := (hcoded i hlt).2 _ _ hl htarget
  have hbytes' := hbytes _ (completes_lengths s)
  have hown : s.lengths i = (s.bytes i 0).length := by rw [State.lengths, hlen, Option.getD_some]
  obtain ⟨n, hn, hget⟩ := getElem?_coded (q.at yk pos hpos) s pos hlt
  obtain ⟨d, hd⟩ : ∃ d, d = (jumpEntry y.entryPos).length := ⟨_, rfl⟩
  rw [← hd] at hblocks
  have hplaced : image.label k i = some ⟨n + d, s.lengths i, s.bytes i 0⟩ := by
    rw [image_label hblocks, hk, Option.bind_some, hget, Proc.labelBytes, hl]
    rfl
  obtain ⟨hstands, hle⟩ := label_at himage hplaced
  have hstop : ((n + d + (s.bytes i 0).length : ℕ) : ℤ) = pos + d + total s.lengths (i + 1) := by
    rw [total_succ, hown]
    push_cast
    omega
  obtain ⟨hoperand, hsmall⟩ := operand_meant himage hblocks hbefore hlength hk hstop hle
    (fun idx hidx => q.inside_lt _ (List.mem_of_getElem? hi) idx hidx) houtside
  rw [abs_le] at hsmall
  refine ⟨_, _, hplaced, hoperand, hstands, ?_⟩
  dsimp only
  rw [hbytes']
  exact (codeInstruction_spells fn none (by omega) (by omega)).decodes

/-- **The references of a link are resolved**: each instruction with a label, which is no entry of a
jump table, and whose labels outside the proc are of blocks that were coded before. -/
def Link.Resolved (l : Link) (image : Image) : Prop :=
  ∀ (k i fn : ℕ) (b : Block) (q : ProcLabels) (arg : Operand Name), l.blocks[k]? = some b →
    b.body = .proc q → q.labels[i]? = some (.offset (16 * fn) arg) →
    (∀ targets entries size, Label.table targets entries size ∈ q.labels → i ∉ entries) →
    (∀ block label, .outside block label ∈ arg.refs →
      block < k ∧ image.label block label ≠ none) →
    image.Resolves k i fn arg

/-- **Every reference of a link is resolved**, in byte code that Perl can count. -/
theorem references_resolved (l : Link) (h : l.image order fuel = .ok image)
    (hsize : image.bytecode.length + 2 < 2 ^ 63) : l.Resolved image :=
  fun _ _ _ _ _ _ hb hq hi hentry houtside =>
    instruction_resolved l h hsize hb hq hi hentry houtside

/-- A proc that jumps to the data before it, and loads the distance from there to its last label. -/
def jumpBack : ProcLabels where
  labels := [.static [.special []], .offset J (.label (.outside 0 0)),
    .offset LDC (.difference (.inside 3) (.outside 0 0)), .static [.primary LDC 7]]
  formed := ⟨⟨_, rfl⟩, fun i targets entries size h => by
    rcases i with _ | _ | _ | _ | i <;> cases h⟩
  inside_lt := by simp [Label.refs, Operand.refs]
  ldpi i num ref h := by rcases i with _ | _ | _ | _ | i <;> cases h

/-- `jumpBack` behind three bytes of data. -/
def jumpBackLink : Link where
  blocks := [⟨0, .data [1, 2, 3]⟩, ⟨0, .proc jumpBack⟩]
  entry := List.cons_ne_nil _ _

/-- The jump and the difference of `jumpBack` are resolved. -/
theorem references_resolved_jumpBack : ∃ image, jumpBackLink.image inOrder 17 = .ok image ∧
    image.Resolves 1 1 0 (.label (.outside 0 0)) ∧
    image.Resolves 1 2 4 (.difference (.inside 3) (.outside 0 0)) := by
  have hends : (jumpBackLink.image inOrder 17).toOption.any (fun image =>
      image.bytecode.length + 2 < 2 ^ 63 ∧ (image.label 0 0).isSome = true) = true := by
    decide +kernel
  obtain ⟨image, himage, hends⟩ := (Option.any_eq_true _ _).mp hends
  obtain ⟨hsize, hlabel⟩ := of_decide_eq_true hends
  have houtside : ∀ block label, Name.outside block label = .outside 0 0 →
      block < 1 ∧ image.label block label ≠ none := fun block label h => by
    cases h
    exact ⟨Nat.zero_lt_one, Option.isSome_iff_ne_none.mp hlabel⟩
  cases hcode : jumpBackLink.image inOrder 17 with
  | error e =>
    rw [hcode] at himage
    cases himage
  | ok image' =>
    rw [hcode] at himage
    cases himage
    have hresolved := references_resolved jumpBackLink hcode hsize
    refine ⟨image, rfl, ?_, ?_⟩
    · refine hresolved 1 1 0 ⟨0, .proc jumpBack⟩ jumpBack _ rfl rfl rfl (by simp [jumpBack]) ?_
      intro block label h
      exact houtside block label (List.mem_singleton.mp h)
    · refine hresolved 1 2 4 ⟨0, .proc jumpBack⟩ jumpBack _ rfl rfl rfl (by simp [jumpBack]) ?_
      intro block label h
      refine houtside block label ?_
      simpa [Operand.refs] using h

end Kroc.Plinker
