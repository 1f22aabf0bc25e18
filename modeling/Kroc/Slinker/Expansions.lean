import Kroc.Etc.Readers
import Kroc.Lib.Expansion
import Kroc.Slinker.Table

/-!
# Slinker/Expansions — instructions that become several

`decode`'s keys of `slinker/code-expansion.ss`, and the passes that put several instructions where
one was: `shiftimm->shifts` of `code-simplification.ss`, and `expand-loopend`, `expand-starttable`
and `expand-mobileinit` of `code-improvement.ss`, in the order of `slinker.sxml`.  The
`Instruction-meta` is left out.

The new instructions go to the keys behind the old one, and decoding leaves a hundred keys for each.
That is enough for all but a mobile initialisation.
-/

open HashTable

namespace Kroc

namespace Slinker

/-! ## Instructions -/

/-- A label: a number, or what `gensym` makes, which `expand-starttable` does twice for a file and
`expand-mobileinit` at each key that it expands. -/
inductive Label
  | number (n : ℕ)
  | m (file : ℕ)
  | jumpTable (file : ℕ)
  | mobileinitOut (k : ℕ)
  deriving DecidableEq

/-- `loopend`, `loopend3` and `loopend-backwards`. -/
inductive LoopKind
  | loopend
  | loopend3
  | loopendBackwards
  deriving DecidableEq

/-- The operation of a loop end. -/
def LoopKind.fn : LoopKind → ℤ
  | .loopend => 0x21
  | .loopend3 => 0x26
  | .loopendBackwards => 0x27

/-- The records that the passes take apart or make; `other` is any other. -/
inductive Inst (β : Type*)
  | sllimm (value : ℤ)
  | slrimm (value : ℤ)
  | loopend (kind : LoopKind) (ctrlBlockAddr : ℤ) (stop start : Label)
  | starttable
  | mobileinit (mspOffset : ℕ) (pairs : List (ℕ × ℕ))
  | inst (fn : ℕ) (opd : ℤ)
  | binary (value : List ℕ)
  | loadLabel (value : Label)
  | loadLabelDifference (start stop : Label)
  | ulabel (name : Label)
  | ujump (value : Label) (fn : JumpFn)
  | other (v : β)
  deriving DecidableEq

/-! ## Keys -/

/-- `*HASH-NUMBERING*` -/
def hashNumbering : ℕ := 100

/-- The keys under which `decode` puts instructions; `hashn` is what it left of the file before. -/
def decodeKeys {α : Type*} : ℕ → List α → List (ℕ × α)
  | _, [] => []
  | hashn, v :: vs => (hashNumbering + hashn, v) :: decodeKeys (hashNumbering + hashn) vs

/-- **A decoded table** in the order of its keys; passes before the expansions have taken
instructions out, or replaced them under their keys. -/
def Decoded {α : Type*} (l : List (ℕ × α)) : Prop :=
  ∃ hashn vs, l.Sublist (decodeKeys hashn vs)

/-! ## The passes -/

section passes

variable {β : Type*} (ws file : ℕ)

/-- `*LDLP*`, `*LDNL*`, `*LDNLP*`, `*LDL*`, `*EQC*` and `*STNL*` -/
def ldlp : ℕ := 0x1

def ldnl : ℕ := 0x3

def ldnlp : ℕ := 0x5

def ldl : ℕ := 0x7

def eqc : ℕ := 0xC

def stnl : ℕ := 0xE

/-- `*DIFF*`, `*SHR*`, `*SHL*` and `*MINT*` -/
def diff : ℤ := 0x04

def shr : ℤ := 0x40

def shl : ℤ := 0x41

def mint : ℤ := 0x42

/-- `*SAVECREG*` and `*RESTORECREG*`, which `shiftimm->shifts` defines for itself. -/
def savecreg : ℤ := 0xAD

def restorecreg : ℤ := 0xAE

/-- What `shiftimm->shifts` stores; its `put!` refuses to overwrite. -/
def shiftimmToShifts (k : ℕ) : Inst β → List (Store ℕ (Inst β))
  | .sllimm value =>
    [.put k (.binary (prefixing ws op savecreg)),
      .insert (k + 1) (.binary (prefixing ws ldc value)),
      .insert (k + 2) (.binary (prefixing ws op shl)),
      .insert (k + 3) (.binary (prefixing ws op restorecreg))]
  | .slrimm value =>
    [.put k (.binary (prefixing ws op savecreg)),
      .insert (k + 1) (.binary (prefixing ws ldc value)),
      .insert (k + 2) (.binary (prefixing ws op shr)),
      .insert (k + 3) (.binary (prefixing ws op restorecreg))]
  | v => [.put k v]

/-- What `expand-loopend` stores. -/
def expandLoopend (k : ℕ) : Inst β → List (Store ℕ (Inst β))
  | .loopend kind ctrlBlockAddr stop start =>
    [.insert (k + 1) (.inst ldlp ctrlBlockAddr), .insert (k + 2) (.loadLabelDifference start stop),
      .insert (k + 3) (.inst op kind.fn), .insert (k + 4) (.ulabel stop)]
  | v => [.put k v]

/-- What `expand-starttable` stores: `prod`, `ldpi`, `bsub` and `gcall` are the operations. -/
def expandStarttable (k : ℕ) : Inst β → List (Store ℕ (Inst β))
  | .starttable =>
    [.insert (k + 1) (.inst ldc (2 * ws)), .insert (k + 2) (.inst op 0x8),
      .insert (k + 3) (.loadLabelDifference (.m file) (.jumpTable file)),
      .insert (k + 4) (.inst op 0x1B),
      .insert (k + 5) (.ulabel (.m file)), .insert (k + 6) (.inst op 0x2),
      .insert (k + 7) (.inst op 0x6), .insert (k + 8) (.ulabel (.jumpTable file))]
  | v => [.put k v]

/-- What `expand-mobileinit` makes of a pair: a `MOBILEMINT`, a `MOBILEPAIR` or a `MOBILEARRAY`.
The numbers are from `decode-num`, none of them is negative, and so no pair is a `MOBILENULL`. -/
def pairCode (mspOffset : ℕ) (pair : ℕ × ℕ) : List (Inst β) :=
  if Etc.toSigned pair.1 < 0 then
    [.binary (prefixing ws op mint), .binary (prefixing ws ldl mspOffset),
      .binary (prefixing ws stnl pair.2)]
  else if 0 < pair.2 then
    [.binary (prefixing ws ldl mspOffset), .binary (prefixing ws ldnlp pair.2),
      .binary (prefixing ws ldl mspOffset), .binary (prefixing ws stnl pair.1)]
  else
    [.binary (prefixing ws op mint), .binary (prefixing ws ldl mspOffset),
      .binary (prefixing ws stnl pair.1), .binary (prefixing ws ldc 0),
      .binary (prefixing ws ldl mspOffset), .binary (prefixing ws stnl (pair.1 + 1))]

/-- The instructions of a mobile initialisation, with the label behind them. -/
def mobileinitCode (k mspOffset : ℕ) (pairs : List (ℕ × ℕ)) : List (Inst β) :=
  [.binary (prefixing ws ldl mspOffset), .binary (prefixing ws ldnl 0),
    .binary (prefixing ws op mint), .binary (prefixing ws op diff), .binary (prefixing ws eqc 0),
    .ujump (.mobileinitOut k) .cj] ++
  pairs.flatMap (pairCode ws mspOffset) ++ [.ulabel (.mobileinitOut k)]

/-- `(insert-instruction new-h (ins-loc) …)`, one after the other. -/
def insLoc : ℕ → List (Inst β) → List (Store ℕ (Inst β))
  | _, [] => []
  | c, v :: vs => .insert (c + 1) v :: insLoc (c + 1) vs

/-- What `expand-mobileinit` stores. -/
def expandMobileinit (k : ℕ) : Inst β → List (Store ℕ (Inst β))
  | .mobileinit mspOffset pairs => insLoc k (mobileinitCode ws k mspOffset pairs)
  | v => [.insert k v]

end passes

/-! ## The keys of the expansions -/

variable {β : Type*} {ws file : ℕ} {l : List (ℕ × Inst β)} {p q : ℕ × Inst β}

theorem decodeKeys_spaced {α : Type*} (hashn : ℕ) (vs : List α) :
    (decodeKeys hashn vs).Pairwise (fun p q => p.1 + 100 ≤ q.1) ∧
      ∀ p ∈ decodeKeys hashn vs, hashn + 100 ≤ p.1 := by
  induction vs generalizing hashn with
  | nil => exact ⟨List.Pairwise.nil, fun p hp => by cases hp⟩
  | cons v vs ih =>
    obtain ⟨hspaced, hlow⟩ := ih (hashNumbering + hashn)
    unfold hashNumbering at hlow
    refine ⟨List.pairwise_cons.mpr ⟨fun p hp => ?_, hspaced⟩, fun p hp => ?_⟩
    · have := hlow p hp
      unfold hashNumbering
      omega
    · rcases List.mem_cons.mp hp with rfl | hp
      · unfold hashNumbering
        omega
      · have := hlow p hp
        omega

/-- **Decoding leaves a hundred keys** for each instruction. -/
theorem Decoded.spaced {α : Type*} {l : List (ℕ × α)} (h : Decoded l) :
    l.Pairwise fun p q => p.1 + 100 ≤ q.1 := by
  obtain ⟨hashn, vs, hsub⟩ := h
  exact (decodeKeys_spaced hashn vs).1.sublist hsub

/-- How many instructions a pair becomes. -/
def pairLength (pair : ℕ × ℕ) : ℕ :=
  if Etc.toSigned pair.1 < 0 then 3 else if 0 < pair.2 then 4 else 6

/-- How many a mobile initialisation becomes. -/
def codeLength (pairs : List (ℕ × ℕ)) : ℕ := 7 + (pairs.map pairLength).sum

theorem length_mobileinitCode (k mspOffset : ℕ) (pairs : List (ℕ × ℕ)) :
    (mobileinitCode ws k mspOffset pairs : List (Inst β)).length = codeLength pairs := by
  have hpair : ∀ pair, (pairCode ws mspOffset pair : List (Inst β)).length = pairLength pair := by
    intro pair
    unfold pairCode pairLength
    split_ifs <;> rfl
  have hsum : pairs.map (fun pair => (pairCode ws mspOffset pair : List (Inst β)).length) =
      pairs.map pairLength := List.map_congr_left fun pair _ => hpair pair
  rw [mobileinitCode, List.length_append, List.length_append, List.length_flatMap, hsum, codeLength]
  simp only [List.length_cons, List.length_nil]
  omega

theorem insLoc_keys (c : ℕ) (vs : List (Inst β)) :
    ((insLoc c vs).map Store.pair).map Prod.fst = List.range' (c + 1) vs.length := by
  induction vs generalizing c with
  | nil => rfl
  | cons v vs ih =>
    rw [insLoc, List.map_cons, List.map_cons, ih]
    rfl

/-- The first key that an instruction has after all expansions, -/
def firstKey : ℕ × Inst β → ℕ
  | (k, .loopend ..) | (k, .starttable) | (k, .mobileinit ..) => k + 1
  | (k, _) => k

/-- and how many keys from there on. -/
def keyCount : Inst β → ℕ
  | .sllimm _ | .slrimm _ | .loopend .. => 4
  | .starttable => 8
  | .mobileinit _ pairs => codeLength pairs
  | _ => 1

/-- The table after each pass. -/
def shifted (ws : ℕ) (l : List (ℕ × Inst β)) : List (ℕ × Inst β) :=
  expansion (shiftimmToShifts ws) l

def looped (ws : ℕ) (l : List (ℕ × Inst β)) : List (ℕ × Inst β) :=
  expansion expandLoopend (shifted ws l)

def started (ws file : ℕ) (l : List (ℕ × Inst β)) : List (ℕ × Inst β) :=
  expansion (expandStarttable ws file) (looped ws l)

def initialised (ws file : ℕ) (l : List (ℕ × Inst β)) : List (ℕ × Inst β) :=
  expansion (expandMobileinit ws) (started ws file l)

/-- **Passes go through a table instruction by instruction.** -/
theorem shifted_eq : shifted ws l = l.flatMap fun p => shifted ws [p] := by
  simp only [shifted, expansion, List.flatMap_singleton]

theorem looped_eq : looped ws l = l.flatMap fun p => looped ws [p] := by
  rw [looped, shifted_eq, expansion, List.flatMap_assoc]
  rfl

theorem started_eq : started ws file l = l.flatMap fun p => started ws file [p] := by
  rw [started, looped_eq, expansion, List.flatMap_assoc]
  rfl

theorem initialised_eq : initialised ws file l = l.flatMap fun p => initialised ws file [p] := by
  rw [initialised, started_eq, expansion, List.flatMap_assoc]
  rfl

/-- Up to eight keys, in order, from the key of the instruction or the next one on. -/
def Few (k : ℕ) (l : List (ℕ × Inst β)) : Prop :=
  ∃ c n, (c = k ∨ c = k + 1) ∧ n ≤ 8 ∧ l.map Prod.fst = List.range' c n

theorem few_shifted (p : ℕ × Inst β) : Few p.1 (shifted ws [p]) := by
  obtain ⟨k, v⟩ := p
  cases v with
  | sllimm value | slrimm value => exact ⟨k, 4, Or.inl rfl, by decide, rfl⟩
  | _ => exact ⟨k, 1, Or.inl rfl, by decide, rfl⟩

theorem few_looped (p : ℕ × Inst β) : Few p.1 (looped ws [p]) := by
  obtain ⟨k, v⟩ := p
  cases v with
  | sllimm value | slrimm value => exact ⟨k, 4, Or.inl rfl, by decide, rfl⟩
  | loopend kind ctrlBlockAddr stop start => exact ⟨k + 1, 4, Or.inr rfl, by decide, rfl⟩
  | _ => exact ⟨k, 1, Or.inl rfl, by decide, rfl⟩

theorem few_started (p : ℕ × Inst β) : Few p.1 (started ws file [p]) := by
  obtain ⟨k, v⟩ := p
  cases v with
  | sllimm value | slrimm value => exact ⟨k, 4, Or.inl rfl, by decide, rfl⟩
  | loopend kind ctrlBlockAddr stop start => exact ⟨k + 1, 4, Or.inr rfl, by decide, rfl⟩
  | starttable => exact ⟨k + 1, 8, Or.inr rfl, by decide, rfl⟩
  | _ => exact ⟨k, 1, Or.inl rfl, by decide, rfl⟩

theorem keys_initialised (p : ℕ × Inst β) :
    (initialised ws file [p]).map Prod.fst = List.range' (firstKey p) (keyCount p.2) := by
  obtain ⟨k, v⟩ := p
  cases v with
  | mobileinit mspOffset pairs =>
    have hone : initialised ws file [(k, Inst.mobileinit (β := β) mspOffset pairs)] =
        (insLoc k (mobileinitCode ws k mspOffset pairs)).map Store.pair := List.append_nil _
    rw [hone, insLoc_keys, length_mobileinitCode]
    rfl
  | _ => rfl

/-! ## In order -/

/-- The keys go up. -/
def Sorted {α : Type*} (l : List (ℕ × α)) : Prop := l.Pairwise fun a b => a.1 < b.1

theorem sorted_of_keys {α : Type*} {l : List (ℕ × α)} {c n : ℕ}
    (h : l.map Prod.fst = List.range' c n) : Sorted l :=
  List.pairwise_map.mp (h ▸ List.pairwise_lt_range')

theorem Few.bounds {k : ℕ} (h : Few k l) : ∀ x ∈ l, k ≤ x.1 ∧ x.1 < k + 100 := by
  obtain ⟨c, n, hc, hn, hkeys⟩ := h
  intro x hx
  have hmem : x.1 ∈ List.range' c n := hkeys ▸ List.mem_map_of_mem hx
  rw [List.mem_range'_1] at hmem
  omega

/-- **Few keys for each instruction** keep a spaced table in order. -/
theorem sorted_flatMap_of_few {f : ℕ × Inst β → List (ℕ × Inst β)} (hf : ∀ p, Few p.1 (f p))
    (hl : l.Pairwise fun p q => p.1 + 100 ≤ q.1) : Sorted (l.flatMap f) := by
  refine List.pairwise_flatMap.mpr ⟨fun p _ => ?_, hl.imp fun {p q} h x hx y hy => ?_⟩
  · obtain ⟨c, n, -, -, hkeys⟩ := hf p
    exact sorted_of_keys hkeys
  · have := ((hf p).bounds x hx).2
    have := ((hf q).bounds y hy).1
    omega

/-- **There is room for the mobile initialisations**: what follows one is expanded behind it. -/
def Room (l : List (ℕ × Inst β)) : Prop :=
  l.Pairwise fun p q => ∀ mspOffset pairs, p.2 = .mobileinit mspOffset pairs →
    p.1 + codeLength pairs < firstKey q

theorem le_firstKey (p : ℕ × Inst β) : p.1 ≤ firstKey p := by
  obtain ⟨k, v⟩ := p
  cases v with
  | loopend kind ctrlBlockAddr stop start | starttable | mobileinit mspOffset pairs =>
    exact Nat.le_succ k
  | _ => exact le_rfl

theorem keyCount_pos (v : Inst β) : 0 < keyCount v := by
  cases v with
  | mobileinit mspOffset pairs => exact Nat.lt_of_lt_of_le (by decide) (Nat.le_add_right 7 _)
  | _ => exact Nat.succ_pos _

theorem keys_of_mobileinit {mspOffset : ℕ} {pairs : List (ℕ × ℕ)}
    (hp : p.2 = .mobileinit mspOffset pairs) :
    firstKey p = p.1 + 1 ∧ keyCount p.2 = codeLength pairs := by
  obtain ⟨k, v⟩ := p
  cases hp
  exact ⟨rfl, rfl⟩

/-- Only a mobile initialisation goes beyond the hundred keys. -/
theorem lastKey_lt (p : ℕ × Inst β) (hp : ∀ mspOffset pairs, p.2 ≠ .mobileinit mspOffset pairs) :
    firstKey p + keyCount p.2 < p.1 + 100 := by
  obtain ⟨k, v⟩ := p
  cases v with
  | mobileinit mspOffset pairs => exact absurd rfl (hp mspOffset pairs)
  | sllimm value | slrimm value => exact Nat.add_lt_add_left (by decide : 4 < 100) k
  | loopend kind ctrlBlockAddr stop start =>
    exact (Nat.add_assoc k 1 4).symm ▸ Nat.add_lt_add_left (by decide : 5 < 100) k
  | starttable => exact (Nat.add_assoc k 1 8).symm ▸ Nat.add_lt_add_left (by decide : 9 < 100) k
  | _ => exact Nat.add_lt_add_left (by decide : 1 < 100) k

/-- **The last pass keeps the table in order** where there is room. -/
theorem sorted_initialised_iff (hl : l.Pairwise fun p q => p.1 + 100 ≤ q.1) :
    Sorted (initialised ws file l) ↔ Room l := by
  have hmem : ∀ (p : ℕ × Inst β) (i : ℕ), i ∈ (initialised ws file [p]).map Prod.fst ↔
      firstKey p ≤ i ∧ i < firstKey p + keyCount p.2 := fun p i => by
    rw [keys_initialised, List.mem_range'_1]
  rw [initialised_eq, Sorted, List.pairwise_flatMap]
  constructor
  · rintro ⟨-, h⟩
    refine h.imp fun {p q} hpq mspOffset pairs hp => ?_
    have hpos := keyCount_pos p.2
    have hpos' := keyCount_pos q.2
    obtain ⟨x, hx, hxkey⟩ := List.mem_map.mp
      ((hmem p (firstKey p + keyCount p.2 - 1)).mpr ⟨by omega, by omega⟩)
    obtain ⟨y, hy, hykey⟩ := List.mem_map.mp ((hmem q (firstKey q)).mpr ⟨le_rfl, by omega⟩)
    have hlt := hpq x hx y hy
    obtain ⟨hfirst, hcount⟩ := keys_of_mobileinit hp
    omega
  · intro h
    refine ⟨fun p _ => sorted_of_keys (keys_initialised p), ?_⟩
    refine (hl.and h).imp fun {p q} hpq x hx y hy => ?_
    have hx := (hmem p x.1).mp (List.mem_map_of_mem hx)
    have hy := (hmem q y.1).mp (List.mem_map_of_mem hy)
    have hq := le_firstKey q
    by_cases hp : ∃ mspOffset pairs, p.2 = .mobileinit mspOffset pairs
    · obtain ⟨mspOffset, pairs, hp⟩ := hp
      have hroom := hpq.2 mspOffset pairs hp
      obtain ⟨hfirst, hcount⟩ := keys_of_mobileinit hp
      omega
    · have := lastKey_lt p fun mspOffset pairs hp' => hp ⟨mspOffset, pairs, hp'⟩
      omega

/-! ## Without loss -/

/-- **Every expansion is without loss**, each pass on what the one before it leaves. -/
structure Expands (ws file : ℕ) (l : List (ℕ × Inst β)) : Prop where
  shiftimmToShifts : Lossless (shiftimmToShifts ws) l
  expandLoopend : Lossless expandLoopend (shifted ws l)
  expandStarttable : Lossless (expandStarttable ws file) (looped ws l)
  expandMobileinit : Lossless (expandMobileinit ws) (started ws file l)

/-- **Instructions are expanded without loss** exactly where there is room for the mobile
initialisations. -/
theorem expands_iff (hl : Decoded l) : Expands ws file l ↔ Room l := by
  have hspaced := hl.spaced
  have hsorted : Sorted l := hspaced.imp fun h => by omega
  have hshifted : Sorted (shifted ws l) := shifted_eq ▸ sorted_flatMap_of_few few_shifted hspaced
  have hlooped : Sorted (looped ws l) := looped_eq ▸ sorted_flatMap_of_few few_looped hspaced
  have hstarted : Sorted (started ws file l) :=
    started_eq ▸ sorted_flatMap_of_few few_started hspaced
  rw [← @sorted_initialised_iff β ws file l hspaced]
  constructor
  · exact fun h => (lossless_iff hstarted).mp h.expandMobileinit
  · exact fun h => ⟨(lossless_iff hsorted).mpr hshifted, (lossless_iff hshifted).mpr hlooped,
      (lossless_iff hlooped).mpr hstarted, (lossless_iff hstarted).mpr h⟩

theorem expands_one_pair :
    Expands 4 0 [(100, Inst.mobileinit 1 [(1, 1)]), (200, .other ())] := by
  refine (expands_iff ⟨0, [_, _], List.Sublist.refl _⟩).mpr ?_
  refine List.pairwise_pair.mpr fun mspOffset pairs h => ?_
  cases h
  decide

/-- **Without room a mobile initialisation is an error**, in every order. -/
theorem expandMobileinit_eq_none (hl : Decoded l) (hroom : ¬ Room l) {t : HashTable ℕ (Inst β)}
    (ht : Represents (started ws file l) t.lookup) : t.expand (expandMobileinit ws) = none := by
  refine expand_eq_none ht (fun p _ w hw => ?_) fun hnodup => hroom ?_
  · have hinsLoc : ∀ (vs : List (Inst β)) (c : ℕ), ∀ w ∈ insLoc c vs, ∃ k b, w =
      Store.insert k b := by
      intro vs
      induction vs with
      | nil => exact fun c w hw => by cases hw
      | cons v vs ih =>
        intro c w hw
        rcases List.mem_cons.mp hw with rfl | hw
        · exact ⟨_, _, rfl⟩
        · exact ih _ w hw
    obtain ⟨k, v⟩ := p
    cases v with
    | mobileinit mspOffset pairs => exact hinsLoc _ _ w hw
    | _ => exact ⟨_, _, List.mem_singleton.mp hw⟩
  · have hkeys : (initialised ws file l).map Prod.fst =
        l.flatMap fun p => List.range' (firstKey p) (keyCount p.2) := by
      rw [initialised_eq, List.map_flatMap]
      exact List.flatMap_congr fun p _ => keys_initialised p
    have hapart := (List.nodup_flatMap.mp (hkeys ▸ hnodup)).2
    refine (hl.spaced.and hapart).imp fun {p q} hpq mspOffset pairs hp => ?_
    by_contra hover
    obtain ⟨hfirst, hcount⟩ := keys_of_mobileinit hp
    have hq := le_firstKey q
    have hpos := keyCount_pos q.2
    have hdisjoint : List.Disjoint _ _ := hpq.2
    exact hdisjoint (List.mem_range'_1.mpr ⟨by omega, by omega⟩)
      (List.mem_range'_1.mpr ⟨le_rfl, by omega⟩)

/-- Twenty-four pairs of data and one more instruction. -/
theorem expandMobileinit_collides :
    Decoded [(100, Inst.mobileinit 1 (List.replicate 24 (1, 1))), (200, .other ())] ∧
      ∀ t : HashTable ℕ (Inst Unit),
        Represents [(100, Inst.mobileinit 1 (List.replicate 24 (1, 1))), (200, .other ())]
          t.lookup →
          t.expand (expandMobileinit 4) = none := by
  have hdecoded : Decoded
      [(100, Inst.mobileinit 1 (List.replicate 24 (1, 1))), (200, Inst.other ())] :=
    ⟨0, [_, _], List.Sublist.refl _⟩
  refine ⟨hdecoded, fun t ht => @expandMobileinit_eq_none _ 4 0 _ hdecoded (fun hroom => ?_) t ht⟩
  exact absurd (List.pairwise_pair.mp hroom 1 _ rfl) (by decide)

end Slinker

end Kroc
