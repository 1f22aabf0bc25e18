import Kroc.Slinker.Optimal
import Kroc.Slinker.Renumber

/-!
# Slinker/JumpTables — the jump tables of linked programs

What `expand-starttable` of `slinker/code-improvement.ss` puts before the jumps of a table
multiplies the index by the `2 * *WORDSIZE*` bytes that a padded jump takes, and adds the address
behind the `gcall`.  Its remark that this relies on jumps of equal length is the whole condition:
unoptimised linking pads them, optimal prefixing makes each as short as it can be.
-/

open Offsets

namespace Kroc

namespace Slinker

/-! ## The secondary instructions -/

/-- `ins_prod`, `ins_bsub` and `ins_gcall` of `ins_sec.c`, and what linking is about; `gcall` also
stores the address it comes from in the workspace. -/
def dispatch {w : ℕ} (fn : ℕ) (oreg : BitVec w) (r : Regs w) : Option (Regs w) :=
  if fn = op ∧ oreg = BitVec.ofInt w 0x8 then
    some { r with areg := r.areg * r.breg, breg := r.creg }
  else if fn = op ∧ oreg = BitVec.ofInt w 0x2 then
    some { r with areg := r.areg + r.breg, breg := r.creg }
  else if fn = op ∧ oreg = BitVec.ofInt w 0x6 then some { r with areg := r.iptr, iptr := r.areg }
  else effect fn oreg r

/-- One instruction from the front of some bytes, and what is left of them. -/
def step {w : ℕ} (r : Regs w) (bytes : List ℕ) : Option (Regs w × List ℕ) :=
  match (Prefix.Reader.word w).decode 0 bytes with
  | none => none
  | some (fn, oreg, rest) =>
    (dispatch fn oreg
      { r with iptr := r.iptr + BitVec.ofNat w (bytes.length - rest.length) }).map (·, rest)

/-- A number of instructions, each behind the one before. -/
def steps {w : ℕ} : ℕ → Regs w → List ℕ → Option (Regs w)
  | 0, r, _ => some r
  | c + 1, r, bytes =>
    match step r bytes with
    | none => none
    | some (r', rest) => steps c r' rest

/-- **Case `i` is selected**: with `i` on the stack, the six instructions at entry `n` lead to the
`i`-th jump behind them, and this jump leads to the target. -/
def Selects (ws : ℕ) (out : List (List ℕ)) (n i target : ℕ) : Prop :=
  ∀ base r, At ws out base n r → r.areg = BitVec.ofNat _ i → ∃ r' bytes,
    steps 6 r (out.drop n).flatten = some r' ∧ At ws out base (n + 6 + i) r' ∧
    out[n + 6 + i]? = some bytes ∧ Jumps ws out (n + 6 + i) .j target bytes

variable {ws n k m c fn i target : ℕ} {opd d : ℤ} {out : List (List ℕ)} {bytes : List ℕ}

/-- **An entry is one step**, padded or not. -/
theorem steps_succ (hws : 0 < ws) (hfn : fn ≠ 2 ∧ fn ≠ 6) {base : ℕ} (r : Regs (8 * ws))
    {r' : Regs (8 * ws)}
    (hk : out[k]? = some (List.replicate m (pfix <<< 4) ++ prefixing ws fn opd))
    (hat : At ws out base k r)
    (h : dispatch fn (BitVec.ofInt _ opd)
      { r with iptr := BitVec.ofNat _ (base + position out (k + 1)) } = some r') :
    steps (c + 1) r (out.drop k).flatten = steps c r' (out.drop (k + 1)).flatten := by
  obtain ⟨hlt, hget⟩ := List.getElem?_eq_some_iff.mp hk
  have hdrop : (out.drop k).flatten = List.replicate m (pfix <<< 4) ++ prefixing ws fn opd ++
      (out.drop (k + 1)).flatten := by
    rw [List.drop_eq_getElem_cons hlt, hget, List.flatten_cons]
  have hiptr : r.iptr + BitVec.ofNat _
      (List.replicate m (pfix <<< 4) ++ prefixing ws fn opd).length =
        BitVec.ofNat _ (base + position out (k + 1)) := by
    rw [hat, ← BitVec.ofNat_add, position_succ hk, add_assoc]
  rw [steps, step, hdrop, decode_prefixing hws hfn]
  dsimp only
  rw [List.length_append, Nat.add_sub_cancel_right, hiptr, h, Option.map_some]

/-- The code before the jumps of a table, as it is written; `d` is the distance it loads. -/
structure Written (ws : ℕ) (out : List (List ℕ)) (n m : ℕ) (d : ℤ) : Prop where
  jumpSize : out[n]? = some (prefixing ws ldc (2 * ws))
  prod : out[n + 1]? = some (prefixing ws op 0x8)
  offset : out[n + 2]? = some (List.replicate m (pfix <<< 4) ++ prefixing ws ldc d)
  ldpi : out[n + 3]? = some (prefixing ws op ldpi)
  bsub : out[n + 4]? = some (prefixing ws op 0x2)
  gcall : out[n + 5]? = some (prefixing ws op 0x6)

theorem ofInt_ne (hws : 0 < ws) {a b : ℤ} (ha : 0 ≤ a ∧ a < 256) (hb : 0 ≤ b ∧ b < 256)
    (hne : a ≠ b) : BitVec.ofInt (8 * ws) a ≠ BitVec.ofInt (8 * ws) b := by
  intro h
  have hpow : (2 : ℤ) ^ 8 ≤ 2 ^ (8 * ws) := pow_le_pow_right₀ (by decide) (by omega)
  have hmod := ofInt_eq_iff.mp h
  rw [Int.ModEq, Int.emod_eq_of_lt ha.1 (by omega), Int.emod_eq_of_lt hb.1 (by omega)] at hmod
  exact hne hmod

theorem length_prefixing_small (hopd : 0 ≤ opd ∧ opd < 16) (hws : 0 < ws) :
    (prefixing ws fn opd).length = 1 := by
  have hpow : (2 : ℤ) ^ 7 ≤ 2 ^ (8 * ws - 1) := pow_le_pow_right₀ (by decide) (by omega)
  have hle : (prefixing ws fn opd).length ≤ 0 + 1 :=
    length_prefixing_of_nonneg hopd.1 hopd.2 (by omega)
  have hpos := List.length_pos_iff.mpr (prefixing_ne_nil ws fn opd)
  omega

section dispatch

variable (hws : 0 < ws) (r : Regs (8 * ws))

theorem dispatch_prod : dispatch op (BitVec.ofInt _ 0x8) r =
    some { r with areg := r.areg * r.breg, breg := r.creg } := if_pos ⟨rfl, rfl⟩

include hws

theorem dispatch_bsub : dispatch op (BitVec.ofInt _ 0x2) r =
    some { r with areg := r.areg + r.breg, breg := r.creg } := by
  rw [dispatch, if_neg fun h => ofInt_ne hws (by decide) (by decide) (by decide) h.2,
    if_pos ⟨rfl, rfl⟩]

theorem dispatch_gcall : dispatch op (BitVec.ofInt _ 0x6) r =
    some { r with areg := r.iptr, iptr := r.areg } := by
  rw [dispatch, if_neg fun h => ofInt_ne hws (by decide) (by decide) (by decide) h.2,
    if_neg fun h => ofInt_ne hws (by decide) (by decide) (by decide) h.2, if_pos ⟨rfl, rfl⟩]

theorem dispatch_ldpi : dispatch op (BitVec.ofInt _ ldpi) r =
    some { r with areg := r.iptr + r.areg } := by
  rw [dispatch, if_neg fun h => ofInt_ne hws (by decide) (by decide) (by decide) h.2,
    if_neg fun h => ofInt_ne hws (by decide) (by decide) (by decide) h.2,
    if_neg fun h => ofInt_ne hws (by decide) (by decide) (by decide) h.2, effect,
    if_neg (by decide), if_neg (by decide), if_neg (by decide), if_neg (by decide),
    if_pos ⟨rfl, rfl⟩]

end dispatch

/-- **Where the code leads**: as many padded jumps behind the `gcall` as the index says. -/
theorem Written.steps_eq (h : Written ws out n m d) (hws : 0 < ws)
    (hd : d ≡ 2 [ZMOD 2 ^ (8 * ws)]) (base : ℕ) (r : Regs (8 * ws)) (hat : At ws out base n r)
    (hareg : r.areg = BitVec.ofNat _ i) :
    ∃ r', steps 6 r (out.drop n).flatten = some r' ∧
      r'.iptr = BitVec.ofNat _ (base + (position out (n + 6) + 2 * ws * i)) := by
  have hop : op ≠ 2 ∧ op ≠ 6 := by decide
  have hldc : ldc ≠ 2 ∧ ldc ≠ 6 := by decide
  let iptr k : BitVec (8 * ws) := BitVec.ofNat _ (base + position out (n + k))
  let index := BitVec.ofInt _ (2 * ws) * r.areg
  let table := iptr 4 + BitVec.ofInt _ d
  have hrun := (steps_succ (m := 0) (c := 5) hws hldc r h.jumpSize hat rfl).trans <|
    (steps_succ (m := 0) hws hop ⟨iptr 1, BitVec.ofInt _ (2 * ws), r.areg, r.breg⟩ h.prod rfl
      (dispatch_prod _)).trans <|
    (steps_succ hws hldc ⟨iptr 2, index, r.breg, r.breg⟩ h.offset rfl rfl).trans <|
    (steps_succ (m := 0) hws hop ⟨iptr 3, BitVec.ofInt _ d, index, r.breg⟩ h.ldpi rfl
      (dispatch_ldpi hws _)).trans <|
    (steps_succ (m := 0) hws hop ⟨iptr 4, table, index, r.breg⟩ h.bsub rfl
      (dispatch_bsub hws _)).trans <|
    steps_succ (m := 0) (c := 0) hws hop ⟨iptr 5, table + index, r.breg, r.breg⟩ h.gcall rfl
      (dispatch_gcall hws _)
  refine ⟨_, hrun, ?_⟩
  have hbsub : position out (n + 5) = position out (n + 4) + 1 := by
    rw [position_succ h.bsub, length_prefixing_small (by decide) hws]
  have hgcall : position out (n + 6) = position out (n + 5) + 1 := by
    rw [position_succ h.gcall, length_prefixing_small (by decide) hws]
  change BitVec.ofNat _ (base + position out (n + 4)) + BitVec.ofInt _ d +
    BitVec.ofInt _ (2 * ws) * r.areg = _
  rw [hareg, ofNat_eq_ofInt, ofNat_eq_ofInt, ofNat_eq_ofInt, ← BitVec.ofInt_add, ← BitVec.ofInt_mul,
    ← BitVec.ofInt_add, ofInt_eq_iff, hgcall, hbsub]
  have hmod := (hd.add_left (base + position out (n + 4))).add_right (2 * ws * i)
  push_cast
  convert hmod using 1
  ring

/-- **A case is selected** if its jump is where the index says and leads to its target. -/
theorem Written.selects_iff (h : Written ws out n m d) (hws : 0 < ws)
    (hd : d ≡ 2 [ZMOD 2 ^ (8 * ws)]) (hbytes : out[n + 6 + i]? = some bytes) :
    Selects ws out n i target ↔
      position out (n + 6) + 2 * ws * i ≡ position out (n + 6 + i) [MOD 2 ^ (8 * ws)] ∧
        Jumps ws out (n + 6 + i) .j target bytes := by
  have hat : ∀ (base : ℕ) (r : Regs (8 * ws)),
      r.iptr = BitVec.ofNat _ (base + (position out (n + 6) + 2 * ws * i)) →
      (At ws out base (n + 6 + i) r ↔
        position out (n + 6) + 2 * ws * i ≡ position out (n + 6 + i) [MOD 2 ^ (8 * ws)]) := by
    intro base r hiptr
    rw [At, hiptr, ofNat_eq_ofInt, ofNat_eq_ofInt, ofInt_eq_iff, Nat.cast_add, Nat.cast_add,
      ← Int.natCast_modEq_iff, Nat.cast_pow, Nat.cast_ofNat]
    exact ⟨fun hmod => Int.ModEq.add_left_cancel' _ hmod, fun hmod => hmod.add_left _⟩
  constructor
  · intro hselects
    let r : Regs (8 * ws) := ⟨BitVec.ofNat _ (0 + position out n), BitVec.ofNat _ i, 0, 0⟩
    obtain ⟨r', bytes', hsteps, hland, hget, hjumps⟩ := hselects 0 r rfl rfl
    obtain ⟨r'', hsteps', hiptr⟩ := h.steps_eq hws hd 0 r rfl rfl
    rw [hsteps] at hsteps'
    cases hsteps'
    rw [hbytes] at hget
    cases hget
    exact ⟨(hat 0 r' hiptr).mp hland, hjumps⟩
  · rintro ⟨hmod, hjumps⟩ base r hstart hareg
    obtain ⟨r', hsteps, hiptr⟩ := h.steps_eq hws hd base r hstart hareg
    exact ⟨r', bytes, hsteps, (hat base r' hiptr).mpr hmod, hbytes, hjumps⟩

/-- Jumps of the same length are as far apart. -/
theorem position_modEq (hlen : ∀ j < i, ∃ bs, out[n + j]? = some bs ∧
    bs.length ≡ 2 * ws [MOD 2 ^ (8 * ws)]) :
    position out n + 2 * ws * i ≡ position out (n + i) [MOD 2 ^ (8 * ws)] := by
  induction i with
  | zero => exact Nat.ModEq.refl _
  | succ i ih =>
    obtain ⟨bs, hbs, hmod⟩ := hlen i (Nat.lt_succ_self i)
    rw [← add_assoc, position_succ hbs, Nat.mul_succ, ← add_assoc]
    exact (ih fun j hj => hlen j (hj.trans (Nat.lt_succ_self i))).add hmod.symm

/-! ## Padded jumps -/

section padded

variable {globalnames : List ℕ → Option ℕ} {ffiIndex : List ℕ → ℤ} {targets : List ℕ}

/-- **Unoptimised linking** has every case selected. -/
theorem selects_of_link (hws : 0 < ws) (t : Table globalnames)
    (htable : TableAt ws t.entries n targets)
    (hlink : link ws globalnames ffiIndex t.entries = some out) (hi : targets[i]? = some target) :
    Selects ws out n i target := by
  rw [link_eq hws] at hlink
  have haligned : ∀ {k : ℕ} {v : Entry}, t.entries[k]? = some v → (∀ vec, alignEntry ws vec v = v) →
      (aligned ws t.entries)[k]? = some v := fun hk hv => by
    rw [getElem?_aligned ws hk, hv]
  have hbinary : ∀ {k : ℕ} {value : List ℕ}, t.entries[k]? = some (.binary value) →
      out[k]? = some value := fun hk =>
    (getElem?_of_forEach hlink (haligned hk fun _ => rfl)).symm
  have hjump : ∀ {j target : ℕ}, targets[j]? = some target → ∃ bs, out[n + 6 + j]? = some bs ∧
      bs.length = 2 * ws ∧ Jumps ws out (n + 6 + j) .j target bs := by
    intro j target hj
    have hget := haligned (htable.jump j target hj) fun _ => rfl
    have hfinal := getElem?_of_forEach hlink hget
    obtain ⟨bs, hbs⟩ : ∃ bs, out[n + 6 + j]? = some bs := ⟨_, List.getElem?_eq_getElem
      (length_of_forEach hlink ▸ (List.getElem?_eq_some_iff.mp hget).1)⟩
    exact ⟨bs, hbs, length_of_pad (hfinal.trans hbs),
      jumps_of_pad hws hlink hget rfl hbs (hfinal.trans hbs)⟩
  obtain ⟨s, hdiff, hs, hsub, hcall⟩ := htable.offset
  obtain ⟨s, rfl⟩ : ∃ s', s = s' + 1 := ⟨s - 1, by omega⟩
  have hlength : ∀ {k : ℕ} {opd : ℤ}, t.entries[k]? = some (.binary (prefixing ws op opd)) →
      0 ≤ opd ∧ opd < 16 → ((aligned ws t.entries).map (assumedLength ws))[k]? = some 1 := by
    intro k opd hk hopd
    rw [List.getElem?_map, haligned hk fun _ => rfl, Option.map_some]
    exact congrArg some (length_prefixing_small hopd hws)
  have hdistance : (distance ws ((aligned ws t.entries).map (assumedLength ws)) s (s + 1 + 2) : ℤ) =
      2 := by
    rw [distance_of_lt ws _ (by omega), offset_succ (hlength hcall (by decide)),
      offset_succ (hlength hsub (by decide))]
    push_cast
    ring
  have hget := haligned hdiff fun _ => rfl
  have hfinal := getElem?_of_forEach hlink hget
  obtain ⟨bs, hbs⟩ : ∃ bs, out[n + 2]? = some bs := ⟨_, List.getElem?_eq_getElem
    (length_of_forEach hlink ▸ (List.getElem?_eq_some_iff.mp hget).1)⟩
  have hpad := eq_of_pad (hfinal.trans hbs)
  rw [hdistance] at hpad
  have hwritten : Written ws out n (2 * ws - (prefixing ws ldc 2).length) 2 :=
    ⟨hbinary htable.jumpSize, hbinary htable.prod, hpad ▸ hbs, hbinary htable.ldpi,
      hbinary htable.bsub, hbinary htable.gcall⟩
  obtain ⟨bytes, hbytes, -, hjumps⟩ := hjump hi
  refine (hwritten.selects_iff hws (Int.ModEq.refl _) hbytes).mpr
    ⟨position_modEq fun j hj => ?_, hjumps⟩
  have hlt := (List.getElem?_eq_some_iff.mp hi).1
  obtain ⟨bs, hbs, hlen, -⟩ := hjump (List.getElem?_eq_getElem (hj.trans hlt))
  exact ⟨bs, hbs, hlen ▸ Nat.ModEq.refl _⟩

end padded

/-! ## The shortest jumps -/

namespace Optimal

/-- What an entry is longer than recorded: an `fjump` without a distance is padded all the same. -/
def strayLength (st : State) (k : ℕ) : Entry → ℕ
  | .fjump _ fn len => if fn = .j ∧ st.dist k = 0 then len else 0
  | _ => 0

/-- What the entries before entry `k` are longer than recorded. -/
def strays (st : State) (h : List Entry) (k : ℕ) : ℕ := offset (h.mapIdx (strayLength st)) k

/-- The distance recorded for a jump is the one to its target, stray bytes included. -/
def Reaches (ws : ℕ) (st : State) (h : List Entry) (k target : ℕ) : Prop :=
  ((offset (lengths st h) (k + 1) + strays st h (k + 1) : ℕ) : ℤ) + st.dist k ≡
    ((offset (lengths st h) target + strays st h target : ℕ) : ℤ) [ZMOD 2 ^ (8 * ws)]

/-- A table that optimal prefixing has written, however its loop ended. -/
structure Prefixed (ws : ℕ) (globalnames : List ℕ → Option ℕ) (h : List Entry) (st : State)
    (out : List (List ℕ)) : Prop where
  noStubs : NoStubs h
  names_lt : ∀ v ∈ h, NamesLt globalnames h.length v
  recorded : ∀ k v, h[k]? = some v → Recorded ws h st k v
  generated : generateBinary ws st h = some out

variable {globalnames : List ℕ → Option ℕ} {h : List Entry} {st : State} {order : List ℕ}
    {v : Entry}

/-- A jump by the distance recorded for it, which may be none. -/
theorem jumps_generated_iff (hws : 0 < ws) (hbs : out[k]? = some bytes)
    (hgenerate : generate ws st k (.ujump target .j) = some bytes)
    (hzero : st.instLen k = 0 → st.dist k = 0) :
    Jumps ws out k .j target bytes ↔
      (position out (k + 1) : ℤ) + st.dist k ≡ position out target [ZMOD 2 ^ (8 * ws)] := by
  unfold generate at hgenerate
  dsimp only at hgenerate
  split_ifs at hgenerate with hnone
  · cases hgenerate
    rw [hzero hnone.2, add_zero, position_succ hbs, List.length_nil, add_zero]
    constructor
    · intro hjumps
      obtain ⟨r', hr', hat⟩ := hjumps 0 ⟨_, 0, 0, 0⟩ rfl fun h => by cases h
      cases hr'
      have hat : BitVec.ofNat (8 * ws) (0 + position out k) =
          BitVec.ofNat _ (0 + position out target) := hat
      rw [ofNat_eq_ofInt, ofNat_eq_ofInt, ofInt_eq_iff] at hat
      simpa using hat
    · intro hmod base r hat _
      refine ⟨r, rfl, ?_⟩
      rw [At, hat, ofNat_eq_ofInt, ofNat_eq_ofInt, ofInt_eq_iff, Nat.cast_add, Nat.cast_add]
      exact hmod.add_left _
  · cases hgenerate
    exact jumps_iff (m := 0) hws hbs

namespace Prefixed

theorem generate_eq (hp : Prefixed ws globalnames h st out) (hk : h[k]? = some v) :
    ∃ bs, out[k]? = some bs ∧ generate ws st k v = some bs := by
  have hlt := (List.getElem?_eq_some_iff.mp hk).1
  have hget := List.getElem?_eq_getElem (length_of_forEach hp.generated ▸ hlt : k < out.length)
  exact ⟨_, hget, (getElem?_of_forEach hp.generated hk).trans hget⟩

theorem length_eq (hp : Prefixed ws globalnames h st out) (hk : h[k]? = some v)
    (hbs : generate ws st k v = some bytes) :
    bytes.length = recordedLength st k v + strayLength st k v := by
  have hlt := (List.getElem?_eq_some_iff.mp hk).1
  have hnames := hp.names_lt v (List.mem_of_getElem? hk)
  have hrecorded := hp.recorded k v hk
  have hlength := length_generate hp.noStubs hrecorded hk hnames hbs
  cases v with
  | fjump target fn len =>
    obtain ⟨t, ht, hname⟩ := hnames _ (List.mem_singleton.mpr rfl)
    cases hname
    obtain ⟨st₀, st₁, hat, hdist₁, hlen₁⟩ := hrecorded
    have hlen := (calculated_jump hp.noStubs hlt ht (f := fn) (l := fun _ => len) hat).2
    rw [hdist₁, hlen₁] at hlen
    by_cases hzero : fn = .j ∧ st.dist k = 0
    · rw [if_pos hzero] at hlen
      rw [length_of_pad hbs, strayLength, if_pos hzero, recordedLength, hlen, zero_add]
      exact fun _ h => by cases h
    · rw [strayLength, if_neg hzero]
      exact hlength.mpr hzero
  | _ => exact hlength.mpr trivial

/-- **Where an entry is written.** -/
theorem position_eq (hp : Prefixed ws globalnames h st out) (hk : k ≤ h.length) :
    position out k = offset (lengths st h) k + strays st h k := by
  induction k with
  | zero => rfl
  | succ k ih =>
    have hget := List.getElem?_eq_getElem hk
    obtain ⟨bs, hbs, hgenerate⟩ := hp.generate_eq hget
    have hstray : (h.mapIdx (strayLength st))[k]? = some (strayLength st k h[k]) := by
      rw [List.getElem?_mapIdx, hget, Option.map_some]
    rw [position_succ hbs, ih (Nat.le_of_succ_le hk), hp.length_eq hget hgenerate,
      offset_succ (getElem?_lengths st hget), strays, strays, offset_succ hstray]
    omega

theorem binary_eq (hp : Prefixed ws globalnames h st out)
    (hk : h[k]? = some (.binary bytes)) : out[k]? = some bytes := by
  obtain ⟨bs, hbs, hgenerate⟩ := hp.generate_eq hk
  cases hgenerate
  exact hbs

/-- **A jump of optimal prefixing** is right if its distance is the one to where the target is
written. -/
theorem jump_eq (hp : Prefixed ws globalnames h st out) (hws : 0 < ws)
    (hk : h[k]? = some (.ujump target .j)) : ∃ bs, out[k]? = some bs ∧
      bs.length = st.instLen k ∧ (Jumps ws out k .j target bs ↔ Reaches ws st h k target) := by
  have hlt := (List.getElem?_eq_some_iff.mp hk).1
  obtain ⟨bs, hbs, hgenerate⟩ := hp.generate_eq hk
  obtain ⟨t, ht, hname⟩ := hp.names_lt _ (List.mem_of_getElem? hk) _ (List.mem_singleton.mpr rfl)
  cases hname
  obtain ⟨st₀, st₁, hat, hdist₁, hlen₁⟩ := hp.recorded k _ hk
  obtain ⟨-, hlen⟩ := calculated_jump hp.noStubs hlt ht (f := .j)
    (l := fun distance => (prefixing ws j distance).length) hat
  rw [hdist₁, hlen₁] at hlen
  have hzero : st.instLen k = 0 → st.dist k = 0 := by
    intro hnone
    by_contra hne
    rw [if_neg fun h => hne h.2] at hlen
    exact (length_pos_prefixing ws j (st.dist k)).ne' (hlen.symm.trans hnone)
  refine ⟨bs, hbs, hp.length_eq hk hgenerate, ?_⟩
  rw [jumps_generated_iff hws hbs hgenerate hzero, hp.position_eq hlt, hp.position_eq ht.le,
    Reaches]

/-- **The code before the jumps** loads the two bytes of its `bsub` and its `gcall`. -/
theorem written (hp : Prefixed ws globalnames h st out) (hws : 0 < ws) {targets : List ℕ}
    (htable : TableAt ws h n targets) : Written ws out n 0 2 := by
  obtain ⟨s, hdiff, -, hsub, hcall⟩ := htable.offset
  have hnames := hp.names_lt _ (List.mem_of_getElem? hdiff)
  obtain ⟨t, ht, hname⟩ := hnames _ List.mem_cons_self
  cases hname
  obtain ⟨t, ht', hname⟩ := hnames _ (List.mem_cons_of_mem _ List.mem_cons_self)
  cases hname
  obtain ⟨bs, hbs, hgenerate⟩ := hp.generate_eq hdiff
  obtain ⟨st₀, st₁, hat, hdist₁, -⟩ := hp.recorded _ _ hdiff
  obtain ⟨hdist, -⟩ := calculated_difference hp.noStubs ht.le ht'.le hat
  have htwo : st.dist (n + 2) = 2 := by
    have hone : ∀ {opd : ℤ}, 0 ≤ opd ∧ opd < 16 → (prefixing ws op opd).length = 1 := fun hopd =>
      length_prefixing_small hopd hws
    rw [← hdist₁, hdist, gap_of_le (Nat.le_add_right s 2), offset_succ (getElem?_lengths st₀ hcall),
      offset_succ (getElem?_lengths st₀ hsub), recordedLength, recordedLength, hone (by decide),
      hone (by decide)]
    push_cast
    ring
  cases hgenerate
  rw [htwo] at hbs
  exact ⟨hp.binary_eq htable.jumpSize, hp.binary_eq htable.prod, hbs, hp.binary_eq htable.ldpi,
    hp.binary_eq htable.bsub, hp.binary_eq htable.gcall⟩

end Prefixed

/-- **The tables optimal prefixing may end with** for a jump table to be right. -/
structure Uniform (ws : ℕ) (st : State) (h : List Entry) (n : ℕ) (targets : List ℕ) : Prop where
  /-- The jumps before the last are as long as padded ones. -/
  length : ∀ i, i + 1 < targets.length → st.instLen (n + 6 + i) ≡ 2 * ws [MOD 2 ^ (8 * ws)]
  /-- The distance of each is the one to its target. -/
  jump : ∀ i target, targets[i]? = some target → Reaches ws st h (n + 6 + i) target

/-- **In a loop that has settled** a jump falls short of its target only if it is to itself or stray
bytes are in between. -/
theorem reaches_iff_of_settled (hws : 0 < ws) (hh : NoStubs h)
    (hsettled : Settled ws h st order) (hmem : k ∈ order) (htarget : target < h.length)
    (hk : h[k]? = some (.ujump target .j)) : Reaches ws st h k target ↔
      target ≠ k ∧ strays st h (k + 1) ≡ strays st h target [MOD 2 ^ (8 * ws)] := by
  have hlt := (List.getElem?_eq_some_iff.mp hk).1
  obtain ⟨hdist, hlen⟩ := calculated_jump hh hlt htarget (f := .j)
    (l := fun distance => (prefixing ws j distance).length) (hsettled.2 k hmem _ hk)
  rw [Reaches, hdist, jumpDistance]
  by_cases hself : target = k
  · subst hself
    refine iff_of_false (fun hmod => ?_) fun h => h.1 rfl
    have htwo : st.dist target = 2 := hdist.trans (if_pos rfl)
    rw [if_neg fun h => by rw [htwo] at h; exact absurd h.2 (by decide), htwo,
      length_prefixing_small (by decide) hws] at hlen
    have hnone : (h.mapIdx (strayLength st))[target]? = some 0 := by
      rw [List.getElem?_mapIdx, hk]
      rfl
    have hstray : strays st h (target + 1) = strays st h target := by
      rw [strays, strays, offset_succ hnone, add_zero]
    have hsucc : offset (lengths st h) (target + 1) = offset (lengths st h) target + 1 := by
      rw [offset_succ (getElem?_lengths st hk), recordedLength, hlen]
      exact fun _ h => by cases h
    rw [if_pos rfl, hstray, hsucc, Int.modEq_comm, Int.modEq_iff_dvd] at hmod
    refine pow_bound hws (n := 3) (by decide) (by decide) ?_
    convert hmod using 1
    push_cast
    ring
  · rw [if_neg hself, ← Int.natCast_modEq_iff, Nat.cast_pow, Nat.cast_two]
    constructor
    · refine fun hmod => ⟨hself, Int.ModEq.add_left_cancel' (offset (lengths st h) target : ℤ) ?_⟩
      push_cast at hmod
      convert hmod using 1
      ring
    · rintro ⟨-, hmod⟩
      have hadd := hmod.add_left (offset (lengths st h) target : ℤ)
      push_cast
      convert hadd using 1
      ring

/-- **Optimal prefixing** has every case selected exactly if it leaves the jumps their length. -/
theorem Prefixed.selects_iff (hp : Prefixed ws globalnames h st out) (hws : 0 < ws)
    {targets : List ℕ} (htable : TableAt ws h n targets) :
    (∀ i target, targets[i]? = some target → Selects ws out n i target) ↔
      Uniform ws st h n targets := by
  have hselects : ∀ {i target : ℕ}, targets[i]? = some target → (Selects ws out n i target ↔
      position out (n + 6) + 2 * ws * i ≡ position out (n + 6 + i) [MOD 2 ^ (8 * ws)] ∧
        Reaches ws st h (n + 6 + i) target) := fun hi => by
    obtain ⟨bs, hbs, -, hjumps⟩ := hp.jump_eq hws (htable.jump _ _ hi)
    rw [(hp.written hws htable).selects_iff hws (Int.ModEq.refl _) hbs, hjumps]
  have hlength : ∀ {i : ℕ}, i < targets.length → ∃ bs, out[n + 6 + i]? = some bs ∧
      bs.length = st.instLen (n + 6 + i) := fun hi => by
    obtain ⟨bs, hbs, hlen, -⟩ :=
      hp.jump_eq hws (htable.jump _ _ (List.getElem?_eq_getElem hi))
    exact ⟨bs, hbs, hlen⟩
  constructor
  · refine fun hall => ⟨fun i hi => ?_, fun i target htarget =>
      ((hselects htarget).mp (hall i target htarget)).2⟩
    have hi' : i < targets.length := Nat.lt_of_succ_lt hi
    obtain ⟨bs, hbs, hlen⟩ := hlength hi'
    have hhere := ((hselects (List.getElem?_eq_getElem hi')).mp
      (hall _ _ (List.getElem?_eq_getElem hi'))).1
    have hnext := ((hselects (List.getElem?_eq_getElem hi)).mp
      (hall _ _ (List.getElem?_eq_getElem hi))).1
    rw [← add_assoc, position_succ hbs, hlen, Nat.mul_succ, ← add_assoc] at hnext
    exact (hhere.add_left_cancel hnext).symm
  · intro huniform i target htarget
    refine (hselects htarget).mpr ⟨position_modEq fun j hj => ?_, huniform.jump i target htarget⟩
    have hlt := (List.getElem?_eq_some_iff.mp htarget).1
    obtain ⟨bs, hbs, hlen⟩ := hlength (hj.trans hlt)
    exact ⟨bs, hbs, hlen ▸ huniform.length j (by omega)⟩

/-- **Programs of less than a sixteenth of the address space** have no jump of `2 * ws` bytes once
the loop has settled, and so no right table of two cases. -/
theorem Prefixed.length_le_one (hp : Prefixed ws globalnames h st out)
    (hsettled : Settled ws h st order) (hmem : ∀ k < h.length, k ∈ order) (hws : 2 ≤ ws)
    {targets : List ℕ} (htable : TableAt ws h n targets)
    (hshort : (lengths st h).sum < 16 ^ (2 * ws - 1)) (huniform : Uniform ws st h n targets) :
    targets.length ≤ 1 := by
  by_contra hmany
  have hk := htable.jump 0 _ (List.getElem?_eq_getElem (by omega))
  have hlt := (List.getElem?_eq_some_iff.mp hk).1
  obtain ⟨t, ht, hname⟩ := hp.names_lt _ (List.mem_of_getElem? hk) _ (List.mem_singleton.mpr rfl)
  cases hname
  obtain ⟨hdist, hlen⟩ := calculated_jump hp.noStubs hlt ht (f := .j)
    (l := fun distance => (prefixing ws j distance).length) (hsettled.2 _ (hmem _ hlt) _ hk)
  have hpow : (16 : ℕ) ^ 3 ≤ 16 ^ (2 * ws - 1) := Nat.pow_le_pow_right (by decide) (by omega)
  have habs : |st.dist (n + 6 + 0)| < (16 : ℤ) ^ (2 * ws - 1) := by
    have htarget := (offset_le_sum (lengths st h) targets[0]).trans_lt hshort
    have hbehind := (offset_le_sum (lengths st h) (n + 6 + 0 + 1)).trans_lt hshort
    have hcast : ((16 ^ (2 * ws - 1) : ℕ) : ℤ) = 16 ^ (2 * ws - 1) := by push_cast; rfl
    rw [hdist, jumpDistance, ← hcast, abs_lt]
    split_ifs <;> omega
  obtain ⟨hlow, hhigh⟩ := abs_lt.mp habs
  have hword : (16 : ℤ) ^ (2 * ws - 1) ≤ 2 ^ (8 * ws - 1) := by
    rw [show (16 : ℤ) = 2 ^ 4 from rfl, ← pow_mul]
    exact pow_le_pow_right₀ (by decide) (by omega)
  have hle : (prefixing ws j (st.dist (n + 6 + 0))).length ≤ 2 * ws - 3 + 2 := by
    refine length_prefixing_le ?_ ?_ (habs.le.trans hword) <;>
      rw [show 2 * ws - 3 + 2 = 2 * ws - 1 by omega]
    · exact hlow.le
    · exact hhigh
  have hsmall : st.instLen (n + 6 + 0) < 2 * ws := by
    rw [hlen]
    split_ifs <;> omega
  have hbound : 2 * ws < 2 ^ (8 * ws) := by
    have := Nat.lt_two_pow_self (n := 2 * ws)
    exact this.trans_le (Nat.pow_le_pow_right Nat.two_pos (by omega))
  have hmod := huniform.length 0 (by omega)
  rw [Nat.ModEq, Nat.mod_eq_of_lt (hsmall.trans hbound), Nat.mod_eq_of_lt hbound] at hmod
  omega

/-- The stubs are resolved before optimal prefixing. -/
def prepare (ws : ℕ) (globalnames : List ℕ → Option ℕ) (ffiIndex : List ℕ → ℤ) (h : List Entry) :
    Option (List Entry) :=
  (expandFfiStubnames ws ffiIndex h).bind (resolveStubnamesPicky ws globalnames)

section prepare

variable {ffiIndex : List ℕ → ℤ} {h' : List Entry} {targets : List ℕ}

theorem prepare_eq : prepare ws globalnames ffiIndex h =
    forEach (fun _ v => (expandFfiStubname ws ffiIndex v).bind (resolveStubname ws globalnames)) 0
      h := forEach_bind _ _ _ _

theorem getElem?_prepare (hprepare : prepare ws globalnames ffiIndex h = some h')
    (hk : h[k]? = some v) :
    (expandFfiStubname ws ffiIndex v).bind (resolveStubname ws globalnames) = h'[k]? :=
  getElem?_of_forEach (prepare_eq.symm.trans hprepare) hk

/-- **No stubs are left**, and nothing else is changed. -/
theorem of_mem_prepare (hprepare : prepare ws globalnames ffiIndex h = some h') {v' : Entry}
    (hv' : v' ∈ h') : ∃ v ∈ h, (∀ n, NamesLt globalnames n v → NamesLt globalnames n v') ∧
      (∀ value, v' ≠ .stubname value) ∧ ∀ value, v' ≠ .ffiStubname value := by
  obtain ⟨k, hk'⟩ := List.getElem?_of_mem hv'
  have hlen := length_of_forEach (prepare_eq.symm.trans hprepare)
  obtain ⟨v, hk⟩ : ∃ v, h[k]? = some v :=
    ⟨_, List.getElem?_eq_getElem (hlen ▸ (List.getElem?_eq_some_iff.mp hk').1)⟩
  have hget := (getElem?_prepare hprepare hk).trans hk'
  refine ⟨v, List.mem_of_getElem? hk, ?_⟩
  cases v with
  | ffiStubname value =>
    obtain ⟨w, hw, hget⟩ := Option.bind_eq_some_iff.mp hget
    obtain ⟨bs, -, rfl⟩ := Option.map_eq_some_iff.mp hw
    cases hget
    exact ⟨fun _ _ name hname => (List.not_mem_nil hname).elim, nofun, nofun⟩
  | stubname value =>
    obtain ⟨target, hname, rfl⟩ := Option.map_eq_some_iff.mp hget
    refine ⟨fun n hn name hmem => hn name ?_, nofun, nofun⟩
    rw [List.mem_singleton.mp hmem]
    exact List.mem_singleton.mpr hname.symm
  | _ =>
    cases hget
    exact ⟨fun n hn => hn, nofun, nofun⟩

theorem tableAt_prepare (hprepare : prepare ws globalnames ffiIndex h = some h')
    (htable : TableAt ws h n targets) : TableAt ws h' n targets := by
  obtain ⟨s, hdiff, hs, hsub, hcall⟩ := htable.offset
  have hget : ∀ {k : ℕ} {v : Entry}, h[k]? = some v →
      (expandFfiStubname ws ffiIndex v).bind (resolveStubname ws globalnames) = some v →
        h'[k]? = some v := fun hk hv => (getElem?_prepare hprepare hk).symm.trans hv
  exact ⟨hget htable.jumpSize rfl, hget htable.prod rfl,
    ⟨s, hget hdiff rfl, hs, hget hsub rfl, hget hcall rfl⟩, hget htable.ldpi rfl,
    hget htable.bsub rfl, hget htable.gcall rfl,
    fun i target hi => hget (htable.jump i target hi) rfl⟩

/-- **What is prefixed after the loop.** -/
theorem prefixed_of_mainLoop (t : Table globalnames)
    (hprepare : prepare ws globalnames ffiIndex t.entries = some h)
    (horder : order.Perm (List.range h.length)) {left : ℕ} {st' : State}
    (hloop : mainLoop ws h order left st' = some st)
    (hgenerate : generateBinary ws st h = some out) : Prefixed ws globalnames h st out := by
  have hlen := length_of_forEach (prepare_eq.symm.trans hprepare)
  refine ⟨fun v hv => ?_, fun v hv => ?_, fun k v hk => recorded_of_mainLoop
    (horder.mem_iff.mpr (List.mem_range.mpr (List.getElem?_eq_some_iff.mp hk).1)) hk hloop,
    hgenerate⟩
  · obtain ⟨u, -, -, hstub, hffi⟩ := of_mem_prepare hprepare hv
    exact ⟨hstub, hffi⟩
  · obtain ⟨u, hu, hnames, -⟩ := of_mem_prepare hprepare hv
    exact hnames _ (hlen ▸ t.names_lt u hu)

end prepare

end Optimal

open Optimal

/-! ## Both modes -/

variable {globalnames : List ℕ → Option ℕ} {ffiIndex : List ℕ → ℤ} {targets order : List ℕ}
  {files : List (List (ℕ × Inst Unlinked))} {h : List Entry} {st st' : State} {left : ℕ}
  {out₁ out₂ : List (List ℕ)}

/-- **slinker's jump tables** select every case after unoptimised linking, and after optimal
prefixing, however its loop ends, exactly if the jumps before the last are as long as padded ones
and the distance of each is right. -/
theorem jumpTables_iff (hws : 0 < ws) (hsource : Source files) (t : Table globalnames)
    (hentries : entries ws files = some t.entries) (htable : HasTable ws files n targets)
    (hlink : link ws globalnames ffiIndex t.entries = some out₁)
    (hprepare : prepare ws globalnames ffiIndex t.entries = some h)
    (horder : order.Perm (List.range h.length)) (hloop : mainLoop ws h order left st' = some st)
    (hgenerate : generateBinary ws st h = some out₂) :
    (∀ i target, targets[i]? = some target →
      Selects ws out₁ n i target ∧ Selects ws out₂ n i target) ↔ Uniform ws st h n targets := by
  have htableAt := tableAt_of_hasTable hsource hentries htable
  have hprefixed := prefixed_of_mainLoop t hprepare horder hloop hgenerate
  rw [← hprefixed.selects_iff hws (tableAt_prepare hprepare htableAt)]
  exact ⟨fun hall i target hi => (hall i target hi).2, fun hall i target hi =>
    ⟨selects_of_link hws t htableAt hlink hi, hall i target hi⟩⟩

/-- 4096 bytes of code. -/
def longCode : List ℕ := List.replicate 4096 0x40

theorem length_longCode : longCode.length = 4096 := List.length_replicate

/-- A table of two jumps over 4096 bytes, which are four bytes long where a word is two. -/
def farCases : List (List (ℕ × Inst Unlinked)) :=
  [[(100, .starttable), (200, .ujump (.number 1) .j), (300, .ujump (.number 2) .j),
    (400, .binary longCode), (500, .ulabel (.number 1)), (600, .binary [0x40]),
    (700, .ulabel (.number 2)), (800, .binary [0x41])]]

def farCasesTable : Table (fun _ => none) where
  entries := [.binary [0x44], .binary [0xF8], .loadLabelDifference 4 6, .binary [0x21, 0xFB],
    .binary [0xF2], .binary [0xF6], .ujump 9 .j, .ujump 10 .j, .binary longCode, .binary [0x40],
    .binary [0x41]]
  names_lt := by
    simp [Entry.names]

theorem prefixing_farCases : prefixing 2 ldc 4 = [0x44] ∧ prefixing 2 op 8 = [0xF8] ∧
    prefixing 2 op 0x1B = [0x21, 0xFB] ∧ prefixing 2 op 2 = [0xF2] ∧ prefixing 2 op 6 = [0xF6] ∧
    prefixing 2 ldc 2 = [0x42] ∧ prefixing 2 j 4096 = [0x21, 0x20, 0x20, 0x00] ∧
    prefixing 2 j 4097 = [0x21, 0x20, 0x20, 0x01] ∧
    prefixing 2 j 4100 = [0x21, 0x20, 0x20, 0x04] := by
  refine ⟨?_, ?_, ?_, ?_, ?_, ?_, ?_, ?_, ?_⟩ <;> simp [prefixing, adjust, pfix, ldc, op, j]

theorem entries_farCases : entries 2 farCases = some farCasesTable.entries := by
  have hentries :
    entries 2 farCases = some [.binary (prefixing 2 ldc 4), .binary (prefixing 2 op 8),
    .loadLabelDifference 4 6, .binary (prefixing 2 op 0x1B), .binary (prefixing 2 op 2),
    .binary (prefixing 2 op 6), .ujump 9 .j, .ujump 10 .j, .binary longCode, .binary [0x40],
    .binary [0x41]] := rfl
  obtain ⟨h₀, h₁, h₂, h₃, h₄, -⟩ := prefixing_farCases
  rw [hentries, h₀, h₁, h₂, h₃, h₄]
  rfl

theorem source_farCases : Source farCases := by
  have hsets : ∀ l ∈ farCases, ∀ p ∈ l, p.2.sets = none ∨ p.2.sets = some (.number 1) ∨
      p.2.sets = some (.number 2) := by
    intro l hl p hp
    obtain rfl := List.mem_singleton.mp hl
    fin_cases hp <;> simp [Inst.sets]
  intro l hl p hp file
  rcases hsets l hl p hp with h | h | h <;> rw [h] <;> exact ⟨nofun, nofun⟩

theorem hasTable_farCases : HasTable 2 farCases 0 [9, 10] :=
  ⟨0, 100, [], [(0, 400, .binary longCode), (0, 500, .ulabel (.number 1)), (0, 600, .binary [0x40]),
    (0, 700, .ulabel (.number 2)), (0, 800, .binary [0x41])], [(200, .number 1), (300, .number 2)],
    rfl, rfl, rfl⟩

/-- The distances and lengths that the loop ends with. -/
def farCasesState : State where
  dist
    | 2 => 2
    | 6 => 4100
    | 7 => 4097
    | _ => 0
  instLen
    | 2 => 1
    | 6 => 4
    | 7 => 4
    | _ => 0
  changed := false

theorem set_of_dist_ne {st : State} {k len : ℕ} {distance : ℤ} (h : distance ≠ st.dist k) :
    st.set k distance len =
      ⟨Function.update st.dist k distance, Function.update st.instLen k len, true⟩ :=
  if_neg fun heq => h heq.1

/-- The state after a round, where the first jump is over `distance` bytes. -/
def farState (distance : ℤ) (changed : Bool) : State :=
  { farCasesState with
    dist := Function.update farCasesState.dist 6 distance
    changed := changed }

@[simp] theorem changed_farState (distance : ℤ) (changed : Bool) :
    (farState distance changed).changed = changed := rfl

@[simp] theorem changed_farCasesState : farCasesState.changed = false := rfl

/-- A round: the first jump is as far as the length of the second one leads. -/
theorem calculate_farCases (st : State) :
    calculate 2 farCasesTable.entries (List.range 11) st =
      some ((({ st with changed := false }.set 2 2 1).set 6 (st.instLen 7 + 4096)
        (prefixing 2 j (st.instLen 7 + 4096)).length).set 7 4097 4) := by
  obtain ⟨-, -, -, -, -, h₅, -, h₇, -⟩ := prefixing_farCases
  have hne : ¬ (st.instLen 7 : ℤ) + 4096 = 0 := by omega
  have hlen : ∀ (k : ℕ) (distance : ℤ) (len : ℕ) (st : State), 7 ≠ k →
      (st.set k distance len).instLen 7 = st.instLen 7 := fun _ distance len st hk =>
    (Optimal.State.set_of_ne hk st distance len).2
  simp [calculate, calculateLoop, calculateAt, calculateJump, JumpFn.code, farCasesTable,
    List.range, List.range.loop, Optimal.getDistance, distanceLoop, lengthAt, length_longCode, h₅,
    h₇, hlen, hne]

theorem mainLoop_farCases : mainLoop 2 farCasesTable.entries (List.range 11) 3 State.empty =
    some farCasesState := by
  obtain ⟨-, -, -, -, -, -, h₆, -, h₈⟩ := prefixing_farCases
  have hfirst : calculate 2 farCasesTable.entries (List.range 11) State.empty =
      some (farState 4096 true) := by
    rw [calculate_farCases, show (State.empty.instLen 7 : ℤ) + 4096 = 4096 from rfl, h₆]
    rw [set_of_dist_ne (by decide), set_of_dist_ne (by decide), set_of_dist_ne (by decide)]
    refine congrArg some (State.mk.injEq .. ▸ ⟨funext fun k => ?_, funext fun k => ?_, rfl⟩) <;>
      rcases k with _ | _ | _ | _ | _ | _ | _ | _ | k <;> rfl
  have hsecond : calculate 2 farCasesTable.entries (List.range 11) (farState 4096 true) =
      some (farState 4100 true) := by
    rw [calculate_farCases, show ((farState 4096 true).instLen 7 : ℤ) + 4096 = 4100 from rfl, h₈]
    congr 1
    simp [State.set, farState, farCasesState]
  have hthird : calculate 2 farCasesTable.entries (List.range 11) (farState 4100 true) =
      some farCasesState := by
    rw [calculate_farCases, show ((farState 4100 true).instLen 7 : ℤ) + 4096 = 4100 from rfl, h₈]
    congr 1
    simp [State.set, farState, farCasesState]
  rw [mainLoop, hfirst]
  simp only [changed_farState, if_true]
  rw [mainLoop, hsecond]
  simp only [changed_farState, if_true]
  rw [mainLoop, hthird]
  simp only [changed_farCasesState, Bool.false_eq_true, if_false]

theorem generateBinary_farCases : ∃ out,
    generateBinary 2 farCasesState farCasesTable.entries = some out := by
  refine forEach_isSome fun k v hk => ?_
  have hlt : k < 11 := (List.getElem?_eq_some_iff.mp hk).1
  interval_cases k <;> cases hk <;> rfl

theorem link_farCases : ∃ out, link 2 (fun _ => none) (fun _ => 0) farCasesTable.entries =
    some out := by
  obtain ⟨-, -, -, -, -, h₅, -, h₇, h₈⟩ := prefixing_farCases
  have haligned : aligned 2 farCasesTable.entries = farCasesTable.entries := rfl
  have hlengths : farCasesTable.entries.map (finalLength 2) =
    [1, 1, 4, 2, 1, 1, 4, 4, 4096, 1, 1] :=
    by simp [farCasesTable, finalLength, length_longCode]
  rw [link_eq (by decide), haligned]
  refine forEach_isSome fun k v hk => ?_
  have hlt : k < 11 := (List.getElem?_eq_some_iff.mp hk).1
  interval_cases k <;> cases hk
  case «2» =>
    change (pad (prefixing 2 ldc 2) 4).isSome = true
    rw [h₅]
    rfl
  case «6» =>
    change (pad (prefixing 2 j (jumpOperand 2 _ 6 9)) 4).isSome = true
    rw [hlengths, show jumpOperand 2 [1, 1, 4, 2, 1, 1, 4, 4, 4096, 1, 1] 6 9 = 4100 from rfl, h₈]
    rfl
  case «7» =>
    change (pad (prefixing 2 j (jumpOperand 2 _ 7 10)) 4).isSome = true
    rw [hlengths, show jumpOperand 2 [1, 1, 4, 2, 1, 1, 4, 4, 4096, 1, 1] 7 10 = 4097 from rfl, h₇]
    rfl
  all_goals rfl

/-- The two cases are selected in both modes. -/
theorem jumpTables_farCases : ∃ out₁ out₂,
    link 2 (fun _ => none) (fun _ => 0) farCasesTable.entries = some out₁ ∧
    generateBinary 2 farCasesState farCasesTable.entries = some out₂ ∧
    ∀ i target, [9, 10][i]? = some target →
      Selects 2 out₁ 0 i target ∧ Selects 2 out₂ 0 i target := by
  obtain ⟨out₁, hlink⟩ := link_farCases
  obtain ⟨out₂, hgenerate⟩ := generateBinary_farCases
  refine ⟨out₁, out₂, hlink, hgenerate, (jumpTables_iff (by decide) source_farCases farCasesTable
    entries_farCases hasTable_farCases hlink rfl (List.Perm.refl _) mainLoop_farCases
    hgenerate).mpr ⟨fun i hi => ?_, fun i target hi => ?_⟩⟩
  · obtain rfl : i = 0 := Nat.lt_one_iff.mp (Nat.lt_of_succ_lt_succ hi)
    exact Nat.ModEq.refl 4
  · have hlengths : lengths farCasesState farCasesTable.entries =
        [1, 1, 1, 2, 1, 1, 4, 4, 4096, 1, 1] := by
      simp [lengths, farCasesTable, recordedLength, farCasesState, length_longCode]
    have hlt : i < 2 := (List.getElem?_eq_some_iff.mp hi).1
    change Reaches 2 farCasesState farCasesTable.entries (0 + 6 + i) target
    rw [Reaches, hlengths]
    interval_cases i <;> cases hi <;> rfl

/-- A table of two jumps, each over one instruction. -/
def twoCases : List (List (ℕ × Inst Unlinked)) :=
  [[(100, .starttable), (200, .ujump (.number 1) .j), (300, .ujump (.number 2) .j),
    (400, .ulabel (.number 1)), (500, .binary [0x40]), (600, .ulabel (.number 2)),
    (700, .binary [0x41])]]

def twoCasesTable : Table (fun _ => none) where
  entries := [.binary [0x48], .binary [0xF8], .loadLabelDifference 4 6, .binary [0x21, 0xFB],
    .binary [0xF2], .binary [0xF6], .ujump 8 .j, .ujump 9 .j, .binary [0x40], .binary [0x41]]
  names_lt := by decide

theorem prefixing_twoCases : prefixing 4 ldc 8 = [0x48] ∧ prefixing 4 op 8 = [0xF8] ∧
    prefixing 4 op 0x1B = [0x21, 0xFB] ∧ prefixing 4 op 2 = [0xF2] ∧ prefixing 4 op 6 = [0xF6] ∧
    prefixing 4 ldc 2 = [0x42] ∧ prefixing 4 j 1 = [0x01] := by
  refine ⟨?_, ?_, ?_, ?_, ?_, ?_, ?_⟩ <;> simp [prefixing, adjust, pfix, ldc, op, j]

theorem entries_twoCases : entries 4 twoCases = some twoCasesTable.entries := by
  have hentries :
    entries 4 twoCases = some [.binary (prefixing 4 ldc 8), .binary (prefixing 4 op 8),
    .loadLabelDifference 4 6, .binary (prefixing 4 op 0x1B), .binary (prefixing 4 op 2),
    .binary (prefixing 4 op 6), .ujump 8 .j, .ujump 9 .j, .binary [0x40], .binary [0x41]] := rfl
  obtain ⟨h₀, h₁, h₂, h₃, h₄, -⟩ := prefixing_twoCases
  rw [hentries, h₀, h₁, h₂, h₃, h₄]
  rfl

theorem source_twoCases : Source twoCases := by
  have hsets : ∀ l ∈ twoCases, ∀ p ∈ l, p.2.sets = none ∨ p.2.sets = some (.number 1) ∨
      p.2.sets = some (.number 2) := by decide
  intro l hl p hp file
  rcases hsets l hl p hp with h | h | h <;> rw [h] <;> exact ⟨nofun, nofun⟩

theorem hasTable_twoCases : HasTable 4 twoCases 0 [8, 9] :=
  ⟨0, 100, [], [(0, 400, .ulabel (.number 1)), (0, 500, .binary [0x40]),
    (0, 600, .ulabel (.number 2)), (0, 700, .binary [0x41])], [(200, .number 1), (300, .number 2)],
    rfl, rfl, rfl⟩

/-- The distances and lengths that the loop ends with. -/
def twoCasesState : State :=
  ⟨Function.update (Function.update (Function.update (fun _ => 0) 2 2) 7 1) 6 1,
    Function.update (Function.update (Function.update (fun _ => 0) 2 1) 7 1) 6 1, false⟩

theorem mainLoop_twoCases : mainLoop 4 twoCasesTable.entries (List.range 10) 3 State.empty =
    some twoCasesState := by
  obtain ⟨-, -, -, -, -, h₅, h₆⟩ := prefixing_twoCases
  simp [mainLoop, calculate, calculateLoop, calculateAt, calculateJump, Optimal.getDistance,
    distanceLoop, lengthAt, State.set, State.empty, JumpFn.code, twoCasesTable, twoCasesState,
    List.range, List.range.loop, h₅, h₆]

/-- Two jumps of one byte each. -/
theorem generateBinary_twoCases : generateBinary 4 twoCasesState twoCasesTable.entries =
    some [[0x48], [0xF8], [0x42], [0x21, 0xFB], [0xF2], [0xF6], [0x01], [0x01], [0x40],
      [0x41]] := by
  obtain ⟨-, -, -, -, -, h₅, h₆⟩ := prefixing_twoCases
  simp [generateBinary, forEach, generate, Entry.binaryValue, JumpFn.code, twoCasesTable,
    twoCasesState, h₅, h₆]

/-- **Two short jumps**: the second case leads four bytes behind the end of the program. -/
theorem not_selects_twoCases : ∃ st out, entries 4 twoCases = some twoCasesTable.entries ∧
    HasTable 4 twoCases 0 [8, 9] ∧
    mainLoop 4 twoCasesTable.entries (List.range 10) 3 State.empty = some st ∧
    st.changed = false ∧ generateBinary 4 st twoCasesTable.entries = some out ∧
    out.flatten.length + 4 = position out 6 + 2 * 4 * 1 ∧ ¬ Selects 4 out 0 1 9 := by
  refine ⟨_, _, entries_twoCases, hasTable_twoCases, mainLoop_twoCases, rfl,
    generateBinary_twoCases, rfl, fun hselects => ?_⟩
  have hprefixed := prefixed_of_mainLoop twoCasesTable
    (rfl : prepare 4 (fun _ => none) (fun _ => 0) _ = some _) (List.Perm.refl _)
    mainLoop_twoCases generateBinary_twoCases
  have htable := tableAt_of_hasTable source_twoCases entries_twoCases hasTable_twoCases
  have hland := ((hprefixed.written (by decide) htable).selects_iff (by decide) (Int.ModEq.refl _)
    rfl).mp hselects
  exact absurd hland.1 (by decide)

end Slinker

end Kroc
