import Kroc.Lib.Offsets
import Kroc.Slinker.Code

/-!
# Slinker/Table — instruction tables and what linking makes of them

A renumbered table has the keys `0 … n - 1` and is a list here; what linking leaves is a list of
byte lists, one for each key.  `Resolves` says what linking is for: every jump and every load
reaches the first byte of the entry it names, wherever the program is put.
-/

open Offsets

namespace Kroc

namespace Slinker

/-- The functions that `unify-jumps` gives a `ujump`. -/
inductive JumpFn
  | j
  | cj
  | call
  deriving DecidableEq

def JumpFn.code : JumpFn → ℕ
  | .j => Slinker.j
  | .cj => Slinker.cj
  | .call => Slinker.call

/-- The records of `types.ss` that linking meets, without their `Instruction-meta`.  A `stubname`
names another module's procedure, an `ffi-stubname` a foreign function. -/
inductive Entry
  | binary (value : List ℕ)
  | ujump (value : ℕ) (fn : JumpFn)
  | fjump (value : ℕ) (fn : JumpFn) (len : ℕ)
  | loadLabel (value : ℕ)
  | loadLabelDifference (start stop : ℕ)
  | stubname (value : List ℕ)
  | ffiStubname (value : List ℕ)
  | align (value : ℕ)
  deriving DecidableEq

/-- The entries that an entry names; `globalnames` has those of the stubs. -/
def Entry.names (globalnames : List ℕ → Option ℕ) : Entry → List (Option ℕ)
  | .ujump value _ | .fjump value _ _ | .loadLabel value => [some value]
  | .loadLabelDifference start stop => [some start, some stop]
  | .stubname value => [globalnames value]
  | .binary _ | .ffiStubname _ | .align _ => []

/-- A renumbered table, all of whose references are to entries of its own. -/
structure Table (globalnames : List ℕ → Option ℕ) where
  entries : List Entry
  names_lt : ∀ v ∈ entries, ∀ name ∈ v.names globalnames, ∃ k < entries.length, name = some k

/-! ## What linking is for -/

/-- Where entry `k` starts in the concatenated bytes. -/
def position (out : List (List ℕ)) (k : ℕ) : ℕ := (out.take k).flatten.length

variable {ws : ℕ} {out : List (List ℕ)} {k : ℕ} {bytes : List ℕ}

theorem position_eq (out : List (List ℕ)) (k : ℕ) :
    position out k = offset (out.map List.length) k := length_flatten_take out k

@[simp]
theorem position_zero (out : List (List ℕ)) : position out 0 = 0 := rfl

theorem position_succ (hk : out[k]? = some bytes) :
    position out (k + 1) = position out k + bytes.length := by
  rw [position_eq, position_eq]
  exact offset_succ (by rw [List.getElem?_map, hk, Option.map_some])

/-- The machine is at entry `k` of a program that starts at `base`. -/
def At (ws : ℕ) (out : List (List ℕ)) (base k : ℕ) (r : Regs (8 * ws)) : Prop :=
  r.iptr = BitVec.ofNat _ (base + position out k)

/-- A jump that is taken leads to the target. -/
def Jumps (ws : ℕ) (out : List (List ℕ)) (k : ℕ) (fn : JumpFn) (target : ℕ) (bytes : List ℕ) :
    Prop :=
  ∀ base r, At ws out base k r → (fn = .cj → r.areg = 0) →
    ∃ r', runBytes r bytes = some r' ∧ At ws out base target r'

/-- The address of the target is pushed. -/
def LoadsLabel (ws : ℕ) (out : List (List ℕ)) (k target : ℕ) (bytes : List ℕ) : Prop :=
  ∀ base r, At ws out base k r → ∃ r', runBytes r bytes = some r' ∧ At ws out base (k + 1) r' ∧
    r'.areg = BitVec.ofNat _ (base + position out target) ∧ r'.breg = r.areg ∧ r'.creg = r.breg

/-- The distance of two entries is pushed. -/
def LoadsDifference (ws : ℕ) (out : List (List ℕ)) (k start stop : ℕ) (bytes : List ℕ) : Prop :=
  ∀ base r, At ws out base k r → ∃ r', runBytes r bytes = some r' ∧ At ws out base (k + 1) r' ∧
    r'.areg = BitVec.ofInt _ |(position out start : ℤ) - position out stop| ∧
      r'.breg = r.areg ∧ r'.creg = r.breg

/-- What one entry of the table asks of its bytes. -/
def Resolved (ws : ℕ) (globalnames : List ℕ → Option ℕ) (out : List (List ℕ)) (k : ℕ)
    (bytes : List ℕ) : Entry → Prop
  | .binary value => bytes = value
  | .ujump value fn | .fjump value fn _ => Jumps ws out k fn value bytes
  | .stubname value => ∀ target, globalnames value = some target → Jumps ws out k .j target bytes
  | .loadLabel value => LoadsLabel ws out k value bytes
  | .loadLabelDifference start stop => LoadsDifference ws out k start stop bytes
  | .ffiStubname _ => True
  | .align value => 2 ^ value ∣ position out (k + 1)

/-- **Every entry is what the table says.** -/
structure Resolves (ws : ℕ) (globalnames : List ℕ → Option ℕ) (h : List Entry)
    (out : List (List ℕ)) : Prop where
  length_eq : out.length = h.length
  entry : ∀ k v bytes, h[k]? = some v → out[k]? = some bytes →
    Resolved ws globalnames out k bytes v

/-! ## Operands -/

variable {m target start stop : ℕ} {fn : JumpFn} {d : ℤ}

theorem ofNat_eq_ofInt (w : ℕ) (n : ℕ) : BitVec.ofNat w n = BitVec.ofInt w n :=
  (BitVec.ofInt_natCast w n).symm

theorem JumpFn.code_ne (fn : JumpFn) : fn.code ≠ 2 ∧ fn.code ≠ 6 := by
  cases fn <;> decide

theorem JumpFn.effect_code (fn : JumpFn) {w : ℕ} (oreg : BitVec w) {r : Regs w}
    (hcj : fn = .cj → r.areg = 0) :
    ∃ r', effect fn.code oreg r = some r' ∧ r'.iptr = r.iptr + oreg := by
  cases fn with
  | j => exact ⟨_, rfl, rfl⟩
  | cj => exact ⟨_, by rw [JumpFn.code, effect, if_neg (by decide), if_pos rfl, if_pos (hcj rfl)],
    rfl⟩
  | call => exact ⟨_, rfl, rfl⟩

/-- **A jump is right if its operand is**, counted from the end of its bytes. -/
theorem jumps_iff (hws : 0 < ws)
    (hk : out[k]? = some (List.replicate m (pfix <<< 4) ++ prefixing ws fn.code d)) :
    Jumps ws out k fn target (List.replicate m (pfix <<< 4) ++ prefixing ws fn.code d) ↔
      (position out (k + 1) : ℤ) + d ≡ position out target [ZMOD 2 ^ (8 * ws)] := by
  have hrun : ∀ base r, At ws out base k r → (fn = .cj → r.areg = 0) →
      ∃ r', runBytes r (List.replicate m (pfix <<< 4) ++ prefixing ws fn.code d) = some r' ∧
        r'.iptr = BitVec.ofInt _ (base + (position out (k + 1) + d)) := by
    intro base r hat hcj
    obtain ⟨r', heffect, hiptr⟩ := fn.effect_code (BitVec.ofInt (8 * ws) d) (r := { r with
      iptr := r.iptr +
        BitVec.ofNat _ (List.replicate m (pfix <<< 4) ++ prefixing ws fn.code d).length }) hcj
    refine ⟨r', ?_, ?_⟩
    · have := runBytes_prefixing hws fn.code_ne m d [] heffect
      rwa [List.append_nil] at this
    · rw [hiptr]
      dsimp only
      rw [hat, ← BitVec.ofNat_add, ofNat_eq_ofInt, ← BitVec.ofInt_add, position_succ hk]
      congr 1
      push_cast
      ring
  constructor
  · intro hjumps
    obtain ⟨r', hr', hat'⟩ := hjumps 0 ⟨_, 0, 0, 0⟩ rfl fun _ => rfl
    obtain ⟨r'', hr'', hiptr⟩ := hrun 0 ⟨_, 0, 0, 0⟩ rfl fun _ => rfl
    rw [hr'] at hr''
    cases hr''
    rw [hat', ofNat_eq_ofInt, ofInt_eq_iff] at hiptr
    simpa using hiptr.symm
  · intro hmod base r hat hcj
    obtain ⟨r', hr', hiptr⟩ := hrun base r hat hcj
    refine ⟨r', hr', ?_⟩
    rw [At, hiptr, ofNat_eq_ofInt, ofInt_eq_iff, Nat.cast_add]
    exact hmod.add_left _

/-- A constant is pushed. -/
theorem runBytes_ldc (hws : 0 < ws) (m : ℕ) (d : ℤ) (r : Regs (8 * ws)) (rest : List ℕ) :
    runBytes r (List.replicate m (pfix <<< 4) ++ prefixing ws ldc d ++ rest) =
      runBytes { r with
        iptr := r.iptr +
          BitVec.ofNat _ (List.replicate m (pfix <<< 4) ++ prefixing ws ldc d).length
        areg := BitVec.ofInt _ d
        breg := r.areg
        creg := r.breg } rest :=
  runBytes_prefixing hws (by decide) m d rest rfl

theorem runBytes_ldpi (hws : 0 < ws) (r : Regs (8 * ws)) :
    runBytes r (prefixing ws op ldpi) =
      some { r with
        iptr := r.iptr + BitVec.ofNat _ (prefixing ws op ldpi).length
        areg := r.iptr + BitVec.ofNat _ (prefixing ws op ldpi).length + r.areg } := by
  have heffect : ∀ r : Regs (8 * ws), effect op (BitVec.ofInt _ ldpi) r =
      some { r with areg := r.iptr + r.areg } := fun r => by
    unfold effect
    rw [if_neg (by decide), if_neg (by decide), if_neg (by decide), if_neg (by decide),
      if_pos ⟨rfl, rfl⟩]
  have := runBytes_prefixing hws (by decide) 0 ldpi [] (heffect { r with
    iptr := r.iptr + BitVec.ofNat _ (List.replicate 0 (pfix <<< 4) ++ prefixing ws op ldpi).length
      })
  rwa [List.append_nil, List.replicate_zero, List.nil_append] at this

/-- **A label is right if the operand of its `ldc` is**, counted from the end of the `ldpi`. -/
theorem loadsLabel_iff (hws : 0 < ws)
    (hk : out[k]? =
      some (List.replicate m (pfix <<< 4) ++ prefixing ws ldc d ++ prefixing ws op ldpi)) :
    LoadsLabel ws out k target
        (List.replicate m (pfix <<< 4) ++ prefixing ws ldc d ++ prefixing ws op ldpi) ↔
      (position out (k + 1) : ℤ) + d ≡ position out target [ZMOD 2 ^ (8 * ws)] := by
  have hat : ∀ {base : ℕ} {r : Regs (8 * ws)}, At ws out base k r →
      r.iptr + BitVec.ofNat _ (List.replicate m (pfix <<< 4) ++ prefixing ws ldc d).length +
        BitVec.ofNat _ (prefixing ws op ldpi).length =
          BitVec.ofNat _ (base + position out (k + 1)) := by
    intro base r hat
    rw [hat, ← BitVec.ofNat_add, ← BitVec.ofNat_add, position_succ hk, add_assoc, add_assoc,
      ← List.length_append]
  constructor
  · intro hloads
    have hstart : At ws out 0 k ⟨BitVec.ofNat _ (0 + position out k), 0, 0, 0⟩ := rfl
    obtain ⟨r', hr', -, hareg, -⟩ := hloads 0 _ hstart
    rw [runBytes_ldc hws, runBytes_ldpi hws] at hr'
    cases hr'
    dsimp only at hareg
    rw [hat hstart, ofNat_eq_ofInt, ofNat_eq_ofInt, ← BitVec.ofInt_add, ofInt_eq_iff] at hareg
    simpa using hareg
  · intro hmod base r hr
    refine ⟨_, (runBytes_ldc hws m d r _).trans (runBytes_ldpi hws _), hat hr, ?_, rfl, rfl⟩
    dsimp only
    rw [hat hr, ofNat_eq_ofInt, ofNat_eq_ofInt, ← BitVec.ofInt_add, ofInt_eq_iff, Nat.cast_add,
      Nat.cast_add, add_assoc]
    exact hmod.add_left _

theorem loadsDifference_iff (hws : 0 < ws)
    (hk : out[k]? = some (List.replicate m (pfix <<< 4) ++ prefixing ws ldc d)) :
    LoadsDifference ws out k start stop (List.replicate m (pfix <<< 4) ++ prefixing ws ldc d) ↔
      d ≡ |(position out start : ℤ) - position out stop| [ZMOD 2 ^ (8 * ws)] := by
  have hrun : ∀ r : Regs (8 * ws),
      runBytes r (List.replicate m (pfix <<< 4) ++ prefixing ws ldc d) = some { r with
        iptr := r.iptr +
          BitVec.ofNat _ (List.replicate m (pfix <<< 4) ++ prefixing ws ldc d).length
        areg := BitVec.ofInt _ d
        breg := r.areg
        creg := r.breg } := by
    intro r
    have := runBytes_ldc hws m d r []
    rwa [List.append_nil, runBytes_nil] at this
  constructor
  · intro hloads
    obtain ⟨r', hr', -, hareg, -⟩ := hloads 0 ⟨_, 0, 0, 0⟩ rfl
    rw [hrun] at hr'
    cases hr'
    exact ofInt_eq_iff.mp hareg
  · intro hmod base r hr
    refine ⟨_, hrun r, ?_, ofInt_eq_iff.mpr hmod, rfl, rfl⟩
    rw [At, hr, ← BitVec.ofNat_add, position_succ hk, add_assoc]

end Slinker

end Kroc
