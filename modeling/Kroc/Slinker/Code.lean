import Kroc.Lib.Prefix

/-!
# Slinker/Code — the bytes slinker writes and what the machine does with them

`adjust`, `prefix` and `pad` of `slinker/helpers.ss`, on Scheme's integers, and the instructions
that linking is about as `libtvm` executes them: the prefixes, `j`, `cj` and `call` of `ins_pri.c`,
`ldc`, and `ldpi` of `ins_sec.c`.  `ws` is `*WORDSIZE*`, in bytes.
-/

open Prefix

namespace Kroc

namespace Slinker

/-! ## Prefixing -/

/-- `*J*`, `*PFIX*`, `*LDC*`, `*NFIX*`, `*CALL*`, `*CJ*` and `*OP*` of `constants.ss`. -/
def j : ℕ := 0x0

def pfix : ℕ := 0x2

def ldc : ℕ := 0x4

def nfix : ℕ := 0x6

def call : ℕ := 0x9

def cj : ℕ := 0xA

def op : ℕ := 0xF

/-- `*LDPI*` and `*FFICALL*` -/
def ldpi : ℤ := 0x1B

def fficall : ℤ := 0x25

/-- `bitwise-mattnot` -/
def bitwiseMattnot (ws : ℕ) (x : ℤ) : ℤ := 2 ^ (8 * ws) - 1 - x

/-- `adjust` -/
def adjust (ws : ℕ) (num : ℤ) : ℤ :=
  if num > 2 ^ (8 * ws - 1) then num - 2 ^ (8 * ws) else num

theorem natAbs_adjust_le (ws : ℕ) (num : ℤ) : (adjust ws num).natAbs ≤ num.natAbs := by
  have hpow : (2 : ℤ) ^ (8 * ws) ≤ 2 * 2 ^ (8 * ws - 1) := by
    rw [← pow_succ']
    exact pow_le_pow_right₀ (by decide) (by omega)
  have hpos : (0 : ℤ) < 2 ^ (8 * ws) := by positivity
  unfold adjust
  split_ifs <;> omega

/-- `prefix`: `(>> x 4)` is division by 16 towards minus infinity and `(bitwise-and x #xF)` the rest
of it. -/
def prefixing (ws fn : ℕ) (opd : ℤ) : List ℕ :=
  let a := adjust ws opd
  if 0 ≤ a ∧ a < 16 then [fn <<< 4 ||| a.toNat]
  else if a < 0 then
    let twosCompliment := bitwiseMattnot ws |a| + 1
    prefixing ws nfix (bitwiseMattnot ws twosCompliment / 16) ++
      [fn <<< 4 ||| (twosCompliment % 16).toNat]
  else prefixing ws pfix (a / 16) ++ [fn <<< 4 ||| (a % 16).toNat]
termination_by opd.natAbs
decreasing_by
  · have := natAbs_adjust_le ws opd
    unfold bitwiseMattnot
    rw [abs_of_neg ‹_›]
    omega
  · have := natAbs_adjust_le ws opd
    omega

/-- `pad`: `make-list` of a negative number is an error. -/
def pad (ls : List ℕ) (padAmount : ℕ) : Option (List ℕ) :=
  if ls.length ≤ padAmount then some (List.replicate (padAmount - ls.length) (pfix <<< 4) ++ ls)
  else none

variable {ws fn : ℕ} {opd : ℤ}

theorem adjust_modEq (ws : ℕ) (num : ℤ) : adjust ws num ≡ num [ZMOD 2 ^ (8 * ws)] := by
  unfold adjust
  split_ifs
  · exact Int.sub_modulus_modEq_iff.mpr rfl
  · rfl

theorem shiftLeft_or (fn : ℕ) {d : ℕ} (hd : d < 16) : fn <<< 4 ||| d = 16 * fn + d := by
  rw [Nat.shiftLeft_eq, mul_comm]
  exact (Nat.two_pow_add_eq_or_of_lt (i := 4) hd fn).symm

/-- **`prefix` leaves the operand**, up to what a word holds, and then the function. -/
theorem prefixing_eq (hws : 0 < ws) (fn : ℕ) (opd : ℤ) : ∃ ps d, d < 16 ∧
    prefixing ws fn opd = ps ++ [16 * fn + d] ∧ (∀ p ∈ ps, IsPrefix p) ∧
    ps.foldl shift 0 + d ≡ opd [ZMOD 2 ^ (8 * ws)] := by
  have hadjust := adjust_modEq ws opd
  have hsixteen : (2 : ℤ) ^ (8 * ws) = 16 * 2 ^ (8 * ws - 4) := by
    rw [show (16 : ℤ) = 2 ^ 4 from rfl, ← pow_add]
    congr 1
    omega
  induction fn, opd using prefixing.induct ws with
  | case1 fn opd a ha =>
    refine ⟨[], a.toNat, by omega, ?_, by simp, ?_⟩
    · rw [prefixing, if_pos ha, shiftLeft_or fn (by omega)]
      rfl
    · rw [List.foldl_nil, zero_add, Int.toNat_of_nonneg ha.1]
      exact hadjust
  | case2 fn opd a ha hneg twos ih =>
    obtain ⟨ps, d, hd, hbytes, hps, hval⟩ := ih (adjust_modEq ws _)
    have hnot : bitwiseMattnot ws twos = -1 - a := by
      simp only [twos, bitwiseMattnot]
      rw [abs_of_neg hneg]
      ring
    have hlow : twos % 16 = a % 16 := by
      simp only [twos, bitwiseMattnot]
      rw [abs_of_neg hneg, hsixteen]
      omega
    have htwo : (16 * nfix + d) / 16 = 6 ∧ (16 * nfix + d) % 16 = d := by
      unfold nfix
      omega
    have hunfold : prefixing ws fn opd =
        prefixing ws nfix (bitwiseMattnot ws twos / 16) ++ [fn <<< 4 ||| (twos % 16).toNat] := by
      rw [prefixing, if_neg ha, if_pos hneg]
    rw [hnot] at hbytes hval hunfold
    refine ⟨ps ++ [16 * nfix + d], (a % 16).toNat, by omega, ?_, ?_, ?_⟩
    · rw [hunfold, hbytes, hlow, shiftLeft_or fn (by omega)]
    · intro p hp
      rcases List.mem_append.mp hp with hp | hp
      · exact hps p hp
      · rw [List.mem_singleton.mp hp]
        exact Or.inr htwo.1
    · rw [List.foldl_append, List.foldl_cons, List.foldl_nil, shift, if_neg (by omega), htwo.2,
        Int.toNat_of_nonneg (by omega)]
      refine Int.ModEq.trans ?_ hadjust
      have hup := ((hval.neg.add_left (-1)).mul_left 16).add_right (a % 16)
      calc 16 * (-1 - (ps.foldl shift 0 + (d : ℤ))) + a % 16
          = 16 * (-1 + -(ps.foldl shift 0 + (d : ℤ))) + a % 16 := by ring
        _ ≡ 16 * (-1 + -((-1 - a) / 16)) + a % 16 [ZMOD 2 ^ (8 * ws)] := hup
        _ = a := by omega
  | case3 fn opd a ha hneg ih =>
    obtain ⟨ps, d, hd, hbytes, hps, hval⟩ := ih (adjust_modEq ws _)
    have htwo : (16 * pfix + d) / 16 = 2 ∧ (16 * pfix + d) % 16 = d := by
      unfold pfix
      omega
    refine ⟨ps ++ [16 * pfix + d], (a % 16).toNat, by omega, ?_, ?_, ?_⟩
    · rw [prefixing, if_neg ha, if_neg hneg, hbytes, shiftLeft_or fn (by omega)]
    · intro p hp
      rcases List.mem_append.mp hp with hp | hp
      · exact hps p hp
      · rw [List.mem_singleton.mp hp]
        exact Or.inl htwo.1
    · rw [List.foldl_append, List.foldl_cons, List.foldl_nil, shift, if_pos htwo.1, htwo.2,
        Int.toNat_of_nonneg (by omega)]
      refine Int.ModEq.trans ?_ hadjust
      calc 16 * (ps.foldl shift 0 + (d : ℤ)) + a % 16
          ≡ 16 * (a / 16) + a % 16 [ZMOD 2 ^ (8 * ws)] := (hval.mul_left 16).add_right _
        _ = a := by omega

theorem ofInt_eq_iff {w : ℕ} {a b : ℤ} :
    BitVec.ofInt w a = BitVec.ofInt w b ↔ a ≡ b [ZMOD 2 ^ w] := by
  have hpos : (0 : ℤ) < 2 ^ w := by positivity
  have hcast : ((2 ^ w : ℕ) : ℤ) = 2 ^ w := by push_cast; rfl
  rw [← BitVec.toNat_inj, BitVec.toNat_ofInt, BitVec.toNat_ofInt, hcast]
  have ha := Int.emod_nonneg a hpos.ne'
  have hb := Int.emod_nonneg b hpos.ne'
  refine ⟨fun h => ?_, fun h => congrArg Int.toNat h⟩
  change a % 2 ^ w = b % 2 ^ w
  omega

theorem foldl_shift_replicate (m : ℕ) :
    (List.replicate m (pfix <<< 4)).foldl shift 0 = 0 := by
  induction m with
  | zero => rfl
  | succ m ih => exact ih

/-- **The machine reads the operand back**, padded or not, whatever follows. -/
theorem decode_prefixing (hws : 0 < ws) (hfn : fn ≠ 2 ∧ fn ≠ 6) (m : ℕ) (opd : ℤ)
    (rest : List ℕ) :
    (Reader.word (8 * ws)).decode 0
      (List.replicate m (pfix <<< 4) ++ prefixing ws fn opd ++ rest) =
        some (fn, BitVec.ofInt _ opd, rest) := by
  obtain ⟨ps, d, hd, hbytes, hps, hval⟩ := prefixing_eq hws fn opd
  have hall : ∀ p ∈ List.replicate m (pfix <<< 4) ++ ps, IsPrefix p := by
    intro p hp
    rcases List.mem_append.mp hp with hp | hp
    · rw [List.eq_of_mem_replicate hp]
      decide
    · exact hps p hp
  have hread := (Reader.word_reads (8 * ws)).decode 0
    (List.replicate m (pfix <<< 4) ++ prefixing ws fn opd ++ rest)
  have hzero : BitVec.ofInt (8 * ws) 0 = 0 := rfl
  rw [mul_zero, hzero, hbytes, ← List.append_assoc, List.append_assoc _ [_], decode_prefixes hall,
    List.foldl_append, foldl_shift_replicate, List.singleton_append, decode_last hfn hd,
    Option.map_some] at hread
  rw [hbytes, ← List.append_assoc, List.append_assoc _ [_], List.singleton_append, hread,
    ofInt_eq_iff.mpr hval]

/-! ## Execution -/

/-- The registers that linking is about. -/
@[ext]
structure Regs (w : ℕ) where
  iptr : BitVec w
  areg : BitVec w
  breg : BitVec w
  creg : BitVec w

/-- The jumps, `ldc` and `ldpi`; `r.iptr` points behind the instruction. -/
def effect {w : ℕ} (fn : ℕ) (oreg : BitVec w) (r : Regs w) : Option (Regs w) :=
  if fn = j then some { r with iptr := r.iptr + oreg }
  else if fn = cj then
    if r.areg = 0 then some { r with iptr := r.iptr + oreg }
    else some { r with areg := r.breg, breg := r.creg }
  else if fn = call then some { r with iptr := r.iptr + oreg, areg := r.iptr }
  else if fn = ldc then some { r with areg := oreg, breg := r.areg, creg := r.breg }
  else if fn = op ∧ oreg = BitVec.ofInt w ldpi then some { r with areg := r.iptr + r.areg }
  else none

/-- One instruction from the front of some bytes, and what is left of them. -/
def execute {w : ℕ} (r : Regs w) (bytes : List ℕ) : Option (Regs w × List ℕ) :=
  match (Reader.word w).decode 0 bytes with
  | none => none
  | some (fn, oreg, rest) =>
    (effect fn oreg
      { r with iptr := r.iptr + BitVec.ofNat w (bytes.length - rest.length) }).map (·, rest)

/-- Instructions to the end of the bytes. -/
def run {w : ℕ} : ℕ → Regs w → List ℕ → Option (Regs w)
  | _, r, [] => some r
  | 0, _, _ :: _ => none
  | fuel + 1, r, b :: bytes =>
    match execute r (b :: bytes) with
    | none => none
    | some (r', rest) => run fuel r' rest

/-- Some bytes, each of which is fetched at most once. -/
def runBytes {w : ℕ} (r : Regs w) (bytes : List ℕ) : Option (Regs w) := run bytes.length r bytes

theorem length_of_execute {w : ℕ} {r r' : Regs w} {bytes rest : List ℕ}
    (h : execute r bytes = some (r', rest)) : rest.length < bytes.length := by
  have hread := (Reader.word_reads w).decode 0 bytes
  have hzero : BitVec.ofInt w 0 = 0 := rfl
  rw [mul_zero, hzero] at hread
  rw [execute, hread] at h
  cases hd : decode 0 bytes with
  | none =>
    rw [hd] at h
    cases h
  | some i =>
    obtain ⟨fn, n, tail⟩ := i
    rw [hd, Option.map_some] at h
    dsimp only at h
    obtain ⟨_, -, hrest⟩ := Option.map_eq_some_iff.mp h
    cases hrest
    exact length_of_decode hd

theorem run_eq_run {w : ℕ} : ∀ {fuel k : ℕ} {r : Regs w} {bytes : List ℕ},
    bytes.length ≤ fuel → bytes.length ≤ k → run fuel r bytes = run k r bytes := by
  intro fuel
  induction fuel with
  | zero =>
    intro k r bytes h _
    rw [List.length_eq_zero_iff.mp (Nat.le_zero.mp h), run, run]
  | succ fuel ih =>
    intro k r bytes h hk
    cases bytes with
    | nil => rw [run, run]
    | cons b bytes =>
      obtain ⟨k, rfl⟩ : ∃ m, k = m + 1 := ⟨k - 1, by rw [List.length_cons] at hk; omega⟩
      rw [run, run]
      cases he : execute r (b :: bytes) with
      | none => rfl
      | some i =>
        have hlt := length_of_execute he
        exact ih (by omega) (by omega)

@[simp]
theorem runBytes_nil {w : ℕ} (r : Regs w) : runBytes r [] = some r := rfl

/-- Bytes that start with a whole instruction. -/
theorem runBytes_of_execute {w : ℕ} {r r' : Regs w} {bytes rest : List ℕ}
    (h : execute r bytes = some (r', rest)) : runBytes r bytes = runBytes r' rest := by
  have hlt := length_of_execute h
  cases bytes with
  | nil => cases hlt
  | cons b bytes =>
    rw [runBytes, List.length_cons, run, h]
    exact run_eq_run (by rw [List.length_cons] at hlt; omega) le_rfl

/-- **An instruction has the effect it was written for**, padded or not, whatever follows. -/
theorem runBytes_prefixing (hws : 0 < ws) (hfn : fn ≠ 2 ∧ fn ≠ 6) (m : ℕ) (opd : ℤ)
    {r r' : Regs (8 * ws)} (rest : List ℕ)
    (h : effect fn (BitVec.ofInt _ opd)
      { r with
        iptr := r.iptr +
          BitVec.ofNat _ (List.replicate m (pfix <<< 4) ++ prefixing ws fn opd).length } =
        some r') :
    runBytes r (List.replicate m (pfix <<< 4) ++ prefixing ws fn opd ++ rest) =
      runBytes r' rest := by
  refine runBytes_of_execute ?_
  rw [execute, decode_prefixing hws hfn]
  dsimp only
  rw [List.length_append, Nat.add_sub_cancel_right, h, Option.map_some]

theorem prefixing_ne_nil (ws fn : ℕ) (opd : ℤ) : prefixing ws fn opd ≠ [] := by
  rw [prefixing]
  dsimp only
  split_ifs <;> simp

theorem length_prefixing_of_nonneg {k : ℕ} (hlow : 0 ≤ opd) (hhigh : opd < 16 ^ (k + 1))
    (hmax : opd ≤ 2 ^ (8 * ws - 1)) : (prefixing ws fn opd).length ≤ k + 1 := by
  have hadjust : adjust ws opd = opd := if_neg hmax.not_gt
  induction k generalizing fn opd with
  | zero =>
    rw [prefixing, hadjust]
    dsimp only
    rw [if_pos ⟨hlow, by simpa using hhigh⟩]
    exact le_rfl
  | succ k ih =>
    rw [prefixing, hadjust]
    dsimp only
    split_ifs with h
    · exact Nat.le_add_left _ _
    · omega
    · rw [List.length_append, List.length_singleton]
      have hdiv : opd / 16 ≤ 2 ^ (8 * ws - 1) := by omega
      refine Nat.succ_le_succ (ih (by omega) ?_ hdiv (if_neg hdiv.not_gt))
      rw [Int.ediv_lt_iff_lt_mul (by decide), ← pow_succ]
      exact hhigh

/-- **A length for every operand of `k` nibbles.** -/
theorem length_prefixing_le {k : ℕ} (hlow : -(16 : ℤ) ^ (k + 2) ≤ opd)
    (hhigh : opd < 16 ^ (k + 2)) (hmax : |opd| ≤ 2 ^ (8 * ws - 1)) :
    (prefixing ws fn opd).length ≤ k + 2 := by
  rcases le_or_gt 0 opd with hsign | hsign
  · exact length_prefixing_of_nonneg hsign hhigh (abs_of_nonneg hsign ▸ hmax)
  · rw [abs_of_neg hsign] at hmax
    have hadjust : adjust ws opd = opd := if_neg (by omega)
    rw [prefixing, hadjust]
    dsimp only
    rw [if_neg (by omega), if_pos hsign, List.length_append, List.length_singleton,
      abs_of_neg hsign]
    unfold bitwiseMattnot
    refine Nat.succ_le_succ (length_prefixing_of_nonneg (by omega) ?_ (by omega))
    rw [Int.ediv_lt_iff_lt_mul (by decide), ← pow_succ]
    have : -opd ≤ 16 ^ (k + 1 + 1) := by linarith
    omega

end Slinker

end Kroc
