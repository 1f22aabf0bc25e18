import Kroc.Lib.SortedMap
import Kroc.Tranx86.Tstack

/-!
# Tranx86/Constmap — what is known of the registers at translation

`tstack.c` keeps a table of the registers that hold a constant, in the order of the registers, and
the place of the entry that was last asked for the type of.  The table stands for a map from
registers to constants.
-/

namespace Kroc

namespace Tranx86

/-- `VALUE_…` -/
inductive ValueType
  | undefined
  | const
  | local
  | labaddr
  | localptr
  | labdiff
  deriving DecidableEq

/-- `constmap`, without the register and without the instruction that loaded it. -/
@[ext] structure Const where
  type : ValueType
  cVal : ℤ
  cVal2 : ℤ
  deriving DecidableEq

/-- `tran_constmap` and `tran_cm_cidx` -/
structure Constmap where
  table : List (ℤ × Const)
  cidx : ℤ
  deriving DecidableEq

/-- The registers that `constmap_cleanup` keeps. -/
def Tstack.regsToKeep (s : Tstack) : List ℤ :=
  [if s.tsDepth > 0 then s.aReg else regUndefined,
    if s.tsDepth > 1 then s.bReg else regUndefined,
    if s.tsDepth > 2 then s.cReg else regUndefined].takeWhile (· ≠ regUndefined)

namespace Constmap

/-! ## The operations -/

/-- `constmap_typeof`, and the table after it. -/
def typeof (m : Constmap) (reg : ℤ) : ValueType × Constmap :=
  match searchKey reg m.table 0 with
  | some (i, c) => (c.type, { m with cidx := i })
  | none => (.undefined, m)

/-- The entry at the place last asked for, if it is that of `reg`. -/
def cached (m : Constmap) (reg : ℤ) : Option (ℕ × Const) :=
  if m.cidx > -1 then
    (m.table[m.cidx.toNat]?).bind fun e => if e.1 = reg then some (m.cidx.toNat, e.2) else none
  else none

/-- The entry that `constmap_regconst`, `constmap_modregconst` and `constmap_otherlab` find. -/
def lookup (m : Constmap) (reg : ℤ) : Option (ℕ × Const) :=
  (m.cached reg).or (searchKey reg m.table 0)

/-- `constmap_regconst` -/
def regconst (m : Constmap) (reg : ℤ) : Option ℤ := (m.lookup reg).map (·.2.cVal)

/-- `constmap_otherlab` -/
def otherlab (m : Constmap) (reg : ℤ) : Option ℤ := (m.lookup reg).map (·.2.cVal2)

/-- `constmap_modregconst` -/
def modregconst (noConstmap : Bool) (m : Constmap) (reg val : ℤ) : Option Constmap :=
  if noConstmap then some m
  else (m.lookup reg).map fun e =>
    { m with table := m.table.set e.1 (reg, { e.2 with cVal := val }) }

/-- What `constmap_remove` does at a place of the table. -/
def removeAt (m : Constmap) (i : ℕ) : Constmap where
  table := m.table.eraseIdx i
  cidx := if m.cidx ≥ i then -1 else m.cidx

/-- `constmap_remove` -/
def remove (m : Constmap) (reg : ℤ) : Constmap :=
  match m.cached reg with
  | some (i, _) => { m with cidx := -1 }.removeAt i
  | none =>
    let i := m.table.findIdx (·.1 = reg)
    if i = m.table.length then m else m.removeAt i

/-- The loop of `constmap_removelocal`, from a place of the table on. -/
def removelocalFrom (slot : ℤ) : ℕ → ℕ → Constmap → Constmap
  | 0, _, m => m
  | fuel + 1, i, m =>
    match m.table[i]? with
    | none => m
    | some e =>
      if e.2.type = .local ∧ e.2.cVal = slot then
        removelocalFrom slot fuel i ({ m with cidx := i }.remove e.1)
      else removelocalFrom slot fuel (i + 1) m

/-- `constmap_removelocal` -/
def removelocal (m : Constmap) (slot : ℤ) : Constmap := removelocalFrom slot m.table.length 0 m

/-- The loop of `constmap_clearall`. -/
def clearallFrom : ℕ → Constmap → Constmap
  | 0, m => m
  | fuel + 1, m =>
    match m.table with
    | [] => m
    | e :: _ => clearallFrom fuel (m.remove e.1)

/-- `constmap_clearall` -/
def clearall (m : Constmap) : Constmap := clearallFrom m.table.length m

/-- `constmap_new`: the value of a difference of labels is where the two labels are in memory. -/
def new (noConstmap : Bool) (labs : ℤ → Option (ℤ × ℤ)) (m : Constmap) (reg : ℤ)
    (consttype : ValueType) (constval : ℤ) : Option Constmap :=
  if noConstmap then some m
  else do
    let (cVal, cVal2) ← if consttype = .labdiff then labs constval else some (constval, 0)
    some { m with table := insertKey (reg, ⟨consttype, cVal, cVal2⟩) m.table }

/-- `constmap_regcopy` -/
def regcopy (noConstmap : Bool) (labs : ℤ → Option (ℤ × ℤ)) (m : Constmap) (oldReg newReg : ℤ) :
    Option Constmap :=
  if (m.typeof oldReg).1 ≠ .undefined then do
    let m := (m.typeof oldReg).2
    let constval ← m.regconst oldReg
    let (consttype, m) := m.typeof oldReg
    new noConstmap labs m newReg consttype constval
  else some (m.typeof oldReg).2

/-- The loop of `constmap_cleanup`, from a place of the table on. -/
def cleanupFrom (keep : List ℤ) : ℕ → ℕ → Constmap → Constmap
  | 0, _, m => m
  | fuel + 1, i, m =>
    match m.table[i]? with
    | none => m
    | some e => cleanupFrom keep fuel (i + 1) (if e.1 ∈ keep then m else m.remove e.1)

/-- `constmap_cleanup` -/
def cleanup (m : Constmap) (s : Tstack) : Constmap :=
  cleanupFrom s.regsToKeep m.table.length 0 { m with cidx := -1 }

/-! ## The table is a map -/

/-- The place last asked for is one of the table's, if any. -/
def Valid (m : Constmap) : Prop := m.cidx = -1 ∨ 0 ≤ m.cidx ∧ m.cidx < m.table.length

/-- The table stands for the map. -/
structure Holds (m : Constmap) (f : ℤ → Option Const) : Prop where
  represents : Represents m.table f
  valid : m.Valid

variable {m : Constmap} {f : ℤ → Option Const} {reg : ℤ} {c : Const} {l₁ l₂ : List (ℤ × Const)}

theorem holds_start : Holds ⟨[], -1⟩ fun _ => none := ⟨Represents.empty, .inl rfl⟩

/-- An entry that is found at the place last asked for. -/
theorem cached_eq_some {i : ℕ} (h : m.cached reg = some (i, c)) :
    m.table[i]? = some (reg, c) ∧ m.cidx = i := by
  rw [cached, ite_eq_iff, or_iff_left fun h => Option.some_ne_none _ h.2.symm] at h
  obtain ⟨hpos, hget⟩ := h
  obtain ⟨⟨r, d⟩, htable, he⟩ := Option.bind_eq_some_iff.mp hget
  rw [ite_eq_iff, or_iff_left fun h => Option.some_ne_none _ h.2.symm] at he
  obtain ⟨rfl, he⟩ := he
  obtain ⟨rfl, rfl⟩ := Prod.mk.inj (Option.some.inj he)
  exact ⟨htable, by omega⟩

/-- A place of a list. -/
theorem exists_split_of_getElem? {α : Type*} {l : List α} {i : ℕ} {a : α} (h : l[i]? = some a) :
    ∃ l₁ l₂, l = l₁ ++ a :: l₂ ∧ l₁.length = i := by
  obtain ⟨hlt, rfl⟩ := List.getElem?_eq_some_iff.mp h
  refine ⟨l.take i, l.drop (i + 1), ?_, by rw [List.length_take]; omega⟩
  rw [← List.drop_eq_getElem_cons hlt, List.take_append_drop]

theorem cached_eq_none (h : Holds m f) (hreg : f reg = none) : m.cached reg = none := by
  rw [Option.eq_none_iff_forall_ne_some]
  rintro ⟨i, c⟩ hc
  exact h.represents.key_ne hreg _ (List.mem_of_getElem? (cached_eq_some hc).1) rfl

/-- **The lookup** of a register that is not in the map. -/
theorem lookup_eq_none (h : Holds m f) (hreg : f reg = none) : m.lookup reg = none := by
  rw [lookup, cached_eq_none h hreg, Option.none_or,
    Represents.searchKey_eq_none (h.represents.key_ne hreg) 0]

/-- **The lookup** of a register that is in the map. -/
theorem lookup_eq (h : Holds m f) (hreg : f reg = some c) :
    ∃ l₁ l₂, m.table = l₁ ++ (reg, c) :: l₂ ∧ m.lookup reg = some (l₁.length, c) := by
  have hrep := h.represents
  cases hcached : m.cached reg with
  | none =>
    obtain ⟨l₁, l₂, htable⟩ := hrep.exists_split hreg
    rw [htable] at hrep
    refine ⟨l₁, l₂, htable, ?_⟩
    rw [lookup, hcached, Option.none_or, htable, hrep.searchKey_eq 0, Nat.zero_add]
  | some e =>
    obtain ⟨i, d⟩ := e
    have hget := (cached_eq_some hcached).1
    obtain rfl : d = c := hrep.unique (List.mem_of_getElem? hget) ((hrep.mem_iff reg c).mpr hreg)
    obtain ⟨l₁, l₂, htable, rfl⟩ := exists_split_of_getElem? hget
    exact ⟨l₁, l₂, htable, by rw [lookup, hcached, Option.some_or]⟩

theorem lookup_map (h : Holds m f) {β : Type*} (g : Const → β) :
    (m.lookup reg).map (fun e => g e.2) = (f reg).map g := by
  cases hreg : f reg with
  | none => rw [lookup_eq_none h hreg, Option.map_none, Option.map_none]
  | some c =>
    obtain ⟨l₁, l₂, -, hlookup⟩ := lookup_eq h hreg
    rw [hlookup, Option.map_some, Option.map_some]

/-- **`constmap_typeof`** -/
theorem typeof_spec (h : Holds m f) (reg : ℤ) :
    (m.typeof reg).1 = ((f reg).map Const.type).getD .undefined ∧
    Holds (m.typeof reg).2 f ∧ (m.typeof reg).2.table = m.table := by
  have hrep := h.represents
  cases hreg : f reg with
  | none =>
    have hnone := Represents.searchKey_eq_none (hrep.key_ne hreg) 0
    simp only [typeof, hnone]
    exact ⟨rfl, h, trivial⟩
  | some c =>
    obtain ⟨l₁, l₂, htable⟩ := hrep.exists_split hreg
    have hsome : searchKey reg m.table 0 = some (l₁.length, c) := by
      rw [htable] at hrep ⊢
      rw [hrep.searchKey_eq 0, Nat.zero_add]
    simp only [typeof, hsome]
    refine ⟨rfl, ⟨hrep, .inr ?_⟩, trivial⟩
    dsimp only
    rw [htable, List.length_append, List.length_cons]
    omega

/-! ## Removal -/

theorem removeAt_table (htable : m.table = l₁ ++ (reg, c) :: l₂) :
    (m.removeAt l₁.length).table = l₁ ++ l₂ := by
  rw [removeAt, htable, List.eraseIdx_append_of_length_le le_rfl, Nat.sub_self,
    List.eraseIdx_cons_zero]

/-- **`constmap_remove`** of a register that is not in the map. -/
theorem remove_eq_self (h : Holds m f) (hreg : f reg = none) : m.remove reg = m := by
  have hidx : m.table.findIdx (·.1 = reg) = m.table.length := by
    rw [List.findIdx_eq_length]
    exact fun e he => decide_eq_false (h.represents.key_ne hreg e he)
  simp only [remove, cached_eq_none h hreg, hidx, if_true]

/-- **`constmap_remove`** of an entry: the place last asked for stays only before it. -/
theorem remove_eq (h : Holds m f) (htable : m.table = l₁ ++ (reg, c) :: l₂) :
    (m.remove reg).table = l₁ ++ l₂ ∧
      ((m.remove reg).cidx = -1 ∨ (m.remove reg).cidx = m.cidx ∧ m.cidx < l₁.length) := by
  have hrep := h.represents
  rw [htable] at hrep
  cases hcached : m.cached reg with
  | some e =>
    obtain ⟨i, d⟩ := e
    have hget := (cached_eq_some hcached).1
    obtain ⟨k₁, k₂, hk, rfl⟩ := exists_split_of_getElem? hget
    have hrep' := h.represents
    rw [hk] at hrep'
    have hsame := hrep.searchKey_eq 0
    rw [← htable, hk, hrep'.searchKey_eq 0, Nat.zero_add, Nat.zero_add] at hsame
    obtain ⟨hlen, rfl⟩ := Prod.mk.inj (Option.some.inj hsame)
    simp only [remove, hcached, hlen]
    exact ⟨removeAt_table htable, .inl (if_neg (by simp only; omega))⟩
  | none =>
    have hidx : m.table.findIdx (·.1 = reg) = l₁.length := by
      rw [htable, List.findIdx_append, List.findIdx_eq_length.mpr
        fun e he => decide_eq_false (hrep.split.1 e he).ne, if_neg (lt_irrefl _),
        List.findIdx_cons, decide_eq_true rfl, cond_true, Nat.zero_add]
    have hne : ¬ l₁.length = m.table.length := by
      rw [htable, List.length_append, List.length_cons]
      omega
    simp only [remove, hcached, hidx, if_neg hne]
    refine ⟨removeAt_table htable, ?_⟩
    by_cases hge : m.cidx ≥ l₁.length
    · exact .inl (if_pos hge)
    · exact .inr ⟨if_neg hge, by omega⟩

theorem Holds.remove_entry (h : Holds m f) (htable : m.table = l₁ ++ (reg, c) :: l₂) :
    Holds (m.remove reg) (Function.update f reg none) := by
  obtain ⟨hremoved, hcidx⟩ := remove_eq h htable
  have hrep := h.represents
  rw [htable] at hrep
  refine ⟨hremoved ▸ hrep.erase, ?_⟩
  have hvalid := h.valid
  unfold Valid at hvalid ⊢
  rw [hremoved, List.length_append]
  omega

/-- **`constmap_remove`** -/
theorem Holds.remove (h : Holds m f) (reg : ℤ) : Holds (m.remove reg)
    (Function.update f reg none) := by
  cases hreg : f reg with
  | none => rwa [remove_eq_self h hreg, ← hreg, Function.update_eq_self]
  | some c =>
    obtain ⟨l₁, l₂, htable⟩ := h.represents.exists_split hreg
    exact h.remove_entry htable

theorem getElem?_done {α : Type*} (done rest : List α) :
    (done ++ rest)[done.length]? = rest.head? := by
  rw [List.getElem?_append_right le_rfl, Nat.sub_self, List.head?_eq_getElem?]

theorem append_cons_eq {α : Type*} {l done rest : List α} {e : α} (h : l = done ++ e :: rest) :
    l = (done ++ [e]) ++ rest := by rw [h, List.append_assoc, List.singleton_append]

/-- **The loop of `constmap_removelocal`** keeps what does not come from the slot. -/
theorem removelocalFrom_spec (slot : ℤ) (fuel : ℕ) {done rest : List (ℤ × Const)} (h : Holds m f)
    (htable : m.table = done ++ rest) (hfuel : rest.length ≤ fuel) :
    (removelocalFrom slot fuel done.length m).table =
        done ++ rest.filter (fun e => ¬ (e.2.type = .local ∧ e.2.cVal = slot)) ∧
      (removelocalFrom slot fuel done.length m).Valid := by
  induction fuel generalizing m f done rest with
  | zero =>
    obtain rfl := List.eq_nil_of_length_eq_zero (Nat.le_zero.mp hfuel)
    exact ⟨htable, h.valid⟩
  | succ fuel ih =>
    have hget : m.table[done.length]? = rest.head? := by rw [htable, getElem?_done]
    cases rest with
    | nil =>
      simp only [removelocalFrom, hget, List.head?_nil]
      exact ⟨htable, h.valid⟩
    | cons e rest =>
      have hrest : rest.length ≤ fuel := Nat.le_of_succ_le_succ hfuel
      simp only [removelocalFrom, hget, List.head?_cons]
      by_cases hslot : e.2.type = .local ∧ e.2.cVal = slot
      · have hplace : Holds { m with cidx := done.length } f := by
          refine ⟨h.represents, .inr ⟨Int.natCast_nonneg _, ?_⟩⟩
          dsimp only
          rw [htable, List.length_append, List.length_cons]
          omega
        have hsplit : ({ m with cidx := done.length } : Constmap).table =
            done ++ (e.1, e.2) :: rest := htable
        have hremoved := remove_eq hplace hsplit
        rw [if_pos hslot, List.filter_cons_of_neg (by rwa [decide_eq_true_eq, not_not])]
        exact ih (hplace.remove e.1) hremoved.1 hrest
      · rw [if_neg hslot, List.filter_cons_of_pos (by rwa [decide_eq_true_eq])]
        have hnext := ih h (append_cons_eq htable) hrest
        rw [List.length_append, List.length_singleton, List.append_assoc, List.singleton_append]
          at hnext
        exact hnext

theorem Holds.removelocal (h : Holds m f) (slot : ℤ) : Holds (m.removelocal slot) fun reg =>
    (f reg).filter fun c => ¬ (c.type = .local ∧ c.cVal = slot) := by
  have hspec := removelocalFrom_spec slot m.table.length h (List.nil_append m.table).symm le_rfl
  rw [List.length_nil, List.nil_append] at hspec
  refine ⟨?_, hspec.2⟩
  rw [Constmap.removelocal, hspec.1]
  exact h.represents.filter _

/-- **The loop of `constmap_clearall`** empties the table. -/
theorem clearallFrom_spec (fuel : ℕ) (h : Holds m f) (hfuel : m.table.length ≤ fuel) :
    clearallFrom fuel m = ⟨[], -1⟩ := by
  induction fuel generalizing m f with
  | zero =>
    have hnil : m.table = [] := List.eq_nil_of_length_eq_zero (Nat.le_zero.mp hfuel)
    have hcidx := h.valid.resolve_right fun hvalid => by
      rw [hnil, List.length_nil] at hvalid
      omega
    rw [clearallFrom, ← hnil, ← hcidx]
  | succ fuel ih =>
    cases htable : m.table with
    | nil =>
      have hcidx := h.valid.resolve_right fun hvalid => by
        rw [htable, List.length_nil] at hvalid
        omega
      simp only [clearallFrom, htable]
      rw [← htable, ← hcidx]
    | cons e rest =>
      have hsplit : m.table = [] ++ (e.1, e.2) :: rest := htable
      have hremoved := (remove_eq h hsplit).1
      rw [htable, List.length_cons] at hfuel
      simp only [clearallFrom, htable]
      exact ih (h.remove e.1) (by rw [hremoved]; exact Nat.le_of_succ_le_succ hfuel)

/-! ## Cleaning up -/

/-- What the loop of `constmap_cleanup` leaves: it passes over the entry after one that
it removes. -/
def swept (keep : List ℤ) : List (ℤ × Const) → List (ℤ × Const)
  | [] => []
  | [e] => if e.1 ∈ keep then [e] else []
  | e :: e' :: rest =>
    if e.1 ∈ keep then e :: swept keep (e' :: rest) else e' :: swept keep rest

theorem swept_cons_of_mem {keep : List ℤ} {e : ℤ × Const} {rest : List (ℤ × Const)}
    (he : e.1 ∈ keep) : swept keep (e :: rest) = e :: swept keep rest := by
  cases rest with
  | nil => exact if_pos he
  | cons e' rest => rw [swept, if_pos he]

theorem cleanupFrom_end (keep : List ℤ) (fuel : ℕ) {i : ℕ} (hi : m.table.length ≤ i) :
    cleanupFrom keep fuel i m = m := by
  cases fuel with
  | zero => rfl
  | succ fuel => simp only [cleanupFrom, List.getElem?_eq_none hi]

/-- **The loop of `constmap_cleanup`** -/
theorem cleanupFrom_spec (keep : List ℤ) (fuel : ℕ) {done rest : List (ℤ × Const)} (h : Holds m f)
    (hcidx : m.cidx = -1) (htable : m.table = done ++ rest) (hfuel : rest.length ≤ fuel) :
    cleanupFrom keep fuel done.length m = ⟨done ++ swept keep rest, -1⟩ := by
  induction fuel generalizing m f done rest with
  | zero =>
    obtain rfl := List.eq_nil_of_length_eq_zero (Nat.le_zero.mp hfuel)
    rw [cleanupFrom, swept, ← htable, ← hcidx]
  | succ fuel ih =>
    have hget : m.table[done.length]? = rest.head? := by rw [htable, getElem?_done]
    have hstep : ∀ (m : Constmap) (f) (done : List (ℤ × Const)) (e) (rest), Holds m f →
      m.cidx = -1 →
        m.table = done ++ e :: rest → rest.length ≤ fuel →
        cleanupFrom keep fuel (done.length + 1) m = ⟨done ++ e :: swept keep rest, -1⟩ := by
      intro m f done e rest h hcidx htable hfuel
      have hnext := ih h hcidx (append_cons_eq htable) hfuel
      rw [List.length_append, List.length_singleton, List.append_assoc, List.singleton_append]
        at hnext
      exact hnext
    cases rest with
    | nil =>
      simp only [cleanupFrom, hget, List.head?_nil]
      rw [swept, ← htable, ← hcidx]
    | cons e rest =>
      have hrest : rest.length ≤ fuel := Nat.le_of_succ_le_succ hfuel
      simp only [cleanupFrom, hget, List.head?_cons]
      by_cases hkeep : e.1 ∈ keep
      · rw [if_pos hkeep, swept_cons_of_mem hkeep]
        exact hstep m f done e rest h hcidx htable hrest
      · have hsplit : m.table = done ++ (e.1, e.2) :: rest := htable
        obtain ⟨hremoved, hplace⟩ := remove_eq h hsplit
        have hnone : (m.remove e.1).cidx = -1 := hplace.elim id fun h => h.1.trans hcidx
        rw [if_neg hkeep]
        cases rest with
        | nil =>
          rw [List.append_nil] at hremoved
          rw [cleanupFrom_end keep fuel (by rw [hremoved]; exact Nat.le_succ _), swept,
            if_neg hkeep,
            List.append_nil, ← hremoved, ← hnone]
        | cons e' rest =>
          rw [swept, if_neg hkeep]
          exact hstep _ _ done e' rest (h.remove e.1) hnone hremoved (Nat.le_of_succ_le hrest)

/-- No two entries beside each other are both of registers that are not kept. -/
def Spread (keep : List ℤ) (t : List (ℤ × Const)) : Prop :=
  t.IsChain fun e e' => e.1 ∈ keep ∨ e'.1 ∈ keep

instance (keep : List ℤ) (t : List (ℤ × Const)) : Decidable (Spread keep t) :=
  inferInstanceAs (Decidable (t.IsChain _))

theorem spread_cons_of_mem {keep : List ℤ} {e : ℤ × Const} {rest : List (ℤ × Const)}
    (he : e.1 ∈ keep) : Spread keep (e :: rest) ↔ Spread keep rest := by
  cases rest with
  | nil => exact iff_of_true (List.IsChain.singleton e) List.IsChain.nil
  | cons e' rest => exact List.isChain_cons_cons.trans (and_iff_right (.inl he))

/-- **Nothing but what is kept** is left exactly where no two entries beside each other are
to go. -/
theorem swept_subset_iff (keep : List ℤ) (t : List (ℤ × Const)) :
    (∀ e ∈ swept keep t, e.1 ∈ keep) ↔ Spread keep t := by
  induction t using swept.induct keep with
  | case1 => exact iff_of_true (fun e he => absurd he List.not_mem_nil) List.IsChain.nil
  | case2 e he =>
    rw [swept, if_pos he, List.forall_mem_singleton]
    exact iff_of_true he (List.IsChain.singleton e)
  | case3 e he =>
    rw [swept, if_neg he]
    exact iff_of_true (fun x hx => absurd hx List.not_mem_nil) (List.IsChain.singleton e)
  | case4 e e' rest he ih =>
    rw [swept, if_pos he, List.forall_mem_cons, ih, spread_cons_of_mem he]
    exact and_iff_right he
  | case5 e e' rest he ih =>
    have hpair : Spread keep (e :: e' :: rest) ↔ (e.1 ∈ keep ∨ e'.1 ∈ keep) ∧
      Spread keep (e' :: rest) :=
      List.isChain_cons_cons
    rw [swept, if_neg he, List.forall_mem_cons, ih, hpair, or_iff_right he]
    exact and_congr_right fun he' => (spread_cons_of_mem he').symm

/-- **What is kept** is left then. -/
theorem swept_eq_filter {keep : List ℤ} {t : List (ℤ × Const)} (h : Spread keep t) :
    swept keep t = t.filter (·.1 ∈ keep) := by
  induction t using swept.induct keep with
  | case1 => rfl
  | case2 e he =>
    rw [swept, if_pos he, List.filter_cons_of_pos (by rwa [decide_eq_true_eq]), List.filter_nil]
  | case3 e he =>
    rw [swept, if_neg he, List.filter_cons_of_neg (by rwa [decide_eq_true_eq]), List.filter_nil]
  | case4 e e' rest he ih =>
    rw [swept, if_pos he, List.filter_cons_of_pos (by rwa [decide_eq_true_eq]),
      ih ((spread_cons_of_mem he).mp h)]
  | case5 e e' rest he ih =>
    obtain ⟨hpair, hrest⟩ := List.isChain_cons_cons.mp h
    have he' := hpair.resolve_left he
    rw [swept, if_neg he, List.filter_cons_of_neg (by rwa [decide_eq_true_eq]),
      List.filter_cons_of_pos (by rwa [decide_eq_true_eq]), ih ((spread_cons_of_mem he').mp hrest)]

theorem cleanup_eq (h : Holds m f) (s : Tstack) :
    m.cleanup s = ⟨swept s.regsToKeep m.table, -1⟩ := by
  have hstart : Holds { m with cidx := -1 } f := ⟨h.represents, .inl rfl⟩
  exact cleanupFrom_spec s.regsToKeep m.table.length hstart rfl (List.nil_append m.table).symm
    le_rfl

theorem Holds.cleanup (h : Holds m f) {s : Tstack} (hspread : Spread s.regsToKeep m.table) :
    Holds (m.cleanup s) fun reg => (f reg).filter fun _ => reg ∈ s.regsToKeep := by
  rw [cleanup_eq h, swept_eq_filter hspread]
  exact ⟨h.represents.filter _, .inl rfl⟩

theorem Holds.clearall (h : Holds m f) : Holds m.clearall fun _ => none := by
  rw [Constmap.clearall, clearallFrom_spec m.table.length h le_rfl]
  exact holds_start

/-! ## New entries -/

/-- The constant that `constmap_new` enters. -/
def newConst (labs : ℤ → Option (ℤ × ℤ)) (consttype : ValueType) (constval : ℤ) : Option Const :=
  if consttype = .labdiff then (labs constval).map fun l => ⟨.labdiff, l.1, l.2⟩
  else some ⟨consttype, constval, 0⟩

theorem newConst_eq {labs : ℤ → Option (ℤ × ℤ)} (hplain : c.type ≠ .labdiff → c.cVal2 = 0)
    (hlabs : c.type = .labdiff → labs c.cVal = some (c.cVal, c.cVal2)) :
    newConst labs c.type c.cVal = some c := by
  unfold newConst
  by_cases hdiff : c.type = .labdiff
  · rw [if_pos hdiff, hlabs hdiff, ← hdiff]
    rfl
  · rw [if_neg hdiff, ← hplain hdiff]

theorem newConst_plain {labs : ℤ → Option (ℤ × ℤ)} {consttype : ValueType} {constval : ℤ}
    (h : newConst labs consttype constval = some c) (hdiff : c.type ≠ .labdiff) : c.cVal2 = 0 := by
  rw [newConst, ite_eq_iff] at h
  obtain ⟨-, h⟩ | ⟨-, h⟩ := h
  · obtain ⟨l, -, rfl⟩ := Option.map_eq_some_iff.mp h
    exact absurd rfl hdiff
  · rw [← Option.some.inj h]

theorem Holds.modregconst (h : Holds m f) (reg val : ℤ) :
    Option.Rel Holds (m.modregconst false reg val)
      ((f reg).map fun c => Function.update f reg (some { c with cVal := val })) := by
  cases hreg : f reg with
  | none =>
    rw [Constmap.modregconst, lookup_eq_none h hreg]
    exact .none
  | some c =>
    obtain ⟨l₁, l₂, htable, hlookup⟩ := lookup_eq h hreg
    have hrep := h.represents
    have hvalid := h.valid
    unfold Valid at hvalid
    rw [htable] at hrep
    rw [Constmap.modregconst, hlookup]
    refine .some ⟨?_, ?_⟩
    · dsimp only
      rw [htable, List.set_append_right _ _ le_rfl, Nat.sub_self, List.set_cons_zero]
      exact hrep.set
    · unfold Valid
      rwa [List.length_set]

theorem Holds.new (h : Holds m f) (labs : ℤ → Option (ℤ × ℤ)) (consttype : ValueType) (constval : ℤ)
    (hreg : f reg = none) : Option.Rel Holds (m.new false labs reg consttype constval)
      ((newConst labs consttype constval).map fun c => Function.update f reg (some c)) := by
  have hentered : ∀ c : Const, Holds { m with table := insertKey (reg, c) m.table }
      (Function.update f reg (some c)) := by
    refine fun c => ⟨h.represents.insert hreg, ?_⟩
    have hvalid := h.valid
    unfold Valid at hvalid ⊢
    dsimp only
    rw [length_insertKey]
    omega
  unfold Constmap.new newConst
  by_cases hdiff : consttype = .labdiff
  · cases hlabs : labs constval with
    | none =>
      simp only [hdiff, if_true]
      exact .none
    | some l =>
      simp only [hdiff, if_true]
      exact .some (hentered _)
  · simp only [if_neg hdiff]
    exact .some (hentered _)

/-- **`constmap_regcopy`** enters the type and the first value of a constant. -/
theorem regcopy_eq (h : Holds m f) (noConstmap : Bool) (labs : ℤ → Option (ℤ × ℤ)) {oldReg : ℤ}
    (newReg : ℤ) (hold : f oldReg = some c) (htype : c.type ≠ .undefined) :
    ∃ m', Holds m' f ∧
      m.regcopy noConstmap labs oldReg newReg = m'.new noConstmap labs newReg c.type c.cVal := by
  obtain ⟨htypeof, hfirst, -⟩ := typeof_spec h oldReg
  obtain ⟨htypeof', hsecond, -⟩ := typeof_spec hfirst oldReg
  rw [hold, Option.map_some, Option.getD_some] at htypeof htypeof'
  have hconst : (m.typeof oldReg).2.regconst oldReg = some c.cVal := by
    rw [regconst, lookup_map hfirst Const.cVal, hold, Option.map_some]
  refine ⟨_, hsecond, ?_⟩
  simp only [Constmap.regcopy, htypeof, if_pos htype, hconst, htypeof', Option.bind_eq_bind,
    Option.bind_some]

theorem regcopy_eq_typeof (h : Holds m f) (noConstmap : Bool) (labs : ℤ → Option (ℤ × ℤ))
    {oldReg : ℤ}
    (newReg : ℤ) (hold : ((f oldReg).map Const.type).getD .undefined = .undefined) :
    m.regcopy noConstmap labs oldReg newReg = some (m.typeof oldReg).2 :=
  if_neg (not_not.mpr ((typeof_spec h oldReg).1.trans hold))

end Constmap

/-! ## Runs -/

/-- What the translator does with the table; `labs` is what is in memory, as pairs of labels. -/
inductive ConstmapStep
  | typeof (reg : ℤ)
  | new (labs : ℤ → Option (ℤ × ℤ)) (reg : ℤ) (consttype : ValueType) (constval : ℤ)
  | regcopy (labs : ℤ → Option (ℤ × ℤ)) (oldReg newReg : ℤ)
  | modregconst (reg val : ℤ)
  | remove (reg : ℤ)
  | removelocal (slot : ℤ)
  | cleanup (stack : Tstack)
  | clearall

namespace ConstmapStep

variable (noConstmap : Bool)

/-- The table after a step. -/
def apply (m : Constmap) : ConstmapStep → Option Constmap
  | typeof reg => some (m.typeof reg).2
  | new labs reg consttype constval => m.new noConstmap labs reg consttype constval
  | regcopy labs oldReg newReg => m.regcopy noConstmap labs oldReg newReg
  | modregconst reg val => m.modregconst noConstmap reg val
  | remove reg => some (m.remove reg)
  | removelocal slot => some (m.removelocal slot)
  | cleanup stack => some (m.cleanup stack)
  | clearall => some m.clearall

/-- What a step is to do with the map. -/
def after (f : ℤ → Option Const) : ConstmapStep → Option (ℤ → Option Const)
  | typeof _ => some f
  | new labs reg consttype constval =>
    if noConstmap then some f
    else (Constmap.newConst labs consttype constval).map fun c => Function.update f reg (some c)
  | regcopy _ oldReg newReg =>
    match f oldReg with
    | none => some f
    | some c =>
      if noConstmap ∨ c.type = .undefined then some f else some (Function.update f newReg (some c))
  | modregconst reg val =>
    if noConstmap then some f
    else (f reg).map fun c => Function.update f reg (some { c with cVal := val })
  | remove reg => some (Function.update f reg none)
  | removelocal slot =>
    some fun reg => (f reg).filter fun c => ¬ (c.type = .local ∧ c.cVal = slot)
  | cleanup stack => some fun reg => (f reg).filter fun _ => reg ∈ stack.regsToKeep
  | clearall => some fun _ => none

/-- The registers that are given constants are distinct. -/
def Distinct (f : ℤ → Option Const) : ConstmapStep → Prop
  | new _ reg _ _ => f reg = none
  | regcopy _ oldReg newReg => ∀ c, f oldReg = some c → c.type ≠ .undefined → f newReg = none
  | _ => True

/-- **The condition on a step**: a difference of labels is not copied, unless its first label points
to the two, and no two entries beside each other are to be cleaned up. -/
def Safe (m : Constmap) (f : ℤ → Option Const) : ConstmapStep → Prop
  | regcopy labs oldReg _ => ∀ c, f oldReg = some c → c.type = .labdiff →
    labs c.cVal = some (c.cVal, c.cVal2)
  | cleanup stack => Constmap.Spread stack.regsToKeep m.table
  | _ => True

end ConstmapStep

namespace Constmap

/-- Only a difference of labels has another label. -/
def Plain (f : ℤ → Option Const) : Prop := ∀ reg c, f reg = some c → c.type ≠ .labdiff → c.cVal2 = 0

/-- **A step** does with the table what it is to do with the map. -/
theorem Holds.apply (noConstmap : Bool) (h : Holds m f) (hplain : Plain f) {step : ConstmapStep}
    (hdistinct : step.Distinct f) (hsafe : step.Safe m f) :
    Option.Rel Holds (step.apply noConstmap m) (step.after noConstmap f) := by
  cases step with
  | typeof reg => exact .some (typeof_spec h reg).2.1
  | new labs reg consttype constval =>
    cases noConstmap with
    | true => exact .some h
    | false => exact h.new labs consttype constval hdistinct
  | regcopy labs oldReg newReg =>
    have htypeof := (typeof_spec h oldReg).2.1
    simp only [ConstmapStep.apply, ConstmapStep.after]
    cases hold : f oldReg with
    | none =>
      rw [regcopy_eq_typeof h noConstmap labs newReg (by rw [hold]; rfl)]
      exact .some htypeof
    | some c =>
      by_cases htype : c.type = .undefined
      · rw [regcopy_eq_typeof h noConstmap labs newReg (by rw [hold]; exact htype)]
        simp only [htype, or_true, if_true]
        exact .some htypeof
      · obtain ⟨m', hm', heq⟩ := regcopy_eq h noConstmap labs newReg hold htype
        rw [heq]
        cases noConstmap with
        | true => exact .some hm'
        | false =>
          simp only [Bool.false_eq_true, htype, or_self, if_false]
          have hentered := hm'.new labs c.type c.cVal (hdistinct c hold htype)
          rwa [newConst_eq (hplain oldReg c hold) (hsafe c hold)] at hentered
  | modregconst reg val =>
    cases noConstmap with
    | true => exact .some h
    | false => exact h.modregconst reg val
  | remove reg => exact .some (h.remove reg)
  | removelocal slot => exact .some (h.removelocal slot)
  | cleanup stack => exact .some (h.cleanup hsafe)
  | clearall => exact .some h.clearall

theorem Plain.update (h : Plain f) (reg : ℤ) (hc : c.type ≠ .labdiff → c.cVal2 = 0) :
    Plain (Function.update f reg (some c)) := by
  intro r d hd hdiff
  rw [Function.update_apply, ite_eq_iff] at hd
  obtain ⟨-, hd⟩ | ⟨-, hd⟩ := hd
  · obtain rfl := Option.some.inj hd
    exact hc hdiff
  · exact h r d hd hdiff

theorem Plain.mono (h : Plain f) {g : ℤ → Option Const}
    (hg : ∀ reg c, g reg = some c → f reg = some c) :
    Plain g := fun reg c hc hdiff => h reg c (hg reg c hc) hdiff

theorem Plain.after {noConstmap : Bool} (h : Plain f) {step : ConstmapStep} {g : ℤ → Option Const}
    (hstep : step.after noConstmap f = some g) : Plain g := by
  cases step with
  | typeof reg => exact Option.some.inj hstep ▸ h
  | new labs reg consttype constval =>
    cases noConstmap with
    | true => exact Option.some.inj hstep ▸ h
    | false =>
      obtain ⟨c, hc, rfl⟩ := Option.map_eq_some_iff.mp hstep
      exact h.update reg (newConst_plain hc)
  | regcopy labs oldReg newReg =>
    simp only [ConstmapStep.after] at hstep
    cases hold : f oldReg with
    | none =>
      rw [hold] at hstep
      exact Option.some.inj hstep ▸ h
    | some c =>
      rw [hold] at hstep
      dsimp only at hstep
      rw [← apply_ite some, Option.some.injEq, ite_eq_iff] at hstep
      obtain ⟨-, rfl⟩ | ⟨-, rfl⟩ := hstep
      · exact h
      · exact h.update newReg (h oldReg c hold)
  | modregconst reg val =>
    cases noConstmap with
    | true => exact Option.some.inj hstep ▸ h
    | false =>
      obtain ⟨c, hc, rfl⟩ := Option.map_eq_some_iff.mp hstep
      exact h.update reg (h reg c hc)
  | remove reg =>
    obtain rfl := Option.some.inj hstep
    refine h.mono fun r c hc => ?_
    rw [Function.update_apply, ite_eq_iff,
      or_iff_right fun h => Option.some_ne_none c h.2.symm] at hc
    exact hc.2
  | removelocal slot =>
    obtain rfl := Option.some.inj hstep
    exact h.mono fun r c hc => (Option.filter_eq_some_iff.mp hc).1
  | cleanup stack =>
    obtain rfl := Option.some.inj hstep
    exact h.mono fun r c hc => (Option.filter_eq_some_iff.mp hc).1
  | clearall =>
    obtain rfl := Option.some.inj hstep
    exact h.mono fun r c hc => absurd hc.symm (Option.some_ne_none c)

/-- What is reached from an empty table, by steps on distinct registers of which `Allowed` is asked,
and the map that the steps are to have made. -/
inductive Reaches (noConstmap : Bool)
    (Allowed : ConstmapStep → Constmap → (ℤ → Option Const) → Prop) :
    Constmap → (ℤ → Option Const) → Prop
  | start : Reaches noConstmap Allowed ⟨[], -1⟩ fun _ => none
  | step {m m' : Constmap} {f f' : ℤ → Option Const} (h : Reaches noConstmap Allowed m f)
      (step : ConstmapStep) (hdistinct : step.Distinct f) (hallowed : Allowed step m f)
      (hstep : step.apply noConstmap m = some m') (hafter : step.after noConstmap f = some f') :
      Reaches noConstmap Allowed m' f'

theorem isSome_eq {α β : Type*} {r : α → β → Prop} {a : Option α} {b : Option β}
    (h : Option.Rel r a b) : a.isSome = b.isSome := by
  cases h with
  | none => rfl
  | some _ => rfl

/-- The table answers for the map. -/
structure Faithful (m : Constmap) (f : ℤ → Option Const) : Prop where
  typeof : ∀ reg, (m.typeof reg).1 = ((f reg).map Const.type).getD .undefined
  regconst : ∀ reg, m.regconst reg = (f reg).map Const.cVal
  otherlab : ∀ reg, m.otherlab reg = (f reg).map Const.cVal2
  sorted : m.table.Pairwise fun e e' => e.1 < e'.1
  valid : m.Valid

theorem Holds.faithful (h : Holds m f) : Faithful m f where
  typeof reg := (typeof_spec h reg).1
  regconst _ := lookup_map h Const.cVal
  otherlab _ := lookup_map h Const.cVal2
  sorted := h.represents.sorted
  valid := h.valid

/-- **The table is the map**, in every run whose steps meet the condition: it answers for the map,
what is kept by a cleaning up that meets the condition are registers of the stack, and every step
that meets it returns where the map's does. -/
theorem reaches_faithful {noConstmap : Bool}
    (h : Reaches noConstmap (fun step m f => step.Safe m f) m f) :
    Faithful m f ∧
      (∀ s : Tstack, (∀ e ∈ (m.cleanup s).table, e.1 ∈ s.regsToKeep) ↔
        Spread s.regsToKeep m.table) ∧
      ∀ step : ConstmapStep, step.Distinct f → step.Safe m f →
        (step.apply noConstmap m).isSome = (step.after noConstmap f).isSome := by
  have hholds : Holds m f ∧ Plain f := by
    induction h with
    | start => exact ⟨holds_start, fun reg c hc => absurd hc.symm (Option.some_ne_none c)⟩
    | step _ step hdistinct hsafe hstep hafter ih =>
      have hrel := ih.1.apply noConstmap ih.2 hdistinct hsafe
      rw [hstep, hafter] at hrel
      obtain ⟨hrel⟩ := hrel
      exact ⟨hrel, ih.2.after hafter⟩
  refine ⟨hholds.1.faithful, fun s => ?_, fun step hdistinct hsafe => ?_⟩
  · rw [cleanup_eq hholds.1]
    exact swept_subset_iff _ _
  · have hrel := hholds.1.apply noConstmap hholds.2 hdistinct hsafe
    exact isSome_eq hrel

theorem spread_copied : Spread [49] [(48, ⟨.const, 5, 0⟩), (49, ⟨.const, 5, 0⟩)] := by decide

/-- A constant is loaded and copied, and the copy is then the only register on the stack. -/
theorem reaches_faithful_copy : ∃ m f,
    (Faithful m f ∧
      (∀ s : Tstack, (∀ e ∈ (m.cleanup s).table, e.1 ∈ s.regsToKeep) ↔
        Spread s.regsToKeep m.table) ∧
      ∀ step : ConstmapStep, step.Distinct f → step.Safe m f →
        (step.apply false m).isSome = (step.after false f).isSome) ∧
    m.table = [(49, ⟨.const, 5, 0⟩)] := by
  have h0 : Reaches false (fun step m f => step.Safe m f) ⟨[], -1⟩ fun _ => none := .start
  have h1 := h0.step (.new (fun _ => none) 48 .const 5) rfl trivial rfl rfl
  have h2 := h1.step (.regcopy (fun _ => none) 48 49)
    (fun _ _ _ => rfl) (fun c hc hdiff => by cases hc; cases hdiff) rfl rfl
  have h3 := h2.step (.cleanup { newTstack with aReg := 49, tsDepth := 1 }) trivial spread_copied
    rfl rfl
  exact ⟨_, _, reaches_faithful h3, rfl⟩

/-- Two registers that are cleaned up together, in a run without copies, and a difference of labels
that is copied, in a run that does not clean up: the second register stays, and the copy is of what
the first label, taken as an address, happens to point to. -/
theorem reaches_unfaithful :
    (¬ ∀ m f, Reaches false
      (fun step _ _ => ∀ labs oldReg newReg, step ≠ .regcopy labs oldReg newReg)
      m f → Faithful m f) ∧
    ¬ ∀ m f, Reaches false (fun step _ _ => ∀ s, step ≠ .cleanup s) m f → Faithful m f := by
  constructor
  · intro h
    have h0 : Reaches false
      (fun step _ _ => ∀ labs oldReg newReg, step ≠ .regcopy labs oldReg newReg)
      ⟨[], -1⟩ fun _ => none := .start
    have h1 := h0.step (.new (fun _ => none) 48 .const 5) rfl nofun rfl rfl
    have h2 := h1.step (.new (fun _ => none) 49 .const 6) rfl nofun rfl rfl
    have h3 := h2.step (.cleanup newTstack.undefine) trivial nofun rfl rfl
    exact absurd ((h _ _ h3).typeof 49) (by decide)
  · intro h
    have h0 : Reaches false (fun step _ _ => ∀ s, step ≠ .cleanup s) ⟨[], -1⟩ fun _ => none :=
      .start
    have h1 := h0.step
      (.new (fun p => if p = 4096 then some (7, 8) else some (0, 0)) 48 .labdiff 4096)
      rfl nofun rfl rfl
    have h2 := h1.step (.regcopy (fun p => if p = 4096 then some (7, 8) else some (0, 0)) 48 49)
      (fun _ _ _ => rfl) nofun rfl rfl
    exact absurd ((h _ _ h2).regconst 49) (by decide)

end Constmap

end Tranx86

end Kroc
