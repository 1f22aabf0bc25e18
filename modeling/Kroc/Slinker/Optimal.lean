import Kroc.Slinker.Linking

/-!
# Slinker/Optimal — linking with the shortest prefixes

`jumps-and-loads2binary` of `slinker/code-output.ss`.  `calculate` goes over the table, in whatever
order the hash table has, and corrects the distance and the length recorded for each entry in place;
`main` repeats it until nothing changes or `*MAX-PREFIXING-ITERATIONS*` are over, and
`generate-binary` writes what is recorded.

`get-distance` has the conventions of its own: -2 for an entry that refers to itself, which is then
negated for a jump, and no entry 0 and no last entry before an `align`.
-/

open Offsets

namespace Kroc

namespace Slinker

namespace Optimal

/-- `dist`, `inst-len` and `changed`; a key that is not recorded has 0. -/
structure State where
  dist : ℕ → ℤ
  instLen : ℕ → ℕ
  changed : Bool

/-- `set-dist!` and `set-inst-len!`, unless they are set. -/
def State.set (st : State) (k : ℕ) (distance : ℤ) (len : ℕ) : State :=
  if distance = st.dist k ∧ len = st.instLen k then st
  else ⟨Function.update st.dist k distance, Function.update st.instLen k len, true⟩

/-- The length `get-distance` takes entry `n` to have. -/
def lengthAt (ws : ℕ) (st : State) (h : List Entry) (n : ℤ) : Option ℕ :=
  if n < 0 then none
  else
    match h[n.toNat]? with
    | none => none
    | some (.binary value) => some value.length
    | some (.stubname _) => some (2 * ws)
    | some (.ffiStubname _) => none
    | some _ => some (st.instLen n.toNat)

/-- The loop of `get-distance`, `count` entries from `n` on. -/
def distanceLoop (ws : ℕ) (st : State) (h : List Entry) (incOp : ℤ) : ℕ → ℤ → ℤ → Option ℤ
  | 0, _, dist => some dist
  | count + 1, n, dist =>
    match lengthAt ws st h n with
    | none => none
    | some len => distanceLoop ws st h incOp count (n + incOp) (dist + len)

/-- `get-distance`: from `s + 1` up to `e - 1`, or from `s` down to `e`. -/
def getDistance (ws : ℕ) (st : State) (h : List Entry) (s e : ℤ) : Option ℤ :=
  if s = e then some (-2)
  else if s < e then distanceLoop ws st h 1 (e - 1 - s).toNat (s + 1) 0
  else distanceLoop ws st h (-1) (s - e + 1).toNat s 0

/-- A jump in `calculate`; the length depends on the distance or not. -/
def calculateJump (ws : ℕ) (st : State) (h : List Entry) (k value : ℕ) (fn : JumpFn)
    (len : ℤ → ℕ) : Option State :=
  (getDistance ws st h k value).map fun distance =>
    let distance := if value ≤ k then -1 * distance else distance
    if fn = .j ∧ distance = 0 then st.set k 0 0 else st.set k distance (len distance)

/-- `calculate`, for one entry. -/
def calculateAt (ws : ℕ) (st : State) (h : List Entry) (k : ℕ) : Entry → Option State
  | .ujump value fn =>
    calculateJump ws st h k value fn fun distance => (prefixing ws fn.code distance).length
  | .fjump value fn len => calculateJump ws st h k value fn fun _ => len
  | .loadLabel target =>
    (getDistance ws st h k target).map fun distance =>
      let distance := if target < k then -1 * distance else distance
      st.set k distance (prefixing ws ldc distance ++ prefixing ws op ldpi).length
  | .loadLabelDifference start stop =>
    (getDistance ws st h (start - 1) stop).map fun distance =>
      st.set k distance (prefixing ws ldc distance).length
  | .align value =>
    (if k = 0 then some 0 else getDistance ws st h 0 (k - 1)).map fun distance =>
      let alignAmount : ℤ := 2 ^ value
      st.set k distance ((alignAmount - distance.tmod alignAmount) % alignAmount).toNat
  | _ => some st

/-- `hash-table-for-each` in `calculate`, over the keys in the order of the hash table. -/
def calculateLoop (ws : ℕ) (h : List Entry) : List ℕ → State → Option State
  | [], st => some st
  | k :: ks, st =>
    match h[k]? with
    | none => calculateLoop ws h ks st
    | some v =>
      match calculateAt ws st h k v with
      | none => none
      | some st => calculateLoop ws h ks st

/-- `calculate` -/
def calculate (ws : ℕ) (h : List Entry) (order : List ℕ) (st : State) : Option State :=
  calculateLoop ws h order { st with changed := false }

/-- The loop of `main`; `left` iterations are allowed after this one. -/
def mainLoop (ws : ℕ) (h : List Entry) (order : List ℕ) : ℕ → State → Option State
  | left, st =>
    match calculate ws h order st with
    | none => none
    | some st =>
      if st.changed then
        match left with
        | 0 => some st
        | left + 1 => mainLoop ws h order left st
      else some st

/-- What `generate-binary` puts at a key. -/
def generate (ws : ℕ) (st : State) (k : ℕ) : Entry → Option (List ℕ)
  | .fjump _ fn len => pad (prefixing ws fn.code (st.dist k)) len
  | .ujump _ fn =>
    if fn = .j ∧ st.instLen k = 0 then some [] else some (prefixing ws fn.code (st.dist k))
  | .loadLabel _ => some (prefixing ws ldc (st.dist k) ++ prefixing ws op ldpi)
  | .loadLabelDifference _ _ => some (prefixing ws ldc (st.dist k))
  | .align _ => some (List.replicate (st.instLen k) 0)
  | v => v.binaryValue

/-- `generate-binary` -/
def generateBinary (ws : ℕ) (st : State) (h : List Entry) : Option (List (List ℕ)) :=
  forEach (generate ws st) 0 h

/-- The tables that have nothing recorded. -/
def State.empty : State := ⟨fun _ => 0, fun _ => 0, false⟩

variable {ws : ℕ} {h : List Entry} {st st' : State} {k len : ℕ} {distance : ℤ} {v : Entry}
  {order : List ℕ}

/-! ## What does not change -/

theorem State.set_eq_or (st : State) (k : ℕ) (distance : ℤ) (len : ℕ) :
    st.set k distance len = st ∨ (st.set k distance len).changed = true := by
  unfold State.set
  split_ifs
  · exact Or.inl rfl
  · exact Or.inr rfl

theorem State.dist_set (st : State) (k : ℕ) (distance : ℤ) (len : ℕ) :
    (st.set k distance len).dist k = distance := by
  unfold State.set
  split_ifs with heq
  · exact heq.1.symm
  · exact Function.update_self ..

theorem State.instLen_set (st : State) (k : ℕ) (distance : ℤ) (len : ℕ) :
    (st.set k distance len).instLen k = len := by
  unfold State.set
  split_ifs with heq
  · exact heq.2.symm
  · exact Function.update_self ..

/-- Only entry `k` is set. -/
theorem State.set_of_ne {m : ℕ} (hm : m ≠ k) (st : State) (distance : ℤ) (len : ℕ) :
    (st.set k distance len).dist m = st.dist m ∧
      (st.set k distance len).instLen m = st.instLen m := by
  unfold State.set
  split_ifs
  · exact ⟨rfl, rfl⟩
  · exact ⟨Function.update_of_ne hm .., Function.update_of_ne hm ..⟩

theorem calculateJump_eq_set {value : ℕ} {fn : JumpFn} {len : ℤ → ℕ}
    (h : calculateJump ws st h k value fn len = some st') : ∃ d n, st' = st.set k d n := by
  obtain ⟨distance, -, rfl⟩ := Option.map_eq_some_iff.mp h
  dsimp only
  split_ifs <;> exact ⟨_, _, rfl⟩

/-- **An entry** is set or not. -/
theorem calculateAt_eq_set (h : calculateAt ws st h k v = some st') :
    st' = st ∨ ∃ d n, st' = st.set k d n := by
  unfold calculateAt at h
  cases v with
  | ujump value fn => exact .inr (calculateJump_eq_set h)
  | fjump value fn len => exact .inr (calculateJump_eq_set h)
  | loadLabel target =>
    obtain ⟨distance, -, rfl⟩ := Option.map_eq_some_iff.mp h
    exact .inr ⟨_, _, rfl⟩
  | loadLabelDifference start stop =>
    obtain ⟨distance, -, rfl⟩ := Option.map_eq_some_iff.mp h
    exact .inr ⟨_, _, rfl⟩
  | align value =>
    obtain ⟨distance, -, rfl⟩ := Option.map_eq_some_iff.mp h
    exact .inr ⟨_, _, rfl⟩
  | _ => exact .inl (Option.some.inj h).symm

theorem calculateAt_eq_or (h : calculateAt ws st h k v = some st') :
    st' = st ∨ st'.changed = true := by
  obtain rfl | ⟨d, n, rfl⟩ := calculateAt_eq_set h
  · exact .inl rfl
  · exact State.set_eq_or st k d n

/-- The tables at which every entry is what `calculate` makes of it. -/
def Settled (ws : ℕ) (h : List Entry) (st : State) (order : List ℕ) : Prop :=
  st.changed = false ∧ ∀ k ∈ order, ∀ v, h[k]? = some v → calculateAt ws st h k v = some st

/-- **An iteration that changes nothing** changes no entry on its way. -/
theorem settled_of_calculateLoop : ∀ {order : List ℕ} {st : State},
    calculateLoop ws h order st = some st' → st'.changed = false →
      st' = st ∧ Settled ws h st order := by
  intro order
  induction order with
  | nil =>
    intro st hloop hst
    cases hloop
    exact ⟨rfl, hst, fun k hk => by cases hk⟩
  | cons k ks ih =>
    intro st hloop hst
    have hfrom := hloop
    rw [calculateLoop] at hloop
    cases hk : h[k]? with
    | none =>
      rw [hk] at hloop
      obtain ⟨heq, hch, hrest⟩ := ih hloop hst
      refine ⟨heq, hch, fun m hm v hv => ?_⟩
      rcases List.mem_cons.mp hm with rfl | hm
      · rw [hk] at hv
        cases hv
      · exact hrest m hm v hv
    | some v =>
      rw [hk] at hloop
      dsimp only at hloop
      cases hat : calculateAt ws st h k v with
      | none =>
        rw [hat] at hloop
        cases hloop
      | some st₁ =>
        rw [hat] at hloop
        obtain ⟨heq, hch, hrest⟩ := ih hloop hst
        have hsame : st₁ = st := (calculateAt_eq_or hat).resolve_right (by rw [hch]; decide)
        rw [hsame] at heq hch hrest hat
        refine ⟨heq, hch, fun m hm u hu => ?_⟩
        rcases List.mem_cons.mp hm with rfl | hm
        · rw [hk] at hu
          cases hu
          exact hat
        · exact hrest m hm u hu

/-- **The loop that ends because nothing changed** leaves settled tables. -/
theorem settled_of_mainLoop : ∀ {left : ℕ} {st : State},
    mainLoop ws h order left st = some st' → st'.changed = false → Settled ws h st' order := by
  intro left
  induction left with
  | zero =>
    intro st hloop hst
    rw [mainLoop] at hloop
    cases hc : calculate ws h order st with
    | none =>
      rw [hc] at hloop
      cases hloop
    | some st₁ =>
      rw [hc] at hloop
      have hsame : st₁ = st' := by
        dsimp only at hloop
        split_ifs at hloop <;> exact Option.some.inj hloop
      rw [hsame] at hc
      obtain ⟨heq, hsettled⟩ := settled_of_calculateLoop hc hst
      exact heq ▸ hsettled
  | succ left ih =>
    intro st hloop hst
    rw [mainLoop] at hloop
    cases hc : calculate ws h order st with
    | none =>
      rw [hc] at hloop
      cases hloop
    | some st₁ =>
      rw [hc] at hloop
      dsimp only at hloop
      split_ifs at hloop with hch
      · exact ih hloop hst
      · cases hloop
        obtain ⟨heq, hsettled⟩ := settled_of_calculateLoop hc hst
        exact heq ▸ hsettled

/-- What is recorded of an entry is what `calculate` made of it, with the tables as they were
then. -/
def Recorded (ws : ℕ) (h : List Entry) (st : State) (k : ℕ) (v : Entry) : Prop :=
  ∃ st₀ st₁, calculateAt ws st₀ h k v = some st₁ ∧ st₁.dist k = st.dist k ∧
    st₁.instLen k = st.instLen k

theorem Settled.recorded (hs : Settled ws h st order) (hk : k ∈ order) (hv : h[k]? = some v) :
    Recorded ws h st k v := ⟨st, st, hs.2 k hk v hv, rfl, rfl⟩

/-- Another entry leaves the record alone, and its own one makes it anew. -/
theorem Recorded.calculateAt {m : ℕ} {u : Entry} (hv : h[k]? = some v)
    (hat : calculateAt ws st h k v = some st') (hu : h[m]? = some u)
    (hm : m = k ∨ Recorded ws h st m u) : Recorded ws h st' m u := by
  by_cases hmk : m = k
  · subst hmk
    rw [hv] at hu
    exact ⟨st, st', Option.some.inj hu ▸ hat, rfl, rfl⟩
  · obtain ⟨st₀, st₁, hat₀, hdist, hlen⟩ := hm.resolve_left hmk
    obtain rfl | ⟨d, n, rfl⟩ := calculateAt_eq_set hat
    · exact ⟨st₀, st₁, hat₀, hdist, hlen⟩
    · obtain ⟨hdist', hlen'⟩ := State.set_of_ne hmk st d n
      exact ⟨st₀, st₁, hat₀, hdist.trans hdist'.symm, hlen.trans hlen'.symm⟩

/-- **An iteration** records its entries. -/
theorem recorded_of_calculateLoop {u : Entry} {m : ℕ} (hu : h[m]? = some u) :
    ∀ {order : List ℕ} {st : State}, calculateLoop ws h order st = some st' →
      m ∈ order ∨ Recorded ws h st m u → Recorded ws h st' m u := by
  intro order
  induction order with
  | nil =>
    intro st hloop hm
    cases hloop
    exact hm.resolve_left List.not_mem_nil
  | cons k ks ih =>
    intro st hloop hm
    rw [calculateLoop] at hloop
    cases hk : h[k]? with
    | none =>
      rw [hk] at hloop
      refine ih hloop (hm.imp_left fun hmem => (List.mem_cons.mp hmem).resolve_left fun e => ?_)
      rw [e, hk] at hu
      cases hu
    | some v =>
      rw [hk] at hloop
      dsimp only at hloop
      cases hat : calculateAt ws st h k v with
      | none =>
        rw [hat] at hloop
        cases hloop
      | some st₁ =>
        rw [hat] at hloop
        refine ih hloop ?_
        rcases hm with hmem | hrecorded
        · rcases List.mem_cons.mp hmem with e | hmem
          · exact .inr (Recorded.calculateAt hk hat hu (.inl e))
          · exact .inl hmem
        · exact .inr (Recorded.calculateAt hk hat hu (.inr hrecorded))

/-- **The loop, however it ends**, leaves every entry recorded. -/
theorem recorded_of_mainLoop (hk : k ∈ order) (hv : h[k]? = some v) : ∀ {left : ℕ} {st : State},
    mainLoop ws h order left st = some st' → Recorded ws h st' k v := by
  intro left
  induction left with
  | zero =>
    intro st hloop
    rw [mainLoop] at hloop
    cases hc : calculate ws h order st with
    | none =>
      rw [hc] at hloop
      cases hloop
    | some st₁ =>
      rw [hc] at hloop
      have hsame : st₁ = st' := by
        dsimp only at hloop
        split_ifs at hloop <;> exact Option.some.inj hloop
      exact hsame ▸ recorded_of_calculateLoop hv hc (.inl hk)
  | succ left ih =>
    intro st hloop
    rw [mainLoop] at hloop
    cases hc : calculate ws h order st with
    | none =>
      rw [hc] at hloop
      cases hloop
    | some st₁ =>
      rw [hc] at hloop
      dsimp only at hloop
      split_ifs at hloop with hch
      · exact ih hloop
      · cases hloop
        exact recorded_of_calculateLoop hv hc (.inl hk)

/-! ## Distances -/

/-- The lengths recorded, those of the binaries their own. -/
def recordedLength (st : State) (k : ℕ) : Entry → ℕ
  | .binary value => value.length
  | _ => st.instLen k

def lengths (st : State) (h : List Entry) : List ℕ := h.mapIdx (recordedLength st)

/-- The entries `jumps-and-loads2binary` is for: the stubs are resolved before it. -/
def NoStubs (h : List Entry) : Prop :=
  ∀ v ∈ h, (∀ value, v ≠ .stubname value) ∧ ∀ value, v ≠ .ffiStubname value

theorem getElem?_lengths (st : State) (hk : h[k]? = some v) :
    (lengths st h)[k]? = some (recordedLength st k v) := by
  rw [lengths, List.getElem?_mapIdx, hk, Option.map_some]

variable (ws st) in
theorem lengthAt_eq (hh : NoStubs h) (hk : k < h.length) : ∃ n, lengthAt ws st h k = some n ∧
    offset (lengths st h) (k + 1) = offset (lengths st h) k + n := by
  have hget := List.getElem?_eq_getElem hk
  refine ⟨recordedLength st k h[k], ?_, offset_succ (getElem?_lengths st hget)⟩
  obtain ⟨hstub, hffi⟩ := hh _ (List.getElem_mem hk)
  rw [lengthAt, if_neg (by omega), Int.toNat_natCast, hget]
  cases hv : h[k] with
  | stubname value => exact absurd hv (hstub value)
  | ffiStubname value => exact absurd hv (hffi value)
  | _ => rfl

theorem distanceLoop_up (hh : NoStubs h) : ∀ {count n : ℕ} {dist : ℤ}, n + count ≤ h.length →
    distanceLoop ws st h 1 count n dist =
      some (dist + (offset (lengths st h) (n + count) - offset (lengths st h) n)) := by
  intro count
  induction count with
  | zero =>
    intro n dist _
    rw [distanceLoop, add_zero, sub_self, add_zero]
  | succ count ih =>
    intro n dist hn
    obtain ⟨len, hlen, hsucc⟩ := lengthAt_eq ws st hh (k := n) (by omega)
    have hcast : (n : ℤ) + 1 = ((n + 1 : ℕ) : ℤ) := by push_cast; rfl
    rw [distanceLoop, hlen]
    dsimp only
    rw [hcast, ih (by omega), hsucc, show n + 1 + count = n + (count + 1) by omega]
    congr 1
    push_cast
    ring

theorem distanceLoop_down (hh : NoStubs h) : ∀ {count n : ℕ} {dist : ℤ}, n < h.length →
    count ≤ n + 1 → distanceLoop ws st h (-1) count n dist =
      some (dist + (offset (lengths st h) (n + 1) - offset (lengths st h) (n + 1 - count))) := by
  intro count
  induction count with
  | zero =>
    intro n dist _ _
    rw [distanceLoop, Nat.sub_zero, sub_self, add_zero]
  | succ count ih =>
    intro n dist hn hcount
    obtain ⟨len, hlen, hsucc⟩ := lengthAt_eq ws st hh (k := n) hn
    rw [distanceLoop, hlen]
    dsimp only
    cases n with
    | zero =>
      have hzero : count = 0 := by omega
      subst hzero
      rw [distanceLoop, hsucc]
      simp
    | succ n =>
      have hcast : ((n + 1 : ℕ) : ℤ) + -1 = n := by push_cast; ring
      rw [hcast, ih (by omega) (by omega), hsucc,
        show n + 1 + 1 - (count + 1) = n + 1 - count by omega]
      congr 1
      push_cast
      ring

/-- What `get-distance` measures, from the beginning of `start` to that of `stop`: -2 where `stop`
is the entry before. -/
def gap (l : List ℕ) (start stop : ℕ) : ℤ :=
  if start = stop + 1 then -2 else |(offset l start : ℤ) - offset l stop|

theorem gap_of_le {l : List ℕ} {start stop : ℕ} (hle : start ≤ stop) :
    gap l start stop = offset l stop - offset l start := by
  have : (offset l start : ℤ) ≤ offset l stop := by exact_mod_cast offset_mono l hle
  rw [gap, if_neg (by omega), abs_of_nonpos (by linarith)]
  ring

theorem gap_of_gt {l : List ℕ} {start stop : ℕ} (hlt : stop + 1 < start) :
    gap l start stop = offset l start - offset l stop := by
  have : (offset l stop : ℤ) ≤ offset l start := by
    exact_mod_cast offset_mono l (by omega : stop ≤ start)
  rw [gap, if_neg (by omega), abs_of_nonneg (by linarith)]

variable (ws st) in
/-- **`get-distance` adds up the recorded lengths.** -/
theorem getDistance_eq (hh : NoStubs h) {start stop : ℕ} (hstart : start ≤ h.length)
    (hstop : stop ≤ h.length) :
    getDistance ws st h (start - 1) stop = some (gap (lengths st h) start stop) := by
  unfold getDistance
  rcases lt_trichotomy start (stop + 1) with hlt | rfl | hlt
  · have hcast : (start : ℤ) - 1 + 1 = (start : ℕ) := by ring
    have hcount : ((stop : ℤ) - 1 - (start - 1)).toNat = stop - start := by omega
    rw [if_neg (by omega), if_pos (by omega), hcast, hcount, distanceLoop_up hh (by omega),
      Nat.add_sub_cancel' (by omega), zero_add, gap_of_le (by omega)]
  · rw [if_pos (by push_cast; ring), gap, if_pos rfl]
  · obtain ⟨start, rfl⟩ : ∃ s, start = s + 1 := ⟨start - 1, by omega⟩
    have hcast : ((start + 1 : ℕ) : ℤ) - 1 = start := by push_cast; ring
    have hcount : ((start : ℤ) - stop + 1).toNat = start + 1 - stop := by omega
    rw [hcast, if_neg (by omega), if_neg (by omega), hcount, distanceLoop_down hh (by omega)
      (by omega), show start + 1 - (start + 1 - stop) = stop by omega, zero_add,
      gap_of_gt hlt]

/-! ## What is recorded in the end -/

/-- The distance of a jump: 2 for one to itself. -/
def jumpDistance (l : List ℕ) (k target : ℕ) : ℤ :=
  if target = k then 2 else (offset l target : ℤ) - offset l (k + 1)

/-- The distance of a label: -2 for its own. -/
def labelDistance (l : List ℕ) (k target : ℕ) : ℤ :=
  if target = k then -2 else (offset l target : ℤ) - offset l (k + 1)

variable {target start stop value : ℕ} {fn : JumpFn}

theorem gap_signed {l : List ℕ} (hne : target ≠ k) :
    (if target < k then -1 * gap l (k + 1) target else gap l (k + 1) target) =
      (offset l target : ℤ) - offset l (k + 1) := by
  split_ifs with hlt
  · rw [gap_of_gt (by omega)]
    ring
  · exact gap_of_le (by omega)

theorem getDistance_key (hh : NoStubs h) (hk : k < h.length) (htarget : target < h.length) :
    getDistance ws st h k target = some (gap (lengths st h) (k + 1) target) := by
  have := getDistance_eq ws st hh (Nat.succ_le_of_lt hk) htarget.le
  rwa [show ((k + 1 : ℕ) : ℤ) - 1 = k by push_cast; ring] at this

/-- **A jump** has its distance recorded, and its length unless it goes nowhere. -/
theorem calculated_jump (hh : NoStubs h) {l : ℤ → ℕ} {f : JumpFn} (hk : k < h.length)
    (htarget : target < h.length) (hat : calculateJump ws st h k target f l = some st') :
    st'.dist k = jumpDistance (lengths st h) k target ∧
      st'.instLen k = if f = .j ∧ st'.dist k = 0 then 0 else l (st'.dist k) := by
  unfold calculateJump at hat
  rw [getDistance_key hh hk htarget, Option.map_some, Option.some_inj] at hat
  dsimp only at hat
  have hdistance : (if target ≤ k then -1 * gap (lengths st h) (k + 1) target
      else gap (lengths st h) (k + 1) target) = jumpDistance (lengths st h) k target := by
    unfold jumpDistance
    by_cases heq : target = k
    · rw [if_pos heq.le, if_pos heq, gap, if_pos (by omega)]
      rfl
    · rw [if_neg heq, ← gap_signed heq]
      exact if_congr (by omega) rfl rfl
  rw [hdistance] at hat
  split_ifs at hat with hzero <;> rw [← hat, State.dist_set, State.instLen_set]
  · exact ⟨hzero.2.symm, by rw [if_pos ⟨hzero.1, rfl⟩]⟩
  · exact ⟨rfl, by rw [if_neg hzero]⟩

theorem calculated_label (hh : NoStubs h) (hk : k < h.length) (htarget : target < h.length)
    (hat : calculateAt ws st h k (.loadLabel target) = some st') :
    st'.dist k = labelDistance (lengths st h) k target ∧
      st'.instLen k = (prefixing ws ldc (st'.dist k) ++ prefixing ws op ldpi).length := by
  unfold calculateAt at hat
  dsimp only at hat
  rw [getDistance_key hh hk htarget, Option.map_some, Option.some_inj] at hat
  have hdistance : (if target < k then -1 * gap (lengths st h) (k + 1) target
      else gap (lengths st h) (k + 1) target) = labelDistance (lengths st h) k target := by
    unfold labelDistance
    by_cases heq : target = k
    · rw [if_neg (by omega), if_pos heq, gap, if_pos (by omega)]
    · rw [if_neg heq, ← gap_signed heq]
  rw [hdistance] at hat
  rw [← hat, State.dist_set, State.instLen_set]
  exact ⟨rfl, rfl⟩

theorem calculated_difference (hh : NoStubs h) (hstart : start ≤ h.length)
    (hstop : stop ≤ h.length)
    (hat : calculateAt ws st h k (.loadLabelDifference start stop) = some st') :
    st'.dist k = gap (lengths st h) start stop ∧
      st'.instLen k = (prefixing ws ldc (st'.dist k)).length := by
  unfold calculateAt at hat
  dsimp only at hat
  rw [getDistance_eq _ _ hh hstart hstop, Option.map_some, Option.some_inj] at hat
  rw [← hat, State.dist_set, State.instLen_set]
  exact ⟨rfl, rfl⟩

/-- **An align** fills up what lies between the first entry and the last before it. -/
theorem calculated_align (hh : NoStubs h) (hk : k < h.length)
    (hat : calculateAt ws st h k (.align value) = some st') : (st'.instLen k : ℤ) ≡
      -(if k = 0 then 0 else gap (lengths st h) 1 (k - 1)) [ZMOD 2 ^ value] := by
  unfold calculateAt at hat
  dsimp only at hat
  have hget : (if k = 0 then some 0 else getDistance ws st h 0 (k - 1)) =
      some (if k = 0 then 0 else gap (lengths st h) 1 (k - 1)) := by
    split_ifs with hzero
    · rfl
    · have hstart : 1 ≤ h.length := by omega
      have hstop : k - 1 ≤ h.length := by omega
      have := getDistance_eq ws st hh hstart hstop
      rwa [Nat.cast_one, sub_self, Nat.cast_sub (by omega), Nat.cast_one] at this
  rw [hget, Option.map_some, Option.some_inj] at hat
  have hpos : (0 : ℤ) < 2 ^ value := by positivity
  rw [← hat, State.instLen_set, Int.toNat_of_nonneg (Int.emod_nonneg _ hpos.ne')]
  refine (Int.mod_modEq _ _).trans ?_
  generalize (if k = 0 then 0 else gap (lengths st h) 1 (k - 1)) = d
  rw [Int.modEq_iff_dvd, Int.tmod_def]
  exact ⟨-1 - d.tdiv (2 ^ value), by ring⟩

/-! ## What is generated -/

/-- **The tables the loop may end with** for the program to be right. -/
structure Sound (ws : ℕ) (h : List Entry) (st : State) : Prop where
  /-- An `fjump` has a distance and room for it; a `j` without one is recorded as if it vanished. -/
  fjump : ∀ (k target : ℕ) fn len, h[k]? = some (.fjump target fn len) →
    ¬(fn = .j ∧ st.dist k = 0) ∧ (prefixing ws fn.code (st.dist k)).length ≤ len ∧
      (target = k → (2 : ℤ) ^ (8 * ws) ∣ len + 2)
  /-- No jump and no label is its own. -/
  ujump : ∀ (k target : ℕ) fn, h[k]? = some (.ujump target fn) → target ≠ k
  loadLabel : ∀ k target : ℕ, h[k]? = some (.loadLabel target) → target ≠ k
  /-- No difference starts right behind its end. -/
  difference : ∀ (k start stop : ℕ) v, h[k]? = some (.loadLabelDifference start stop) →
    h[stop]? = some v → start = stop + 1 → (2 : ℤ) ^ (8 * ws) ∣ recordedLength st stop v + 2
  /-- What is left out before an `align` does not matter. -/
  align : ∀ (k value : ℕ) first last, h[k]? = some (.align value) → h[0]? = some first →
    h[k - 1]? = some last → k = 0 ∨
      (2 : ℤ) ^ value ∣ recordedLength st 0 first +
        if k = 1 then 2 else (recordedLength st (k - 1) last : ℤ)

/-- What `Sound` asks of one entry. -/
def EntrySound (ws : ℕ) (h : List Entry) (st : State) (k : ℕ) : Entry → Prop
  | .fjump target _ len => target = k → (2 : ℤ) ^ (8 * ws) ∣ len + 2
  | .ujump target _ => target ≠ k
  | .loadLabel target => target ≠ k
  | .loadLabelDifference start stop => ∀ v, h[stop]? = some v →
    start = stop + 1 → (2 : ℤ) ^ (8 * ws) ∣ recordedLength st stop v + 2
  | .align value => ∀ first last, h[0]? = some first → h[k - 1]? = some last → k = 0 ∨
    (2 : ℤ) ^ value ∣ recordedLength st 0 first +
      if k = 1 then 2 else (recordedLength st (k - 1) last : ℤ)
  | _ => True

/-- No `fjump` is recorded as if it vanished. -/
def Kept (st : State) (k : ℕ) : Entry → Prop
  | .fjump _ fn _ => ¬(fn = .j ∧ st.dist k = 0)
  | _ => True

/-- Room for the operand. -/
def Room (ws : ℕ) (st : State) (k : ℕ) : Entry → Prop
  | .fjump _ fn len => (prefixing ws fn.code (st.dist k)).length ≤ len
  | _ => True

variable {globalnames : List ℕ → Option ℕ} {out : List (List ℕ)} {bs : List ℕ}

theorem length_pos_prefixing (ws fn : ℕ) (d : ℤ) : 0 < (prefixing ws fn d).length :=
  List.length_pos_iff.mpr (prefixing_ne_nil ws fn d)

theorem pow_bound {n : ℕ} (hws : 0 < ws) (hpos : 0 < n) (hn : n < 256) :
    ¬ (2 : ℤ) ^ (8 * ws) ∣ n := by
  intro hdvd
  have hle := Int.le_of_dvd (by exact_mod_cast hpos) hdvd
  have hpow : (2 : ℤ) ^ 8 ≤ 2 ^ (8 * ws) := pow_le_pow_right₀ (by decide) (by omega)
  omega

/-- **The bytes are as long as recorded**, but for an `fjump` that is not kept. -/
theorem length_generate (hh : NoStubs h) (hrecorded : Recorded ws h st k v) (hk : h[k]? = some v)
    (hnames : NamesLt globalnames h.length v) (hbs : generate ws st k v = some bs) :
    bs.length = recordedLength st k v ↔ Kept st k v := by
  have hlt := (List.getElem?_eq_some_iff.mp hk).1
  obtain ⟨st₀, st₁, hat, hdist₁, hlen₁⟩ := hrecorded
  cases v with
  | binary value =>
    cases hbs
    exact ⟨fun _ => trivial, fun _ => rfl⟩
  | ujump target fn =>
    obtain ⟨t, ht, hname⟩ := hnames _ (List.mem_singleton.mpr rfl)
    cases hname
    obtain ⟨-, hlen⟩ := calculated_jump hh hlt ht
      (l := fun distance => (prefixing ws fn.code distance).length) hat
    rw [hdist₁, hlen₁] at hlen
    refine ⟨fun _ => trivial, fun _ => ?_⟩
    change bs.length = st.instLen k
    unfold generate at hbs
    dsimp only at hbs
    split_ifs at hbs with hzero
    · cases hbs
      exact hzero.2.symm
    · cases hbs
      rw [hlen]
      by_cases hj : fn = .j ∧ st.dist k = 0
      · rw [if_pos hj] at hlen
        exact absurd ⟨hj.1, hlen⟩ hzero
      · rw [if_neg hj]
  | fjump target fn len =>
    obtain ⟨t, ht, hname⟩ := hnames _ (List.mem_singleton.mpr rfl)
    cases hname
    obtain ⟨-, hlen⟩ := calculated_jump hh hlt ht (f := fn) (l := fun _ => len) hat
    rw [hdist₁, hlen₁] at hlen
    have hpad := length_of_pad hbs
    have hpos : 0 < len := by
      rw [← hpad, eq_of_pad hbs, List.length_append]
      have := length_pos_prefixing ws fn.code (st.dist k)
      omega
    change bs.length = st.instLen k ↔ ¬(fn = .j ∧ st.dist k = 0)
    rw [hpad, hlen]
    split_ifs with hzero
    · exact ⟨fun h => absurd h hpos.ne', fun h => absurd hzero h⟩
    · exact ⟨fun _ => hzero, fun _ => rfl⟩
  | loadLabel target =>
    obtain ⟨t, ht, hname⟩ := hnames _ (List.mem_singleton.mpr rfl)
    cases hname
    cases hbs
    obtain ⟨-, hlen⟩ := calculated_label hh hlt ht hat
    rw [hdist₁, hlen₁] at hlen
    exact ⟨fun _ => trivial, fun _ => hlen.symm⟩
  | loadLabelDifference start stop =>
    obtain ⟨s, hs, hname⟩ := hnames (some start) List.mem_cons_self
    cases hname
    obtain ⟨e, he, hname⟩ := hnames (some stop) (List.mem_cons_of_mem _ List.mem_cons_self)
    cases hname
    cases hbs
    obtain ⟨-, hlen⟩ := calculated_difference hh hs.le he.le hat
    rw [hdist₁, hlen₁] at hlen
    exact ⟨fun _ => trivial, fun _ => hlen.symm⟩
  | align value =>
    cases hbs
    exact ⟨fun _ => trivial, fun _ => List.length_replicate⟩
  | stubname value => cases hbs
  | ffiStubname value => cases hbs

theorem generate_isSome_iff (hh : NoStubs h) (hk : h[k]? = some v) :
    (generate ws st k v).isSome ↔ Room ws st k v := by
  obtain ⟨hstub, hffi⟩ := hh v (List.mem_of_getElem? hk)
  cases v with
  | stubname value => exact absurd rfl (hstub value)
  | ffiStubname value => exact absurd rfl (hffi value)
  | ujump target fn =>
    unfold generate
    dsimp only
    split_ifs <;> simp [Room]
  | fjump target fn len =>
    unfold generate pad
    dsimp only
    split_ifs with hle <;> simp [Room, hle]
  | _ => simp [generate, Room, Entry.binaryValue]

/-- A jump by its distance, padded or not. -/
theorem jumps_distance_iff (hws : 0 < ws) {m : ℕ}
    (hposition : ∀ i, position out i = offset (lengths st h) i)
    (hdist : st.dist k = jumpDistance (lengths st h) k target)
    (hk : h[k]? = some v)
    (hbs : out[k]? = some (List.replicate m (pfix <<< 4) ++ prefixing ws fn.code (st.dist k))) :
    Jumps ws out k fn target (List.replicate m (pfix <<< 4) ++ prefixing ws fn.code (st.dist k)) ↔
      (target = k → (2 : ℤ) ^ (8 * ws) ∣ recordedLength st k v + 2) := by
  rw [jumps_iff hws hbs, hposition, hposition, hdist, jumpDistance]
  split_ifs with heq
  · rw [heq, offset_succ (getElem?_lengths st hk), Int.modEq_comm, Int.modEq_iff_dvd, Nat.cast_add]
    have hsub : ((offset (lengths st h) k : ℤ) + recordedLength st k v + 2 -
        offset (lengths st h) k) = recordedLength st k v + 2 := by ring
    rw [hsub]
    exact ⟨fun hd _ => hd, fun hd => hd rfl⟩
  · rw [add_sub_cancel]
    exact ⟨fun _ h => absurd h heq, fun _ => rfl⟩

section resolved

variable (hws : 0 < ws) (hposition : ∀ i, position out i = offset (lengths st h) i)

include hposition

/-- A jump without bytes: the target is where it would be. -/
theorem jumps_vanished (hdist : st.dist k = jumpDistance (lengths st h) k target)
    (hnowhere : st.dist k = 0) (hk : h[k]? = some v) (hrecorded : recordedLength st k v = 0) :
    Jumps ws out k fn target [] ∧ target ≠ k := by
  have hne : target ≠ k := fun heq => by
    rw [hnowhere, jumpDistance, if_pos heq] at hdist
    cases hdist
  rw [hnowhere, jumpDistance, if_neg hne] at hdist
  have hsame : position out target = position out k := by
    have hsucc := offset_succ (getElem?_lengths st hk)
    rw [hposition, hposition]
    omega
  refine ⟨fun base r hr _ => ⟨r, rfl, ?_⟩, hne⟩
  rw [At, hsame]
  exact hr

include hws

theorem jumps_iff_ne (hk : h[k]? = some (.ujump target fn))
    (hdist : st.dist k = jumpDistance (lengths st h) k target)
    (hlen : st.instLen k =
      if fn = .j ∧ st.dist k = 0 then 0 else (prefixing ws fn.code (st.dist k)).length)
    (hgenerate : generate ws st k (.ujump target fn) = some bs) (hbs : out[k]? = some bs) :
    Jumps ws out k fn target bs ↔ target ≠ k := by
  unfold generate at hgenerate
  dsimp only at hgenerate
  split_ifs at hgenerate with hzero
  · cases hgenerate
    have hnowhere : st.dist k = 0 := by
      by_contra hne
      rw [if_neg (fun h => hne h.2), hzero.2] at hlen
      exact (length_pos_prefixing ws fn.code (st.dist k)).ne hlen
    obtain ⟨hjumps, hne⟩ := jumps_vanished hposition hdist hnowhere hk hzero.2
    exact iff_of_true hjumps hne
  · cases hgenerate
    have hrecorded : recordedLength st k (.ujump target fn) =
        (prefixing ws fn.code (st.dist k)).length := by
      change st.instLen k = _
      rw [hlen, if_neg]
      intro hj
      rw [if_pos hj] at hlen
      exact hzero ⟨hj.1, hlen⟩
    have hjumps : Jumps ws out k fn target (List.replicate 0 _ ++ _) ↔ _ :=
      jumps_distance_iff hws hposition hdist hk hbs
    rw [List.replicate_zero, List.nil_append] at hjumps
    rw [hjumps]
    refine ⟨fun hd heq => ?_, fun hne heq => absurd heq hne⟩
    have hdvd := hd heq
    rw [jumpDistance, if_pos heq] at hdist
    have hone : (prefixing ws fn.code (st.dist k)).length ≤ 1 :=
      hdist ▸ length_prefixing_of_nonneg (k := 0) (by decide) (by decide)
        (by simpa using pow_le_pow_right₀ (a := (2 : ℤ)) (by decide) (by omega : 1 ≤ 8 * ws - 1))
    have hpos := length_pos_prefixing ws fn.code (st.dist k)
    rw [hrecorded] at hdvd
    exact pow_bound (n := (prefixing ws fn.code (st.dist k)).length + 2) hws (by omega) (by omega)
      (by exact_mod_cast hdvd)

/-- The distance of a label's own entry falls short by the `ldc`. -/
theorem loadsLabel_iff_ne (hk : h[k]? = some (.loadLabel target))
    (hdist : st.dist k = labelDistance (lengths st h) k target)
    (hlen : st.instLen k = (prefixing ws ldc (st.dist k) ++ prefixing ws op ldpi).length)
    (hbs : out[k]? = some (prefixing ws ldc (st.dist k) ++ prefixing ws op ldpi)) :
    LoadsLabel ws out k target (prefixing ws ldc (st.dist k) ++ prefixing ws op ldpi) ↔
      target ≠ k := by
  have hsucc := offset_succ (getElem?_lengths st hk)
  have hloads : LoadsLabel ws out k target (List.replicate 0 _ ++ _ ++ _) ↔ _ :=
    loadsLabel_iff hws hbs
  rw [List.replicate_zero, List.nil_append] at hloads
  rw [hloads, hposition, hposition, hdist, labelDistance]
  split_ifs with heq
  · refine ⟨fun hmod => ?_, fun hne => absurd heq hne⟩
    rw [heq, hsucc, Int.modEq_comm, Int.modEq_iff_dvd] at hmod
    have hldpi : (prefixing ws op ldpi).length = 2 :=
      length_prefixing_op hws (by decide) (by decide)
    have hpow : (2 : ℤ) ^ 7 ≤ 2 ^ (8 * ws - 1) := pow_le_pow_right₀ (by decide) (by omega)
    rw [labelDistance, if_pos heq] at hdist
    have htwo : (prefixing ws ldc (st.dist k)).length ≤ 2 :=
      hdist ▸ length_prefixing_le (k := 0) (by decide) (by decide) (by
        rw [show |(-2 : ℤ)| = 2 from rfl]
        omega)
    have hpos := length_pos_prefixing ws ldc (st.dist k)
    have hrecorded : recordedLength st k (.loadLabel target) =
        (prefixing ws ldc (st.dist k)).length + 2 := by
      rw [← hldpi, ← List.length_append]
      exact hlen
    rw [hrecorded] at hmod
    refine absurd ?_ (pow_bound (n := (prefixing ws ldc (st.dist k)).length) hws hpos (by omega))
    have hsub : ((offset (lengths st h) k + ((prefixing ws ldc (st.dist k)).length + 2) : ℕ) : ℤ)
        + -2 - offset (lengths st h) k = (prefixing ws ldc (st.dist k)).length := by
      push_cast
      ring
    rwa [hsub] at hmod
  · rw [add_sub_cancel]
    exact ⟨fun _ => heq, fun _ => rfl⟩

/-- `get-distance` has -2 where a difference starts right behind its end. -/
theorem loadsDifference_iff_dvd {start stop : ℕ} (hstop : stop < h.length)
    (hdist : st.dist k = gap (lengths st h) start stop)
    (hbs : out[k]? = some (prefixing ws ldc (st.dist k))) :
    LoadsDifference ws out k start stop (prefixing ws ldc (st.dist k)) ↔
      ∀ v, h[stop]? = some v → start = stop + 1 →
        (2 : ℤ) ^ (8 * ws) ∣ recordedLength st stop v + 2 := by
  have hloads : LoadsDifference ws out k start stop (List.replicate 0 _ ++ _) ↔ _ :=
    loadsDifference_iff hws hbs
  rw [List.replicate_zero, List.nil_append] at hloads
  rw [hloads, hposition, hposition, hdist, gap]
  have hget := List.getElem?_eq_getElem hstop
  split_ifs with heq
  · rw [heq, offset_succ (getElem?_lengths st hget), Nat.cast_add, add_sub_cancel_left,
      Nat.abs_cast, Int.modEq_iff_dvd, sub_neg_eq_add]
    refine ⟨fun hd v hv _ => ?_, fun hd => hd _ hget rfl⟩
    rw [hget] at hv
    exact Option.some.inj hv ▸ hd
  · exact ⟨fun _ v _ h => absurd h heq, fun _ => rfl⟩

omit hws

/-- What an align leaves out of the sum: the first entry and the one before it. -/
theorem sound_align_iff {value : ℕ} (hk : h[k]? = some (.align value))
    (hmod : (st.instLen k : ℤ) ≡
      -(if k = 0 then 0 else gap (lengths st h) 1 (k - 1)) [ZMOD 2 ^ value]) :
    2 ^ value ∣ position out (k + 1) ↔ EntrySound ws h st k (.align value) := by
  have hlt := (List.getElem?_eq_some_iff.mp hk).1
  have hsucc := offset_succ (getElem?_lengths st hk)
  have hfirst := List.getElem?_eq_getElem ((Nat.zero_le k).trans_lt hlt)
  have hlast := List.getElem?_eq_getElem ((Nat.sub_le k 1).trans_lt hlt)
  have hcast : 2 ^ value ∣ position out (k + 1) ↔
      (2 : ℤ) ^ value ∣ (offset (lengths st h) k : ℤ) -
        (if k = 0 then 0 else gap (lengths st h) 1 (k - 1)) := by
    have hpos : (position out (k + 1) : ℤ) = offset (lengths st h) k + st.instLen k := by
      rw [hposition, hsucc]
      push_cast
      rfl
    rw [← Int.natCast_dvd_natCast, hpos, Nat.cast_pow, Nat.cast_two, ← Int.modEq_zero_iff_dvd,
      ← Int.modEq_zero_iff_dvd, sub_eq_add_neg]
    exact ⟨fun hd => (hmod.symm.add_left _).trans hd, fun hd => (hmod.add_left _).trans hd⟩
  have hone : offset (lengths st h) 1 = recordedLength st 0 h[0] := by
    rw [offset_succ (k := 0) (getElem?_lengths st hfirst), offset_zero, zero_add]
  have hentry : EntrySound ws h st k (.align value) ↔ k = 0 ∨
      (2 : ℤ) ^ value ∣ recordedLength st 0 h[0] +
        if k = 1 then 2 else (recordedLength st (k - 1) h[k - 1] : ℤ) := by
    refine ⟨fun hd => hd _ _ hfirst hlast, fun hd first last hf hl => ?_⟩
    rw [hfirst] at hf
    rw [hlast] at hl
    cases hf
    cases hl
    exact hd
  rw [hcast, hentry]
  rcases Nat.lt_or_ge k 2 with hsmall | hlarge
  · interval_cases k
    · exact ⟨fun _ => Or.inl rfl, fun _ => by simp⟩
    · rw [if_neg (by decide), gap, if_pos rfl, hone, if_pos rfl, sub_neg_eq_add]
      exact ⟨Or.inr, fun hd => hd.resolve_left (by decide)⟩
  · have hprev := offset_succ (getElem?_lengths st hlast)
    rw [Nat.sub_add_cancel (by omega)] at hprev
    rw [if_neg (by omega), if_neg (by omega), gap_of_le (by omega), hone, hprev]
    have hsub : ((offset (lengths st h) (k - 1) + recordedLength st (k - 1) h[k - 1] : ℕ) : ℤ) -
        (offset (lengths st h) (k - 1) - recordedLength st 0 h[0]) =
          recordedLength st 0 h[0] + recordedLength st (k - 1) h[k - 1] := by
      push_cast
      ring
    rw [hsub]
    exact ⟨Or.inr, fun hd => hd.resolve_left (by omega)⟩

end resolved

/-- **What an entry of the table has become.** -/
theorem resolved_iff (hws : 0 < ws) (hh : NoStubs h) (hsettled : Settled ws h st order)
    (hposition : ∀ i, position out i = offset (lengths st h) i) (hk : h[k]? = some v)
    (hnames : NamesLt globalnames h.length v) (horder : k ∈ order)
    (hgenerate : generate ws st k v = some bs) (hbs : out[k]? = some bs) (hkept : Kept st k v) :
    Resolved ws globalnames out k bs v ↔ EntrySound ws h st k v := by
  have hlt := (List.getElem?_eq_some_iff.mp hk).1
  have hat := hsettled.2 k horder v hk
  cases v with
  | binary value =>
    cases hgenerate
    exact ⟨fun _ => trivial, fun _ => rfl⟩
  | ujump target fn =>
    obtain ⟨t, ht, hname⟩ := hnames _ (List.mem_singleton.mpr rfl)
    cases hname
    obtain ⟨hdist, hlen⟩ := calculated_jump hh hlt ht
      (l := fun distance => (prefixing ws fn.code distance).length) hat
    exact jumps_iff_ne hws hposition hk hdist hlen hgenerate hbs
  | fjump target fn len =>
    obtain ⟨t, ht, hname⟩ := hnames _ (List.mem_singleton.mpr rfl)
    cases hname
    obtain ⟨hdist, hlen⟩ := calculated_jump hh hlt ht (f := fn) (l := fun _ => len) hat
    rw [if_neg hkept] at hlen
    have hbytes := eq_of_pad hgenerate
    rw [hbytes] at hbs ⊢
    change Jumps ws out k fn target _ ↔ (target = k → (2 : ℤ) ^ (8 * ws) ∣ len + 2)
    rw [jumps_distance_iff hws hposition hdist hk hbs, recordedLength, hlen]
    exact fun _ h => by cases h
  | loadLabel target =>
    obtain ⟨t, ht, hname⟩ := hnames _ (List.mem_singleton.mpr rfl)
    cases hname
    obtain ⟨hdist, hlen⟩ := calculated_label hh hlt ht hat
    cases hgenerate
    exact loadsLabel_iff_ne hws hposition hk hdist hlen hbs
  | loadLabelDifference start stop =>
    obtain ⟨s, hs, hname⟩ := hnames (some start) List.mem_cons_self
    cases hname
    obtain ⟨e, he, hname⟩ := hnames (some stop) (List.mem_cons_of_mem _ List.mem_cons_self)
    cases hname
    obtain ⟨hdist, -⟩ := calculated_difference hh hs.le he.le hat
    cases hgenerate
    exact loadsDifference_iff_dvd hws hposition he hdist hbs
  | align value => exact sound_align_iff hposition hk (calculated_align hh hlt hat)
  | stubname value => cases hgenerate
  | ffiStubname value => cases hgenerate

/-- Bytes as long as recorded put every entry where the recorded lengths do. -/
theorem position_of_lengths (hlen : out.length = h.length)
    (hrecorded : ∀ k v bs, h[k]? = some v → out[k]? = some bs → bs.length = recordedLength st k v)
    (i : ℕ) : position out i = offset (lengths st h) i := by
  rw [position_eq]
  congr 1
  refine List.ext_getElem? fun k => ?_
  rw [List.getElem?_map]
  cases hk : h[k]? with
  | none =>
    have hge := List.getElem?_eq_none_iff.mp hk
    rw [List.getElem?_eq_none (hlen ▸ hge), List.getElem?_eq_none (by
      rw [lengths, List.length_mapIdx]
      exact hge)]
    rfl
  | some v =>
    obtain ⟨bs, hbs⟩ : ∃ bs, out[k]? = some bs :=
      ⟨_, List.getElem?_eq_getElem (hlen ▸ (List.getElem?_eq_some_iff.mp hk).1)⟩
    rw [hbs, getElem?_lengths st hk, Option.map_some, hrecorded k v bs hk hbs]

/-- **slinker's optimal prefixing**, when its loop ends because nothing changed, writes entries of
the recorded lengths and resolves every reference exactly if the tables it ends with are `Sound`. -/
theorem generates_iff (hws : 0 < ws) (t : Table globalnames) (hh : NoStubs t.entries)
    (horder : order.Perm (List.range t.entries.length)) {left : ℕ}
    (hloop : mainLoop ws t.entries order left st' = some st) (hst : st.changed = false) :
    (∃ out, generateBinary ws st t.entries = some out ∧
      (∀ k v bs, t.entries[k]? = some v → out[k]? = some bs →
        bs.length = recordedLength st k v) ∧ Resolves ws globalnames t.entries out) ↔
      Sound ws t.entries st := by
  have hsettled := settled_of_mainLoop hloop hst
  have hmem : ∀ (k : ℕ) (v : Entry), t.entries[k]? = some v → k ∈ order := fun k v hk =>
    horder.mem_iff.mpr (List.mem_range.mpr (List.getElem?_eq_some_iff.mp hk).1)
  have hnames : ∀ (k : ℕ) (v : Entry), t.entries[k]? = some v →
      NamesLt globalnames t.entries.length v := fun k v hk => t.names_lt v (List.mem_of_getElem? hk)
  constructor
  · rintro ⟨out, hout, hrecorded, hlen, hentry⟩
    have hbytes : ∀ (k : ℕ) (v : Entry), t.entries[k]? = some v →
        ∃ bs, out[k]? = some bs ∧ generate ws st k v = some bs := fun k v hk =>
      ⟨_, List.getElem?_eq_getElem (hlen ▸ (List.getElem?_eq_some_iff.mp hk).1),
        (getElem?_of_forEach hout hk).trans
          (List.getElem?_eq_getElem (hlen ▸ (List.getElem?_eq_some_iff.mp hk).1))⟩
    have hkept : ∀ (k : ℕ) (v : Entry), t.entries[k]? = some v → Kept st k v := fun k v hk => by
      obtain ⟨bs, hbs, hgenerate⟩ := hbytes k v hk
      exact (length_generate hh (hsettled.recorded (hmem k v hk) hk) hk (hnames k v hk)
        hgenerate).mp
        (hrecorded k v bs hk hbs)
    have hsound : ∀ (k : ℕ) (v : Entry), t.entries[k]? = some v →
        EntrySound ws t.entries st k v := fun k v hk => by
      obtain ⟨bs, hbs, hgenerate⟩ := hbytes k v hk
      exact (resolved_iff hws hh hsettled (position_of_lengths hlen hrecorded) hk (hnames k v hk)
        (hmem k v hk) hgenerate hbs (hkept k v hk)).mp (hentry k v bs hk hbs)
    refine ⟨fun k target fn len hk => ⟨hkept k _ hk, ?_, hsound k _ hk⟩,
      fun k target fn hk => hsound k _ hk, fun k target hk => hsound k _ hk,
      fun k start stop v hk => hsound k _ hk v,
      fun k value first last hk => hsound k _ hk first last⟩
    obtain ⟨bs, -, hgenerate⟩ := hbytes k _ hk
    exact (generate_isSome_iff hh hk).mp (Option.isSome_iff_exists.mpr ⟨bs, hgenerate⟩)
  · intro hsound
    have hkept : ∀ (k : ℕ) (v : Entry), t.entries[k]? = some v →
        Kept st k v ∧ Room ws st k v ∧ EntrySound ws t.entries st k v := fun k v hk => by
      cases v with
      | fjump target fn len => exact hsound.fjump k target fn len hk
      | ujump target fn => exact ⟨trivial, trivial, hsound.ujump k target fn hk⟩
      | loadLabel target => exact ⟨trivial, trivial, hsound.loadLabel k target hk⟩
      | loadLabelDifference start stop =>
        exact ⟨trivial, trivial, fun v => hsound.difference k start stop v hk⟩
      | align value =>
        exact ⟨trivial, trivial, fun first last => hsound.align k value first last hk⟩
      | _ => exact ⟨trivial, trivial, trivial⟩
    obtain ⟨out, hout⟩ := forEach_isSome (f := generate ws st) (k := 0)
      fun k (v : Entry) (hk : t.entries[k]? = some v) => by
        rw [zero_add]
        exact (generate_isSome_iff hh hk).mpr (hkept k v hk).2.1
    have hgenerate : ∀ (k : ℕ) (v : Entry) (bs : List ℕ), t.entries[k]? = some v →
        out[k]? = some bs → generate ws st k v = some bs := fun k v bs hk hbs =>
      (getElem?_of_forEach hout hk).trans hbs
    have hrecorded : ∀ (k : ℕ) (v : Entry) (bs : List ℕ), t.entries[k]? = some v →
        out[k]? = some bs → bs.length = recordedLength st k v := fun k v bs hk hbs =>
      (length_generate hh (hsettled.recorded (hmem k v hk) hk) hk (hnames k v hk)
        (hgenerate k v bs hk hbs)).mpr (hkept k v hk).1
    have hlen := length_of_forEach hout
    refine ⟨out, hout, hrecorded, hlen, fun k v bs hk hbs => ?_⟩
    exact (resolved_iff hws hh hsettled (position_of_lengths hlen hrecorded) hk (hnames k v hk)
      (hmem k v hk) (hgenerate k v bs hk hbs) hbs (hkept k v hk).1).mpr (hkept k v hk).2.2

/-- A jump over a load of its own address and a padded jump back, and the distance between two of
them. -/
def fourRefs : Table (fun _ => none) where
  entries := [.ujump 3 .j, .loadLabel 0, .fjump 0 .j 8, .binary [0x40], .loadLabelDifference 1 3]
  names_lt := by decide

/-- The encodings at the distances that the loop tries. -/
theorem prefixing_fourRefs :
    prefixing 4 j 11 = [0x0B] ∧ prefixing 4 j 12 = [0x0C] ∧ prefixing 4 ldc 0 = [0x40] ∧
      prefixing 4 ldc (-4) = [0x60, 0x4C] ∧ prefixing 4 ldc (-5) = [0x60, 0x4B] ∧
      prefixing 4 ldc 11 = [0x4B] ∧ prefixing 4 ldc 12 = [0x4C] ∧
      prefixing 4 op ldpi = [0x21, 0xFB] ∧ prefixing 4 j (-13) = [0x60, 0x03] := by
  refine ⟨?_, ?_, ?_, ?_, ?_, ?_, ?_, ?_, ?_⟩ <;>
    simp [prefixing, adjust, bitwiseMattnot, pfix, nfix, ldc, op, j, ldpi]

/-- The distances and lengths that the loop ends with. -/
def fourRefsState : State where
  dist
    | 0 => 12
    | 1 => -5
    | 2 => -13
    | 4 => 12
    | _ => 0
  instLen
    | 0 => 1
    | 1 => 4
    | 2 => 8
    | 4 => 1
    | _ => 0
  changed := false

/-- The third round changes nothing. -/
theorem mainLoop_fourRefs : mainLoop 4 fourRefs.entries (List.range 5) 3 State.empty =
    some fourRefsState := by
  obtain ⟨h₀, h₁, h₂, h₃, h₄, h₅, h₆, h₇, -⟩ := prefixing_fourRefs
  simp only [mainLoop, calculate, calculateLoop, calculateAt, calculateJump, State.set,
    State.empty, JumpFn.code, fourRefs, List.range, List.range.loop]
  simp [getDistance, distanceLoop, lengthAt, h₀, h₁, h₂, h₃, h₄, h₅, h₆, h₇]
  rw [fourRefsState, State.mk.injEq]
  refine ⟨?_, ?_, rfl⟩
  all_goals
    funext k
    rcases k with _ | _ | _ | _ | _ | k <;> rfl

/-- The binary of the four references: each lands where it names. -/
theorem generates_iff_fourRefs : ∃ out,
    generateBinary 4 fourRefsState fourRefs.entries = some out ∧
    (∀ k v bs, fourRefs.entries[k]? = some v → out[k]? = some bs →
      bs.length = recordedLength fourRefsState k v) ∧
    Resolves 4 (fun _ => none) fourRefs.entries out := by
  refine (generates_iff (Nat.succ_pos 3) fourRefs ?_ (List.Perm.refl _) mainLoop_fourRefs rfl).mpr
    ⟨fun k target fn len hk => ?_, fun k target fn hk => ?_, fun k target hk => ?_,
      fun k start stop v hk _ => ?_, fun k value first last hk => ?_⟩
  · intro v hv
    simp only [fourRefs, List.mem_cons, List.not_mem_nil, or_false] at hv
    rcases hv with rfl | rfl | rfl | rfl | rfl <;> exact ⟨nofun, nofun⟩
  all_goals
    have hlt : k < 5 := (List.getElem?_eq_some_iff.mp hk).1
    interval_cases k <;> cases hk
  · have hback : prefixing 4 j (-13) = [0x60, 0x03] := prefixing_fourRefs.2.2.2.2.2.2.2.2
    refine ⟨fun h => absurd h.2 (by decide), ?_, nofun⟩
    change (prefixing 4 j (-13)).length ≤ 8
    rw [hback]
    decide
  · exact nofun
  · exact nofun
  · exact nofun

/-- **A jump to itself** is two bytes off the other way: `WHILE TRUE SKIP` runs on. -/
theorem not_generates_selfJump : ∃ st, mainLoop 4 [.ujump 0 .j] [0] 1 State.empty = some st ∧
    st.changed = false ∧
    ¬ ∃ out, generateBinary 4 st [.ujump 0 .j] = some out ∧
      (∀ (k : ℕ) (v : Entry) (bs : List ℕ), [Entry.ujump 0 .j][k]? = some v → out[k]? = some bs →
        bs.length = recordedLength st k v) ∧ Resolves 4 (fun _ => none) [.ujump 0 .j] out := by
  have hloop : mainLoop 4 [.ujump 0 .j] [0] 1 State.empty =
      some ⟨Function.update (fun _ => 0) 0 2,
        Function.update (fun _ => 0) 0 (prefixing 4 j 2).length, false⟩ := by
    simp [mainLoop, calculate, calculateLoop, calculateAt, calculateJump, getDistance, State.set,
      State.empty, JumpFn.code]
  have hh : NoStubs [.ujump 0 .j] := by
    intro v hv
    rw [List.mem_singleton.mp hv]
    exact ⟨fun _ h => Entry.noConfusion h, fun _ h => Entry.noConfusion h⟩
  have hnames : NamesLt (fun _ => none) 1 (.ujump 0 .j) := by
    intro name hname
    exact ⟨0, Nat.one_pos, List.mem_singleton.mp hname⟩
  refine ⟨_, hloop, rfl, ?_⟩
  rintro ⟨out, hout, hrecorded, hlen, hentry⟩
  have hbs := List.getElem?_eq_getElem (l := out) (i := 0) (hlen ▸ Nat.one_pos)
  have hsound := (resolved_iff (Nat.succ_pos 3) hh (settled_of_mainLoop hloop rfl)
    (position_of_lengths hlen hrecorded) (k := 0) rfl hnames List.mem_cons_self
    ((getElem?_of_forEach hout rfl).trans hbs) hbs trivial).mp (hentry 0 _ _ rfl hbs)
  exact hsound rfl

end Optimal

end Slinker

end Kroc
