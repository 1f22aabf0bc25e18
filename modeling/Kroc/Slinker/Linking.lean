import Kroc.Slinker.Table

/-!
# Slinker/Linking — linking with padded prefixes

`build-get-distance-cache`, its partial form and `get-distance` of `slinker/helpers.ss`, and the
passes of `eight-backend.ss` that use them, in its order: `insert-alignment`, `load-labels2binary`,
`expand-ffi-stubnames`, `resolve-stubnames-picky` and `jumps2binary`.  An error is `none`.

The distances come from the lengths that the entries are assumed to have; `finalLength` is what they
get.  The two differ for the foreign stubs of a small word, and `get-distance` does not measure what
three of its callers need: `Sound` says for which tables nothing of this matters.
-/

open Offsets

namespace Kroc

namespace Slinker

/-! ## Distances -/

/-- The length `build-get-distance-cache-partial` takes an entry to have; an `align` is an error. -/
def cacheLength (ws : ℕ) : Entry → Option ℕ
  | .binary value => some value.length
  | .loadLabel _ => some (2 + 2 * ws)
  | .loadLabelDifference _ _ | .ujump _ _ | .fjump _ _ _ => some (2 * ws)
  | .stubname _ => some (2 * ws)
  | .ffiStubname _ => some (2 * ws)
  | .align _ => none

/-- The loop of `build-get-distance-cache-partial`; `cache` has the distances set so far. -/
def buildLoop (ws : ℕ) : ℕ → List ℕ → List Entry → Option (List ℕ)
  | _, cache, [] => some cache
  | dist, cache, obj :: objs =>
    match cacheLength ws obj with
    | none => none
    | some len => buildLoop ws (dist + len) (cache ++ [dist + len]) objs

/-- `build-get-distance-cache-partial`, of the entries `start … stop - 1`. -/
def buildGetDistanceCachePartial (ws : ℕ) (instVect : List Entry) (cache : List ℕ)
    (start stop : ℕ) : Option (List ℕ) :=
  let objs := (instVect.drop start).take (stop - start)
  if start = 0 then buildLoop ws 0 [] objs
  else
    match cache[start - 1]? with
    | none => none
    | some dist => buildLoop ws dist (cache.take start) objs

/-- `build-get-distance-cache` -/
def buildGetDistanceCache (ws : ℕ) (h : List Entry) : Option (List ℕ) :=
  buildGetDistanceCachePartial ws h [] 0 h.length

/-- `get-distance`; a `vector-ref` outside the cache is an error. -/
def getDistance (ws : ℕ) (cache : List ℕ) (start stop : ℤ) : Option ℕ :=
  if start < 0 then none
  else
    match cache[start.toNat]?, if stop = 0 then some 0 else cache[(stop - 1).toNat]? with
    | some s, some e =>
      let dist := ((s : ℤ) - e).natAbs
      some (if start = stop then 2 * ws else dist)
    | _, _ => none

/-! ## The passes -/

/-- `do-align` over the vector, from the entry behind `vec`. -/
def insertAlignmentLoop (ws : ℕ) (vec : List Entry) (cache : List ℕ) (lastAlignedInst : ℕ) :
    List Entry → Option (List Entry)
  | [] => some vec
  | inst :: insts =>
    match inst with
    | .align value =>
      let pos := vec.length
      match buildGetDistanceCachePartial ws vec cache lastAlignedInst pos with
      | none => none
      | some cache =>
        if lastAlignedInst = pos then
          insertAlignmentLoop ws (vec ++ [.binary []]) cache pos insts
        else
          match getDistance ws cache 0 pos with
          | none => none
          | some dist =>
            let alignAmount := 2 ^ value
            let padDist := (alignAmount - dist % alignAmount) % alignAmount
            insertAlignmentLoop ws (vec ++ [.binary (List.replicate padDist 0)]) cache pos insts
    | inst => insertAlignmentLoop ws (vec ++ [inst]) cache lastAlignedInst insts

/-- `insert-alignment` -/
def insertAlignment (ws : ℕ) (h : List Entry) : Option (List Entry) :=
  insertAlignmentLoop ws [] [] 0 h

/-- `hash-table-for-each` with a `hash-table-put!` of the key it is at. -/
def forEach {α β : Type*} (f : ℕ → α → Option β) : ℕ → List α → Option (List β)
  | _, [] => some []
  | k, v :: vs =>
    match f k v, forEach f (k + 1) vs with
    | some v', some vs' => some (v' :: vs')
    | _, _ => none

/-- What `load-labels2binary` puts at a key. -/
def loadLabel2binary (ws : ℕ) (cache : List ℕ) (k : ℕ) : Entry → Option Entry
  | .loadLabel target =>
    match getDistance ws cache k target with
    | none => none
    | some dist =>
      let offset : ℤ := if target < k then -1 * dist else dist
      (pad (prefixing ws ldc offset) (2 * ws)).map fun bs => .binary (bs ++ prefixing ws op ldpi)
  | .loadLabelDifference start stop =>
    match getDistance ws cache (start - 1) stop with
    | none => none
    | some dist => (pad (prefixing ws ldc dist) (2 * ws)).map .binary
  | v => some v

/-- `load-labels2binary` -/
def loadLabels2binary (ws : ℕ) (h : List Entry) : Option (List Entry) :=
  match buildGetDistanceCache ws h with
  | none => none
  | some cache => forEach (loadLabel2binary ws cache) 0 h

/-- What `expand-ffi-stubnames` puts at a key; `ffiIndex` is `get-ffi-index`. -/
def expandFfiStubname (ws : ℕ) (ffiIndex : List ℕ → ℤ) : Entry → Option Entry
  | .ffiStubname value =>
    (pad (prefixing ws ldc (ffiIndex value)) 6).map fun bs =>
      .binary (bs ++ prefixing ws op fficall)
  | v => some v

/-- `expand-ffi-stubnames` -/
def expandFfiStubnames (ws : ℕ) (ffiIndex : List ℕ → ℤ) (h : List Entry) : Option (List Entry) :=
  forEach (fun _ => expandFfiStubname ws ffiIndex) 0 h

/-- What `resolve-stubnames-picky` puts at a key. -/
def resolveStubname (ws : ℕ) (globalnames : List ℕ → Option ℕ) : Entry → Option Entry
  | .stubname value => (globalnames value).map fun newTarget => .fjump newTarget .j (2 * ws)
  | v => some v

/-- `resolve-stubnames-picky` -/
def resolveStubnamesPicky (ws : ℕ) (globalnames : List ℕ → Option ℕ) (h : List Entry) :
    Option (List Entry) :=
  forEach (fun _ => resolveStubname ws globalnames) 0 h

/-- What `jumps2binary` puts at a key; an `fjump` is a `ujump`. -/
def jump2binary (ws : ℕ) (cache : List ℕ) (k : ℕ) : Entry → Option Entry
  | .ujump value fn | .fjump value fn _ =>
    match getDistance ws cache k value with
    | none => none
    | some dist =>
      let distance : ℤ := if value ≤ k then -1 * dist else dist
      (pad (prefixing ws fn.code distance) (2 * ws)).map .binary
  | v => some v

/-- `jumps2binary` -/
def jumps2binary (ws : ℕ) (h : List Entry) : Option (List Entry) :=
  match buildGetDistanceCache ws h with
  | none => none
  | some cache => forEach (jump2binary ws cache) 0 h

/-- `binary-value`, which nothing else has. -/
def Entry.binaryValue : Entry → Option (List ℕ)
  | .binary value => some value
  | _ => none

/-- The passes, and the bytes that are left. -/
def link (ws : ℕ) (globalnames : List ℕ → Option ℕ) (ffiIndex : List ℕ → ℤ) (h : List Entry) :
    Option (List (List ℕ)) := do
  let h ← insertAlignment ws h
  let h ← loadLabels2binary ws h
  let h ← expandFfiStubnames ws ffiIndex h
  let h ← resolveStubnamesPicky ws globalnames h
  let h ← jumps2binary ws h
  forEach (fun _ v => v.binaryValue) 0 h

variable {ws : ℕ} {globalnames : List ℕ → Option ℕ} {ffiIndex : List ℕ → ℤ} {h h' : List Entry}
  {v : Entry} {k n start stop target value : ℕ}

/-! ## What a pass does -/

/-- **A pass makes something of every entry**, each at its key. -/
theorem forEach_eq_some_iff {α β : Type*} {f : ℕ → α → Option β} {k : ℕ} {vs : List α}
    {vs' : List β} : forEach f k vs = some vs' ↔
      vs'.length = vs.length ∧ ∀ i v, vs[i]? = some v → f (k + i) v = vs'[i]? := by
  induction vs generalizing k vs' with
  | nil =>
    rw [forEach, Option.some_inj, List.length_nil, List.length_eq_zero_iff]
    exact ⟨fun h => ⟨h.symm, fun i v hi => by simp at hi⟩, fun h => h.1.symm⟩
  | cons v vs ih =>
    rw [forEach]
    cases hv : f k v with
    | none =>
      refine ⟨fun h => (by cases h), fun h => ?_⟩
      have hfirst := h.2 0 v rfl
      rw [add_zero, hv] at hfirst
      have hlen := List.getElem?_eq_none_iff.mp hfirst.symm
      have := h.1
      rw [List.length_cons] at this
      omega
    | some v' =>
      cases hvs : forEach f (k + 1) vs with
      | none =>
        refine ⟨fun h => (by cases h), fun h => ?_⟩
        obtain ⟨w, ws, rfl⟩ := List.exists_cons_of_length_eq_add_one h.1
        have : forEach f (k + 1) vs = some ws :=
          ih.mpr ⟨Nat.succ.inj h.1, fun i u hi => by
            have := h.2 (i + 1) u hi
            rwa [← add_assoc, add_right_comm] at this⟩
        rw [hvs] at this
        cases this
      | some ws =>
        obtain ⟨hlen, hget⟩ := ih.mp hvs
        dsimp only
        rw [Option.some_inj]
        constructor
        · rintro rfl
          refine ⟨congrArg Nat.succ hlen, fun i u hi => ?_⟩
          cases i with
          | zero =>
            cases hi
            exact hv
          | succ i =>
            have := hget i u hi
            rwa [add_assoc, add_comm 1] at this
        · intro h
          obtain ⟨w, ws', rfl⟩ := List.exists_cons_of_length_eq_add_one h.1
          have hfirst := h.2 0 v rfl
          rw [add_zero, hv, List.getElem?_cons_zero, Option.some_inj] at hfirst
          have hrest : forEach f (k + 1) vs = some ws' :=
            ih.mpr ⟨Nat.succ.inj h.1, fun i u hi => by
              have := h.2 (i + 1) u hi
              rwa [← add_assoc, add_right_comm] at this⟩
          rw [hvs, Option.some_inj] at hrest
          rw [hfirst, hrest]

theorem length_of_forEach {α β : Type*} {f : ℕ → α → Option β} {vs : List α} {vs' : List β}
    (h : forEach f 0 vs = some vs') : vs'.length = vs.length := (forEach_eq_some_iff.mp h).1

theorem getElem?_of_forEach {α β : Type*} {f : ℕ → α → Option β} {vs : List α} {vs' : List β}
    (h : forEach f 0 vs = some vs') {k : ℕ} {v : α} (hk : vs[k]? = some v) : f k v = vs'[k]? := by
  have := (forEach_eq_some_iff.mp h).2 k v hk
  rwa [zero_add] at this

theorem forEach_isSome {α β : Type*} {f : ℕ → α → Option β} {k : ℕ} {vs : List α}
    (hsome : ∀ i v, vs[i]? = some v → (f (k + i) v).isSome) :
    ∃ vs', forEach f k vs = some vs' := by
  induction vs generalizing k with
  | nil => exact ⟨[], rfl⟩
  | cons v vs ih =>
    obtain ⟨v', hv⟩ := Option.isSome_iff_exists.mp (hsome 0 v rfl)
    obtain ⟨vs', hvs⟩ := ih (k := k + 1) fun i u hi => by
      have := hsome (i + 1) u hi
      rwa [← add_assoc, add_right_comm] at this
    rw [add_zero] at hv
    exact ⟨v' :: vs', by rw [forEach, hv, hvs]⟩

/-! ## The cache -/

/-- The lengths of the cache; no `align` has any. -/
def assumedLength (ws : ℕ) (v : Entry) : ℕ := (cacheLength ws v).getD 0

/-- No `align` is left. -/
def Aligned (h : List Entry) : Prop := ∀ v ∈ h, ∀ value, v ≠ .align value

/-- The first `n` entries of the cache. -/
def cumulative (l : List ℕ) (n : ℕ) : List ℕ := (List.range n).map fun i => offset l (i + 1)

theorem getElem?_cumulative (l : List ℕ) (hk : k < n) :
    (cumulative l n)[k]? = some (offset l (k + 1)) := by
  rw [cumulative, List.getElem?_map, List.getElem?_range hk, Option.map_some]

theorem cumulative_succ (l : List ℕ) (n : ℕ) :
    cumulative l (n + 1) = cumulative l n ++ [offset l (n + 1)] := by
  rw [cumulative, List.range_succ, List.map_append]
  rfl

theorem take_cumulative (l : List ℕ) (n : ℕ) : (cumulative l n).take n = cumulative l n := by
  rw [List.take_of_length_le]
  rw [cumulative, List.length_map, List.length_range]

theorem cacheLength_eq (hv : ∀ value, v ≠ .align value) :
    cacheLength ws v = some (assumedLength ws v) := by
  cases v with
  | align value => exact absurd rfl (hv value)
  | _ => rfl

variable (ws) in
theorem buildLoop_eq (hh : Aligned h) : ∀ {c a : ℕ}, a + c ≤ h.length →
    buildLoop ws (offset (h.map (assumedLength ws)) a) (cumulative (h.map (assumedLength ws)) a)
      ((h.drop a).take c) = some (cumulative (h.map (assumedLength ws)) (a + c)) := by
  intro c
  induction c with
  | zero => exact fun _ => rfl
  | succ c ih =>
    intro a hac
    obtain ⟨v, hv⟩ : ∃ v, h[a]? = some v := ⟨_, List.getElem?_eq_getElem (by omega)⟩
    have hdrop : h.drop a = v :: h.drop (a + 1) := by
      obtain ⟨hlt, hget⟩ := List.getElem?_eq_some_iff.mp hv
      rw [List.drop_eq_getElem_cons hlt, hget]
    have hsucc := offset_succ (l := h.map (assumedLength ws)) (k := a) (n := assumedLength ws v)
      (by rw [List.getElem?_map, hv, Option.map_some])
    rw [hdrop, List.take_succ_cons, buildLoop, cacheLength_eq (hh v (List.mem_of_getElem? hv))]
    dsimp only
    rw [← hsucc, ← cumulative_succ, ih (by omega), add_assoc, add_comm 1]

/-- **The partial cache goes on from the one before.** -/
theorem buildGetDistanceCachePartial_eq (hh : Aligned h) {a b : ℕ} (hab : a ≤ b)
    (hb : b ≤ h.length) :
    buildGetDistanceCachePartial ws h (cumulative (h.map (assumedLength ws)) a) a b =
      some (cumulative (h.map (assumedLength ws)) b) := by
  have hloop := buildLoop_eq ws hh (c := b - a) (a := a) (by omega)
  rw [Nat.add_sub_cancel' hab] at hloop
  unfold buildGetDistanceCachePartial
  dsimp only
  split_ifs with ha
  · subst ha
    exact hloop
  · have hget := getElem?_cumulative (h.map (assumedLength ws)) (Nat.sub_one_lt ha)
    rw [Nat.sub_add_cancel (Nat.one_le_iff_ne_zero.mpr ha)] at hget
    rw [hget]
    dsimp only
    rw [take_cumulative]
    exact hloop

theorem buildGetDistanceCache_eq (hh : Aligned h) : buildGetDistanceCache ws h =
    some (cumulative (h.map (assumedLength ws)) h.length) :=
  buildGetDistanceCachePartial_eq hh (Nat.zero_le _) le_rfl

/-- What `get-distance` measures: from the end of `start` to the beginning of `stop`. -/
def distance (ws : ℕ) (l : List ℕ) (start stop : ℕ) : ℕ :=
  if start = stop then 2 * ws else ((offset l (start + 1) : ℤ) - offset l stop).natAbs

variable (ws) in
theorem getDistance_cumulative (l : List ℕ) (hstart : start < n) (hstop : stop ≤ n) :
    getDistance ws (cumulative l n) start stop = some (distance ws l start stop) := by
  have hs : (cumulative l n)[(start : ℤ).toNat]? = some (offset l (start + 1)) :=
    getElem?_cumulative l hstart
  have he : (if (stop : ℤ) = 0 then some 0 else (cumulative l n)[((stop : ℤ) - 1).toNat]?) =
      some (offset l stop) := by
    cases stop with
    | zero => rw [if_pos Nat.cast_zero, offset_zero]
    | succ stop =>
      rw [if_neg (by omega), show ((stop + 1 : ℕ) - 1 : ℤ).toNat = stop by omega]
      exact getElem?_cumulative l hstop
  rw [getDistance, if_neg (by omega), hs, he]
  dsimp only
  rw [distance]
  simp only [Nat.cast_inj]

/-! ## Alignment -/

/-- The zeros for an `align` behind `vec`: what entry 0 is followed by is filled up, not
the whole. -/
def padding (ws : ℕ) (vec : List Entry) (value : ℕ) : ℕ :=
  if vec = [] then 0
  else
    let l := vec.map (assumedLength ws)
    (2 ^ value - (offset l vec.length - offset l 1) % 2 ^ value) % 2 ^ value

/-- An entry behind `vec`, with its zeros. -/
def alignEntry (ws : ℕ) (vec : List Entry) : Entry → Entry
  | .align value => .binary (List.replicate (padding ws vec value) 0)
  | v => v

/-- The entries behind `vec`, with their zeros. -/
def alignedFrom (ws : ℕ) : List Entry → List Entry → List Entry
  | vec, [] => vec
  | vec, inst :: insts => alignedFrom ws (vec ++ [alignEntry ws vec inst]) insts

/-- The table after `insert-alignment`. -/
def aligned (ws : ℕ) (h : List Entry) : List Entry := alignedFrom ws [] h

theorem alignEntry_ne_align (vec : List Entry) (v : Entry) (value : ℕ) :
    alignEntry ws vec v ≠ .align value := by
  cases v <;> exact fun h => by cases h

theorem Aligned.append (hh : Aligned h) (v : Entry) : Aligned (h ++ [alignEntry ws h v]) := by
  intro u hu value
  rcases List.mem_append.mp hu with hu | hu
  · exact hh u hu value
  · rw [List.mem_singleton.mp hu]
    exact alignEntry_ne_align h v value

theorem aligned_alignedFrom (hh : Aligned h) : ∀ insts, Aligned (alignedFrom ws h insts) := by
  intro insts
  induction insts generalizing h with
  | nil => exact hh
  | cons inst insts ih => exact ih (hh.append inst)

variable (ws) in
/-- The entries of the table, aligned one by one. -/
theorem alignedFrom_eq : ∀ (insts vec : List Entry), ∃ ext, ext.length = insts.length ∧
    alignedFrom ws vec insts = vec ++ ext ∧ ∀ i v, insts[i]? = some v →
      ext[i]? = some (alignEntry ws (vec ++ ext.take i) v) := by
  intro insts
  induction insts with
  | nil => exact fun vec => ⟨[], rfl, (List.append_nil _).symm, fun i v hi => by simp at hi⟩
  | cons inst insts ih =>
    intro vec
    obtain ⟨ext, hlen, heq, hget⟩ := ih (vec ++ [alignEntry ws vec inst])
    refine ⟨alignEntry ws vec inst :: ext, congrArg Nat.succ hlen, ?_, fun i v hi => ?_⟩
    · rw [alignedFrom, heq, List.append_assoc, List.singleton_append]
    · cases i with
      | zero =>
        cases hi
        rw [List.take_zero, List.append_nil]
        rfl
      | succ i =>
        have := hget i v hi
        rwa [List.append_assoc, List.singleton_append] at this

theorem length_aligned (ws : ℕ) (h : List Entry) : (aligned ws h).length = h.length := by
  obtain ⟨ext, hlen, heq, -⟩ := alignedFrom_eq ws h []
  rw [aligned, heq, List.nil_append, hlen]

variable (ws) in
theorem getElem?_aligned (hk : h[k]? = some v) :
    (aligned ws h)[k]? = some (alignEntry ws ((aligned ws h).take k) v) := by
  obtain ⟨ext, -, heq, hget⟩ := alignedFrom_eq ws h []
  rw [aligned, heq, List.nil_append]
  exact hget k v hk

theorem aligned_aligned (ws : ℕ) (h : List Entry) : Aligned (aligned ws h) :=
  aligned_alignedFrom (fun _ hu => by cases hu) h

/-- The distance of `do-align`, when it measures one. -/
theorem getDistance_padding {vec : List Entry} (hvec : vec ≠ []) :
    getDistance ws (cumulative (vec.map (assumedLength ws)) vec.length) 0 vec.length =
      some (offset (vec.map (assumedLength ws)) vec.length -
        offset (vec.map (assumedLength ws)) 1) := by
  have hpos := List.length_pos_iff.mpr hvec
  have hget := getDistance_cumulative ws (vec.map (assumedLength ws)) hpos le_rfl
  rw [Nat.cast_zero] at hget
  rw [hget, distance, if_neg (by omega)]
  have := offset_mono (vec.map (assumedLength ws)) (i := 1) (j := vec.length) hpos
  congr 1
  rw [zero_add]
  omega

/-- **`insert-alignment` succeeds**, whatever the table. -/
theorem insertAlignmentLoop_eq : ∀ {insts vec : List Entry} {last : ℕ}, Aligned vec →
    last ≤ vec.length → (last = vec.length → vec = []) →
      insertAlignmentLoop ws vec (cumulative (vec.map (assumedLength ws)) last) last insts =
        some (alignedFrom ws vec insts) := by
  intro insts
  induction insts with
  | nil => exact fun _ _ _ => rfl
  | cons inst insts ih =>
    intro vec last hvec hlast hfirst
    have hnext : (vec ++ [alignEntry ws vec inst]).length = vec.length + 1 := by
      rw [List.length_append, List.length_singleton]
    have hcumulative : ∀ {a}, a ≤ vec.length →
        cumulative (vec.map (assumedLength ws)) a =
          cumulative ((vec ++ [alignEntry ws vec inst]).map (assumedLength ws)) a := by
      intro a ha
      refine List.map_congr_left fun i hi => ?_
      rw [List.map_append, offset_append_left]
      rw [List.length_map]
      have := List.mem_range.mp hi
      omega
    have hrest : ∀ {a}, a ≤ vec.length →
        insertAlignmentLoop ws (vec ++ [alignEntry ws vec inst])
          (cumulative (vec.map (assumedLength ws)) a) a insts =
            some (alignedFrom ws vec (inst :: insts)) := by
      intro a ha
      rw [hcumulative ha]
      exact ih (hvec.append inst) (by omega) (by omega)
    cases inst with
    | align value =>
      unfold insertAlignmentLoop
      dsimp only
      rw [buildGetDistanceCachePartial_eq hvec hlast le_rfl]
      dsimp only
      split_ifs with hpos
      · have hempty := hfirst hpos
        have hpad : alignEntry ws vec (.align value) = .binary [] := by
          rw [alignEntry, padding, if_pos hempty]
          rfl
        have := hrest (a := vec.length) le_rfl
        rwa [hpad] at this
      · have hne : vec ≠ [] := fun hempty => hpos (by
          rw [hempty] at hlast ⊢
          exact Nat.le_zero.mp hlast)
        rw [getDistance_padding hne]
        dsimp only
        have := hrest (a := vec.length) le_rfl
        rwa [alignEntry, padding, if_neg hne] at this
    | _ => exact hrest hlast

theorem insertAlignment_eq (ws : ℕ) (h : List Entry) :
    insertAlignment ws h = some (aligned ws h) :=
  have hnil : Aligned [] := fun _ hu => by cases hu
  insertAlignmentLoop_eq hnil le_rfl fun _ => rfl

/-! ## The passes together -/

theorem forEach_bind {α β γ : Type*} (f : ℕ → α → Option β) (g : ℕ → β → Option γ) (k : ℕ)
    (vs : List α) : (forEach f k vs).bind (forEach g k) =
      forEach (fun i v => (f i v).bind (g i)) k vs := by
  induction vs generalizing k with
  | nil => rfl
  | cons v vs ih =>
    rw [forEach, forEach, ← ih (k + 1)]
    cases f k v with
    | none => rfl
    | some v' =>
      cases forEach f (k + 1) vs with
      | none =>
        dsimp only [Option.bind]
        cases g k v' <;> rfl
      | some vs' => rfl

theorem forEach_congr {α β : Type*} {f g : ℕ → α → Option β} {k : ℕ} {vs : List α}
    (hfg : ∀ i v, vs[i]? = some v → f (k + i) v = g (k + i) v) :
    forEach f k vs = forEach g k vs := by
  induction vs generalizing k with
  | nil => rfl
  | cons v vs ih =>
    have hfirst := hfg 0 v rfl
    rw [add_zero] at hfirst
    rw [forEach, forEach, hfirst, ih fun i u hi => by
      have := hfg (i + 1) u hi
      rwa [← add_assoc, add_right_comm] at this]

/-- The length an entry gets. -/
def finalLength (ws : ℕ) : Entry → ℕ
  | .binary value => value.length
  | .ujump _ _ | .fjump _ _ _ | .stubname _ | .loadLabelDifference _ _ => 2 * ws
  | .loadLabel _ => 2 * ws + 2
  | .ffiStubname _ => 8
  | .align _ => 0

/-- The operand of a jump; `l` are the lengths it is measured with. -/
def jumpOperand (ws : ℕ) (l : List ℕ) (k target : ℕ) : ℤ :=
  if target ≤ k then -1 * (distance ws l k target : ℤ) else distance ws l k target

/-- The operand of a `load-label`. -/
def labelOperand (ws : ℕ) (l : List ℕ) (k target : ℕ) : ℤ :=
  if target < k then -1 * (distance ws l k target : ℤ) else distance ws l k target

/-- The bytes that entry `k` of an aligned table `h` gets. -/
def finalBytes (ws : ℕ) (globalnames : List ℕ → Option ℕ) (ffiIndex : List ℕ → ℤ)
    (h : List Entry) (k : ℕ) : Entry → Option (List ℕ)
  | .binary value => some value
  | .ujump target fn | .fjump target fn _ =>
    pad (prefixing ws fn.code (jumpOperand ws (h.map (finalLength ws)) k target)) (2 * ws)
  | .stubname value => (globalnames value).bind fun target =>
    pad (prefixing ws j (jumpOperand ws (h.map (finalLength ws)) k target)) (2 * ws)
  | .loadLabel target =>
    (pad (prefixing ws ldc (labelOperand ws (h.map (assumedLength ws)) k target)) (2 * ws)).map
      (· ++ prefixing ws op ldpi)
  | .loadLabelDifference 0 _ => none
  | .loadLabelDifference (start + 1) stop =>
    pad (prefixing ws ldc (distance ws (h.map (assumedLength ws)) start stop)) (2 * ws)
  | .ffiStubname value =>
    (pad (prefixing ws ldc (ffiIndex value)) 6).map (· ++ prefixing ws op fficall)
  | .align _ => none

/-- An entry before `jumps2binary`. -/
def prepared (ws : ℕ) (globalnames : List ℕ → Option ℕ) (ffiIndex : List ℕ → ℤ) (h : List Entry)
    (k : ℕ) (v : Entry) : Option Entry :=
  ((loadLabel2binary ws (cumulative (h.map (assumedLength ws)) h.length) k v).bind
    (expandFfiStubname ws ffiIndex)).bind (resolveStubname ws globalnames)

theorem length_of_pad {ls bs : List ℕ} {m : ℕ} (h : pad ls m = some bs) : bs.length = m := by
  unfold pad at h
  split_ifs at h with hle
  cases h
  rw [List.length_append, List.length_replicate]
  omega

theorem length_prefixing_op (hws : 0 < ws) {opd : ℤ} (hlow : 16 ≤ opd) (hhigh : opd < 128) :
    (prefixing ws op opd).length = 2 := by
  have hpow : (2 : ℤ) ^ 7 ≤ 2 ^ (8 * ws - 1) := pow_le_pow_right₀ (by decide) (by omega)
  have hadjust : ∀ {x : ℤ}, x < 128 → adjust ws x = x := fun h =>
    if_neg (not_lt.mpr (by linarith))
  rw [prefixing, hadjust hhigh]
  dsimp only
  rw [if_neg (by omega), if_neg (by omega), prefixing, hadjust (by omega)]
  dsimp only
  rw [if_pos (by omega)]
  rfl

/-- A foreign stub or an `align`. -/
def Entry.Late : Entry → Prop
  | .ffiStubname _ | .align _ => True
  | _ => False

theorem finalLength_loadLabel2binary (hws : 0 < ws) {cache : List ℕ} {v' : Entry}
    (h : loadLabel2binary ws cache k v = some v') :
    finalLength ws v' = finalLength ws v ∧ (v'.Late → v' = v) := by
  unfold loadLabel2binary at h
  cases v with
  | loadLabel target =>
    dsimp only at h
    cases hd : getDistance ws cache k target with
    | none =>
      rw [hd] at h
      cases h
    | some dist =>
      rw [hd] at h
      obtain ⟨bs, hpad, rfl⟩ := Option.map_eq_some_iff.mp h
      refine ⟨?_, False.elim⟩
      rw [finalLength, finalLength, List.length_append, length_of_pad hpad,
        length_prefixing_op hws (by decide) (by decide)]
  | loadLabelDifference start stop =>
    dsimp only at h
    cases hd : getDistance ws cache (start - 1) stop with
    | none =>
      rw [hd] at h
      cases h
    | some dist =>
      rw [hd] at h
      obtain ⟨bs, hpad, rfl⟩ := Option.map_eq_some_iff.mp h
      exact ⟨length_of_pad hpad, False.elim⟩
  | _ =>
    cases h
    exact ⟨rfl, fun _ => rfl⟩

theorem finalLength_expandFfiStubname (hws : 0 < ws) {v' : Entry}
    (h : expandFfiStubname ws ffiIndex v = some v') :
    finalLength ws v' = finalLength ws v ∧ (v'.Late → ∃ value, v = .align value) := by
  unfold expandFfiStubname at h
  cases v with
  | ffiStubname value =>
    obtain ⟨bs, hpad, rfl⟩ := Option.map_eq_some_iff.mp h
    refine ⟨?_, False.elim⟩
    rw [finalLength, finalLength, List.length_append, length_of_pad hpad,
      length_prefixing_op hws (by decide) (by decide)]
  | align value =>
    cases h
    exact ⟨rfl, fun _ => ⟨value, rfl⟩⟩
  | _ =>
    cases h
    exact ⟨rfl, False.elim⟩

theorem finalLength_resolveStubname {v' : Entry}
    (h : resolveStubname ws globalnames v = some v') :
    finalLength ws v' = finalLength ws v ∧ (v'.Late → v.Late) := by
  unfold resolveStubname at h
  cases v with
  | stubname value =>
    obtain ⟨target, -, rfl⟩ := Option.map_eq_some_iff.mp h
    exact ⟨rfl, False.elim⟩
  | _ =>
    cases h
    exact ⟨rfl, id⟩

theorem assumedLength_eq (hv : ¬ v.Late) : assumedLength ws v = finalLength ws v := by
  cases v with
  | ffiStubname value => exact absurd trivial hv
  | align value => exact absurd trivial hv
  | loadLabel target => exact Nat.add_comm _ _
  | _ => rfl

/-- **`jumps2binary` assumes the lengths that its entries get.** -/
theorem assumedLength_prepared (hws : 0 < ws) {v' : Entry} (hv : ∀ value, v ≠ .align value)
    (h : prepared ws globalnames ffiIndex h' k v = some v') :
    assumedLength ws v' = finalLength ws v ∧ ∀ value, v' ≠ .align value := by
  obtain ⟨v₃, h, hresolve⟩ := Option.bind_eq_some_iff.mp h
  obtain ⟨v₂, hlabel, hffi⟩ := Option.bind_eq_some_iff.mp h
  obtain ⟨hlen₂, hlate₂⟩ := finalLength_loadLabel2binary hws hlabel
  obtain ⟨hlen₃, hlate₃⟩ := finalLength_expandFfiStubname hws hffi
  obtain ⟨hlen, hlate⟩ := finalLength_resolveStubname hresolve
  have hnot : ¬ v'.Late := fun hl => by
    obtain ⟨value, rfl⟩ := hlate₃ (hlate hl)
    exact hv value (hlate₂ trivial).symm
  refine ⟨by rw [assumedLength_eq hnot, hlen, hlen₃, hlen₂], fun value hvalue => ?_⟩
  rw [hvalue] at hnot
  exact hnot trivial

/-- The names of an entry of a table with `n` keys. -/
def NamesLt (globalnames : List ℕ → Option ℕ) (n : ℕ) (v : Entry) : Prop :=
  ∀ name ∈ v.names globalnames, ∃ k < n, name = some k

/-- **What `jumps2binary` leaves** of what the passes before it left. -/
theorem prepared_bind (hk : k < h.length) (hv : NamesLt globalnames h.length v)
    (halign : ∀ value, v ≠ .align value) :
    ((prepared ws globalnames ffiIndex h k v).bind
      (jump2binary ws (cumulative (h.map (finalLength ws)) h.length) k)).bind Entry.binaryValue =
        finalBytes ws globalnames ffiIndex h k v := by
  have hdist : ∀ {l : List ℕ} {target : ℕ}, target < h.length →
      getDistance ws (cumulative l h.length) k target = some (distance ws l k target) :=
    fun ht => getDistance_cumulative _ _ hk ht.le
  unfold prepared
  cases v with
  | align value => exact absurd rfl (halign value)
  | binary value => rfl
  | ujump target fn =>
    obtain ⟨t, ht, hname⟩ := hv _ (List.mem_singleton.mpr rfl)
    cases hname
    dsimp only [loadLabel2binary, expandFfiStubname, resolveStubname, Option.bind, jump2binary]
    rw [hdist ht]
    dsimp only [finalBytes, jumpOperand]
    cases pad _ _ <;> rfl
  | fjump target fn len =>
    obtain ⟨t, ht, hname⟩ := hv _ (List.mem_singleton.mpr rfl)
    cases hname
    dsimp only [loadLabel2binary, expandFfiStubname, resolveStubname, Option.bind, jump2binary]
    rw [hdist ht]
    dsimp only [finalBytes, jumpOperand]
    cases pad _ _ <;> rfl
  | stubname value =>
    obtain ⟨t, ht, hname⟩ := hv _ (List.mem_singleton.mpr rfl)
    dsimp only [loadLabel2binary, expandFfiStubname, resolveStubname, Option.bind, finalBytes]
    rw [hname]
    dsimp only [Option.map, jump2binary]
    rw [hdist ht]
    dsimp only [jumpOperand, JumpFn.code]
    cases pad _ _ <;> rfl
  | ffiStubname value =>
    dsimp only [loadLabel2binary, expandFfiStubname, resolveStubname, Option.bind, finalBytes]
    cases pad _ _ <;> rfl
  | loadLabel target =>
    obtain ⟨t, ht, hname⟩ := hv _ (List.mem_singleton.mpr rfl)
    cases hname
    dsimp only [loadLabel2binary]
    rw [hdist ht]
    dsimp only [finalBytes, labelOperand]
    cases pad _ _ <;> rfl
  | loadLabelDifference start stop =>
    obtain ⟨s, hs, hname⟩ := hv (some start) List.mem_cons_self
    cases hname
    obtain ⟨e, he, hname⟩ := hv (some stop) (List.mem_cons_of_mem _ List.mem_cons_self)
    cases hname
    cases start with
    | zero => rfl
    | succ start =>
      have hcast : ((start + 1 : ℕ) : ℤ) - 1 = start := by omega
      dsimp only [loadLabel2binary]
      rw [hcast, getDistance_cumulative _ _ (Nat.lt_of_succ_lt hs) he.le]
      dsimp only [finalBytes]
      cases pad _ _ <;> rfl

theorem namesLt_alignEntry {vec : List Entry} (hv : NamesLt globalnames n v) :
    NamesLt globalnames n (alignEntry ws vec v) := by
  cases v with
  | align value => exact fun name hname => by cases hname
  | _ => exact hv

/-- **The whole of linking, entry by entry.** -/
theorem link_eq (hws : 0 < ws) (t : Table globalnames) :
    link ws globalnames ffiIndex t.entries =
      forEach (finalBytes ws globalnames ffiIndex (aligned ws t.entries)) 0
        (aligned ws t.entries) := by
  have halign := aligned_aligned ws t.entries
  have hnames : ∀ (k : ℕ) (v : Entry), (aligned ws t.entries)[k]? = some v →
      NamesLt globalnames (aligned ws t.entries).length v := by
    intro k v hk
    have hlt := (List.getElem?_eq_some_iff.mp hk).1
    rw [length_aligned] at hlt
    have hget := getElem?_aligned ws (List.getElem?_eq_getElem hlt)
    rw [hk, Option.some_inj] at hget
    rw [hget, length_aligned]
    exact namesLt_alignEntry (t.names_lt _ (List.getElem_mem hlt))
  revert halign hnames
  generalize hh : aligned ws t.entries = h
  intro halign hnames
  have hprepared : ((loadLabels2binary ws h).bind (expandFfiStubnames ws ffiIndex)).bind
      (resolveStubnamesPicky ws globalnames) = forEach (prepared ws globalnames ffiIndex h) 0
        h := by
    rw [loadLabels2binary, buildGetDistanceCache_eq halign]
    dsimp only
    unfold expandFfiStubnames resolveStubnamesPicky
    rw [forEach_bind, forEach_bind]
    rfl
  have hlink : link ws globalnames ffiIndex t.entries =
      ((forEach (prepared ws globalnames ffiIndex h) 0 h).bind (jumps2binary ws)).bind
        (forEach (fun _ v => v.binaryValue) 0) := by
    rw [← hprepared, link, insertAlignment_eq, hh]
    simp only [Option.bind_eq_bind, Option.bind_some, Option.bind_assoc]
  have hfinal : forEach (finalBytes ws globalnames ffiIndex h) 0 h =
      forEach (fun k v => ((prepared ws globalnames ffiIndex h k v).bind
        (jump2binary ws (cumulative (h.map (finalLength ws)) h.length) k)).bind
          Entry.binaryValue) 0 h := by
    refine forEach_congr fun k v hk => ?_
    rw [zero_add]
    exact (prepared_bind (List.getElem?_eq_some_iff.mp hk).1 (hnames k v hk)
      (halign v (List.mem_of_getElem? hk))).symm
  rw [hlink, hfinal, ← forEach_bind, ← forEach_bind]
  cases hp : forEach (prepared ws globalnames ffiIndex h) 0 h with
  | none => rfl
  | some h₄ =>
    have hlen := length_of_forEach hp
    have hget : ∀ (k : ℕ) (v' : Entry), h₄[k]? = some v' → ∃ v, h[k]? = some v ∧
        assumedLength ws v' = finalLength ws v ∧ ∀ value, v' ≠ .align value := by
      intro k v' hk
      have hlt := (List.getElem?_eq_some_iff.mp hk).1
      have hv := List.getElem?_eq_getElem (hlen ▸ hlt)
      exact ⟨_, hv, assumedLength_prepared hws (halign _ (List.mem_of_getElem? hv))
        ((getElem?_of_forEach hp hv).trans hk)⟩
    have halign₄ : Aligned h₄ := fun v hv => by
      obtain ⟨k, hk⟩ := List.getElem?_of_mem hv
      exact (hget k v hk).choose_spec.2.2
    have hlengths : h₄.map (assumedLength ws) = h.map (finalLength ws) := by
      refine List.ext_getElem? fun k => ?_
      rw [List.getElem?_map, List.getElem?_map]
      cases hk : h₄[k]? with
      | none =>
        rw [List.getElem?_eq_none (hlen ▸ List.getElem?_eq_none_iff.mp hk)]
        rfl
      | some v' =>
        obtain ⟨v, hv, hlen, -⟩ := hget k v' hk
        rw [hv, Option.map_some, Option.map_some, hlen]
    rw [Option.bind_some, Option.bind_some, jumps2binary, buildGetDistanceCache_eq halign₄,
      hlengths, hlen]

/-! ## The conditions -/

def Entry.isFfiStubname : Entry → Bool
  | .ffiStubname _ => true
  | _ => false

/-- The foreign stubs before entry `k`. -/
def ffiBefore (h : List Entry) (k : ℕ) : ℕ := (h.take k).countP Entry.isFfiStubname

/-- What the foreign stubs before entry `k` are longer than assumed. -/
def excess (ws : ℕ) (h : List Entry) (k : ℕ) : ℤ := (8 - 2 * ws) * ffiBefore h k

/-- The operand of an entry of an aligned table fits the bytes kept for it. -/
def Fits (ws : ℕ) (globalnames : List ℕ → Option ℕ) (ffiIndex : List ℕ → ℤ) (h : List Entry)
    (k : ℕ) : Entry → Prop
  | .ujump target fn | .fjump target fn _ =>
    (prefixing ws fn.code (jumpOperand ws (h.map (finalLength ws)) k target)).length ≤ 2 * ws
  | .stubname value => ∀ target, globalnames value = some target →
    (prefixing ws j (jumpOperand ws (h.map (finalLength ws)) k target)).length ≤ 2 * ws
  | .loadLabel target =>
    (prefixing ws ldc (labelOperand ws (h.map (assumedLength ws)) k target)).length ≤ 2 * ws
  | .loadLabelDifference start stop =>
    (prefixing ws ldc (distance ws (h.map (assumedLength ws)) (start - 1) stop)).length ≤ 2 * ws
  | .ffiStubname value => (prefixing ws ldc (ffiIndex value)).length ≤ 6
  | .binary _ | .align _ => True

/-- **The tables that linking gets right.** -/
structure Sound (ws : ℕ) (globalnames : List ℕ → Option ℕ) (ffiIndex : List ℕ → ℤ)
    (h : List Entry) : Prop where
  fits : ∀ k v, (aligned ws h)[k]? = some v → Fits ws globalnames ffiIndex (aligned ws h) k v
  /-- No label is its own, and foreign stubs on the way are as long as assumed. -/
  loadLabel : ∀ k target : ℕ, h[k]? = some (.loadLabel target) →
    target ≠ k ∧ 2 ^ (8 * ws) ∣ excess ws h k - excess ws h target
  /-- No difference starts at entry 0; one that starts right behind its end is taken for a self
  reference. -/
  difference : ∀ k start stop : ℕ, h[k]? = some (.loadLabelDifference start stop) →
    start ≠ 0 ∧ if start = stop + 1
      then ∀ v, (aligned ws h)[stop]? = some v → 2 ^ (8 * ws) ∣ (finalLength ws v : ℤ) - 2 * ws
      else 2 ^ (8 * ws) ∣ excess ws h start - excess ws h stop
  /-- The length of entry 0, which is left out, does not matter. -/
  align : ∀ k value first, h[k]? = some (.align value) → h[0]? = some first →
    k = 0 ∨ 2 ^ value ∣ (assumedLength ws first : ℤ) + excess ws h k

/-! ## What is linked -/

theorem isFfiStubname_alignEntry (vec : List Entry) (v : Entry) :
    (alignEntry ws vec v).isFfiStubname = v.isFfiStubname := by
  cases v <;> rfl

theorem ffiBefore_aligned (ws : ℕ) (h : List Entry) (k : ℕ) :
    ffiBefore (aligned ws h) k = ffiBefore h k := by
  have hmap : (aligned ws h).map Entry.isFfiStubname = h.map Entry.isFfiStubname := by
    refine List.ext_getElem? fun k => ?_
    rw [List.getElem?_map, List.getElem?_map]
    cases hk : h[k]? with
    | none =>
      rw [List.getElem?_eq_none (length_aligned ws h ▸ List.getElem?_eq_none_iff.mp hk)]
    | some v =>
      rw [getElem?_aligned _ hk, Option.map_some, Option.map_some, isFfiStubname_alignEntry]
  have hcount : ∀ l : List Entry, l.countP Entry.isFfiStubname =
      (l.map Entry.isFfiStubname).countP id := fun l => by
    rw [List.countP_map]
    rfl
  rw [ffiBefore, ffiBefore, hcount, hcount, List.map_take, List.map_take, hmap]

/-- **The lengths the cache assumes are the final ones**, foreign stubs apart. -/
theorem offset_finalLength (ws : ℕ) (h : List Entry) (k : ℕ) :
    (offset (h.map (finalLength ws)) k : ℤ) =
      offset (h.map (assumedLength ws)) k + excess ws h k := by
  refine offset_map_eq (p := Entry.isFfiStubname) (fun v => ?_) h k
  cases v with
  | ffiStubname value =>
    change ((8 : ℕ) : ℤ) = (2 * ws : ℕ) + if true then (8 - 2 * ws : ℤ) else 0
    rw [if_pos rfl]
    push_cast
    ring
  | loadLabel target =>
    change ((2 * ws + 2 : ℕ) : ℤ) = (2 + 2 * ws : ℕ) + 0
    push_cast
    ring
  | _ => exact (add_zero _).symm

variable (ws) in
theorem excess_succ (hk : h[k]? = some v) (hv : v.isFfiStubname = false) :
    excess ws h (k + 1) = excess ws h k := by
  rw [excess, excess, ffiBefore, ffiBefore, List.take_add_one, hk, List.countP_append]
  simp [hv]

theorem length_finalBytes (hws : 0 < ws) {bs : List ℕ}
    (hbs : finalBytes ws globalnames ffiIndex h k v = some bs) :
    bs.length = finalLength ws v := by
  cases v with
  | binary value =>
    cases hbs
    rfl
  | ujump target fn => exact length_of_pad hbs
  | fjump target fn len => exact length_of_pad hbs
  | stubname value =>
    obtain ⟨target, -, hbs⟩ := Option.bind_eq_some_iff.mp hbs
    exact length_of_pad hbs
  | loadLabel target =>
    obtain ⟨ls, hpad, rfl⟩ := Option.map_eq_some_iff.mp hbs
    rw [finalLength, List.length_append, length_of_pad hpad,
      length_prefixing_op hws (by decide) (by decide)]
  | loadLabelDifference start stop =>
    cases start with
    | zero => cases hbs
    | succ start => exact length_of_pad hbs
  | ffiStubname value =>
    obtain ⟨ls, hpad, rfl⟩ := Option.map_eq_some_iff.mp hbs
    rw [finalLength, List.length_append, length_of_pad hpad,
      length_prefixing_op hws (by decide) (by decide)]
  | align value => cases hbs

/-- **Every entry is where the final lengths put it.** -/
theorem position_of_forEach (hws : 0 < ws) {out : List (List ℕ)}
    (hout : forEach (finalBytes ws globalnames ffiIndex h) 0 h = some out) (k : ℕ) :
    position out k = offset (h.map (finalLength ws)) k := by
  rw [position_eq]
  congr 1
  refine List.ext_getElem? fun k => ?_
  rw [List.getElem?_map, List.getElem?_map]
  cases hk : h[k]? with
  | none =>
    rw [List.getElem?_eq_none (length_of_forEach hout ▸ List.getElem?_eq_none_iff.mp hk)]
    rfl
  | some v =>
    have hget := getElem?_of_forEach hout hk
    obtain ⟨bs, hbs⟩ : ∃ bs, out[k]? = some bs := ⟨_, List.getElem?_eq_getElem
      (length_of_forEach hout ▸ (List.getElem?_eq_some_iff.mp hk).1)⟩
    rw [hbs, Option.map_some, Option.map_some, length_finalBytes hws (hget.trans hbs)]

/-! ## Operands -/

theorem distance_of_gt (ws : ℕ) (l : List ℕ) (hlt : target < k) :
    (distance ws l k target : ℤ) = offset l (k + 1) - offset l target := by
  have := offset_mono l (i := target) (j := k + 1) (by omega)
  rw [distance, if_neg (by omega)]
  omega

theorem distance_of_lt (ws : ℕ) (l : List ℕ) (hlt : k < target) :
    (distance ws l k target : ℤ) = offset l target - offset l (k + 1) := by
  have := offset_mono l (i := k + 1) (j := target) hlt
  rw [distance, if_neg (by omega)]
  omega

theorem distance_self (ws : ℕ) (l : List ℕ) (k : ℕ) : distance ws l k k = 2 * ws := if_pos rfl

/-- **A jump is measured right**, forwards, backwards and to itself. -/
theorem jumpOperand_eq {l : List ℕ} (hk : l[k]? = some (2 * ws)) :
    (offset l (k + 1) : ℤ) + jumpOperand ws l k target = offset l target := by
  unfold jumpOperand
  rcases lt_trichotomy target k with hlt | rfl | hlt
  · rw [if_pos hlt.le, distance_of_gt ws l hlt]
    ring
  · rw [if_pos le_rfl, distance_self, offset_succ hk]
    push_cast
    ring
  · rw [if_neg (by omega), distance_of_lt ws l hlt]
    ring

/-- **A label is measured right** but for its own, as far as the lengths assumed are the final
ones. -/
theorem labelOperand_modEq (hws : 0 < ws) (hk : h[k]? = some (.loadLabel target)) {n : ℕ} :
    (offset (h.map (finalLength ws)) (k + 1) : ℤ) +
        labelOperand ws (h.map (assumedLength ws)) k n ≡
          offset (h.map (finalLength ws)) n [ZMOD 2 ^ (8 * ws)] ↔
      n ≠ k ∧ 2 ^ (8 * ws) ∣ excess ws h k - excess ws h n := by
  have hsucc := excess_succ ws hk rfl
  unfold labelOperand
  rw [Int.modEq_comm, Int.modEq_iff_dvd]
  rcases lt_trichotomy n k with hlt | rfl | hlt
  · rw [if_pos hlt, distance_of_gt ws _ hlt, offset_finalLength, offset_finalLength, hsucc]
    refine ⟨fun hd => ⟨hlt.ne, ?_⟩, fun hd => ?_⟩
    · convert hd using 1
      ring
    · convert hd.2 using 1
      ring
  · rw [if_neg (lt_irrefl _), distance_self,
      offset_succ (n := 2 * ws + 2) (by rw [List.getElem?_map, hk]; rfl)]
    refine ⟨fun hd => absurd (Int.le_of_dvd (by push_cast; omega) hd) ?_, fun hd => absurd rfl hd.1⟩
    have hpow : ∀ m : ℕ, 0 < m → (4 * m + 2 : ℤ) < 2 ^ (8 * m) := fun m hm => by
      have := Nat.lt_two_pow_self (n := 3 * m)
      have hmul : (2 : ℕ) ^ (8 * m) = 2 ^ (5 * m) * 2 ^ (3 * m) := by rw [← pow_add]; congr 1; ring
      have h5 : 2 ^ 5 ≤ 2 ^ (5 * m) := Nat.pow_le_pow_right Nat.two_pos (by omega)
      have : 4 * m + 2 < 2 ^ (8 * m) := by nlinarith
      exact_mod_cast this
    have := hpow ws hws
    push_cast
    omega
  · rw [if_neg (by omega), distance_of_lt ws _ hlt, offset_finalLength, offset_finalLength, hsucc]
    refine ⟨fun hd => ⟨hlt.ne', ?_⟩, fun hd => ?_⟩
    · convert hd using 1
      ring
    · convert hd.2 using 1
      ring

/-- **A difference is measured right** unless it starts right behind its end. -/
theorem distance_modEq (hstop : h[stop]? = some v) :
    (distance ws (h.map (assumedLength ws)) start stop : ℤ) ≡
        |(offset (h.map (finalLength ws)) (start + 1) : ℤ) -
          offset (h.map (finalLength ws)) stop| [ZMOD 2 ^ (8 * ws)] ↔
      if start + 1 = stop + 1 then 2 ^ (8 * ws) ∣ (finalLength ws v : ℤ) - 2 * ws
      else 2 ^ (8 * ws) ∣ excess ws h (start + 1) - excess ws h stop := by
  have hmono : ∀ {i m : ℕ}, i ≤ m →
      (offset (h.map (finalLength ws)) i : ℤ) ≤ offset (h.map (finalLength ws)) m := fun him => by
    exact_mod_cast offset_mono _ him
  rw [Int.modEq_iff_dvd]
  rcases lt_trichotomy start stop with hlt | rfl | hlt
  · rw [if_neg (by omega), distance_of_lt ws _ hlt, abs_of_nonpos (by linarith [hmono hlt]),
      offset_finalLength, offset_finalLength, ← dvd_neg]
    refine iff_of_eq (congrArg _ ?_)
    ring
  · rw [if_pos rfl, distance_self, offset_succ (n := finalLength ws v)
      (by rw [List.getElem?_map, hstop]; rfl), Nat.cast_add, add_sub_cancel_left, Nat.abs_cast]
    push_cast
    rfl
  · rw [if_neg (by omega), distance_of_gt ws _ hlt,
      abs_of_nonneg (by linarith [hmono (show stop ≤ start + 1 by omega)]), offset_finalLength,
      offset_finalLength]
    refine iff_of_eq (congrArg _ ?_)
    ring

/-- Filling up `x` fills up `a` if they are the same distance from a multiple. -/
theorem dvd_add_padding_iff {m x a : ℕ} (hm : 0 < m) :
    m ∣ a + (m - x % m) % m ↔ (m : ℤ) ∣ a - x := by
  have hfill : (((m - x % m) % m : ℕ) : ℤ) ≡ -x [ZMOD m] := by
    rw [Int.natCast_mod, Nat.cast_sub (Nat.mod_lt _ hm).le, Int.natCast_mod]
    refine (Int.mod_modEq _ _).trans ?_
    have := ((Int.mod_modEq (x : ℤ) m).neg).add_left (m : ℤ)
    refine (by simpa [sub_eq_add_neg] using this : (m : ℤ) - x % m ≡ m + -x [ZMOD m]).trans ?_
    exact Int.modEq_iff_dvd.mpr ⟨-1, by ring⟩
  rw [← Int.natCast_dvd_natCast, Nat.cast_add, ← Int.modEq_zero_iff_dvd, ← Int.modEq_zero_iff_dvd,
    sub_eq_add_neg]
  exact ⟨fun h => (hfill.symm.add_left _).trans h, fun h => (hfill.add_left _).trans h⟩

/-- **The zeros reach a multiple** if what is left out is one. -/
theorem align_iff {first : Entry} (hk : h[k]? = some (.align value)) (hfirst : h[0]? = some first) :
    2 ^ value ∣ offset ((aligned ws h).map (finalLength ws)) (k + 1) ↔
      k = 0 ∨ 2 ^ value ∣ (assumedLength ws first : ℤ) + excess ws h k := by
  have hget := getElem?_aligned ws hk
  have hsucc : offset ((aligned ws h).map (finalLength ws)) (k + 1) =
      offset ((aligned ws h).map (finalLength ws)) k +
        padding ws ((aligned ws h).take k) value :=
    offset_succ (by rw [List.getElem?_map, hget, Option.map_some]; simp [alignEntry, finalLength])
  have hlen : ((aligned ws h).take k).length = k := by
    rw [List.length_take, length_aligned]
    exact min_eq_left (List.getElem?_eq_some_iff.mp hk).1.le
  rw [hsucc]
  cases k with
  | zero =>
    rw [offset_zero, padding, List.take_zero, if_pos rfl]
    exact ⟨fun _ => Or.inl rfl, fun _ => dvd_zero _⟩
  | succ k =>
    have hone : offset ((aligned ws h).map (assumedLength ws)) 1 = assumedLength ws first := by
      rw [offset_succ (k := 0) (n := assumedLength ws first), offset_zero, zero_add]
      rw [List.getElem?_map, getElem?_aligned _ hfirst, Option.map_some, List.take_zero]
      cases first <;> rfl
    have hmap : ∀ {m}, m ≤ k + 1 →
        offset (((aligned ws h).take (k + 1)).map (assumedLength ws)) m =
          offset ((aligned ws h).map (assumedLength ws)) m := fun hm => by
      rw [offset, offset, List.map_take, List.take_take, min_eq_left hm]
    have hle := offset_mono ((aligned ws h).map (assumedLength ws)) (i := 1) (j := k + 1) (by omega)
    have hfinal := offset_finalLength ws (aligned ws h) (k + 1)
    have hexcess : excess ws (aligned ws h) (k + 1) = excess ws h (k + 1) := by
      rw [excess, ffiBefore_aligned]
      rfl
    have hne : (aligned ws h).take (k + 1) ≠ [] := fun hempty => by
      rw [hempty] at hlen
      cases hlen
    rw [padding, if_neg hne]
    dsimp only
    rw [hlen, hmap le_rfl, hmap (by omega), hone]
    rw [hone] at hle
    rw [dvd_add_padding_iff (by positivity), hfinal, hexcess, Nat.cast_sub hle]
    have hsub : (offset ((aligned ws h).map (assumedLength ws)) (k + 1) : ℤ) +
        excess ws h (k + 1) - (offset ((aligned ws h).map (assumedLength ws)) (k + 1) -
          assumedLength ws first) = assumedLength ws first + excess ws h (k + 1) := by ring
    rw [hsub, Nat.cast_pow, Nat.cast_two]
    exact ⟨Or.inr, fun h => h.resolve_left (Nat.succ_ne_zero k)⟩

/-- The operand fits and all that is named is there. -/
theorem finalBytes_isSome_iff (hv : NamesLt globalnames n v) (halign : ∀ value, v ≠ .align value) :
    (finalBytes ws globalnames ffiIndex h k v).isSome ↔
      Fits ws globalnames ffiIndex h k v ∧ ∀ stop, v ≠ .loadLabelDifference 0 stop := by
  have hpad : ∀ {ls : List ℕ} {m : ℕ}, (pad ls m).isSome ↔ ls.length ≤ m := fun {ls m} => by
    unfold pad
    split_ifs with hle <;> simp [hle]
  cases v with
  | binary value => simp [finalBytes, Fits]
  | ujump target fn => simp [finalBytes, Fits, hpad]
  | fjump target fn len => simp [finalBytes, Fits, hpad]
  | stubname value =>
    obtain ⟨t, -, hname⟩ := hv _ (List.mem_singleton.mpr rfl)
    simp [finalBytes, Fits, hpad, hname]
  | loadLabel target => simp [finalBytes, Fits, hpad]
  | loadLabelDifference start stop =>
    cases start with
    | zero => simp [finalBytes]
    | succ start => simp [finalBytes, Fits, hpad]
  | ffiStubname value => simp [finalBytes, Fits, hpad]
  | align value => exact absurd rfl (halign value)

/-! ## What the bytes do -/

/-- What `Sound` asks of an entry that has got its bytes. -/
def EntrySound (ws : ℕ) (h : List Entry) (k : ℕ) : Entry → Prop
  | .loadLabel target => target ≠ k ∧ 2 ^ (8 * ws) ∣ excess ws h k - excess ws h target
  | .loadLabelDifference start stop =>
    if start = stop + 1
      then ∀ v, (aligned ws h)[stop]? = some v → 2 ^ (8 * ws) ∣ (finalLength ws v : ℤ) - 2 * ws
      else 2 ^ (8 * ws) ∣ excess ws h start - excess ws h stop
  | .align value => ∀ first, h[0]? = some first →
    k = 0 ∨ 2 ^ value ∣ (assumedLength ws first : ℤ) + excess ws h k
  | _ => True

variable {out : List (List ℕ)} {bs : List ℕ}

theorem eq_of_pad {ls : List ℕ} {m : ℕ} (h : pad ls m = some bs) :
    bs = List.replicate (m - ls.length) (pfix <<< 4) ++ ls := by
  unfold pad at h
  split_ifs at h
  cases h
  rfl

/-- **Jumps are always right.** -/
theorem jumps_of_pad (hws : 0 < ws) {fn : JumpFn}
    (hout : forEach (finalBytes ws globalnames ffiIndex h) 0 h = some out) (hk : h[k]? = some v)
    (hlen : finalLength ws v = 2 * ws) (hbs : out[k]? = some bs)
    (hpad : pad (prefixing ws fn.code (jumpOperand ws (h.map (finalLength ws)) k target)) (2 * ws) =
      some bs) : Jumps ws out k fn target bs := by
  rw [eq_of_pad hpad] at hbs ⊢
  rw [jumps_iff hws hbs, position_of_forEach hws hout, position_of_forEach hws hout,
    jumpOperand_eq (by rw [List.getElem?_map, hk, Option.map_some, hlen])]

theorem excess_aligned (ws : ℕ) (h : List Entry) (k : ℕ) :
    excess ws (aligned ws h) k = excess ws h k := by
  rw [excess, ffiBefore_aligned]
  rfl

/-- **What an entry of the table has become.** -/
theorem resolved_iff (hws : 0 < ws) (t : Table globalnames)
    (hout : forEach (finalBytes ws globalnames ffiIndex (aligned ws t.entries)) 0
      (aligned ws t.entries) = some out)
    (hk : t.entries[k]? = some v) (hbs : out[k]? = some bs) :
    Resolved ws globalnames out k bs v ↔ EntrySound ws t.entries k v := by
  have hget := getElem?_aligned ws hk
  have hfinal := (getElem?_of_forEach hout hget).trans hbs
  have hposition := position_of_forEach hws hout
  cases v with
  | binary value =>
    cases hfinal
    exact ⟨fun _ => trivial, fun _ => rfl⟩
  | ujump target fn =>
    exact ⟨fun _ => trivial, fun _ => jumps_of_pad hws hout hget rfl hbs hfinal⟩
  | fjump target fn len =>
    exact ⟨fun _ => trivial, fun _ => jumps_of_pad hws hout hget rfl hbs hfinal⟩
  | stubname value =>
    refine ⟨fun _ => trivial, fun _ target hname => ?_⟩
    change (globalnames value).bind _ = some bs at hfinal
    rw [hname] at hfinal
    exact jumps_of_pad hws hout hget rfl hbs hfinal
  | ffiStubname value => exact ⟨fun _ => trivial, fun _ => trivial⟩
  | loadLabel target =>
    obtain ⟨ls, hpad, rfl⟩ := Option.map_eq_some_iff.mp hfinal
    rw [eq_of_pad hpad] at hbs ⊢
    change LoadsLabel ws out k target _ ↔ _
    rw [loadsLabel_iff hws hbs, hposition, hposition, labelOperand_modEq hws hget, excess_aligned,
      excess_aligned]
    rfl
  | loadLabelDifference start stop =>
    cases start with
    | zero => cases hfinal
    | succ start =>
      obtain ⟨n, hn, hname⟩ := t.names_lt _ (List.mem_of_getElem? hk) (some stop)
        (List.mem_cons_of_mem _ List.mem_cons_self)
      cases hname
      have hstop : (aligned ws t.entries)[stop]? = some _ :=
        List.getElem?_eq_getElem ((length_aligned ws t.entries).symm ▸ hn)
      have hbytes := eq_of_pad hfinal
      rw [hbytes] at hbs ⊢
      change LoadsDifference ws out k (start + 1) stop _ ↔ _
      rw [loadsDifference_iff hws hbs, hposition, hposition, distance_modEq hstop, excess_aligned,
        excess_aligned]
      unfold EntrySound
      dsimp only
      split_ifs
      · rw [hstop]
        exact ⟨fun hd _ hv => Option.some.inj hv ▸ hd, fun hd => hd _ rfl⟩
      · rfl
  | align value =>
    have hpos : 0 < t.entries.length := (Nat.zero_le _).trans_lt (List.getElem?_eq_some_iff.mp hk).1
    have hfirst := List.getElem?_eq_getElem hpos
    change 2 ^ value ∣ position out (k + 1) ↔ _
    rw [hposition, align_iff hk hfirst, EntrySound, hfirst]
    exact ⟨fun hd _ hv => Option.some.inj hv ▸ hd, fun hd => hd _ rfl⟩

/-- **Programs of half the address space fit**, foreign indices apart. -/
theorem fits_of_sum_le (hws : 0 < ws) (hv : v.isFfiStubname = false)
    (hassumed : (h.map (assumedLength ws)).sum ≤ 2 ^ (8 * ws - 1))
    (hfinal : (h.map (finalLength ws)).sum ≤ 2 ^ (8 * ws - 1)) :
    Fits ws globalnames ffiIndex h k v := by
  have hself : ∀ m : ℕ, 0 < m → 2 * m ≤ 2 ^ (8 * m - 1) := fun m hm => by
    have hlt := Nat.lt_two_pow_self (n := m)
    have hmul : 2 ^ (m + 1) ≤ 2 ^ (8 * m - 1) := Nat.pow_le_pow_right Nat.two_pos (by omega)
    rw [pow_succ] at hmul
    omega
  have hdistance : ∀ {l : List ℕ} (start stop : ℕ), l.sum ≤ 2 ^ (8 * ws - 1) →
      (distance ws l start stop : ℤ) ≤ 2 ^ (8 * ws - 1) := fun {l} start stop hl => by
    have hs := (offset_le_sum l (start + 1)).trans hl
    have he := (offset_le_sum l stop).trans hl
    have : distance ws l start stop ≤ 2 ^ (8 * ws - 1) := by
      unfold distance
      split_ifs
      · exact hself ws hws
      · omega
    exact_mod_cast this
  have hlength : ∀ {fn : ℕ} {d : ℤ}, |d| ≤ 2 ^ (8 * ws - 1) →
      (prefixing ws fn d).length ≤ 2 * ws := fun {fn d} hd => by
    have hpow : (16 : ℤ) ^ (2 * ws - 2 + 2) = 2 * 2 ^ (8 * ws - 1) := by
      rw [show (16 : ℤ) = 2 ^ 4 from rfl, ← pow_mul, ← pow_succ']
      congr 1
      omega
    have hpos : (0 : ℤ) < 2 ^ (8 * ws - 1) := by positivity
    obtain ⟨hlow, hhigh⟩ := abs_le.mp hd
    have : (prefixing ws fn d).length ≤ 2 * ws - 2 + 2 :=
      length_prefixing_le (by omega) (by omega) hd
    omega
  have hjump : ∀ target, |jumpOperand ws (h.map (finalLength ws)) k target| ≤ 2 ^ (8 * ws - 1) := by
    intro target
    have := hdistance k target hfinal
    unfold jumpOperand
    split_ifs <;> rw [abs_le] <;> omega
  have hlabel : ∀ target,
      |labelOperand ws (h.map (assumedLength ws)) k target| ≤ 2 ^ (8 * ws - 1) := by
    intro target
    have := hdistance k target hassumed
    unfold labelOperand
    split_ifs <;> rw [abs_le] <;> omega
  cases v with
  | ujump target fn => exact hlength (hjump target)
  | fjump target fn len => exact hlength (hjump target)
  | stubname value => exact fun target _ => hlength (hjump target)
  | loadLabel target => exact hlength (hlabel target)
  | loadLabelDifference start stop =>
    exact hlength (by rw [Nat.abs_cast]; exact hdistance (start - 1) stop hassumed)
  | ffiStubname value => cases hv
  | _ => trivial

/-- **slinker's unoptimised linking** resolves every reference of exactly the tables that are
`Sound`. -/
theorem links_iff (hws : 0 < ws) (t : Table globalnames) :
    (∃ out, link ws globalnames ffiIndex t.entries = some out ∧
      Resolves ws globalnames t.entries out) ↔ Sound ws globalnames ffiIndex t.entries := by
  rw [link_eq hws]
  have hnames : ∀ (k : ℕ) (v : Entry), (aligned ws t.entries)[k]? = some v →
      NamesLt globalnames t.entries.length v ∧ ∀ value, v ≠ .align value := by
    intro k v hk
    have hlt := length_aligned ws t.entries ▸ (List.getElem?_eq_some_iff.mp hk).1
    have hget := getElem?_aligned ws (List.getElem?_eq_getElem hlt)
    rw [hk, Option.some_inj] at hget
    rw [hget]
    exact ⟨namesLt_alignEntry (t.names_lt _ (List.getElem_mem hlt)), alignEntry_ne_align _ _⟩
  constructor
  · rintro ⟨out, hout, hlen, hentry⟩
    have hsome : ∀ (k : ℕ) (v : Entry), (aligned ws t.entries)[k]? = some v →
        Fits ws globalnames ffiIndex (aligned ws t.entries) k v ∧
          ∀ stop, v ≠ .loadLabelDifference 0 stop := fun k v hk => by
      obtain ⟨hnames, halign⟩ := hnames k v hk
      rw [← finalBytes_isSome_iff hnames halign, getElem?_of_forEach hout hk,
        List.getElem?_eq_getElem (length_of_forEach hout ▸ (List.getElem?_eq_some_iff.mp hk).1)]
      rfl
    have hsound : ∀ (k : ℕ) (v : Entry), t.entries[k]? = some v → EntrySound ws t.entries k v :=
      fun k v hk => by
        have hbs := List.getElem?_eq_getElem (hlen ▸ (List.getElem?_eq_some_iff.mp hk).1)
        exact (resolved_iff hws t hout hk hbs).mp (hentry k v _ hk hbs)
    refine ⟨fun k v hk => (hsome k v hk).1, fun k target hk => hsound k _ hk,
      fun k start stop hk => ⟨?_, hsound k _ hk⟩, fun k value first hk => hsound k _ hk first⟩
    rintro rfl
    exact (hsome k _ (getElem?_aligned _ hk)).2 stop rfl
  · intro hsound
    have hentry : ∀ (k : ℕ) (v : Entry), t.entries[k]? = some v → EntrySound ws t.entries k v := by
      intro k v hk
      cases v with
      | loadLabel target => exact hsound.loadLabel k target hk
      | loadLabelDifference start stop => exact (hsound.difference k start stop hk).2
      | align value => exact fun first => hsound.align k value first hk
      | _ => trivial
    obtain ⟨out, hout⟩ := forEach_isSome (f := finalBytes ws globalnames ffiIndex
      (aligned ws t.entries)) (k := 0) fun k (v : Entry)
        (hk : (aligned ws t.entries)[k]? = some v) => by
        rw [zero_add]
        obtain ⟨hnames, halign⟩ := hnames k v hk
        refine (finalBytes_isSome_iff hnames halign).mpr ⟨hsound.fits k v hk, ?_⟩
        rintro stop rfl
        have hlt := length_aligned ws t.entries ▸ (List.getElem?_eq_some_iff.mp hk).1
        have hv := List.getElem?_eq_getElem hlt
        have hget := getElem?_aligned ws hv
        rw [hk, Option.some_inj] at hget
        cases hu : t.entries[k] with
        | loadLabelDifference start stop' =>
          rw [hu] at hget hv
          cases hget
          exact (hsound.difference k 0 stop hv).1 rfl
        | _ =>
          rw [hu] at hget
          cases hget
    refine ⟨out, hout, (length_of_forEach hout).trans (length_aligned ws _),
      fun k v bs hk hbs => ?_⟩
    exact (resolved_iff hws t hout hk hbs).mpr (hentry k v hk)

/-- A jump to itself and a label of entry 0. -/
theorem links_selfJump : ∃ out, link 4 (fun _ => none) (fun _ => 0)
    [.ujump 0 .j, .loadLabel 0] = some out ∧
      Resolves 4 (fun _ => none) [.ujump 0 .j, .loadLabel 0] out := by
  refine (links_iff (Nat.succ_pos 3) ⟨[.ujump 0 .j, .loadLabel 0], by decide⟩).mpr
    ⟨fun k v hk => ?_, fun k target hk => ?_, fun k start stop hk => ?_,
      fun k value first hk _ => ?_⟩
  · refine fits_of_sum_le (Nat.succ_pos 3) ?_ (by decide) (by decide)
    match k with
    | 0 | 1 =>
      cases hk
      rfl
    | k + 2 => cases hk
  · match k with
    | 0 => cases hk
    | 1 =>
      cases hk
      exact ⟨by decide, dvd_zero _⟩
    | k + 2 => cases hk
  · match k with
    | 0 | 1 | k + 2 => cases hk
  · match k with
    | 0 | 1 | k + 2 => cases hk

/-- **An align behind one byte** pads nothing: the distance leaves entry 0 out. -/
theorem not_links_align : ¬ ∃ out, link 4 (fun _ => none) (fun _ => 0)
    [.binary [0x40], .align 2, .binary [0x40]] = some out ∧
      Resolves 4 (fun _ => none) [.binary [0x40], .align 2, .binary [0x40]] out := by
  rintro ⟨out, hlink, hout⟩
  obtain rfl : [[0x40], [], [0x40]] = out := Option.some.inj hlink
  have halign : 2 ^ 2 ∣ 1 := hout.entry 1 _ _ rfl rfl
  revert halign
  decide

end Slinker

end Kroc
