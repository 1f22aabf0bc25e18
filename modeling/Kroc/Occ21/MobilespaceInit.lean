import Kroc.Occ21.MobilespaceLayout

/-!
# Occ21/MobilespaceInit — the initialisation of mobilespace

The count and the pairs that are generated for a map, against what has to be initialised in it:
shadow slots, mobile fields of records, the first word of an instance and the two words of a
replicated PAR with a count that is known at run time only.
-/

namespace Kroc

namespace Occ21

/-! ## Generating -/

/-- A declaration in a record of a variable.  A pair is two calls of `ldcinst`. -/
def dropDecl (bytesperword : ℕ) (msoffset disp : ℤ) (decl : Decl) : Option (List (ℤ × ℤ)) :=
  let place := (int32 (msoffset + disp)).bind fun x =>
    int32 (x + (decl.offset / bytesperword : ℕ))
  match decl.name with
  | .dynmobilearray _ => place.map fun x => [(x, 0)]
  | .dynmobilechantype => place.map fun x => [(x, -1)]
  | .dynmobileproctype => place.map fun x => [(x, -1)]
  | .other => some []

def dropDecls (bytesperword : ℕ) (msoffset disp : ℤ) : List Decl → Option (List (ℤ × ℤ))
  | [] => some []
  | decl :: decls => do
    let here ← dropDecl bytesperword msoffset disp decl
    return here ++ (← dropDecls bytesperword msoffset disp decls)

def mobiledropnestedinit (bytesperword : ℕ) (varptr : MobileVar) (msoffset disp : ℤ) :
    Option (List (ℤ × ℤ)) :=
  match varptr.type with
  | .typedecl type =>
    match followUserType type with
    | .mobile (.record decls) => dropDecls bytesperword msoffset disp decls
    | _ => some []
  | _ => some []

mutual

def Msmap.dropInit (bytesperword : ℕ) (disp : ℤ) : Msmap → Option (List (ℤ × ℤ))
  | .var _ _ msoffset sloffset varptr => do
    let slot ← int32 (sloffset + disp)
    let data ← int32 (msoffset + disp)
    return (slot, data) :: (← mobiledropnestedinit bytesperword varptr msoffset disp)
  | .inst _ _ msoffset _ => some [(-1, msoffset)]
  | .replpar _ _ msoffset _ replcount msusage replptr =>
    if replcount = -1 then (int32 (msoffset + disp)).map fun x => [(x, 0)]
    else
      -- what the replicas so far have dropped, and `voffset`
      ((List.range replcount.toNat).foldlM (fun (s : List (ℤ × ℤ) × ℤ) _ => do
        let replica ← mobiledropinitsequence bytesperword s.2 replptr
        return (s.1 ++ replica, ← int32 (s.2 + msusage))) ([], msoffset)).map Prod.fst

def mobiledropinitsequence (bytesperword : ℕ) (disp : ℤ) : List Msmap → Option (List (ℤ × ℤ))
  | [] => some []
  | tmp :: rest => do
    let here ← tmp.dropInit bytesperword disp
    return here ++ (← mobiledropinitsequence bytesperword disp rest)

end

/-- The fields of the record that a type is, by whatever names. -/
def Typetree.fields : Typetree → List Decl
  | .typedecl type => type.fields
  | .mobile type => type.fields
  | .record decls => decls
  | .other => []

/-- What the first word of a field is initialised to, as it is written in a pair. -/
def Nested.initial : Nested → Option ℤ
  | .dynmobilearray _ => some 0
  | .dynmobilechantype => some (-1)
  | .dynmobileproctype => some (-1)
  | .other => none

/-- The pairs for mobile fields of a record at `place`. -/
def fieldPairs (bytesperword : ℕ) (place : ℤ) (decls : List Decl) : List (ℤ × ℤ) :=
  decls.flatMap fun decl =>
    decl.name.initial.toList.map fun v => (place + (decl.offset / bytesperword : ℕ), v)

mutual

/-- The pairs for a node of a map that is at `base`. -/
def Msmap.initPairs (bytesperword : ℕ) (base : ℤ) : Msmap → List (ℤ × ℤ)
  | .var _ _ msoffset sloffset varptr =>
    (base + sloffset, base + msoffset) ::
      fieldPairs bytesperword (base + msoffset) varptr.type.fields
  | .inst _ _ msoffset _ => [(-1, base + msoffset)]
  | .replpar _ _ msoffset _ replcount msusage replptr =>
    if replcount = -1 then [(base + msoffset, 0)]
    else (List.range replcount.toNat).flatMap fun i : ℕ =>
      pairsOf bytesperword (base + (msoffset + i * msusage)) replptr

/-- The pairs for a map that is at `base`. -/
def pairsOf (bytesperword : ℕ) (base : ℤ) : List Msmap → List (ℤ × ℤ)
  | [] => []
  | tmp :: rest => tmp.initPairs bytesperword base ++ pairsOf bytesperword base rest

end

/-! ## Where no sum overflows -/

/-- How many entries the fields are counted for, where nothing overflows. -/
def nestedInits : Typetree → ℕ
  | .record decls => (decls.map fun decl => match decl.name with
    | .dynmobilearray dimensions => 1 + (dimensions : ℕ)
    | .dynmobilechantype => 1
    | .dynmobileproctype => 1
    | .other => 0).sum
  | _ => 0

/-- The entries of the fields, where nothing overflows. -/
def nestedDrops (bytesperword : ℕ) (varptr : MobileVar) (msoffset disp : ℤ) :
    List (ℤ × ℤ) :=
  match varptr.type with
  | .typedecl type =>
    match followUserType type with
    | .mobile (.record decls) => fieldPairs bytesperword (msoffset + disp) decls
    | _ => []
  | _ => []

/-- What is counted for the fields of a variable. -/
def MobileVar.inits (v : MobileVar) : ℕ :=
  match v.type with
  | .typedecl type =>
    match followUserType type with
    | .mobile type => nestedInits type
    | _ => 0
  | _ => 0

mutual

/-- What a node adds to the count. -/
def Msmap.inits : Msmap → ℤ
  | .var _ _ _ _ varptr => 1 + varptr.inits
  | .replpar _ _ _ _ replcount _ replptr =>
    if replcount = -1 then 1 else replcount * initsIn replptr
  | .inst .. => 1

def initsIn : List Msmap → ℤ
  | [] => 0
  | tmp :: rest => tmp.inits + initsIn rest

end

mutual

/-- What is dropped for a node. -/
def Msmap.drops (bytesperword : ℕ) (disp : ℤ) : Msmap → List (ℤ × ℤ)
  | .var _ _ msoffset sloffset varptr =>
    (sloffset + disp, msoffset + disp) :: nestedDrops bytesperword varptr msoffset disp
  | .inst _ _ msoffset _ => [(-1, msoffset)]
  | .replpar _ _ msoffset _ replcount msusage replptr =>
    if replcount = -1 then [(msoffset + disp, 0)]
    else (List.range replcount.toNat).flatMap fun i : ℕ =>
      dropsIn bytesperword (msoffset + i * msusage) replptr

def dropsIn (bytesperword : ℕ) (disp : ℤ) : List Msmap → List (ℤ × ℤ)
  | [] => []
  | tmp :: rest => tmp.drops bytesperword disp ++ dropsIn bytesperword disp rest

end

/-! ## When it is generated right -/

/-- **The mobile fields are counted and initialised**: there are none, or they are channel and
process types in a named mobile record. -/
def MobileVar.Fits (v : MobileVar) : Prop :=
  (∀ decl ∈ v.type.fields, decl.name.initial = none) ∨
    ∃ type decls, v.type = .typedecl type ∧ followUserType type = .mobile (.record decls) ∧
      ∀ decl ∈ decls, ∀ n, decl.name ≠ .dynmobilearray n

mutual

/-- For a node of a map at `base`, whose replicated PAR is in a map at `outer`. -/
def Msmap.Right (outer base : ℤ) : Msmap → Prop
  | .var _ _ _ _ varptr => outer = 0 ∧ varptr.Fits
  | .inst .. => base = 0
  | .replpar _ _ msoffset _ replcount msusage replptr =>
    if replcount = -1 then outer = 0
    else ∀ i : ℕ, i < replcount.toNat → RightAll base (base + (msoffset + i * msusage)) replptr

def RightAll (outer base : ℤ) : List Msmap → Prop
  | [] => True
  | tmp :: rest => tmp.Right outer base ∧ RightAll outer base rest

end

mutual

/-- The counts of replicated PARs are counts, or `-1`. -/
def Msmap.Counts : Msmap → Prop
  | .replpar _ _ _ _ replcount _ replptr => (replcount = -1 ∨ 0 ≤ replcount) ∧ CountsAll replptr
  | _ => True

def CountsAll : List Msmap → Prop
  | [] => True
  | tmp :: rest => tmp.Counts ∧ CountsAll rest

end

variable {bytesperword : ℕ} {v : MobileVar}

/-- The fields of a named mobile record are generated as they have to be. -/
theorem nestedDrops_named {type : Typetree} {decls : List Decl} (msoffset disp : ℤ)
    (h : v.type = .typedecl type) (h' : followUserType type = .mobile (.record decls)) :
    nestedDrops bytesperword v msoffset disp =
      fieldPairs bytesperword (msoffset + disp) decls := by
  rw [nestedDrops, h]
  simp only [h']

/-- Those of any other type are not generated at all. -/
theorem nestedDrops_other (msoffset disp : ℤ)
    (h : ∀ type decls, v.type = .typedecl type → followUserType type ≠ .mobile (.record decls)) :
    nestedDrops bytesperword v msoffset disp = [] := by
  rw [nestedDrops]
  split
  · rename_i type htype
    split
    · rename_i decls hrecord
      exact absurd hrecord (h type decls htype)
    · rfl
  · rfl

theorem fields_followUserType : ∀ type : Typetree, (followUserType type).fields = type.fields
  | .typedecl type => by rw [followUserType, fields_followUserType type, Typetree.fields]
  | .mobile _ => rfl
  | .record _ => rfl
  | .other => rfl

/-- The fields of a variable whose type has a name. -/
theorem fields_named {type : Typetree} {decls : List Decl} (h : v.type = .typedecl type)
    (h' : followUserType type = .mobile (.record decls)) : v.type.fields = decls := by
  rw [h, Typetree.fields, ← fields_followUserType, h']
  rfl

/-- None has to be generated where no field is initialised. -/
theorem fieldPairs_eq_nil (place : ℤ) (decls : List Decl) :
    fieldPairs bytesperword place decls = [] ↔ ∀ decl ∈ decls, decl.name.initial = none := by
  rw [fieldPairs, List.flatMap_eq_nil_iff]
  refine forall₂_congr fun decl _ => ?_
  cases decl.name <;> simp [Nested.initial]

/-- A variable's type is a named mobile record, or its fields are not generated. -/
theorem named_or (v : MobileVar) :
    (∃ type decls, v.type = .typedecl type ∧ followUserType type = .mobile (.record decls)) ∨
      ∀ type decls, v.type = .typedecl type → followUserType type ≠ .mobile (.record decls) := by
  by_cases h : ∃ type decls, v.type = .typedecl type ∧ followUserType type = .mobile (.record decls)
  · exact .inl h
  · push Not at h
    exact .inr h

theorem inits_named {type : Typetree} {decls : List Decl} (h : v.type = .typedecl type)
    (h' : followUserType type = .mobile (.record decls)) :
    v.inits = nestedInits (.record decls) := by
  rw [MobileVar.inits, h]
  simp only [h']

/-- Nor are they counted. -/
theorem inits_other
    (h : ∀ type decls, v.type = .typedecl type → followUserType type ≠ .mobile (.record decls)) :
    v.inits = 0 := by
  rw [MobileVar.inits]
  split
  · rename_i type htype
    split
    · rename_i t ht
      cases t with
      | record decls => exact absurd ht (h type decls htype)
      | _ => rfl
    · rfl
  · rfl

/-- **A dynamic mobile array is counted too often**: once for each of its dimensions besides. -/
theorem nestedInits_spec (place : ℤ) : ∀ decls : List Decl,
    (fieldPairs bytesperword place decls).length ≤ nestedInits (.record decls) ∧
      (nestedInits (.record decls) = (fieldPairs bytesperword place decls).length ↔
        ∀ decl ∈ decls, ∀ n, decl.name ≠ .dynmobilearray n)
  | [] => ⟨Nat.le_refl _, fun _ _ hd => absurd hd List.not_mem_nil, fun _ => rfl⟩
  | decl :: decls => by
    obtain ⟨hle, hiff⟩ := nestedInits_spec place decls
    have hcount : nestedInits (.record (decl :: decls)) =
        nestedInits (.record [decl]) + nestedInits (.record decls) := by
      simp only [nestedInits, List.map_cons, List.map_nil, List.sum_cons, List.sum_nil,
        Nat.add_zero]
    have hpairs : (fieldPairs bytesperword place (decl :: decls)).length =
        decl.name.initial.toList.length + (fieldPairs bytesperword place decls).length := by
      rw [fieldPairs, List.flatMap_cons, List.length_append, List.length_map]
      rfl
    have hone : decl.name.initial.toList.length ≤ nestedInits (.record [decl]) ∧
        (nestedInits (.record [decl]) = decl.name.initial.toList.length ↔
          ∀ n, decl.name ≠ .dynmobilearray n) := by
      cases hname : decl.name with
      | dynmobilearray n =>
        simp [nestedInits, Nested.initial, hname]
      | _ => simp [nestedInits, Nested.initial, hname]
    rw [hcount, hpairs, List.forall_mem_cons, ← hiff, ← hone.2]
    exact ⟨by omega, by omega⟩

variable (bytesperword)

/-- **The fields are counted and generated right** exactly if the variable fits. -/
theorem fits_iff (v : MobileVar) (msoffset disp place : ℤ) :
    (v.inits = (fieldPairs bytesperword place v.type.fields).length ∧
      nestedDrops bytesperword v msoffset disp =
        fieldPairs bytesperword (msoffset + disp) v.type.fields) ↔ v.Fits := by
  rcases named_or v with ⟨type, decls, h, h'⟩ | h
  · rw [nestedDrops_named msoffset disp h h', fields_named h h', inits_named h h',
      (nestedInits_spec place decls).2, MobileVar.Fits, fields_named h h']
    constructor
    · exact fun hd => .inr ⟨type, decls, h, h', hd.1⟩
    · rintro (hnone | ⟨type', decls', h1, h2, h3⟩)
      · refine ⟨fun decl hd n hname => ?_, rfl⟩
        have := hnone decl hd
        rw [hname] at this
        cases this
      · obtain rfl : type = type' := Typetree.typedecl.inj (h.symm.trans h1)
        obtain rfl : decls = decls' :=
          Typetree.record.inj (Typetree.mobile.inj (h'.symm.trans h2))
        exact ⟨h3, rfl⟩
  · rw [nestedDrops_other msoffset disp h, inits_other h, MobileVar.Fits]
    constructor
    · exact fun hd => .inl ((fieldPairs_eq_nil _ _).mp hd.2.symm)
    · rintro (hnone | ⟨type', decls', h1, h2, -⟩)
      · rw [(fieldPairs_eq_nil _ _).mpr hnone, (fieldPairs_eq_nil _ _).mpr hnone]
        exact ⟨rfl, rfl⟩
      · exact absurd h2 (h type' decls' h1)

/-! ### Maps -/

theorem fieldPairs_cons (place : ℤ) (decl : Decl) (decls : List Decl) :
    fieldPairs bytesperword place (decl :: decls) =
      fieldPairs bytesperword place [decl] ++ fieldPairs bytesperword place decls := by
  rw [fieldPairs, fieldPairs, List.flatMap_cons, List.flatMap_singleton, fieldPairs]

theorem dropDecl_eq {msoffset disp : ℤ} {decl : Decl}
    (h : decl.name.initial ≠ none → IsInt (msoffset + disp) ∧
      IsInt (msoffset + disp + (decl.offset / bytesperword : ℕ))) :
    dropDecl bytesperword msoffset disp decl =
      some (fieldPairs bytesperword (msoffset + disp) [decl]) := by
  rw [fieldPairs, List.flatMap_singleton]
  unfold dropDecl
  cases hname : decl.name with
  | other => rfl
  | _ =>
    obtain ⟨hplace, hfield⟩ := h (by rw [hname]; exact Option.some_ne_none _)
    rw [int32_eq_some.mpr ⟨rfl, hplace⟩, Option.bind_some, int32_eq_some.mpr ⟨rfl, hfield⟩]
    rfl

theorem dropDecls_eq {msoffset disp : ℤ} : ∀ {decls : List Decl},
    (∀ decl ∈ decls, decl.name.initial ≠ none → IsInt (msoffset + disp) ∧
      IsInt (msoffset + disp + (decl.offset / bytesperword : ℕ))) →
    dropDecls bytesperword msoffset disp decls =
      some (fieldPairs bytesperword (msoffset + disp) decls)
  | [], _ => rfl
  | decl :: decls, h => by
    obtain ⟨hdecl, hdecls⟩ := List.forall_mem_cons.mp h
    rw [dropDecls, dropDecls_eq hdecls, dropDecl_eq bytesperword hdecl,
      fieldPairs_cons bytesperword _ decl decls]
    rfl

/-- The fields of a variable, where nothing overflows. -/
theorem mobiledropnestedinit_eq {msoffset disp : ℤ}
    (h : ∀ decl ∈ v.type.fields, decl.name.initial ≠ none → IsInt (msoffset + disp) ∧
      IsInt (msoffset + disp + (decl.offset / bytesperword : ℕ))) :
    mobiledropnestedinit bytesperword v msoffset disp =
      some (nestedDrops bytesperword v msoffset disp) := by
  rcases named_or v with ⟨type, decls, htype, hrecord⟩ | hother
  · rw [fields_named htype hrecord] at h
    rw [nestedDrops_named msoffset disp htype hrecord, mobiledropnestedinit, htype]
    simp only [hrecord]
    exact dropDecls_eq bytesperword h
  · rw [nestedDrops_other msoffset disp hother, mobiledropnestedinit]
    split
    · rename_i type htype
      split
      · rename_i decls hrecord
        exact absurd hrecord (hother type decls htype)
      · rfl
    · rfl

/-- The loop over the replicas, where nothing overflows. -/
theorem foldlM_replicas_eq (drop : ℤ → Option (List (ℤ × ℤ))) (drop' : ℤ → List (ℤ × ℤ))
    {msoffset msusage : ℤ} : ∀ {n : ℕ},
    (∀ i : ℕ, i < n → drop (msoffset + i * msusage) = some (drop' (msoffset + i * msusage)) ∧
      IsInt (msoffset + (i + 1 : ℕ) * msusage)) →
    (List.range n).foldlM (fun (s : List (ℤ × ℤ) × ℤ) _ => do
      let replica ← drop s.2
      return (s.1 ++ replica, ← int32 (s.2 + msusage))) ([], msoffset) =
      some ((List.range n).flatMap fun i : ℕ => drop' (msoffset + i * msusage),
        msoffset + n * msusage)
  | 0, _ => by simp
  | n + 1, h => by
    obtain ⟨hdrop, hint⟩ := h n (Nat.lt_succ_self n)
    have hnext : msoffset + n * msusage + msusage = msoffset + (n + 1 : ℕ) * msusage := by
      push_cast
      ring
    rw [List.range_succ, List.foldlM_append,
      foldlM_replicas_eq drop drop' fun i hi => h i (hi.trans (Nat.lt_succ_self n))]
    simp only [List.foldlM_cons, List.foldlM_nil, Option.bind_eq_bind, Option.bind_some,
      Option.pure_def, hdrop, hnext, int32_eq_some.mpr ⟨rfl, hint⟩]
    rw [List.flatMap_append, List.flatMap_singleton]

/-- A declaration is counted. -/
theorem nestedInits_cons (decl : Decl) (decls : List Decl) :
    nestedInits (.record (decl :: decls)) =
      nestedInits (.record [decl]) + nestedInits (.record decls) := by
  simp only [nestedInits, List.map_cons, List.map_nil, List.sum_cons, List.sum_nil, Nat.add_zero]

theorem countDecl_eq {decl : Decl} {count : ℤ} (h0 : 0 ≤ count)
    (hlt : count + nestedInits (.record [decl]) < 2 ^ 31) :
    countDecl count decl = some (count + nestedInits (.record [decl])) := by
  unfold countDecl
  cases hname : decl.name with
  | dynmobilearray dimensions =>
    have hone : nestedInits (.record [decl]) = 1 + dimensions := by simp [nestedInits, hname]
    rw [hone] at hlt ⊢
    push_cast at hlt ⊢
    rw [int32_of_lt (by omega) (by omega), Option.bind_some, int32_of_lt (by omega) hlt]
  | other => simp [nestedInits, hname]
  | _ =>
    have hone : nestedInits (.record [decl]) = 1 := by simp [nestedInits, hname]
    rw [hone] at hlt ⊢
    exact int32_of_lt (by omega) hlt

theorem foldlM_countDecl_eq : ∀ {decls : List Decl} {count : ℤ}, 0 ≤ count →
    count + nestedInits (.record decls) < 2 ^ 31 →
      decls.foldlM countDecl count = some (count + nestedInits (.record decls))
  | [], count, _, _ => congrArg some (add_zero _).symm
  | decl :: decls, count, h0, hlt => by
    rw [nestedInits_cons decl decls, Nat.cast_add, ← add_assoc] at hlt ⊢
    rw [List.foldlM_cons, countDecl_eq h0 (by omega)]
    exact foldlM_countDecl_eq (by omega) hlt

/-- The count of a variable, where it fits an `int`. -/
theorem counted_eq (h : (v.inits : ℤ) < 2 ^ 31) : v.counted = some (v.inits : ℤ) := by
  rcases named_or v with ⟨type, decls, htype, hrecord⟩ | hother
  · rw [inits_named htype hrecord] at h ⊢
    rw [MobileVar.counted, htype]
    simp only [hrecord, mobilecountnestedinit]
    rw [foldlM_countDecl_eq le_rfl (by rwa [zero_add]), zero_add]
  · rw [inits_other hother, MobileVar.counted]
    split
    · rename_i type htype
      split
      · rename_i t ht
        cases t with
        | record decls => exact absurd ht (hother type decls htype)
        | _ => rfl
      · rfl
    · rfl

end Occ21

end Kroc
