import Kroc.Mobproc.Wsmap

/-!
# Mobproc/Clone — the two loops of a clone over the workspace maps

`remap_workspace` and `clone_workspace` of `ccsp/common/mobproc.c`, over a memory of 32-bit words.
What the memory is, and what the allocator and the clone of a nested process do to it, are
parameters.
-/

namespace Kroc

namespace Mobproc

abbrev Word := BitVec 32

/-- The operations on a memory. -/
structure Machine (σ : Type*) where
  read : σ → Word → Word
  write : σ → Word → Word → σ
  dmemAlloc : σ → Word → σ × Word
  memcpy : σ → Word → Word → Word → σ
  mppClone : σ → Word → σ × Word

/-- What the loops read of an `mp_ctrlblk`, and its address. -/
structure Mpcb where
  addr : Word
  wsbase : Word
  wssize : Word
  vsbase : Word
  vssize : Word

/-- `NotProcess_p`, which is also `NULL`. -/
def notProcess : Word := 0

/-- `&ws[i]` -/
def slot (ws : Word) (i : ℤ) : Word := ws + BitVec.ofInt 32 (4 * i)

variable {σ : Type*} (M : Machine σ)

/-- `for (i=1; i<nslots; i++)` over slots of a workspace. -/
def eachSlot (f : σ → ℤ → σ) (nslots : ℤ) (s : σ) : σ :=
  (List.range (nslots - 1).toNat).foldl (fun s i => f s (i + 1)) s

/-- The body of the loop of `remap_workspace`. -/
def remapEntry (newproc oldproc : Mpcb) (newws oldws : Word) (offset : ℤ) (type : Wsmap)
    (params : List ℤ) (s : σ) : Outcome σ :=
  let old := M.read s (slot oldws offset)
  let set := fun w => M.write s (slot newws offset) w
  match type, params with
  | .chanword, _ => .next (set notProcess)
  | .chanptr, _ => .next (set (newws + (old - oldws)))
  | .staticlink, _ => .next (set (newws + (old - oldws)))
  | .genptr, _ =>
    if old ≥ oldproc.wsbase ∧ old < oldproc.wsbase + oldproc.wssize then
      .next (set (newws + (old - oldws)))
    else if old ≥ oldproc.vsbase ∧ old < oldproc.vsbase + oldproc.vssize then
      .next (set (newproc.vsbase + (old - oldproc.vsbase)))
    else .next s
  | .mobDa, [nslots, _] =>
    .next (eachSlot (fun s i => M.write s (slot newws (offset + i)) 0) nslots (set 0))
  | .mobCt, _ => .next (set 0)
  | .mobPt, _ => .next (set 0)
  | .mpp, _ => .next (set (if old = oldproc.addr then newproc.addr else 0))
  | .vsptr, _ => .next (set (newproc.vsbase + (old - oldproc.vsbase)))
  | _, _ => .next s

/-- The body of the loop of `clone_workspace`; the flag is `seen_first_param`. -/
def cloneEntry (newws oldws : Word) (offset : ℤ) (type : Wsmap) (params : List ℤ) :
    σ × Bool → Outcome (σ × Bool)
  | (s, seenFirstParam) =>
    let old := M.read s (slot oldws offset)
    let set := fun s w => M.write s (slot newws offset) w
    match type, params with
    | .mobDa, [nslots, basebytes] =>
      if M.read s (slot oldws (offset + 1)) ≠ 0 then
        let (s, size) := (List.range (nslots - 1).toNat).foldl (fun (acc : σ × Word) i =>
          let s := M.write acc.1 (slot newws (offset + (i + 1)))
            (M.read acc.1 (slot oldws (offset + (i + 1))))
          (s, acc.2 * M.read s (slot newws (offset + (i + 1))))) (s, BitVec.ofInt 32 basebytes)
        let (s, p) := M.dmemAlloc s size
        let s := set s p
        .next (M.memcpy s (M.read s (slot newws offset)) (M.read s (slot oldws offset)) size,
          seenFirstParam)
      else .next (s, seenFirstParam)
    | .mobCt, [nchans, _, isShared] =>
      if isShared = 0 then
        if old ≠ 0 then .fail (s, seenFirstParam) else .next (set s 0, seenFirstParam)
      else
        let s := set s old
        let chanwords := M.read s (slot newws offset)
        if seenFirstParam then .next (s, seenFirstParam)
        else .next (M.write s (slot chanwords nchans) (M.read s (slot chanwords nchans) + 1),
          seenFirstParam)
    | .mobPt, _ =>
      if old ≠ 0 then
        let (s, newp) := M.mppClone s old
        if newp = 0 then .fail (s, seenFirstParam) else .next (set s newp, seenFirstParam)
      else .next (set s 0, seenFirstParam)
    | .firstparam, _ => .next (s, true)
    | _, _ => .next (s, seenFirstParam)

/-- `mp_mapchain`: a map and where its workspace begins, in words from that of the process. -/
structure Mapchain where
  mapdata : List ℕ
  wsoffset : ℤ

/-- `remap_workspace` -/
def remapWorkspace (newproc oldproc : Mpcb) (mc : Mapchain) (doparams : Bool) (s : σ) :
    Option (Walked σ) :=
  walkMap (remapEntry M newproc oldproc (slot newproc.wsbase mc.wsoffset)
    (slot oldproc.wsbase mc.wsoffset)) doparams mc.mapdata s

/-- `clone_workspace`; it returns 0 where the walk fails. -/
def cloneWorkspace (newws oldws : Word) (mc : Mapchain) (doparams : Bool) (s : σ) :
    Option (Walked (σ × Bool)) :=
  walkMap (cloneEntry M (slot newws mc.wsoffset) (slot oldws mc.wsoffset)) doparams mc.mapdata
    (s, false)

/-! ## The maps are read back as written -/

/-- A walk has come to the entries of a list, and to the end of the map unless it was left. -/
def Visits {τ : Type*} (r : Option (Walked τ)) (body : ℤ → Wsmap → List ℤ → τ → Outcome τ)
    (es : List WsmapEntry) (s : τ) (mapmax : ℕ) : Prop :=
  ∃ w, r = some w ∧ w.outcome = runEntries body es s ∧ (w.failed = false → w.mapptr = mapmax)

/-- **Workspace maps are read back as written**: the numbers, and the entries that the loops come
to, in order and with their own parameters; what follows the map in memory is not looked at. -/
theorem maps_read_back :
    (∀ val : ℤ, -2 ^ 21 ≤ val → val < 2 ^ 21 → ∃ b, wsmapBytecode val = some b ∧
      ∀ pre post, decodeEntry (pre ++ b ++ post) pre.length = some (val, pre.length + b.length)) ∧
    ∀ (lmap : List WsmapEntry) (data : List ℕ), bytesofWsallocmap lmap = some data → data ≠ [] →
      sizeWsallocmap lmap < 2 ^ 16 → data.length - 4 < 2 ^ 16 →
      ∀ (post : List ℕ) (wsoffset : ℤ) (doparams : Bool) (newproc oldproc : Mpcb) (s : σ),
      (∀ e ∈ visible doparams (written lmap), e.Masked) →
      let mc : Mapchain := ⟨data ++ post, wsoffset⟩
      let newws := slot newproc.wsbase wsoffset
      let oldws := slot oldproc.wsbase wsoffset
      Visits (remapWorkspace M newproc oldproc mc doparams s)
        (remapEntry M newproc oldproc newws oldws) (visible doparams (written lmap)) s data.length ∧
      Visits (cloneWorkspace M newproc.wsbase oldproc.wsbase mc doparams s)
        (cloneEntry M newws oldws) (visible doparams (written lmap)) (s, false) data.length := by
  refine ⟨fun val hlo hhi => ?_, fun lmap data h hne _ hfits post wsoffset doparams newproc oldproc
    s hmasked => ⟨walkMap_bytesof h hne hfits hmasked post s,
      walkMap_bytesof h hne hfits hmasked post (s, false)⟩⟩
  obtain ⟨b, hb⟩ : ∃ b, wsmapBytecode val = some b := by
    unfold wsmapBytecode
    split_ifs
    · exact ⟨_, rfl⟩
    · exact ⟨_, rfl⟩
    · exact ⟨_, rfl⟩
    · omega
  exact ⟨b, hb, fun pre post => decodeEntry_bytecode hb pre post⟩

/-! ## The map of a process

A dynamic mobile array of records, the shared end of a channel type, the return address and three
parameters: a channel, a variable and the vector space. -/

/-- Words as a function of their address; there is one block to allocate. -/
def flat : Machine (Word → Word) where
  read s a := s a
  write s a w := Function.update s a w
  dmemAlloc s _ := (s, 0x4000)
  memcpy s dst src size a := if dst ≤ a ∧ a < dst + size then s (a - dst + src) else s a
  mppClone s _ := (s, 0)

def procMap : List WsmapEntry :=
  [⟨1, 0x06, 2, 100, none⟩, ⟨3, 0x07, 1, 0, some (2, false, true)⟩, ⟨4, 0x0f, 1, 0, none⟩,
    ⟨5, 0x03, 0, 0, none⟩, ⟨5, 0x02, 1, 0, none⟩, ⟨6, 0x05, 1, 0, none⟩, ⟨7, 0x09, 1, 0, none⟩]

def procBytes : List ℕ :=
  [0, 7, 0, 20, 1, 6, 2, 0x80, 100, 3, 7, 2, 0, 1, 4, 15, 5, 3, 5, 2, 6, 5, 7, 9]

def oldProc : Mpcb := ⟨4, 0x1000, 0x100, 0x3000, 0x100⟩

def newProc : Mpcb := ⟨8, 0x2000, 0x100, 0x5000, 0x100⟩

/-- Every word, copied or not, is the address of slot 1 of the old workspace. -/
def pointers : Word → Word := fun _ => 0x1004

theorem maps_read_back_procMap :
    Visits (remapWorkspace flat newProc oldProc ⟨procBytes ++ [9], 0⟩ true pointers)
      (remapEntry flat newProc oldProc 0x2000 0x1000) procMap pointers 24 ∧
    Visits (cloneWorkspace flat 0x2000 0x1000 ⟨procBytes ++ [9], 0⟩ true pointers)
      (cloneEntry flat 0x2000 0x1000) procMap (pointers, false) 24 :=
  (maps_read_back flat).2 procMap procBytes (by decide) (by decide) (by decide) (by decide) [9] 0
    true newProc oldProc pointers (by decide)

/-! ## Entries that are not visited

A walk without the parameters does not come to the channel after the first parameter, and its
pointer stays in the workspace of the old process.  A `WSMAP` of type 22 is written without
parameters and read with two, the bytes of the first parameter's entry. -/

def asmMap : List WsmapEntry :=
  [⟨2, 0x0f, 1, 0, none⟩, ⟨-1, 22, 1, 0, none⟩, ⟨3, 0x03, 0, 0, none⟩, ⟨3, 0x02, 1, 0, none⟩]

def asmBytes : List ℕ := [0, 4, 0, 8, 2, 15, 127, 22, 3, 3, 3, 2]

/-- What has become of a state in a run that should come to some entries. -/
theorem Visits.map_eq {τ γ : Type*} {r : Option (Walked τ)}
    {body : ℤ → Wsmap → List ℤ → τ → Outcome τ} {es : List WsmapEntry} {s : τ} {mapmax : ℕ}
    (h : Visits r body es s mapmax) (f : Outcome τ → γ) :
    r.map (fun w => f w.outcome) = some (f (runEntries body es s)) := by
  obtain ⟨w, rfl, hout, -⟩ := h
  rw [Option.map_some, hout]

/-- The word at an address, where a walk went on to the end. -/
def wordAt (a : Word) : Outcome (Word → Word) → Option Word
  | .next s => some (s a)
  | .fail _ => none

/-- `seen_first_param`, where a walk went on to the end. -/
def seenFirst : Outcome ((Word → Word) × Bool) → Option Bool
  | .next s => some s.2
  | .fail _ => none

theorem not_visits_procMap_asmMap :
    bytesofWsallocmap procMap = some procBytes ∧
    ¬ Visits (remapWorkspace flat newProc oldProc ⟨procBytes, 0⟩ false pointers)
      (remapEntry flat newProc oldProc 0x2000 0x1000) (written procMap) pointers 24 ∧
    bytesofWsallocmap asmMap = some asmBytes ∧
    ¬ Visits (cloneWorkspace flat 0x2000 0x1000 ⟨asmBytes, 0⟩ true pointers)
      (cloneEntry flat 0x2000 0x1000) (written asmMap) (pointers, false) 12 := by
  refine ⟨by decide, fun h => ?_, by decide, fun h => ?_⟩
  · have hword := h.map_eq (wordAt 0x2014)
    revert hword
    decide +kernel
  · have hseen := h.map_eq seenFirst
    revert hseen
    decide +kernel

end Mobproc

end Kroc
