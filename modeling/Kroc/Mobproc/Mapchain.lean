import Kroc.Lib.FirstMatch
import Kroc.Mobproc.Clone

/-!
# Mobproc/Mapchain — the chain of workspace maps of a process

`mpcb_add_wsmap` and `mpcb_del_wsmap` of `ccsp/common/mobproc.c`.  The loop of the second goes on
while offset, size and map all differ, so that it stops where only one of them is what it looks for.
-/

namespace Kroc

namespace Mobproc

open FirstMatch

/-- `mp_mapchain`, with the map by its address. -/
structure MapchainEntry where
  mapdata : Word
  mapsize : Word
  wsoffset : Word
  deriving DecidableEq

/-- The bytes of the maps, and `wsbase` of the process. -/
structure Mapped where
  byte : Word → BitVec 8
  wsbase : Word

variable (M : Mapped)

/-- `(int)((mapdata[0] << 8) | mapdata[1])` -/
def Mapped.mapsize (mapdata : Word) : Word :=
  (M.byte mapdata).zeroExtend 32 <<< 8 ||| (M.byte (mapdata + 1)).zeroExtend 32

/-- `((int)wptr - (int)(mp->wsbase)) >> WSH` -/
def Mapped.wsoffset (wptr : Word) : Word := (wptr - M.wsbase).sshiftRight 2

/-- `mpcb_add_wsmap` -/
def mpcbAddWsmap (mapdata wptr : Word) (chain : List MapchainEntry) : List MapchainEntry :=
  if mapdata = 0 then chain
  else chain ++ [⟨mapdata, M.mapsize mapdata, M.wsoffset wptr⟩]

/-- The condition of the loop of `mpcb_del_wsmap`. -/
def passes (mapdata wptr : Word) (e : MapchainEntry) : Bool :=
  e.wsoffset ≠ M.wsoffset wptr && e.mapsize ≠ M.mapsize mapdata &&
    !(e.mapdata = mapdata || e.mapdata = 0)

/-- `mpcb_del_wsmap` -/
def mpcbDelWsmap (mapdata wptr : Word) (chain : List MapchainEntry) : List MapchainEntry :=
  if mapdata = 0 then chain else chain.eraseP fun e => !passes M mapdata wptr e

inductive WsmapCall
  | add (mapdata wptr : Word)
  | del (mapdata wptr : Word)

def WsmapCall.run (chain : List MapchainEntry) : WsmapCall → List MapchainEntry
  | add mapdata wptr => mpcbAddWsmap M mapdata wptr chain
  | del mapdata wptr => mpcbDelWsmap M mapdata wptr chain

/-- The chain after a history of calls. -/
def mapchain (calls : List WsmapCall) : List MapchainEntry := calls.foldl (WsmapCall.run M) []

/-- An entry that was added with the map and the offset. -/
def AddedWith (mapdata wptr : Word) (e : MapchainEntry) : Prop :=
  e.mapdata = mapdata ∧ e.wsoffset = M.wsoffset wptr

/-- **A deletion takes off what was added.** -/
def DeletesAdded (mapdata wptr : Word) (chain : List MapchainEntry) : Prop :=
  Removed (AddedWith M mapdata wptr) chain (mpcbDelWsmap M mapdata wptr chain)

/-- The first entry with the offset, the size or the map has the offset and the map. -/
def FirstIsMeant (mapdata wptr : Word) (chain : List MapchainEntry) : Prop :=
  mapdata ≠ 0 → ∀ e ∈ chain.find? (fun e => !passes M mapdata wptr e), AddedWith M mapdata wptr e

variable {M} {mapdata wptr : Word} {chain : List MapchainEntry} {calls : List WsmapCall}

/-- Only maps are put on the chain. -/
theorem mapdata_ne_zero_run {call : WsmapCall} (h : ∀ e ∈ chain, e.mapdata ≠ 0) :
    ∀ e ∈ call.run M chain, e.mapdata ≠ 0 := by
  intro e he
  cases call with
  | add mapdata wptr =>
    rw [WsmapCall.run, mpcbAddWsmap] at he
    split_ifs at he with h0
    · exact h e he
    · rcases List.mem_append.mp he with he | he
      · exact h e he
      · rw [List.mem_singleton.mp he]
        exact h0
  | del mapdata wptr =>
    rw [WsmapCall.run, mpcbDelWsmap] at he
    split_ifs at he with h0
    · exact h e he
    · exact h e (List.mem_of_mem_eraseP he)

theorem mapdata_ne_zero (calls : List WsmapCall) : ∀ e ∈ mapchain M calls, e.mapdata ≠ 0 := by
  induction calls using List.reverseRecOn with
  | nil => exact fun e he => absurd he List.not_mem_nil
  | append_singleton calls call ih =>
    rw [mapchain, List.foldl_append]
    exact mapdata_ne_zero_run ih

theorem stops_of_addedWith (e : MapchainEntry) (he : AddedWith M mapdata wptr e) :
    (!passes M mapdata wptr e) = true := by
  simp [passes, he.1, he.2]

/-- **One deletion.** -/
theorem deletesAdded_iff (hchain : ∀ e ∈ chain, e.mapdata ≠ 0) :
    DeletesAdded M mapdata wptr chain ↔ FirstIsMeant M mapdata wptr chain := by
  unfold DeletesAdded FirstIsMeant mpcbDelWsmap
  split_ifs with h0
  · subst h0
    refine ⟨fun _ h => absurd rfl h, fun _ => .inr ⟨fun e he hadded => ?_, rfl⟩⟩
    exact hchain e he hadded.1
  · rw [removed_eraseP_iff stops_of_addedWith]
    exact ⟨fun h _ => h, fun h => h h0⟩

/-- **The deletions of a history take off what was added** exactly when each of them comes first to
an entry with its offset and its map. -/
theorem wsmaps_removed_iff (M : Mapped) (calls : List WsmapCall) :
    (∀ before mapdata wptr after, calls = before ++ .del mapdata wptr :: after →
      DeletesAdded M mapdata wptr (mapchain M before)) ↔
    ∀ before mapdata wptr after, calls = before ++ .del mapdata wptr :: after →
      FirstIsMeant M mapdata wptr (mapchain M before) := by
  have hiff : ∀ before mapdata wptr, DeletesAdded M mapdata wptr (mapchain M before) ↔
      FirstIsMeant M mapdata wptr (mapchain M before) :=
    fun before _ _ => deletesAdded_iff (mapdata_ne_zero before)
  constructor
  · intro h before mapdata wptr after hcalls
    exact (hiff before mapdata wptr).mp (h before mapdata wptr after hcalls)
  · intro h before mapdata wptr after hcalls
    exact (hiff before mapdata wptr).mpr (h before mapdata wptr after hcalls)

/-! ## Two maps of one size -/

/-- All maps have two entries. -/
def twoEntries : Mapped := ⟨fun a => if a.toNat % 16 = 1 then 2 else 0, 0x8000⟩

/-- The first of two maps goes, though the second was to be deleted. -/
theorem wsmaps_first_of_size :
    mapchain twoEntries [.add 0x100 0x8010, .add 0x200 0x8040] = [⟨0x100, 2, 4⟩, ⟨0x200, 2, 16⟩] ∧
    mapchain twoEntries [.add 0x100 0x8010, .add 0x200 0x8040, .del 0x200 0x8040] =
      [⟨0x200, 2, 16⟩] ∧
    ¬ DeletesAdded twoEntries 0x200 0x8040
      (mapchain twoEntries [.add 0x100 0x8010, .add 0x200 0x8040]) := by
  refine ⟨by decide, by decide, ?_⟩
  rw [deletesAdded_iff (mapdata_ne_zero _)]
  intro h
  exact absurd (h (by decide) ⟨0x100, 2, 4⟩ (by decide)).1 (by decide)

end Mobproc

end Kroc
