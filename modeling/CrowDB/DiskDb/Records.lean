import CrowDB.DiskDb.Bitmap

/-!
# Durable records of a zone

The data group holds one busy record per allocated range, keyed by its offset, one
free fact per freed incarnation, and one snapshot per zone. An incarnation is a
range together with the timestamp of its allocation.
-/
namespace CrowDB.DiskDb
open Lib Paxos

structure DiskId where
  high : ℕ
  low : ℕ
  deriving DecidableEq, Repr

structure ChunkId where
  high : ℕ
  low : ℕ
  deriving DecidableEq, Repr

inductive BlockState
  | ok | suspect | corrupt
  deriving DecidableEq, Repr

namespace BlockState

def toI32 : BlockState → ℤ
  | ok => 0
  | suspect => 1
  | corrupt => 2

def tryFrom (v : ℤ) : Option BlockState :=
  [ok, suspect, corrupt].find? fun s => s.toI32 = v

end BlockState

inductive CommitState
  | tentative | committed
  deriving DecidableEq, Repr

namespace CommitState

def toI32 : CommitState → ℤ
  | tentative => 0
  | committed => 1

def tryFrom (v : ℤ) : Option CommitState :=
  [tentative, committed].find? fun s => s.toI32 = v

end CommitState

structure BusyBlockKey where
  diskId : DiskId
  zoneIndex : ℕ
  unitOffset : ℕ
  deriving DecidableEq, Repr

structure BusyBlockValue where
  unitCount : ℕ
  ownerChunk : Option ChunkId
  unitSize : ℕ
  state : ℤ
  commitState : ℤ
  allocationTs : ℕ
  deriving DecidableEq, Repr

structure FreeBlockKey where
  diskId : DiskId
  zoneIndex : ℕ
  unitOffset : ℕ
  allocationTs : ℕ
  deriving DecidableEq, Repr

structure FreeBlockValue where
  unitCount : ℕ
  previousOwner : Option ChunkId
  preAllocationTs : ℕ
  freeTs : ℕ
  deriving DecidableEq, Repr

/-- A busy record with the slot of its last write. -/
structure BusyRecord where
  key : BusyBlockKey
  value : BusyBlockValue
  commitSlot : ℕ
  deriving DecidableEq, Repr

structure FreeRecord where
  key : FreeBlockKey
  value : FreeBlockValue
  commitSlot : ℕ
  deriving DecidableEq, Repr

/-- `ZoneValue`: the compressed bitmap as of `snapshotSlot`. -/
structure ZoneValue where
  bitmapCodec : UInt8
  usageBitmap : Bytes
  snapshotSlot : ℕ
  crc32 : UInt32
  compactTs : ℕ
  compactSlot : ℕ
  deriving DecidableEq, Repr

structure ZoneRecords where
  zoneValue : Option ZoneValue
  busy : List BusyRecord
  free : List FreeRecord

/-- The units of a busy range. -/
def BusyRecord.units (r : BusyRecord) : Finset ℕ :=
  Finset.Ico r.key.unitOffset (r.key.unitOffset + r.value.unitCount)

/-- Whether a free fact names the incarnation that a busy record holds. -/
def FreeRecord.frees (f : FreeRecord) (b : BusyRecord) : Bool :=
  f.key.allocationTs == f.value.preAllocationTs && b.value.allocationTs == f.value.preAllocationTs
    && b.value.unitCount == f.value.unitCount
    && b.value.ownerChunk == f.value.previousOwner

/-- The record that a map built from `busy` has at an offset: the last one wins. -/
def busyByOffset (busy : List BusyRecord) (offset : ℕ) : Option BusyRecord :=
  busy.reverse.find? fun b => b.key.unitOffset == offset

/-- The free facts whose incarnation is the one at their offset. -/
def FreeRecord.hasBusy (busy : List BusyRecord) (f : FreeRecord) : Bool :=
  (busyByOffset busy f.key.unitOffset).any f.frees

variable {busy : List BusyRecord}

lemma busyByOffset_some {offset : ℕ} {b : BusyRecord} (h : busyByOffset busy offset = some b) :
    b ∈ busy ∧ b.key.unitOffset = offset :=
  ⟨List.mem_reverse.mp (List.mem_of_find?_eq_some h), by simpa using List.find?_some h⟩

/-- A matched fact names the incarnation of a busy record. -/
theorem FreeRecord.exists_busy {f : FreeRecord} (h : f.hasBusy busy = true) :
    ∃ b ∈ busy, busyByOffset busy f.key.unitOffset = some b ∧
      b.key.unitOffset = f.key.unitOffset ∧ f.frees b = true := by
  unfold hasBusy at h
  cases hb : busyByOffset busy f.key.unitOffset with
  | none => simp [hb] at h
  | some b =>
    obtain ⟨hmem, hoff⟩ := busyByOffset_some hb
    rw [hb] at h
    exact ⟨b, hmem, rfl, hoff, h⟩

lemma FreeRecord.frees_spec {f : FreeRecord} {b : BusyRecord} (h : f.frees b = true) :
    b.value.allocationTs = f.value.preAllocationTs ∧
      b.value.unitCount = f.value.unitCount ∧ b.value.ownerChunk = f.value.previousOwner := by
  simp only [frees, Bool.and_eq_true, beq_iff_eq, and_assoc] at h
  exact h.2

/-- A journal entry of a busy key. -/
inductive BusyOp
  | put (r : BusyRecord)
  | delete (key : BusyBlockKey) (slot : ℕ)
  deriving DecidableEq, Repr

variable {live : List BusyRecord}

namespace BusyOp

/-- What an entry makes of the live records. -/
def apply (live : List BusyRecord) : BusyOp → List BusyRecord
  | put r => live.filter (fun x => x.key ≠ r.key) ++ [r]
  | delete key _ => live.filter fun x => x.key ≠ key

/-- The live records after a stretch of the journal. -/
def applyAll (live : List BusyRecord) (ops : List BusyOp) : List BusyRecord :=
  ops.foldl apply live

lemma mem_apply_put {r x : BusyRecord} (h : x ∈ apply live (put r)) : x ∈ live ∨ x = r := by
  simp only [apply, List.mem_append, List.mem_filter, List.mem_singleton] at h
  exact h.imp And.left id

lemma mem_apply_delete {key : BusyBlockKey} {slot : ℕ} {x : BusyRecord}
    (h : x ∈ apply live (delete key slot)) : x ∈ live :=
  (List.mem_filter.mp h).1

end BusyOp
end CrowDB.DiskDb
