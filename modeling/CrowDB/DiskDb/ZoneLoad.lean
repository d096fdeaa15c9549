import CrowDB.DiskDb.Records

/-!
# Loading a zone

A zone is loaded from its snapshot and the journal after it, or, when that is not
possible, by a scan of its busy records. Both put a busy range into the bitmap with
`range_set`, which leaves the bitmap as it was when a part of the range is already
there. Media that were in use before are validated by a third loader, which sets one
bit at a time.
-/
namespace CrowDB.DiskDb
open Lib BitWords Paxos

/-- The checksum and the decompression that the snapshot format relies on. -/
structure ZoneCodec where
  crc32 : Bytes → UInt32
  decompressSizePrepended : Bytes → Option Bytes

/-- The compressed form of 4096 zero bytes. -/
def emptyZoneBitmapLz4 : Bytes :=
  [0, 16, 0, 0, 31, 0, 1, 0] ++ List.replicate 15 255 ++ [245, 96, 0, 0, 0, 0, 0, 0]

namespace ZoneValue

def verifyChecksum (C : ZoneCodec) (v : ZoneValue) : Bool :=
  v.crc32 == C.crc32 (v.bitmapCodec :: v.usageBitmap ++ toLeBytes 8 v.compactSlot)

/-- `bitmap_bytes`: the announced length has to be that of the geometry. -/
def bitmapBytes (C : ZoneCodec) (v : ZoneValue) (n : ℕ) : Option Bytes :=
  if v.bitmapCodec ≠ 1 then none
  else if v.usageBitmap.length < 4 then none
  else if fromLeBytes (v.usageBitmap.take 4) ≠ (n + 63) / 64 * 8 then none
  else C.decompressSizePrepended v.usageBitmap

end ZoneValue

/-- `ZoneBitmap::from_value`. -/
def ZoneBitmap.fromValue (C : ZoneCodec) (v : ZoneValue) (n : ℕ) : Option (ZoneBitmap n) :=
  if v.bitmapCodec = 1 ∧ n = 32768 ∧ v.usageBitmap = emptyZoneBitmapLz4 then some (new n)
  else (v.bitmapBytes C n).map fun bytes => restore bytes n

inductive ZoneLoadError
  | kv
  | journalScanGcGap
  | snapshotCrcFail
  | loadFailed (message : String)
  deriving DecidableEq, Repr

/-- `DdbZone`, as far as the loaders fill it in. -/
structure DdbZone (n : ℕ) where
  usageBits : ZoneBitmap n
  usedCount : ℕ := 0
  snapshotSlot : ℕ := 0
  compactTs : ℕ := 0
  compactSlot : ℕ := 0
  compactedReady : Bool := false
  uncompactedFreeRecordCount : ℕ := 0

structure ZoneStats where
  capacityUnits : ℕ
  usedUnits : ℕ
  freeUnits : ℕ

/-- A journal entry of a free key. -/
inductive FreeOp
  | put (value : FreeBlockValue)
  | delete

/-- What the data group answers about one zone. -/
structure ZoneKv where
  getZoneValue : Except ZoneLoadError (Option ZoneValue)
  journalScanBusy : ℕ → Except ZoneLoadError (List BusyOp)
  journalScanFree : ℕ → Except ZoneLoadError (List FreeOp)
  readZoneRecords : Except ZoneLoadError ZoneRecords
  getAppliedSlot : Option ℕ

/-- `u32::try_from(v).unwrap_or(u32::MAX)`. -/
def toU32 (v : ℕ) : ℕ := if v < 2 ^ 32 then v else 2 ^ 32 - 1

/-- Put a busy range into a bitmap; a range outside the capacity is ignored. -/
def ZoneBitmap.markBusy {n : ℕ} (z : ZoneBitmap n) (r : BusyRecord) : ZoneBitmap n :=
  let offset := toU32 r.key.unitOffset
  if offset + r.value.unitCount < 2 ^ 32 ∧ offset + r.value.unitCount ≤ n then
    (z.rangeSet offset r.value.unitCount).1
  else z

section JournalReplay

/-- The part of a zone that its snapshot determines. -/
structure SnapshotBase (n : ℕ) where
  usageBits : ZoneBitmap n
  snapshotSlot : ℕ := 0
  compactTs : ℕ := 0
  compactSlot : ℕ := 0
  found : Bool := false

def snapshotBase (C : ZoneCodec) (n : ℕ) : Option ZoneValue → Except ZoneLoadError (SnapshotBase n)
  | some v =>
    if v.verifyChecksum C then
      match ZoneBitmap.fromValue C v n with
      | some bits => .ok ⟨bits, v.snapshotSlot, v.compactTs, v.compactSlot, true⟩
      | none => .error .snapshotCrcFail
    else .error .snapshotCrcFail
  | none => .ok { usageBits := .new n }

/-- Apply one journal entry: a Put is marked, a Delete is ignored, so that the bitmap
can only be an over-estimate. -/
def replayOp {n : ℕ} (z : ZoneBitmap n) : BusyOp → ZoneBitmap n
  | .put r => z.markBusy r
  | .delete .. => z

def maxAllocationTs (ops : List BusyOp) : ℕ :=
  ops.foldl (fun ts op => match op with
    | .put r => max ts r.value.allocationTs
    | .delete .. => ts) 0

def netFreeRecords (ops : List FreeOp) : ℤ :=
  (ops.map fun op => match op with
    | .put _ => (1 : ℤ)
    | .delete => -1).sum

def maxFreeAllocationTs (ops : List FreeOp) : ℕ :=
  ((ops.filterMap fun op => match op with
    | .put v => some v.preAllocationTs
    | .delete => none).max?).getD 0

/-- `load_zone_inner`: the zone, the largest incarnation seen and whether there was a
snapshot. -/
def loadZoneInner (C : ZoneCodec) (kv : ZoneKv) (n : ℕ) :
    Except ZoneLoadError (DdbZone n × ℕ × Bool) := do
  let snapshot ← kv.getZoneValue
  let base ← snapshotBase C n snapshot
  let minSlot := base.snapshotSlot + 1
  let busyOps ← kv.journalScanBusy minSlot
  let usageBits := busyOps.foldl replayOp base.usageBits
  let freeOps ← kv.journalScanFree minSlot
  let backlog := (max (netFreeRecords freeOps) 0).toNat
  let zone : DdbZone n :=
    { usageBits
      usedCount := toU32 usageBits.countSet
      snapshotSlot := base.snapshotSlot
      compactTs := base.compactTs
      compactSlot := base.compactSlot
      compactedReady := true
      uncompactedFreeRecordCount := if backlog < 2 ^ 32 then backlog else 0 }
  pure (zone, max (maxAllocationTs busyOps) (maxFreeAllocationTs freeOps), base.found)

end JournalReplay

section FullScan

/-- The second loop of the full scan: the ranges of matched free facts are cleared. -/
def clearFree {n : ℕ} (busy : List BusyRecord) (z : ZoneBitmap n) (f : FreeRecord) : ZoneBitmap n :=
  if f.hasBusy busy then (z.rangeClear (f.key.unitOffset % 2 ^ 32) f.value.unitCount).1 else z

def fullScanBits (n : ℕ) (records : ZoneRecords) : ZoneBitmap n :=
  records.free.foldl (clearFree records.busy)
    (records.busy.foldl ZoneBitmap.markBusy (ZoneBitmap.new n))

/-- `rebuild_zone_bitmap_full_scan`, without the write of the new snapshot: that is
attempted when the slot of the returned zone is not zero. -/
def rebuildZoneBitmapFullScan (kv : ZoneKv) (n : ℕ) :
    Except ZoneLoadError (DdbZone n × ZoneStats) := do
  let records ← kv.readZoneRecords
  let usageBits := fullScanBits n records
  let popcount := usageBits.countSet
  let zone : DdbZone n :=
    { usageBits
      usedCount := toU32 popcount
      compactedReady := true
      snapshotSlot := kv.getAppliedSlot.getD 0 }
  pure (zone, ⟨n, popcount, n - popcount⟩)

end FullScan

section Retained

def invalid (reason : String) : ZoneLoadError := .loadFailed ("retained metadata: " ++ reason)

def checkedRange (offset count n : ℕ) : Except ZoneLoadError ℕ :=
  if count = 0 ∨ 2 ^ 64 ≤ offset + count ∨ n < offset + count then
    .error (invalid "zero-length or out-of-range allocation")
  else if offset < 2 ^ 32 then .ok offset
  else .error (invalid "allocation offset overflow")

/-- What the loop over the busy records carries. -/
structure RetainedState (n : ℕ) where
  usageBits : ZoneBitmap n
  stop : ℕ
  maxTimestamp : ℕ

/-- Set the bits of a range one by one, whatever is set already. -/
def mergeRange {n : ℕ} (z : ZoneBitmap n) (offset count : ℕ) : ZoneBitmap n :=
  (List.range' offset count).foldl (fun z bit => (z.casBit bit true).1) z

variable (disk : DiskId) (zoneIndex n unitSize cutoff : ℕ)

def retainBusy (s : RetainedState n) (r : BusyRecord) : Except ZoneLoadError (RetainedState n) := do
  let offset ← checkedRange r.key.unitOffset r.value.unitCount n
  if r.key.diskId ≠ disk ∨ r.key.zoneIndex ≠ zoneIndex ∨ cutoff < r.commitSlot
      ∨ r.key.unitOffset < s.stop ∨ r.value.unitSize ≠ unitSize
      ∨ BlockState.tryFrom r.value.state = none ∨ CommitState.tryFrom r.value.commitState = none
      ∨ r.value.allocationTs = 0 then
    .error (invalid "invalid or overlapping live allocation")
  else
    .ok
      { usageBits := mergeRange s.usageBits offset r.value.unitCount
        stop := r.key.unitOffset + r.value.unitCount
        maxTimestamp := max s.maxTimestamp r.value.allocationTs }

def retainFree (maxTimestamp : ℕ) (f : FreeRecord) : Except ZoneLoadError ℕ := do
  let _ ← checkedRange f.key.unitOffset f.value.unitCount n
  if f.key.diskId ≠ disk ∨ f.key.zoneIndex ≠ zoneIndex ∨ cutoff < f.commitSlot
      ∨ f.key.allocationTs ≠ f.value.preAllocationTs ∨ f.value.preAllocationTs = 0
      ∨ f.value.freeTs ≤ f.value.preAllocationTs then
    .error (invalid "invalid free fact")
  else .ok (max maxTimestamp f.value.freeTs)

/-- The snapshot as `from_zone_value` restores it. -/
def retainedBase (C : ZoneCodec) (records : ZoneRecords) : Except ZoneLoadError (DdbZone n) := do
  if n = 0 ∨ n % 64 ≠ 0 ∨ unitSize = 0 then
    .error (invalid "invalid zone geometry")
  else
    match records.zoneValue with
    | none => .error (invalid "existing snapshot is missing")
    | some v =>
      if cutoff < v.snapshotSlot ∨ cutoff < v.compactSlot then
        .error (invalid "snapshot exceeds scan boundary")
      else
        match if v.verifyChecksum C then ZoneBitmap.fromValue C v n else none with
        | none => .error (invalid "snapshot checksum, encoding or geometry mismatch")
        | some bits =>
          .ok
            { usageBits := bits
              usedCount := toU32 bits.countSet
              snapshotSlot := v.snapshotSlot
              compactTs := v.compactTs
              compactSlot := v.compactSlot
              compactedReady := true }

/-- `validate_retained_zone`: the zone and the largest timestamp seen. -/
def validateRetainedZone (C : ZoneCodec) (records : ZoneRecords) :
    Except ZoneLoadError (DdbZone n × ℕ) := do
  let zone ← retainedBase n unitSize cutoff C records
  let busy := records.busy.insertionSort fun a b => a.key.unitOffset ≤ b.key.unitOffset
  let merged ← busy.foldlM (retainBusy disk zoneIndex n unitSize cutoff)
    ⟨zone.usageBits, 0, zone.compactTs⟩
  let maxTimestamp ← records.free.foldlM (retainFree disk zoneIndex n cutoff) merged.maxTimestamp
  if maxTimestamp = 2 ^ 64 - 1 then
    .error (invalid "allocation timestamp exhausted")
  else if 2 ^ 32 ≤ records.free.length then
    .error (invalid "too many free records")
  else
    .ok ({ zone with
          usageBits := merged.usageBits
          usedCount := toU32 merged.usageBits.countSet
          uncompactedFreeRecordCount := records.free.length }, maxTimestamp)

end Retained
end CrowDB.DiskDb
