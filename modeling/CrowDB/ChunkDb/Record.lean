import CrowDB.DiskDb.Records
import CrowDB.Lib.Tiling

/-!
# Chunk metadata records

A chunk is a list of strips laid out over a range of offsets counted in KB, together
with the cursor of its writer and the segments that wait for their release. A
reservation group holds strips that were allocated ahead of their attachment.
-/
namespace CrowDB.ChunkDb
open Lib Lib.Tiling
open DiskDb (ChunkId DiskId)

structure Segment where
  diskId : Option DiskId
  zoneIndex : ℕ
  unitOffset : ℕ
  unitCount : ℕ
  ownerChunk : Option ChunkId
  allocationTs : ℕ
  deriving DecidableEq, Repr

inductive StripType
  | mirror | ec
  deriving DecidableEq, Repr

inductive EcState
  | noParity | parity
  deriving DecidableEq, Repr

inductive Strip
  | mirrorStrip (segments : List Segment)
  | ecStrip (dataNum codeNum : ℕ) (ecState : EcState) (segments : List Segment)
  deriving DecidableEq, Repr

structure PlacementAssessment where
  lossBudget : ℕ
  maxFragmentsPerRack : ℕ
  maxFragmentsPerNode : ℕ
  maxFragmentsPerDisk : ℕ
  rackProtected : Bool
  nodeProtected : Bool
  diskProtected : Bool
  topologyGeneration : ℕ
  usageFresh : Bool
  deriving DecidableEq, Repr

inductive PlacementPriority
  | rackFirst | nodeFirst
  deriving DecidableEq, Repr

structure ChunkStrip where
  chunkOffset : ℕ
  stripSequence : ℕ
  unitKb : ℕ
  capacity : ℕ
  createTsMs : ℕ
  sealedTsMs : ℕ
  sealedLength : ℕ
  stripType : StripType
  strip : Option Strip
  usageBitmap : List UInt8
  unavailableSegments : List Segment
  placementPriority : PlacementPriority
  placementAssessment : Option PlacementAssessment
  placementRepairRequired : Bool
  deriving DecidableEq, Repr

def extractSegments (s : ChunkStrip) : List Segment :=
  match s.strip with
  | some (.mirrorStrip segments) => segments
  | some (.ecStrip _ _ _ segments) => segments
  | none => []

def mirrorSegments (s : ChunkStrip) : List Segment :=
  match s.strip with
  | some (.mirrorStrip segments) => segments
  | _ => []

inductive ChunkState
  | init | active | sealed | deleted
  deriving DecidableEq, Repr

inductive ChunkType
  | wal | btreePage | pageIndex | stream | s3 | icebergTable | dataset
  deriving DecidableEq, Repr

structure StripCleanupIntent where
  operationId : Option ChunkId
  retiredSegments : List Segment
  notBeforeMs : ℕ
  deriving DecidableEq, Repr

structure Chunk where
  id : ChunkId
  modifyTs : ℕ
  state : ChunkState
  createTsMs : ℕ
  sealedTsMs : ℕ
  capacity : ℕ
  sealedLength : ℕ
  strips : List ChunkStrip
  chunkType : ChunkType
  writerEpoch : ℕ
  acknowledgedCursor : ℕ
  closedStripSequence : Option ℕ
  writerLeaseDeadlineMs : ℕ
  nextStripSequence : ℕ
  cleanupIntents : List StripCleanupIntent
  lastStripReplacement : Option ChunkId
  ownerKey : List UInt8
  deriving DecidableEq, Repr

inductive StripReservationState
  | reserved | consumed | confirmed | cancelled
  deriving DecidableEq, Repr

structure StripReservationGroup where
  groupId : ChunkId
  chunkId : ChunkId
  writerEpoch : ℕ
  leaseGeneration : ℕ
  leaseDeadlineMs : ℕ
  placementEpoch : ℕ
  strips : List ChunkStrip
  states : List StripReservationState
  paritySegments : List Segment
  preferredSurvivors : List ℕ
  dataNum : ℕ
  codeNum : ℕ
  plannedCursors : List ℕ
  plannedClosedSequences : List ℕ
  deriving DecidableEq, Repr

inductive PlacementError
  | nodeProtectionUnavailable (lossBudget actual : ℕ)
  | diskProtectionUnavailable (lossBudget actual : ℕ)
  deriving DecidableEq, Repr

inductive LifecycleError
  | invalidRequest (message : String)
  | invalidStateTransition (current : ChunkState) (expected : String)
  | stripIndexOutOfRange (index len : ℕ)
  | stateConflict
  | chunkNotFound
  | chunkAlreadyExists
  | placement (error : PlacementError)
  deriving DecidableEq, Repr

/-! Fixed-width arithmetic of the record fields. -/

def u32Max : ℕ := 2 ^ 32 - 1

def u64Max : ℕ := 2 ^ 64 - 1

def satAdd32 (a b : ℕ) : ℕ := min (a + b) u32Max

def satAdd64 (a b : ℕ) : ℕ := min (a + b) u64Max

def checkedAdd32 (a b : ℕ) : Option ℕ := if a + b ≤ u32Max then some (a + b) else none

def satMul32 (a b : ℕ) : ℕ := min (a * b) u32Max

/-- The sum of the capacities as the release build computes it, wrapping at `2 ^ 32`. -/
def sumCapacity (strips : List ChunkStrip) : ℕ := total ChunkStrip.capacity strips % 2 ^ 32

/-- The first offset behind a strip, in KB. -/
def ChunkStrip.stop (s : ChunkStrip) : ℕ := s.chunkOffset + s.capacity

lemma satAdd32_eq {a b : ℕ} (h : a + b < 2 ^ 32) : satAdd32 a b = a + b := by
  unfold satAdd32 u32Max
  omega

lemma checkedAdd32_eq_some {a b c : ℕ} :
    checkedAdd32 a b = some c ↔ a + b < 2 ^ 32 ∧ c = a + b := by
  unfold checkedAdd32 u32Max
  split <;> simp <;> omega

lemma sumCapacity_eq {strips : List ChunkStrip} (h : total ChunkStrip.capacity strips < 2 ^ 32) :
    sumCapacity strips = total ChunkStrip.capacity strips := Nat.mod_eq_of_lt h

/-- `chunk.strips.splice(start..stop, new)`. -/
def splice {α : Type*} (l : List α) (start stop : ℕ) (new : List α) : List α :=
  l.take start ++ new ++ l.drop stop

lemma mem_splice {α : Type*} {l new : List α} {start stop : ℕ} {x : α}
    (hx : x ∈ splice l start stop new) : x ∈ l ∨ x ∈ new := by
  simp only [splice, List.mem_append] at hx
  rcases hx with (hx | hx) | hx
  · exact .inl (List.mem_of_mem_take hx)
  · exact .inr hx
  · exact .inl (List.mem_of_mem_drop hx)

end CrowDB.ChunkDb
