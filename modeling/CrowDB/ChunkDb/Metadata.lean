import CrowDB.ChunkDb.Reservation
import CrowDB.Lib.Transition
import CrowDB.Lib.Upsert

/-!
# The durable metadata of one chunk

The state is the chunk record and the reservation groups in the store, the copy of the
chunk in the lock map, and the reservations between their two lock sections. An
operation reads the cached copy and the durable group, and its write is conditional on
the revision of the chunk record. A write may be applied although its caller sees an
error, which leaves the cached copy behind the record.
-/
namespace CrowDB.ChunkDb
open Lib Lib.Tiling
open DiskDb (ChunkId)

/-- A reservation whose blocks are being allocated, with the chunk it was planned on. -/
structure PendingReserve where
  groupId : ChunkId
  fence : ReservationFence
  spec : ReserveGroupSpec
  observed : Chunk
  deriving DecidableEq, Repr

structure MetaState where
  chunk : Option Chunk
  cache : Option Chunk
  groups : List StripReservationGroup
  pending : List PendingReserve
  deriving DecidableEq, Repr

def findGroup (groups : List StripReservationGroup) (id : ChunkId) : Option StripReservationGroup :=
  groups.find? fun g => g.groupId = id

def putGroup (g : StripReservationGroup) (groups : List StripReservationGroup) :
    List StripReservationGroup := upsert StripReservationGroup.groupId g groups

def deleteGroup (id : ChunkId) (groups : List StripReservationGroup) :
    List StripReservationGroup := dropKey StripReservationGroup.groupId id groups

/-- What an operation writes: the chunk record together with the groups, or groups alone. -/
inductive MetaWrite
  | chunk (chunk : Chunk) (groups : List StripReservationGroup)
  | groups (groups : List StripReservationGroup)
  deriving DecidableEq, Repr

inductive ChunkAction
  | append (observed : Chunk) (allocated : List ChunkStrip)
  | advance (request : AdvanceRequest) (nowMs : ℕ)
  | reserve (pending : PendingReserve) (resources : ReservedResources) (nowMs : ℕ)
  | mutate (groupId : ChunkId) (fence : ReservationFence) (update : ReservationUpdate)
      (inputs : MutationInputs)
  | replace (request : ReplaceRequest) (nowMs : ℕ)
  | cancelGroup (groupId : ChunkId)
  | dropGroup (groupId : ChunkId)
  | sealAt (sealBytes nowMs : ℕ)
  | cleanup (nowMs : ℕ)
  deriving DecidableEq, Repr

def reservationWrite (groupId : ChunkId) (groups : List StripReservationGroup) :
    ReservationPlan → Option MetaWrite
  | .unchanged => none
  | .rollback _ => none
  | .putGroup g => some (.groups (putGroup g groups))
  | .cancel g _ => some (.groups (putGroup g groups))
  | .finish c (some g) => some (.chunk c (putGroup g groups))
  | .finish c none => some (.chunk c (deleteGroup groupId groups))

section
variable (cfg : LifecycleConfig) (c : Chunk) (groups : List StripReservationGroup)

/-- A replacement addresses chunk strips, or one reserved strip behind them. -/
def planReplace (r : ReplaceRequest) (nowMs : ℕ) : Option MetaWrite :=
  if (checkReplaceRequest cfg c r).isOk ∧ alreadyReplaced c r then none
  else if c.strips.length < r.stopIndex then
    match checkReplaceRequest cfg c r, r.oldStrips, r.replacementStrips with
    | .ok (), [old], [replacement] =>
      match findReserved old replacement groups with
      | some (g, some index) =>
        (replaceReservedStrip cfg c g index old replacement r.operationId r.retireOldSegments
          nowMs).toOption.map fun x => .chunk x.1 (putGroup x.2 groups)
      | _ => none
    | _, _, _ => none
  else (replaceChunkStripRange cfg c r nowMs).toOption.map fun c' => .chunk c' groups

/-- The write of an operation that finds the chunk `c` and the durable groups. -/
def planWrite :
    ChunkAction → Option MetaWrite
  | .append observed allocated =>
    if allocatedFrom (appendSequence observed) allocated then
      (publishAppended observed c allocated).toOption.map fun c' => .chunk c' groups
    else none
  | .advance r nowMs => (advanceChunkWrite c r nowMs).toOption.map fun c' => .chunk c' groups
  | .reserve p resources nowMs =>
    if allocatedFrom p.observed.nextStripSequence resources.strips ∧
        resources.strips.length = p.spec.stripCount then
      (publishNewGroup p.observed c p.groupId p.fence p.spec resources nowMs).toOption.map fun x =>
        .chunk x.1 (putGroup x.2 groups)
    else none
  | .mutate groupId fence update inputs =>
    (mutateStripReservation cfg c groupId (findGroup groups groupId) fence update
      inputs).toOption.bind (reservationWrite groupId groups)
  | .replace r nowMs => planReplace cfg c groups r nowMs
  | .cancelGroup groupId => (findGroup groups groupId).map fun g =>
      .groups (putGroup g.cancelReserved groups)
  | .dropGroup groupId => some (.groups (deleteGroup groupId groups))
  | .sealAt sealBytes nowMs =>
    (sealChunkAtBoundary c sealBytes nowMs).toOption.map fun c' => .chunk c' groups
  | .cleanup nowMs => some (.chunk (finishCleanup c nowMs) groups)

end

namespace MetaState

/-- The chunk that the lock map serves: the cached copy, or the record. -/
def acquire (m : MetaState) : Option Chunk := m.cache <|> m.chunk

/-- The conditional write. The record that is already there is accepted without a write,
and any other record must be the successor of the present one. -/
def commit (m : MetaState) (c : Chunk) (groups : List StripReservationGroup) (acked : Bool) :
    Option MetaState :=
  if m.chunk = some c then some { m with cache := if acked then some c else m.cache }
  else if m.chunk.all fun current => c.modifyTs = current.modifyTs + 1 then
    some { m with chunk := some c, groups := groups, cache := if acked then some c else m.acquire }
  else none

end MetaState

inductive MetaAction
  | allocate (request : AllocateRequest) (allocated : List ChunkStrip) (nowMs : ℕ) (acked : Bool)
  | planReserve (groupId : ChunkId) (fence : ReservationFence) (spec : ReserveGroupSpec)
  | operate (action : ChunkAction) (acked : Bool)
  | evict
  | crash
  deriving DecidableEq, Repr

/-- A reservation publishes only what it planned. -/
def ChunkAction.planned (m : MetaState) : ChunkAction → Bool
  | .reserve p _ _ => decide (p ∈ m.pending)
  | _ => true

def metaStep (cfg : LifecycleConfig) (m : MetaState) : MetaAction → Option MetaState
  | .allocate r allocated nowMs acked =>
    if m.chunk = none ∧ allocatedFrom 0 allocated ∧ (r.writerEpoch ≠ 0 → r.writerLeaseMs ≠ 0) then
      let c := newChunk r allocated nowMs
      some { m with chunk := some c, cache := if acked then some c else m.cache }
    else none
  | .planReserve groupId fence spec =>
    m.acquire.bind fun c =>
      if (planReservation c fence spec).isOk ∧ findGroup m.groups groupId = none then
        some { m with pending := ⟨groupId, fence, spec, c⟩ :: m.pending }
      else none
  | .operate a acked =>
    if a.planned m then
      m.acquire.bind fun c => (planWrite cfg c m.groups a).bind fun
        | .chunk c' groups => m.commit c' groups acked
        | .groups groups => some { m with groups := groups }
    else none
  | .evict => some { m with cache := none }
  | .crash => some { m with cache := none, pending := [] }

def metaSystem (cfg : LifecycleConfig) : System MetaState MetaAction where
  init m := m = ⟨none, none, [], []⟩
  step := metaStep cfg

end CrowDB.ChunkDb
