import CrowDB.ChunkDb.Layout
import CrowDB.ChunkDb.Survivors

/-!
# Strip reservations

A group reserves strips ahead of the chunk: a strip is consumed before its data is
written, confirmed when it is attached to the chunk, or cancelled. The strips of a
confirmed conversion group are published as one erasure-coded strip.
-/
namespace CrowDB.ChunkDb
open Lib Lib.Tiling
open DiskDb (ChunkId)

structure ReservationFence where
  expectedModifyTs : ℕ
  writerEpoch : ℕ
  leaseGeneration : ℕ
  leaseMs : ℕ
  deriving DecidableEq, Repr

inductive StripReservationAction
  | consume | confirm | cancel | renew | publish
  deriving DecidableEq, Repr

structure ReservationUpdate where
  stripSequence : ℕ
  action : StripReservationAction
  acknowledgedCursor : ℕ
  closedStripSequence : Option ℕ
  deriving DecidableEq, Repr

structure ReserveGroupSpec where
  reservationOffsetKb : Option ℕ
  stripSize : ℕ
  stripCount : ℕ
  copyCount : ℕ
  conversionDataNum : ℕ
  conversionCodeNum : ℕ
  deriving DecidableEq, Repr

/-- The blocks that the allocator returned for a reservation. -/
structure ReservedResources where
  strips : List ChunkStrip
  paritySegments : List Segment
  preferredSurvivors : List ℕ
  deriving DecidableEq, Repr

def validateReserveSpec (fence : ReservationFence) (spec : ReserveGroupSpec) :
    Except LifecycleError Unit :=
  ensure (fence.writerEpoch ≠ 0 ∧ fence.leaseGeneration ≠ 0 ∧ fence.leaseMs ≠ 0 ∧
      spec.stripSize ≠ 0 ∧ spec.stripCount ≠ 0 ∧ spec.copyCount ≠ 0)
    (.invalidRequest "reservation fence and geometry must be nonzero")

def validateChunkIdentity (chunk : Chunk) (writerEpoch : ℕ) : Except LifecycleError Unit :=
  ensure (chunk.writerEpoch = writerEpoch) .stateConflict

def validateChunkFence (chunk : Chunk) (fence : ReservationFence) : Except LifecycleError Unit := do
  validateChunkIdentity chunk fence.writerEpoch
  ensure (chunk.modifyTs = fence.expectedModifyTs) .stateConflict

def validateGroupFence (group : StripReservationGroup) (fence : ReservationFence) :
    Except LifecycleError Unit :=
  ensure (group.writerEpoch = fence.writerEpoch ∧ group.leaseGeneration = fence.leaseGeneration)
    .stateConflict

def validateGroupShape (group : StripReservationGroup) : Except LifecycleError Unit := do
  ensure (group.states.length = group.strips.length ∧
      group.plannedCursors.length = group.strips.length ∧
      group.plannedClosedSequences.length = group.strips.length)
    (.invalidRequest "reservation state and strip counts differ")
  ensure (∀ x ∈ group.states.zip group.plannedCursors, ¬ (x.1 = .consumed ∧ x.2 = 0))
    (.invalidRequest "consumed reservation must record a planned cursor")

def reservationDeadline (chunk : Chunk) (group : StripReservationGroup) : ℕ :=
  if chunk.state = .active ∧ chunk.writerEpoch = group.writerEpoch then
    max group.leaseDeadlineMs chunk.writerLeaseDeadlineMs
  else group.leaseDeadlineMs

def sameReservedLayout (current reserved : ChunkStrip) : Bool :=
  decide (current.chunkOffset = reserved.chunkOffset ∧
    current.stripSequence = reserved.stripSequence ∧ current.unitKb = reserved.unitKb ∧
    current.capacity = reserved.capacity ∧ current.stripType = reserved.stripType ∧
    current.strip = reserved.strip ∧ current.unavailableSegments = reserved.unavailableSegments)

/-! ## A new group -/

section
variable (chunk : Chunk) (fence : ReservationFence) (spec : ReserveGroupSpec)

/-- A reservation at the end of the chunk is fenced by its revision; one at a given
offset must not run ahead of it. -/
def checkReserveFence : Except LifecycleError Unit :=
  if spec.reservationOffsetKb.isNone then validateChunkFence chunk fence
  else ensure (fence.expectedModifyTs ≤ chunk.modifyTs) .stateConflict

/-- The offset and the first sequence a reservation plans with, from the chunk read
before the allocation. -/
def planReservation : Except LifecycleError (ℕ × ℕ × ℕ) := do
  validateReserveSpec fence spec
  chunk.state.checkCanAppend
  validateChunkIdentity chunk fence.writerEpoch
  checkReserveFence chunk fence spec
  let offset := spec.reservationOffsetKb.getD chunk.capacity
  ensure (chunk.capacity ≤ offset)
    (.invalidRequest "reservation append offset precedes readable capacity")
  let next ← orFail (checkedAdd32 chunk.nextStripSequence spec.stripCount)
    (.invalidRequest "chunk strip sequence space exhausted")
  pure (chunk.nextStripSequence, next, offset)

end

def newGroup (chunkId groupId : ChunkId) (fence : ReservationFence) (spec : ReserveGroupSpec)
    (offset : ℕ) (resources : ReservedResources) (nowMs : ℕ) : StripReservationGroup :=
  { groupId := groupId
    chunkId := chunkId
    writerEpoch := fence.writerEpoch
    leaseGeneration := fence.leaseGeneration
    leaseDeadlineMs := writerLeaseDeadline nowMs fence.writerEpoch fence.leaseMs
    placementEpoch := nowMs
    strips := assignStripOffsets offset resources.strips
    states := resources.strips.map fun _ => .reserved
    paritySegments := resources.paritySegments
    preferredSurvivors := resources.preferredSurvivors
    dataNum := spec.conversionDataNum
    codeNum := spec.conversionCodeNum
    plannedCursors := List.replicate spec.stripCount 0
    plannedClosedSequences := List.replicate spec.stripCount u32Max }

/-- The chunk and the group that a reservation publishes; `observed` is the chunk read
before the allocation and `current` the chunk under the second lock. -/
def publishNewGroup (observed current : Chunk) (groupId : ChunkId) (fence : ReservationFence)
    (spec : ReserveGroupSpec) (resources : ReservedResources) (nowMs : ℕ) :
    Except LifecycleError (Chunk × StripReservationGroup) := do
  let (start, next, offset) ← planReservation observed fence spec
  current.state.checkCanAppend
  validateChunkIdentity current fence.writerEpoch
  ensure (current.nextStripSequence = start ∧ current.capacity ≤ offset) .stateConflict
  let group := newGroup current.id groupId fence spec offset resources nowMs
  pure ({ current with
    nextStripSequence := next
    modifyTs := current.modifyTs + 1
    writerLeaseDeadlineMs := group.leaseDeadlineMs }, group)

/-! ## Attachment and publication -/

def confirmReservedStrip (chunk : Chunk) (group : StripReservationGroup) (index : ℕ)
    (strip : ChunkStrip) (update : ReservationUpdate) :
    Except LifecycleError (Chunk × StripReservationGroup) := do
  ensure (strip.chunkOffset = chunk.capacity) .stateConflict
  let newCapacity := satAdd32 chunk.capacity strip.capacity
  ensure (chunk.acknowledgedCursor < update.acknowledgedCursor ∧
      update.acknowledgedCursor ≤ newCapacity * 1024)
    (.invalidRequest "reservation confirmation cursor is outside the new attached capacity")
  pure ({ chunk with
    strips := chunk.strips ++ [strip]
    capacity := newCapacity
    acknowledgedCursor := update.acknowledgedCursor
    closedStripSequence := update.closedStripSequence
    modifyTs := chunk.modifyTs + 1 }, { group with states := group.states.set index .confirmed })

/-- The order of optional sequences: no sequence lies below every sequence. -/
def closedLe : Option ℕ → Option ℕ → Bool
  | none, _ => true
  | some _, none => false
  | some a, some b => decide (a ≤ b)

/-- The conversion can be published as far as the group record is concerned. -/
def StripReservationGroup.complete (group : StripReservationGroup) : Bool :=
  decide (group.dataNum ≠ 0 ∧ group.codeNum ≠ 0 ∧ group.strips.length = group.dataNum ∧
    group.paritySegments.length = group.codeNum ∧ ∀ s ∈ group.states, s = .confirmed)

def conversionStrip (group : StripReservationGroup) (first : ChunkStrip) (selected : List Segment)
    (assessment : PlacementAssessment) (nowMs : ℕ) : ChunkStrip :=
  { chunkOffset := first.chunkOffset
    stripSequence := first.stripSequence
    unitKb := first.unitKb
    capacity := sumCapacity group.strips
    createTsMs := nowMs
    sealedTsMs := 0
    sealedLength := 0
    stripType := .ec
    strip := some (.ecStrip group.dataNum group.codeNum .parity (selected ++ group.paritySegments))
    usageBitmap := []
    unavailableSegments := []
    placementPriority := first.placementPriority
    placementAssessment := some assessment
    placementRepairRequired := !assessment.nodeProtected || !assessment.diskProtected }

/-- A placement beyond the recovery budget is refused, unless both overrides are set. -/
def checkProtection (cfg : LifecycleConfig) (a : PlacementAssessment) :
    Except LifecycleError Unit :=
  ensure ((a.nodeProtected ∧ a.diskProtected) ∨
      (cfg.allowUnsafeEc ∧ cfg.allowDegradedFailureDomains))
    (.placement (if a.nodeProtected then
      .diskProtectionUnavailable a.lossBudget a.maxFragmentsPerDisk
    else .nodeProtectionUnavailable a.lossBudget a.maxFragmentsPerNode))

def publishConversionGroup (cfg : LifecycleConfig) (chunk : Chunk) (group : StripReservationGroup)
    (topology : TopologySnapshot) (nowMs : ℕ) : Except LifecycleError Chunk := do
  ensure group.complete .stateConflict
  let first ← orFail group.strips.head? .stateConflict
  let start := chunk.strips.findIdx fun s => s.stripSequence = first.stripSequence
  let stop := start + group.strips.length
  ensure (stop ≤ chunk.strips.length ∧ List.Forall₂ (fun c r => sameReservedLayout c r = true)
    ((chunk.strips.drop start).take group.strips.length) group.strips) .stateConflict
  let last := group.strips.getLast?
  let rangeEnd := (last.map fun s => satAdd32 s.chunkOffset s.capacity).getD 0 * 1024
  ensure (rangeEnd ≤ chunk.acknowledgedCursor ∧
    closedLe (last.map ChunkStrip.stripSequence) chunk.closedStripSequence) .stateConflict
  let selected ← selectConversionSurvivors topology group cfg.allowUnsafeEc nowMs
  let usageFresh := group.strips.all fun s =>
    s.placementAssessment.any PlacementAssessment.usageFresh
  let assessment := assessPhysicalPlacement topology (selected ++ group.paritySegments)
    group.codeNum usageFresh
  checkProtection cfg assessment
  let retired := (group.strips.flatMap mirrorSegments).filter fun x => x ∉ selected
  let strips := splice chunk.strips start stop
    [conversionStrip group first selected assessment nowMs]
  pure { chunk with
    strips := strips
    capacity := sumCapacity strips
    modifyTs := chunk.modifyTs + 1
    lastStripReplacement := some group.groupId
    cleanupIntents := chunk.cleanupIntents ++ retireIntent cfg true group.groupId retired nowMs }

/-! ## One mutation of a group -/

/-- What a mutation writes. -/
inductive ReservationPlan
  | unchanged
  | putGroup (group : StripReservationGroup)
  | cancel (group : StripReservationGroup) (strip : ChunkStrip)
  | rollback (strip : ChunkStrip)
  | finish (chunk : Chunk) (group : Option StripReservationGroup)
  deriving DecidableEq, Repr

/-- What a mutation reads outside the record. -/
structure MutationInputs where
  topology : TopologySnapshot
  nowMs : ℕ
  deriving DecidableEq, Repr

def StripReservationGroup.terminal (group : StripReservationGroup) : Bool :=
  decide (∀ s ∈ group.states, s = .confirmed ∨ s = .cancelled)

section
variable (chunk : Chunk) (group : StripReservationGroup) (index : ℕ)

def consumeStrip (state : StripReservationState) (update : ReservationUpdate) :
    Except LifecycleError ReservationPlan :=
  if state = .reserved then do
    ensure (chunk.acknowledgedCursor < update.acknowledgedCursor)
      (.invalidRequest "reservation consume must record forward progress")
    pure (.putGroup { group with
      states := group.states.set index .consumed
      plannedCursors := group.plannedCursors.set index update.acknowledgedCursor
      plannedClosedSequences := group.plannedClosedSequences.set index
        (update.closedStripSequence.getD u32Max) })
  else do
    ensure (state = .consumed) .stateConflict
    pure .unchanged

def confirmStrip (strip : ChunkStrip) (state : StripReservationState) (fence : ReservationFence)
    (update : ReservationUpdate) :
    Except LifecycleError ReservationPlan :=
  if state = .consumed then do
    ensure (chunk.modifyTs = fence.expectedModifyTs) .stateConflict
    let (chunk, group) ← confirmReservedStrip chunk group index strip update
    let retain := decide (group.dataNum ≠ 0 ∨ group.codeNum ≠ 0) || !group.terminal
    pure (.finish chunk (if retain then some group else none))
  else do
    ensure (state = .confirmed ∧ ∃ s ∈ chunk.strips, s.stripSequence = update.stripSequence)
      .stateConflict
    pure .unchanged

end

def cancelStrip (group : StripReservationGroup) (index : ℕ) (strip : ChunkStrip)
    (state : StripReservationState) : Except LifecycleError ReservationPlan :=
  if state = .reserved then
    pure (.cancel { group with states := group.states.set index .cancelled } strip)
  else do
    ensure (state = .cancelled) .stateConflict
    pure (.rollback strip)

def renewGroup (group : StripReservationGroup) (state : StripReservationState)
    (fence : ReservationFence) (nowMs : ℕ) : Except LifecycleError ReservationPlan := do
  ensure (state = .reserved ∨ state = .consumed) .stateConflict
  pure (.putGroup { group with
    leaseGeneration := satAdd64 group.leaseGeneration 1
    leaseDeadlineMs := writerLeaseDeadline nowMs fence.writerEpoch fence.leaseMs })

/-- What a mutation does to the entry it names. -/
def mutateEntry (cfg : LifecycleConfig) (chunk : Chunk) (group : StripReservationGroup)
    (fence : ReservationFence) (update : ReservationUpdate) (inputs : MutationInputs)
    (index : ℕ) (strip : ChunkStrip) (state : StripReservationState) :
    Except LifecycleError ReservationPlan :=
  match update.action with
  | .consume => consumeStrip chunk group index state update
  | .confirm => confirmStrip chunk group index strip state fence update
  | .cancel => cancelStrip group index strip state
  | .renew => renewGroup group state fence inputs.nowMs
  | .publish => do
    ensure (chunk.modifyTs = fence.expectedModifyTs) .stateConflict
    let published ← publishConversionGroup cfg chunk group inputs.topology inputs.nowMs
    pure (.finish published none)

/-- `mutate_strip_reservation` up to its writes; `group` is the durable record. -/
def mutateStripReservation (cfg : LifecycleConfig) (chunk : Chunk) (groupId : ChunkId)
    (group : Option StripReservationGroup) (fence : ReservationFence) (update : ReservationUpdate)
    (inputs : MutationInputs) : Except LifecycleError ReservationPlan := do
  chunk.state.checkCanAppend
  validateChunkIdentity chunk fence.writerEpoch
  if update.action = .publish ∧ chunk.lastStripReplacement = some groupId then pure .unchanged
  else do
    let group ← orFail group .stateConflict
    validateGroupFence group fence
    validateGroupShape group
    let index := group.strips.findIdx fun s => s.stripSequence = update.stripSequence
    let strip ← orFail group.strips[index]?
      (.stripIndexOutOfRange update.stripSequence group.strips.length)
    let state ← orFail group.states[index]? .stateConflict
    ensure (¬ (reservationDeadline chunk group < inputs.nowMs ∧ state = .reserved ∧
      update.action ≠ .cancel)) .stateConflict
    mutateEntry cfg chunk group fence update inputs index strip state

/-! ## Replacement of a reserved strip -/

/-- The first group that holds the replacement already, or that holds the old strip;
in the second case with the index of the strip. -/
def findReserved (old replacement : ChunkStrip) :
    List StripReservationGroup → Option (StripReservationGroup × Option ℕ)
  | [] => none
  | g :: groups =>
    if replacement ∈ g.strips then some (g, none)
    else if old ∈ g.strips then some (g, some (g.strips.findIdx fun s => s = old))
    else findReserved old replacement groups

/-- The chunk and the group that the replacement of a reserved strip publishes. -/
def replaceReservedStrip (cfg : LifecycleConfig) (chunk : Chunk) (group : StripReservationGroup)
    (index : ℕ) (old replacement : ChunkStrip) (operationId : ChunkId) (retire : Bool) (nowMs : ℕ) :
    Except LifecycleError (Chunk × StripReservationGroup) := do
  validateReplacementGeometry [old] [replacement] chunk.id
  ensure (replacement.stripSequence = old.stripSequence)
    (.invalidRequest "reserved replacement must preserve strip sequence")
  pure ({ chunk with
    modifyTs := chunk.modifyTs + 1
    lastStripReplacement := some operationId
    cleanupIntents := chunk.cleanupIntents ++ retireIntent cfg retire operationId
      (segmentsOnlyIn [old] [replacement]) nowMs },
    { group with strips := group.strips.set index replacement })

/-! ## Cancellation by seal, delete and recovery -/

/-- Every strip still reserved becomes cancelled. -/
def StripReservationGroup.cancelReserved (group : StripReservationGroup) : StripReservationGroup :=
  { group with states := group.states.map fun s => if s = .reserved then .cancelled else s }

end CrowDB.ChunkDb
