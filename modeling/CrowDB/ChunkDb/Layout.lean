import CrowDB.ChunkDb.Replacement

/-!
# Operations on the chunk record

Every operation reads the chunk under its lock, validates the request and computes the
record to publish. The definitions below are these computations; the clock and the
placement chosen by the allocator are inputs.
-/
namespace CrowDB.ChunkDb
open Lib Lib.Tiling
open DiskDb (ChunkId)

inductive DeploymentMode
  | local | production | testUnsafePlacement
  deriving DecidableEq, Repr

structure LifecycleConfig where
  deploymentMode : Option DeploymentMode
  layoutValidityMs : ℕ
  allowUnsafeEc : Bool
  allowDegradedFailureDomains : Bool
  deriving DecidableEq, Repr

def ChunkState.checkCanAppend (s : ChunkState) : Except LifecycleError Unit :=
  ensure (s = .active) (.invalidStateTransition s "Active")

def ChunkState.checkCanSeal (s : ChunkState) : Except LifecycleError Unit :=
  ensure (s = .active) (.invalidStateTransition s "Active")

def validateStripLayout (cfg : LifecycleConfig) (stripType : StripType)
    (dataNum codeNum copyCount capacityKb : ℕ) : Except LifecycleError Unit := do
  ensure (¬ (stripType = .mirror ∧ 5 < copyCount))
    (.invalidRequest "mirror strips support at most five copies")
  match cfg.deploymentMode with
  | some .local =>
    ensure (stripType = .mirror ∧ (copyCount = 1 ∨ copyCount = 2) ∧ dataNum = 0 ∧ codeNum = 0 ∧
        capacityKb = 1024)
      (.invalidRequest "local requires 1 MiB mirror strips with one or two copies")
  | some .production =>
    ensure (¬ (stripType = .mirror ∧ copyCount < 2))
      (.invalidRequest "production mirror strips require at least two copies")
  | some .testUnsafePlacement => pure ()
  | none => pure ()

def validateReplacementLayouts (cfg : LifecycleConfig) :
    List ChunkStrip → Except LifecycleError Unit
  | [] => pure ()
  | s :: strips => do
    match s.strip with
    | some (.mirrorStrip segments) =>
      validateStripLayout cfg .mirror 0 0 segments.length s.capacity
    | some (.ecStrip dataNum codeNum _ _) =>
      validateStripLayout cfg .ec dataNum codeNum 0 s.capacity
    | none => ensure False (.invalidRequest "replacement strip has no body")
    validateReplacementLayouts cfg strips

def assignStripOffsets (offset : ℕ) : List ChunkStrip → List ChunkStrip
  | [] => []
  | s :: strips => { s with chunkOffset := offset } ::
      assignStripOffsets (satAdd32 offset s.capacity) strips

def writerLeaseDeadline (nowMs writerEpoch writerLeaseMs : ℕ) : ℕ :=
  if writerEpoch = 0 then 0 else satAdd64 nowMs writerLeaseMs

/-! ## Allocation and append -/

/-- What the allocator returns for a batch of strips: consecutive sequences, open
strips, and no physical unit twice within a strip. -/
def allocatedFrom (start : ℕ) : List ChunkStrip → Bool
  | [] => true
  | s :: strips => decide (s.stripSequence = start ∧ s.sealedTsMs = 0 ∧
      DisjointCopies (extractSegments s)) && allocatedFrom (start + 1) strips

structure AllocateRequest where
  chunkId : ChunkId
  chunkType : ChunkType
  writerEpoch : ℕ
  writerLeaseMs : ℕ
  ownerKey : List UInt8
  deriving DecidableEq, Repr

def newChunk (r : AllocateRequest) (allocated : List ChunkStrip) (nowMs : ℕ) : Chunk :=
  let strips := assignStripOffsets 0 allocated
  { id := r.chunkId
    modifyTs := 1
    state := .active
    createTsMs := nowMs
    sealedTsMs := 0
    capacity := sumCapacity strips
    sealedLength := 0
    strips := strips
    chunkType := r.chunkType
    writerEpoch := r.writerEpoch
    acknowledgedCursor := 0
    closedStripSequence := none
    writerLeaseDeadlineMs := writerLeaseDeadline nowMs r.writerEpoch r.writerLeaseMs
    nextStripSequence := strips.length
    cleanupIntents := []
    lastStripReplacement := none
    ownerKey := r.ownerKey }

/-- The first sequence an append takes. -/
def appendSequence (chunk : Chunk) : ℕ :=
  if chunk.nextStripSequence = 0 then
    ((chunk.strips.map ChunkStrip.stripSequence).max?.map fun s => satAdd32 s 1).getD 0
  else chunk.nextStripSequence

/-- Progress of cursor and lease leaves an allocation made against `observed` valid. -/
def sameAllocationBasis (observed current : Chunk) : Bool :=
  decide (observed.modifyTs ≤ current.modifyTs ∧
    observed.acknowledgedCursor ≤ current.acknowledgedCursor ∧
    observed.writerLeaseDeadlineMs ≤ current.writerLeaseDeadlineMs ∧
    { observed with
      modifyTs := current.modifyTs
      acknowledgedCursor := current.acknowledgedCursor
      writerLeaseDeadlineMs := current.writerLeaseDeadlineMs } = current)

/-- The record an append publishes; `observed` is the chunk read before the strips were
allocated and `current` the chunk under the second lock. -/
def publishAppended (observed current : Chunk) (allocated : List ChunkStrip) :
    Except LifecycleError Chunk := do
  observed.state.checkCanAppend
  let next ← orFail (checkedAdd32 (appendSequence observed) allocated.length)
    (.invalidRequest "chunk strip sequence space exhausted")
  current.state.checkCanAppend
  ensure (sameAllocationBasis observed current) .stateConflict
  let strips := current.strips ++ assignStripOffsets current.capacity allocated
  pure { current with
    strips := strips
    nextStripSequence := next
    capacity := sumCapacity strips
    modifyTs := current.modifyTs + 1 }

/-! ## Cursor progress -/

structure AdvanceRequest where
  writerEpoch : ℕ
  expectedModifyTs : ℕ
  acknowledgedCursor : ℕ
  closedStripSequence : Option ℕ
  writerLeaseMs : ℕ
  deriving DecidableEq, Repr

def closeStrips (sequence nowMs : ℕ) (strips : List ChunkStrip) : List ChunkStrip :=
  strips.map fun s =>
    if s.stripSequence ≤ sequence ∧ s.sealedTsMs = 0 then
      { s with sealedTsMs := nowMs, sealedLength := s.capacity }
    else s

def checkClosedSequence (chunk : Chunk) (cursor sequence : ℕ) : Except LifecycleError Unit := do
  ensure (chunk.closedStripSequence.all fun current => current ≤ sequence)
    (.invalidRequest "closed strip sequence cannot move backward")
  let strip ← orFail (chunk.strips.find? fun s => s.stripSequence = sequence)
    (.stripIndexOutOfRange sequence chunk.strips.length)
  ensure (satAdd32 strip.chunkOffset strip.capacity * 1024 ≤ cursor)
    (.invalidRequest "closed strip extends beyond acknowledged cursor")

def advanceChunkWrite (chunk : Chunk) (r : AdvanceRequest) (nowMs : ℕ) :
    Except LifecycleError Chunk := do
  ensure (r.writerEpoch ≠ 0 ∧ r.writerLeaseMs ≠ 0)
    (.invalidRequest "writer epoch and lease must be nonzero")
  chunk.state.checkCanAppend
  ensure (chunk.writerEpoch = r.writerEpoch ∧ chunk.modifyTs = r.expectedModifyTs) .stateConflict
  let capacityBytes := chunk.capacity * 1024
  let cursor := r.acknowledgedCursor
  let persisted := chunk.acknowledgedCursor
  ensure (persisted ≤ cursor ∧ cursor ≤ capacityBytes) (.invalidRequest
  s!"acknowledged cursor {cursor} must not move behind {persisted} within capacity {capacityBytes}")
  match r.closedStripSequence with
  | none =>
    pure { chunk with
      acknowledgedCursor := r.acknowledgedCursor
      writerLeaseDeadlineMs := satAdd64 nowMs r.writerLeaseMs
      modifyTs := chunk.modifyTs + 1 }
  | some sequence => do
    checkClosedSequence chunk r.acknowledgedCursor sequence
    pure { chunk with
      strips := closeStrips sequence nowMs chunk.strips
      closedStripSequence := some sequence
      acknowledgedCursor := r.acknowledgedCursor
      writerLeaseDeadlineMs := satAdd64 nowMs r.writerLeaseMs
      modifyTs := chunk.modifyTs + 1 }

/-! ## Replacement of a range of chunk strips -/

structure ReplaceRequest where
  expectedModifyTs : ℕ
  startIndex : ℕ
  oldStrips : List ChunkStrip
  replacementStrips : List ChunkStrip
  operationId : ChunkId
  retireOldSegments : Bool
  deriving DecidableEq, Repr

def ReplaceRequest.stopIndex (r : ReplaceRequest) : ℕ := r.startIndex + r.oldStrips.length

/-- Segments of the first strips that none of the second strips holds. -/
def segmentsOnlyIn (strips others : List ChunkStrip) : List Segment :=
  (strips.flatMap extractSegments).dedup.filter fun x => x ∉ others.flatMap extractSegments

def retireIntent (cfg : LifecycleConfig) (retire : Bool) (operationId : ChunkId)
    (retired : List Segment) (nowMs : ℕ) : List StripCleanupIntent :=
  if retire ∧ retired ≠ [] then
    [⟨some operationId, retired, satAdd64 nowMs cfg.layoutValidityMs⟩]
  else []

/-- The checks before the range is looked at. -/
def checkReplaceRequest (cfg : LifecycleConfig) (chunk : Chunk) (r : ReplaceRequest) :
    Except LifecycleError Unit := do
  ensure (r.oldStrips ≠ [] ∧ r.replacementStrips ≠ [])
    (.invalidRequest "strip replacement ranges must be non-empty")
  validateReplacementLayouts cfg r.replacementStrips
  ensure (chunk.state = .active ∨ chunk.state = .sealed)
    (.invalidStateTransition chunk.state "Active|Sealed")

/-- The operation was published before, and its result is returned again. -/
def alreadyReplaced (chunk : Chunk) (r : ReplaceRequest) : Bool :=
  decide (chunk.modifyTs = r.expectedModifyTs + 1 ∧
    chunk.lastStripReplacement = some r.operationId ∧
    (chunk.strips.drop r.startIndex).take r.replacementStrips.length = r.replacementStrips)

/-- The record a replacement of chunk strips publishes. -/
def replaceChunkStripRange (cfg : LifecycleConfig) (chunk : Chunk) (r : ReplaceRequest)
    (nowMs : ℕ) : Except LifecycleError Chunk := do
  checkReplaceRequest cfg chunk r
  ensure (r.stopIndex ≤ chunk.strips.length)
    (.stripIndexOutOfRange r.startIndex chunk.strips.length)
  ensure (chunk.modifyTs = r.expectedModifyTs ∧
    (chunk.strips.drop r.startIndex).take r.oldStrips.length = r.oldStrips) .stateConflict
  validateReplacementGeometry r.oldStrips r.replacementStrips chunk.id
  let next ← validateReplacementSequences chunk r.startIndex r.stopIndex r.replacementStrips
  let strips := splice chunk.strips r.startIndex r.stopIndex r.replacementStrips
  pure { chunk with
    strips := strips
    capacity := sumCapacity strips
    nextStripSequence := next
    modifyTs := chunk.modifyTs + 1
    lastStripReplacement := some r.operationId
    cleanupIntents := chunk.cleanupIntents ++ retireIntent cfg r.retireOldSegments r.operationId
      (segmentsOnlyIn r.oldStrips r.replacementStrips) nowMs }

/-! ## Sealing -/

/-- Strips behind the seal boundary are cut off. -/
def trimIndex (strips : List ChunkStrip) (sealLength : ℕ) : ℕ :=
  strips.findIdx fun s => sealLength ≤ s.chunkOffset

def validateSealBounds (chunk : Chunk) (sealBytes sealLength : ℕ) : Except LifecycleError Unit := do
  let cursor := chunk.acknowledgedCursor
  let capacity := chunk.capacity
  ensure (¬ ((chunk.chunkType = .wal ∨ chunk.chunkType = .stream) ∧ sealBytes < cursor))
    (.invalidRequest s!"stream seal boundary {sealBytes} precedes persisted cursor {cursor}")
  ensure (sealLength ≤ capacity)
    (.invalidRequest s!"seal_length {sealLength} exceeds chunk capacity {capacity}")

def Strip.markParity : Strip → Strip
  | .mirrorStrip segments => .mirrorStrip segments
  | .ecStrip dataNum codeNum _ segments => .ecStrip dataNum codeNum .parity segments

def sealWrittenStrips (nowMs : ℕ) : ℕ → List ChunkStrip → List ChunkStrip
  | _, [] => []
  | remaining, s :: strips =>
    let written := min remaining s.capacity
    if written = 0 then s :: strips
    else
      { s with
        sealedLength := written
        sealedTsMs := nowMs
        strip := s.strip.map Strip.markParity } ::
        sealWrittenStrips nowMs (remaining - written) strips

/-- The loop of `close_acknowledged_strips`: the strips, and the sequence of the last
one closed. -/
def closeAcknowledged (cursor nowMs : ℕ) : Option ℕ → List ChunkStrip → List ChunkStrip × Option ℕ
  | lastClosed, [] => ([], lastClosed)
  | lastClosed, s :: strips =>
    let start := s.chunkOffset * 1024
    if cursor ≤ start then (s :: strips, lastClosed)
    else
      let stop := satAdd32 s.chunkOffset s.capacity * 1024
      let length := min cursor stop - start
      let closed := { s with
        sealedLength := min ((length + 1023) / 1024) u32Max
        sealedTsMs := nowMs }
      if cursor < stop then (closed :: strips, some s.stripSequence)
      else
        let rest := closeAcknowledged cursor nowMs (some s.stripSequence) strips
        (closed :: rest.1, rest.2)

def closeAcknowledgedStrips (chunk : Chunk) (nowMs : ℕ) : Chunk :=
  if chunk.writerEpoch = 0 ∨ chunk.acknowledgedCursor = 0 then chunk
  else
    let closed := closeAcknowledged chunk.acknowledgedCursor nowMs
      chunk.closedStripSequence chunk.strips
    { chunk with strips := closed.1, closedStripSequence := closed.2 }

def sealIntent (chunkId : ChunkId) (modifyTs sealLength : ℕ) (unused : List Segment) (nowMs : ℕ) :
    List StripCleanupIntent :=
  if unused = [] then []
  else [⟨some ⟨chunkId.high ^^^ modifyTs, chunkId.low ^^^ sealLength⟩, unused, nowMs⟩]

/-- The record a seal publishes, before its cleanup. -/
def sealChunkAtBoundary (chunk : Chunk) (sealBytes nowMs : ℕ) : Except LifecycleError Chunk := do
  let sealLength := (sealBytes + 1023) / 1024
  ensure (sealLength ≤ u32Max) (.invalidRequest "seal size exceeds capacity field")
  chunk.state.checkCanSeal
  validateSealBounds chunk sealBytes sealLength
  let firstUnused := trimIndex chunk.strips sealLength
  let kept := chunk.strips.take firstUnused
  let unused := (chunk.strips.drop firstUnused).flatMap extractSegments
  pure (closeAcknowledgedStrips
    { chunk with
      strips := sealWrittenStrips nowMs sealLength kept
      state := .sealed
      modifyTs := chunk.modifyTs + 1
      sealedLength := sealLength
      acknowledgedCursor := sealBytes
      sealedTsMs := nowMs
      capacity := sumCapacity kept
      cleanupIntents := chunk.cleanupIntents ++
        sealIntent chunk.id chunk.modifyTs sealLength unused nowMs } nowMs)

/-- Executed intents leave the record; the others stay. -/
def finishCleanup (chunk : Chunk) (nowMs : ℕ) : Chunk :=
  { chunk with
    cleanupIntents := chunk.cleanupIntents.filter fun i => nowMs < i.notBeforeMs
    modifyTs := chunk.modifyTs + 1 }

end CrowDB.ChunkDb
