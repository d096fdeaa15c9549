import Mathlib.Algebra.Ring.Nat
import CrowDB.ChunkKv.Types
import CrowDB.Lib.RetryWindow
import CrowDB.Lib.Transition

/-!
# The worker of a partition

The worker takes mutations in batches. `prepareBatch` answers retries from the retained
results, refuses expired and conflicting identities, resolves conditions against the tree
and the batch's own overlay, and numbers what is left. The frames of the batch are appended
by one call, and then applied, retained and acknowledged one by one. A checkpoint runs
beside the worker: it first loads the replay offset and later captures the tree.
-/
namespace CrowDB.ChunkKv
open Lib
open Paxos (Bytes)

/-- `canonical_operation_digest` and the length of an encoded frame. -/
structure WireFormat where
  digest : MutationOperation → Digest
  frameBytes : WalRecord → ℕ
  frameBytes_pos : ∀ r, 0 < frameBytes r

def maxFrameBytes : ℕ := 64 * 1024 * 1024

/-- What stays the same while a partition handle lives. -/
structure PartitionSpec where
  id : PartitionId
  range : PartitionRange
  ownershipEpoch : ℕ
  streamName : StreamName
  retainedResults : ℕ
  retainedResults_pos : 0 < retainedResults

/-! ## The tree -/

/-- Every key has its newest cell: the slot that wrote it, and a value or a tombstone. -/
structure Tree where
  cells : Key → Option (ℕ × Option Bytes)
  contiguousSlot : ℕ

namespace Tree

def get (t : Tree) (key : Key) : Option ValueRevision :=
  match t.cells key with
  | some (slot, some value) => some ⟨slot, value⟩
  | _ => none

/-- The newer of two cells. -/
def newest (old : Option (ℕ × Option Bytes)) (new : ℕ × Option Bytes) : ℕ × Option Bytes :=
  match old with
  | some cell => if new.1 < cell.1 then cell else new
  | none => new

def apply (t : Tree) (seq : ℕ) (operation : MutationOperation) : Tree where
  cells := Function.update t.cells operation.key
    (some (newest (t.cells operation.key) (seq, operation.successfulValue)))
  contiguousSlot := if seq = t.contiguousSlot + 1 then seq else t.contiguousSlot

/-- `force_advance_slot`. -/
def advanceNoop (t : Tree) (seq : ℕ) : Tree :=
  { t with contiguousSlot := max t.contiguousSlot seq }

/-- What one record of the partition does to the tree. -/
def applyRecord (t : Tree) (r : WalRecord) : Tree :=
  if r.result.isApplied then t.apply r.mutationSeq r.operation else t.advanceNoop r.mutationSeq

/-- A replayed record; one that belongs to another partition only moves the frontier. -/
def replayRecord (t : Tree) (r : WalRecord) (belongs : Bool) : Tree :=
  if belongs && r.result.isApplied then t.apply r.mutationSeq r.operation
  else t.advanceNoop r.mutationSeq

end Tree

/-! ## Retained results -/

structure RetainedResult where
  digest : Digest
  response : MutationResponse
  deriving DecidableEq

/-- `results`, `result_order` and `expired_floor`; the floor is per client. -/
abbrev Retry := RetryWindow RequestId RetainedResult (ℕ × ℕ)

abbrev Retry.expired (w : Retry) (id : RequestId) : Bool :=
  RetryWindow.expired RequestId.client RequestId.clientSequence w id

abbrev Retry.admits (w : Retry) (id : RequestId) : Bool :=
  RetryWindow.admits RequestId.client RequestId.clientSequence w id

abbrev Retry.retain (limit : ℕ) (w : Retry) (id : RequestId) (r : RetainedResult) : Retry :=
  RetryWindow.retain RequestId.client RequestId.clientSequence limit w id r

section
variable (limit : ℕ) (w : Retry) (l : List (RequestId × RetainedResult))

abbrev Retry.retainAll : Retry :=
  RetryWindow.retainAll RequestId.client RequestId.clientSequence limit w l

abbrev Retry.admitsAll : Bool :=
  RetryWindow.admitsAll RequestId.client RequestId.clientSequence limit w l

end

/-- The offset of the oldest retained result that lies on the partition's own stream. -/
def oldestOwnOffset (streamName : StreamName) (w : Retry) : Option ℕ :=
  ((w.resultOrder.filterMap w.results).find?
    (·.response.journalPosition.streamName == streamName)).map (·.response.journalPosition.offset)

/-- What the worker retains for a record at an offset of its stream. -/
def retainedEntry (streamName : StreamName) (offset : ℕ) (r : WalRecord) :
    RequestId × RetainedResult :=
  (r.requestId, ⟨r.operationDigest, ⟨r.mutationSeq, r.result, ⟨streamName, offset⟩⟩⟩)

/-! ## Preparing a batch -/

structure MutationRequest where
  requestId : RequestId
  operation : MutationOperation
  deriving DecidableEq

def operationNeedsCurrent : MutationOperation → Bool
  | .putIfAbsent _ _ | .compareExchange _ _ _ | .conditionalDelete _ _ => true
  | _ => false

def conditionMatches (condition : CompareCondition) (current : Option ValueRevision) : Bool :=
  match condition with
  | .revision revision => current.any (·.revision == revision)
  | .value expected => current.any (·.value == expected)

def conditionHolds (operation : MutationOperation) (current : Option ValueRevision) : Bool :=
  match operation with
  | .put _ _ | .delete _ => true
  | .putIfAbsent _ _ => current.isNone
  | .compareExchange _ condition _ | .conditionalDelete _ condition =>
    conditionMatches condition current

def resolveCondition (seq : ℕ) (operation : MutationOperation) (current : Option ValueRevision) :
    MutationResult :=
  if conditionHolds operation current then .applied seq else .conditionFailed current

structure PreparedMutation where
  request : MutationRequest
  record : WalRecord
  followers : List MutationRequest
  deriving DecidableEq

/-- The accumulators of `prepare_batch`. The map from local identities to positions is the
list of prepared mutations itself, searched by identity. -/
structure Batch where
  nextSeq : ℕ
  prepared : List PreparedMutation := []
  overlay : Key → Option (Option ValueRevision) := fun _ => none
  answers : List (RequestId × Except ChunkKvError MutationResponse) := []
  faulted : Bool := false

namespace Batch

section
variable (b : Batch) (r : MutationRequest)

def answer (result : Except ChunkKvError MutationResponse) : Batch :=
  { b with answers := b.answers ++ [(r.requestId, result)] }

def follow : Batch :=
  { b with
    prepared := b.prepared.map fun m =>
      if m.request.requestId = r.requestId then { m with followers := m.followers ++ [r] } else m }

def push (record : WalRecord) : Batch :=
  { b with
    nextSeq := b.nextSeq + 1
    prepared := b.prepared ++ [⟨r, record, []⟩]
    overlay := if record.result.isApplied then
        Function.update b.overlay r.operation.key
          (some (r.operation.successfulValue.map (⟨b.nextSeq, ·⟩)))
      else b.overlay }

end

end Batch

section Prepare
variable (f : WireFormat) (p : PartitionSpec) (retry : Retry) (t : Tree)

/-- The value a condition is resolved against. A read of the tree may fail. -/
def currentValue (b : Batch) (operation : MutationOperation) (readable : Bool) :
    Except ChunkKvError (Option ValueRevision) :=
  match b.overlay operation.key with
  | some value => .ok value
  | none =>
    if operationNeedsCurrent operation then
      if readable then .ok (t.get operation.key) else .error (.treeUnavailable "tree read failed")
    else .ok none

def recordOf (seq : ℕ) (r : MutationRequest) (current : Option ValueRevision) : WalRecord where
  partitionId := p.id
  ownershipEpoch := p.ownershipEpoch
  mutationSeq := seq
  requestId := r.requestId
  operationDigest := f.digest r.operation
  result := resolveCondition seq r.operation current
  operation := r.operation

section
variable (b : Batch) (r : MutationRequest) (readable : Bool)

/-- A request that no earlier record answers gets the next sequence, if its frame fits. -/
def prepareNew : Batch :=
  if b.nextSeq + 1 < 2 ^ 64 then
    match currentValue t b r.operation readable with
    | .error e => b.answer r (.error e)
    | .ok current =>
      if f.frameBytes (recordOf f p b.nextSeq r current) ≤ maxFrameBytes then
        b.push r (recordOf f p b.nextSeq r current)
      else b.answer r (.error (.invalidRequest "WAL frame exceeds maximum size"))
  else { b with faulted := true }.answer r (.error (.faulted "mutation sequence exhausted"))

def prepareRequest : Batch :=
  match retry.results r.requestId with
  | some retained =>
    b.answer r (if retained.digest = f.digest r.operation then .ok retained.response
      else .error .requestConflict)
  | none =>
    if retry.expired r.requestId then b.answer r (.error .requestExpired)
    else match b.prepared.find? (·.request.requestId == r.requestId) with
      | some first =>
        if f.digest first.request.operation = f.digest r.operation then b.follow r
        else b.answer r (.error .requestConflict)
      | none => prepareNew f p t b r readable

end

/-- Each request comes with the outcome of its read, should it need one. -/
def prepareBatch (nextSeq : ℕ) (requests : List (MutationRequest × Bool)) : Batch :=
  requests.foldl (fun b r => prepareRequest f p retry t b r.1 r.2) { nextSeq := nextSeq }

end Prepare

/-! ## The worker's state -/

/-- A completed checkpoint: the captured tree and the offset that replay starts from. -/
structure Checkpoint where
  tree : Tree
  replayOffset : ℕ

def Checkpoint.appliedSeq (c : Checkpoint) : ℕ := c.tree.contiguousSlot

/-- The offset behind the records of a journal. -/
def journalTail (f : WireFormat) (journal : List WalRecord) : ℕ := (journal.map f.frameBytes).sum

/-- Records with the offsets at which their frames start. -/
def framesAt (f : WireFormat) : ℕ → List WalRecord → List (ℕ × WalRecord)
  | _, [] => []
  | offset, r :: rest => (offset, r) :: framesAt f (offset + f.frameBytes r) rest

/-- `pending` are the journaled mutations that are not acknowledged yet, with their
offsets; `treeAhead` says that the first of them is applied to the tree already. Answers
given with `Ok` are recorded. -/
structure WorkerState where
  lifecycle : PartitionLifecycle := .serving
  nextSeq : ℕ
  appliedSeq : ℕ
  journalDurableSeq : ℕ
  retryReplayOffset : ℕ := 0
  retry : Retry := RetryWindow.empty
  tree : Tree
  journal : List WalRecord := []
  pending : List (ℕ × PreparedMutation) := []
  treeAhead : Bool := false
  loadedOffset : Option ℕ := none
  checkpoints : List Checkpoint := []
  answered : List (RequestId × MutationResponse) := []

/-- A partition opened over a tree and an empty journal. -/
def WorkerState.opened (t : Tree) : WorkerState where
  nextSeq := t.contiguousSlot + 1
  appliedSeq := t.contiguousSlot
  journalDurableSeq := t.contiguousSlot
  tree := t

/-- A split call stores `Serving` or `SplitFinalizing` over whatever lifecycle is there, and the
worker takes mutations in both. A batch that had failed is not taken up again. -/
def WorkerState.resume (s : WorkerState) : WorkerState :=
  { s with
    lifecycle := .serving
    pending := if s.lifecycle = .recovering then [] else s.pending
    treeAhead := s.lifecycle ≠ .recovering && s.treeAhead }

/-- A split waits in the worker's queue until the worker has acknowledged its batch or has
stopped in it. -/
def WorkerState.betweenBatches (w : WorkerState) : Prop :=
  w.pending = [] ∨ w.lifecycle = .recovering

instance (w : WorkerState) : Decidable w.betweenBatches :=
  inferInstanceAs (Decidable (_ ∨ _))

inductive WorkerStep
  | batch (requests : List (MutationRequest × Bool)) (durable : Option ℕ)
  | apply (ok applied : Bool)
  | acknowledge
  | loadOffset
  | treeCheckpoint
  deriving DecidableEq

section Step
variable (f : WireFormat) (p : PartitionSpec)

/-- `Ok` answers of a list. -/
def okAnswers (l : List (RequestId × Except ChunkKvError MutationResponse)) :
    List (RequestId × MutationResponse) :=
  l.filterMap fun a => a.2.toOption.map fun response => (a.1, response)

/-- The prepared mutations whose frames are on the journal, with their offsets. -/
def journaled (offset : ℕ) : List PreparedMutation → List (ℕ × PreparedMutation)
  | [] => []
  | m :: rest => (offset, m) :: journaled (offset + f.frameBytes m.record) rest

/-- What an append leaves on the journal: everything, or the first `n` frames if it fails. -/
def Batch.kept (b : Batch) : Option ℕ → List PreparedMutation
  | none => b.prepared
  | some n => b.prepared.take n

/-- `append_and_apply` up to the append. The worker stops if the append fails. -/
def appendBatch (s : WorkerState) (b : Batch) (durable : Option ℕ) : WorkerState :=
  { s with
    lifecycle := if b.prepared ≠ [] ∧ durable.isSome then .recovering
      else if b.faulted then .faulted else s.lifecycle
    nextSeq := b.nextSeq
    journal := s.journal ++ (b.kept durable).map (·.record)
    journalDurableSeq := match durable, b.prepared.getLast? with
      | none, some last => last.record.mutationSeq
      | _, _ => s.journalDurableSeq
    pending := journaled f (journalTail f s.journal) (b.kept durable)
    answered := s.answered ++ okAnswers b.answers }

/-- The applied record is retained, and its request and followers are answered. -/
def acknowledgeHead (s : WorkerState) (offset : ℕ) (m : PreparedMutation)
    (rest : List (ℕ × PreparedMutation)) : WorkerState :=
  let entry := retainedEntry p.streamName offset m.record
  let retry := s.retry.retain p.retainedResults entry.1 entry.2
  { s with
    appliedSeq := m.record.mutationSeq
    retry := retry
    retryReplayOffset := (oldestOwnOffset p.streamName retry).getD s.retryReplayOffset
    pending := rest
    treeAhead := false
    answered := s.answered
      ++ (m.request :: m.followers).map fun r => (r.requestId, entry.2.response) }

def WorkerState.step (s : WorkerState) : WorkerStep → Option WorkerState
  | .batch requests durable =>
    if s.lifecycle = .serving ∧ s.pending = []
        ∧ (requests.all fun r => p.range.contains r.1.operation.key) = true then
      some (appendBatch f s (prepareBatch f p s.retry s.tree s.nextSeq requests) durable)
    else none
  | .apply ok applied => match s.pending with
    | (_, m) :: _ => if s.lifecycle = .recovering ∨ s.treeAhead then none else
        some { s with
          lifecycle := if ok then s.lifecycle else .recovering
          tree := if ok || applied then s.tree.applyRecord m.record else s.tree
          treeAhead := ok || applied }
    | [] => none
  | .acknowledge => match s.pending with
    | (offset, m) :: rest => if s.lifecycle ≠ .recovering ∧ s.treeAhead = true then
        some (acknowledgeHead p s offset m rest) else none
    | [] => none
  | .loadOffset => if s.lifecycle = .serving ∧ s.loadedOffset = none then
      some { s with loadedOffset := some s.retryReplayOffset } else none
  | .treeCheckpoint => match s.loadedOffset with
    | some offset => some (if s.tree.contiguousSlot ≤ s.journalDurableSeq then
        { s with loadedOffset := none, checkpoints := ⟨s.tree, offset⟩ :: s.checkpoints }
      else { s with loadedOffset := none })
    | none => none

end Step
end CrowDB.ChunkKv
