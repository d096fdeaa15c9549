import CrowDB.Paxos.Roles

/-!
# Types of a chunk-KV partition

Keys are byte strings in lexicographic order. A partition owns a half-open key range and
writes one WAL record per mutation; the result of the mutation is part of the record.
-/
namespace CrowDB.ChunkKv
open Paxos (Bytes)

abbrev Key := Bytes

structure PartitionId where
  high : ℕ
  low : ℕ
  deriving DecidableEq, Repr

/-- The two halves of the client identity, and the client's own number for the request. -/
structure RequestId where
  clientHigh : ℕ
  clientLow : ℕ
  clientSequence : ℕ
  deriving DecidableEq, Repr

def RequestId.client (r : RequestId) : ℕ × ℕ := (r.clientHigh, r.clientLow)

/-- `start` belongs to the range, `stop` does not; a missing bound is open. -/
structure PartitionRange where
  start : Option Key
  stop : Option Key
  deriving DecidableEq, Repr

namespace PartitionRange

def validate (r : PartitionRange) : Bool :=
  match r.start, r.stop with
  | some start, some stop => decide (start < stop)
  | _, _ => true

def contains (r : PartitionRange) (key : Key) : Bool :=
  r.start.all (fun start => !decide (key < start)) && r.stop.all fun stop => decide (key < stop)

/-- The two halves of a range at a strictly interior key. -/
def split (r : PartitionRange) (key : Key) : Option (PartitionRange × PartitionRange) :=
  if r.contains key && r.start != some key then
    some (⟨r.start, some key⟩, ⟨some key, r.stop⟩)
  else none

section Split
variable {r : PartitionRange} {key k : Key} {halves : PartitionRange × PartitionRange}
  (h : r.split key = some halves)
include h

lemma split_eq : halves = (⟨r.start, some key⟩, ⟨some key, r.stop⟩) := by
  rw [split] at h
  split at h <;> cases h
  rfl

lemma contains_of_left (hk : halves.1.contains k = true) : r.contains k = true := by
  rw [split] at h
  split at h <;> cases h
  next hin =>
  simp only [contains, Bool.and_eq_true] at hin hk ⊢
  refine ⟨hk.1, ?_⟩
  cases hstop : r.stop with
  | none => rfl
  | some stop =>
    have hkey : k < key := by simpa using hk.2
    have hsplit : key < stop := by simpa [hstop] using hin.1.2
    simpa using List.lt_trans hkey hsplit

end Split
end PartitionRange

inductive PartitionLifecycle
  | closed | recovering | transferQuiesced | prepared | serving | transferFencing
  | splitPreparing | splitFinalizing | retired | faulted
  deriving DecidableEq, Repr

structure ValueRevision where
  revision : ℕ
  value : Bytes
  deriving DecidableEq, Repr

inductive CompareCondition
  | revision (revision : ℕ)
  | value (value : Bytes)
  deriving DecidableEq, Repr

inductive MutationOperation
  | put (key : Key) (value : Bytes)
  | delete (key : Key)
  | putIfAbsent (key : Key) (value : Bytes)
  | compareExchange (key : Key) (condition : CompareCondition) (value : Bytes)
  | conditionalDelete (key : Key) (condition : CompareCondition)
  deriving DecidableEq, Repr

namespace MutationOperation

def key : MutationOperation → Key
  | put key _ | delete key | putIfAbsent key _ | compareExchange key _ _
  | conditionalDelete key _ => key

def successfulValue : MutationOperation → Option Bytes
  | put _ value | putIfAbsent _ value | compareExchange _ _ value => some value
  | delete _ | conditionalDelete _ _ => none

end MutationOperation

inductive MutationResult
  | applied (revision : ℕ)
  | conditionFailed (observed : Option ValueRevision)
  deriving DecidableEq, Repr

def MutationResult.isApplied : MutationResult → Bool
  | .applied _ => true
  | .conditionFailed _ => false

/-- An applied result carries the given sequence as its revision. -/
def MutationResult.revisionIs (seq : ℕ) : MutationResult → Bool
  | .applied revision => revision == seq
  | .conditionFailed _ => true

abbrev StreamName := ℕ

structure JournalPosition where
  streamName : StreamName
  offset : ℕ
  deriving DecidableEq, Repr

structure MutationResponse where
  mutationSeq : ℕ
  result : MutationResult
  journalPosition : JournalPosition
  deriving DecidableEq, Repr

abbrev Digest := Bytes

structure WalRecord where
  partitionId : PartitionId
  ownershipEpoch : ℕ
  mutationSeq : ℕ
  requestId : RequestId
  operationDigest : Digest
  result : MutationResult
  operation : MutationOperation
  deriving DecidableEq, Repr

inductive ChunkKvError
  | outOfRange | staleEpoch | overloaded | recovering | writeStalled
  | notServing (state : PartitionLifecycle)
  | requestConflict | requestExpired
  | invalidRequest (message : String)
  | incompleteFrame
  | journalCorruption (message : String)
  | treeUnavailable (message : String)
  | treeCorruption (message : String)
  | applyStateUnknown
  | splitRetry (message : String)
  | faulted (message : String)
  | internal (message : String)
  deriving DecidableEq, Repr

/-! ## Split plans and artifacts -/

structure SplitChild where
  partitionId : PartitionId
  range : PartitionRange
  ownershipEpoch : ℕ
  deriving DecidableEq, Repr

/-- Transition identities are numbers here; the default identity is `0`. -/
structure SplitPlan where
  transitionId : ℕ
  parentId : PartitionId
  parentRange : PartitionRange
  parentEpoch : ℕ
  parentNextEpoch : ℕ
  splitKey : Key
  child : SplitChild
  deriving DecidableEq, Repr

def SplitPlan.validate (p : SplitPlan) : Bool :=
  p.parentRange.validate && p.child.range.validate && p.transitionId != 0 && p.parentEpoch != 0
    && p.parentNextEpoch != 0 && p.child.ownershipEpoch != 0
    && decide (p.parentEpoch < p.parentNextEpoch) && p.parentId != p.child.partitionId
    && (p.parentRange.split p.splitKey).any fun halves => p.child.range == halves.2

/-- Durable state of either writer of a split: the tree base it starts from, the part of
the parent's stream that follows the base, and the writer's own stream. -/
structure PreparedSplitWriterArtifact where
  partitionId : PartitionId
  range : PartitionRange
  ownershipEpoch : ℕ
  treeId : ℕ
  treeManifest : ℕ
  rootManifestGeneration : ℕ
  streamName : StreamName
  baseAppliedSeq : ℕ
  parentId : PartitionId
  parentEpoch : ℕ
  parentStreamName : StreamName
  parentStreamGeneration : ℕ
  parentReplayOffset : ℕ
  parentCutoverOffset : ℕ
  appliedSeq : ℕ
  childStreamStartSeq : ℕ
  deriving DecidableEq, Repr

structure SplitArtifact where
  transitionId : ℕ
  parentId : PartitionId
  parentEpoch : ℕ
  parentNextEpoch : ℕ
  cutoverSeq : ℕ
  retainedParent : PreparedSplitWriterArtifact
  child : PreparedSplitWriterArtifact
  deriving DecidableEq, Repr

/-- One writer of the artifact names its partition, range and epoch and starts right
behind the cutover. -/
def writerMatches (id : PartitionId) (range : PartitionRange) (epoch : ℕ) (plan : SplitPlan)
    (cutoverSeq : ℕ) (w : PreparedSplitWriterArtifact) : Bool :=
  w.partitionId == id && w.range == range && w.ownershipEpoch == epoch
    && w.appliedSeq == cutoverSeq && w.treeId != 0 && w.parentId == plan.parentId
    && w.parentEpoch == plan.parentEpoch && w.childStreamStartSeq == cutoverSeq + 1

def validateSplitArtifact (plan : SplitPlan) (a : SplitArtifact) (cutoverSeq : ℕ) : Bool :=
  a.transitionId == plan.transitionId && a.parentId == plan.parentId
    && a.parentEpoch == plan.parentEpoch && a.parentNextEpoch == plan.parentNextEpoch
    && a.cutoverSeq == cutoverSeq
    && writerMatches plan.child.partitionId plan.child.range plan.child.ownershipEpoch plan
      cutoverSeq a.child
    && decide (a.child.baseAppliedSeq ≤ cutoverSeq)
    && (plan.parentRange.split plan.splitKey).any fun halves =>
      writerMatches plan.parentId halves.1 plan.parentNextEpoch plan cutoverSeq a.retainedParent
        && (decide (a.retainedParent.baseAppliedSeq ≤ cutoverSeq)
          || a.retainedParent.streamName == a.retainedParent.parentStreamName)

end CrowDB.ChunkKv
