import CrowDB.ChunkKv.Recovery

/-!
# A split while the parent serves

The child base is the part of a parent snapshot that lies in the child's range. A cursor
brings it closer to the parent, record by record, while the parent goes on. The base and the
offsets of the parent's stream are committed as the handoff artifact. Then the parent's
worker installs the child between two batches: the frontier of the child's tree is moved to
the cutover, the child takes over the retained results, and the parent keeps the left half.
The lifecycle that is stored then also lifts the stop of a failed append or apply.
What the parent's memtables hold is copied into the child's tree in the background.
-/
namespace CrowDB.ChunkKv
open Lib

/-! ## Setup -/

/-- The storage of the child, and the identities of its checkpointed base. -/
structure SplitWriterTarget where
  treeId : ℕ
  treeManifest : ℕ
  rootManifestGeneration : ℕ
  streamName : StreamName
  streamGeneration : ℕ

/-- The partitions of a split. -/
structure SplitSetup where
  plan : SplitPlan
  parent : PartitionSpec
  parentStreamGeneration : ℕ
  target : SplitWriterTarget
  planValid : plan.validate = true
  parentId : parent.id = plan.parentId
  parentRange : parent.range = plan.parentRange
  parentEpoch : parent.ownershipEpoch = plan.parentEpoch
  parentNamed : plan.parentId ≠ ⟨0, 0⟩
  parentGeneration : parentStreamGeneration ≠ 0
  treeId : target.treeId ≠ 0
  rootGeneration : target.rootManifestGeneration ≠ 0
  streamGeneration : target.streamGeneration ≠ 0
  streams : parent.streamName ≠ target.streamName

namespace SplitSetup

/-- The child runs with the configuration of the parent. -/
def child (su : SplitSetup) : PartitionSpec where
  id := su.plan.child.partitionId
  range := su.plan.child.range
  ownershipEpoch := su.plan.child.ownershipEpoch
  streamName := su.target.streamName
  retainedResults := su.parent.retainedResults
  retainedResults_pos := su.parent.retainedResults_pos

/-- The parent once dispatch is installed. -/
def retained (su : SplitSetup) : PartitionSpec :=
  { su.parent with range := ⟨su.plan.parentRange.start, some su.plan.splitKey⟩ }

end SplitSetup

/-! ## The child base -/

/-- `rebuild_range`. -/
def Tree.restrict (range : PartitionRange) (t : Tree) : Tree where
  cells key := if range.contains key then t.cells key else none
  contiguousSlot := t.contiguousSlot

/-- `offset` is where the next frame of the parent's stream starts. -/
structure DeltaCursor where
  offset : ℕ
  appliedSeq : ℕ
  tree : Tree

/-- The frames from an offset on; nothing is read at or behind the tail. -/
def readFrames (f : WireFormat) (offset : ℕ) (journal : List WalRecord) :
    Except ChunkKvError (List (ℕ × WalRecord)) :=
  if journalTail f journal ≤ offset then .ok []
  else orFail (framesFrom f offset 0 journal) magicMismatch

section CatchUp
variable (f : WireFormat) (su : SplitSetup)

def applyWriterRecord (c : DeltaCursor) (r : WalRecord) : Except ChunkKvError DeltaCursor :=
  if r.mutationSeq ≤ c.appliedSeq then .ok c
  else do
    ensure (r.mutationSeq = c.appliedSeq + 1) (.journalCorruption "split delta sequence gap")
    ensure (su.plan.parentRange.contains r.operation.key = true)
      (.journalCorruption "split delta is outside the retained-parent and child ranges")
    pure { c with
      appliedSeq := r.mutationSeq
      tree := c.tree.replayRecord r (su.plan.child.range.contains r.operation.key) }

def replayWriterUntil (target : ℕ) :
    DeltaCursor → List (ℕ × WalRecord) → Except ChunkKvError DeltaCursor
  | c, [] => .ok c
  | c, (offset, r) :: rest =>
    if target < r.mutationSeq then .ok c
    else do
      validateReplayRecord f su.parent.id su.parent.ownershipEpoch r
      let next ← applyWriterRecord su c r
      let moved := { next with offset := offset + f.frameBytes r }
      if moved.appliedSeq = target then .ok moved else replayWriterUntil target moved rest

/-- One round of `catch_up_to_lag`. -/
def catchUp (target : ℕ) (c : DeltaCursor) (journal : List WalRecord) :
    Except ChunkKvError DeltaCursor :=
  if c.appliedSeq < target then do
    let frames ← readFrames f c.offset journal
    replayWriterUntil f su target c frames
  else .ok c

/-- `prepare_writer`. -/
def SplitSetup.artifact (replayOffset : ℕ) (c : DeltaCursor) : PreparedSplitWriterArtifact where
  partitionId := su.plan.child.partitionId
  range := su.plan.child.range
  ownershipEpoch := su.plan.child.ownershipEpoch
  treeId := su.target.treeId
  treeManifest := su.target.treeManifest
  rootManifestGeneration := su.target.rootManifestGeneration
  streamName := su.target.streamName
  baseAppliedSeq := c.appliedSeq
  parentId := su.plan.parentId
  parentEpoch := su.plan.parentEpoch
  parentStreamName := su.parent.streamName
  parentStreamGeneration := su.parentStreamGeneration
  parentReplayOffset := replayOffset
  parentCutoverOffset := c.offset
  appliedSeq := c.appliedSeq
  childStreamStartSeq := c.appliedSeq + 1

end CatchUp

/-! ## The run -/

inductive SplitStage
  | idle
  | loaded (replayOffset : ℕ)
  | catching (replayOffset : ℕ) (cursor : DeltaCursor)
  | committed (artifact : PreparedSplitWriterArtifact) (base : Tree)

/-- The child since dispatch is installed. -/
structure ChildRun where
  cutoverSeq : ℕ
  cutoverOffset : ℕ
  worker : WorkerState

/-- `memtable` are the records of the parent that were applied and that no flush has drained;
`view` is the captured memtable view. -/
structure SplitRun where
  parent : WorkerState
  memtable : List WalRecord := []
  stage : SplitStage := .idle
  child : Option ChildRun := none
  view : Option (List WalRecord) := none

inductive SplitAction
  | parent (a : WorkerStep)
  | flush (n : ℕ)
  | loadBase | snapshot | catchUp | commit | cutover | store
  | child (a : WorkerStep)
  | capture | publish

/-- The inherited entry becomes visible unless the child has a newer one. -/
def Tree.inherit (t : Tree) (r : WalRecord) : Tree :=
  { t with
    cells := Function.update t.cells r.operation.key
      (some (Tree.newest (t.cells r.operation.key) (r.mutationSeq, r.operation.successfulValue))) }

namespace SplitRun
variable (f : WireFormat) (su : SplitSetup)

section
variable (s : SplitRun)

/-- The specification the parent serves by. -/
def spec : PartitionSpec := if s.child.isSome then su.retained else su.parent

/-- What a step of the parent adds to its memtable. -/
def inserted : WorkerStep → List WalRecord
  | .apply ok applied => (s.parent.pending.head?.map (·.2.record)).toList.filter fun r =>
      (ok || applied) && r.result.isApplied
  | _ => []

/-- The base is taken only if the journal is durable that far. -/
def takeSnapshot (replayOffset : ℕ) : SplitRun :=
  { s with stage := if s.parent.tree.contiguousSlot ≤ s.parent.journalDurableSeq then
      .catching replayOffset {
        offset := replayOffset
        appliedSeq := s.parent.tree.contiguousSlot
        tree := s.parent.tree.restrict su.plan.child.range }
    else .idle }

def runCatchUp (replayOffset : ℕ) (c : DeltaCursor) : SplitRun :=
  { s with stage := match ChunkKv.catchUp f su s.parent.appliedSeq c s.parent.journal with
      | .ok moved => .catching replayOffset moved
      | .error _ => .idle }

/-- The child starts behind the cutover, over its base, with the results of the parent. The
lifecycle of the parent is not looked at. -/
def installChild (base : Tree) : SplitRun :=
  { s with
    parent := s.parent.resume
    child := some {
      cutoverSeq := s.parent.appliedSeq
      cutoverOffset := journalTail f s.parent.journal
      worker := { WorkerState.opened (base.advanceNoop s.parent.appliedSeq) with
        retry := s.parent.retry } } }

end

/-- The entries of the view up to the cutover that belong to the child. -/
def publishView (ch : ChildRun) (view : List WalRecord) : ChildRun :=
  { ch with worker := { ch.worker with
      tree := (view.filter fun r => decide (r.mutationSeq ≤ ch.cutoverSeq)
        && su.plan.child.range.contains r.operation.key).foldl Tree.inherit ch.worker.tree } }

def step (s : SplitRun) : SplitAction → Option SplitRun
  | .parent a => (s.parent.step f (s.spec su) a).map fun w =>
      { s with parent := w, memtable := s.memtable ++ s.inserted a }
  | .flush n => some { s with memtable := s.memtable.drop n }
  | .loadBase => match s.stage with
    | .idle => some { s with stage := .loaded s.parent.retryReplayOffset }
    | _ => none
  | .snapshot => match s.stage with
    | .loaded replayOffset => some (s.takeSnapshot su replayOffset)
    | _ => none
  | .catchUp => match s.stage with
    | .catching replayOffset c => some (s.runCatchUp f su replayOffset c)
    | _ => none
  | .commit => match s.stage with
    | .catching replayOffset c => if c.tree.contiguousSlot = c.appliedSeq then
        some { s with stage := .committed (su.artifact replayOffset c) c.tree } else none
    | _ => none
  | .cutover => match s.stage, s.child with
    | .committed _ base, none => if s.parent.betweenBatches then
        some (s.installChild f base) else none
    | _, _ => none
  -- the end of a split has looked at the lifecycle before and stores it now
  | .store => some { s with parent := s.parent.resume }
  | .child a => match s.child with
    | some ch => (ch.worker.step f su.child a).map fun w =>
        { s with child := some { ch with worker := w } }
    | none => none
  | .capture => match s.child, s.view with
    | some _, none => some { s with view := some s.memtable }
    | _, _ => none
  | .publish => match s.child, s.view with
    | some ch, some view => some { s with child := some (publishView su ch view), view := none }
    | _, _ => none

end SplitRun
end CrowDB.ChunkKv
