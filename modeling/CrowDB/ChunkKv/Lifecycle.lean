import CrowDB.ChunkKv.Types
import CrowDB.Lib.Transition

/-!
# The lifecycle words of a partition's handles

The calls of a handle share an atomic lifecycle word with the worker. A call is the
program point it has reached; every load, store and compare-exchange of a word is one
step, and so is every wait. The worker looks at its word once per batch, before the first
request of the batch, and appends without looking again. A split cutover leaves a second
handle of the same worker behind, the retained parent, with a range, an epoch and a word
of its own; the worker reads the words of the handle that its last cutover came through.
`appended` counts the calls of `append_frames`; `fencedAt` is its value when the first
fence came down: a failed append or tree apply (a transfer catch-up that fails counts as
one), or a suspend call that returned `Ok`.
-/
namespace CrowDB.ChunkKv
open Lib

def acceptsMutations : PartitionLifecycle → Bool
  | .serving | .splitPreparing => true
  | _ => false

def workerAcceptsMutations (state : PartitionLifecycle) : Bool :=
  acceptsMutations state || state == .transferFencing || state == .splitFinalizing

/-- The lifecycles from which a shutdown sets its fence. -/
def fenceable : PartitionLifecycle → Bool
  | .serving | .prepared | .splitPreparing | .splitFinalizing => true
  | _ => false

structure SplitCommitProof where
  catalogRevision : ℕ
  artifact : SplitArtifact
  deriving DecidableEq, Repr

structure SplitAbortProof where
  catalogRevision : ℕ
  transitionId : ℕ
  parentId : PartitionId
  parentEpoch : ℕ
  deriving DecidableEq, Repr

structure SplitTransition where
  plan : SplitPlan
  artifact : Option SplitArtifact
  deriving DecidableEq, Repr

inductive WorkerRequest
  | mutation (key : Key)
  | transferAppend
  | transferCatchUp
  | childSplitCutover (parent : ℕ) (plan : SplitPlan)
  deriving DecidableEq, Repr

/-- Mutations and transfer appends are counted in `queued_requests`. -/
def WorkerRequest.counted : WorkerRequest → Bool
  | mutation _ | transferAppend => true
  | _ => false

def WorkerRequest.isMutation : WorkerRequest → Bool
  | mutation _ => true
  | _ => false

/-- Where the worker is. The numbers are the requests it has in hand besides the first; a
batch that is still `gathering` takes more of them from the channel. -/
inductive WorkerPoint
  | idle
  | offered (key : Key)
  | batch (more : ℕ) (gathering : Bool)
  | applying (more : ℕ)
  | failing (more : ℕ)
  | transferOffered
  | transferChecking
  | transferAppending
  | catchingUp
  | cutover (parent : ℕ) (plan : SplitPlan)
  | cutoverStore
  deriving DecidableEq, Repr

namespace WorkerPoint

def inHand : WorkerPoint → ℕ
  | offered _ | transferOffered | transferChecking | transferAppending => 1
  | batch n _ | applying n | failing n => n + 1
  | _ => 0

/-- The lifecycle check is behind the worker and the append before it. -/
def appending : WorkerPoint → Bool
  | batch _ _ | transferAppending => true
  | _ => false

/-- The worker holds a request that it may still append. -/
def writing : WorkerPoint → Bool
  | offered _ => true
  | w => w.appending

def isFailing : WorkerPoint → Bool
  | failing _ => true
  | _ => false

end WorkerPoint

/-- Where a call is: before its first step (a constructor with all of its arguments), or
at the load, store, exchange or wait that comes next. -/
inductive Call
  | mutate (epoch : ℕ) (key : Key)
  | mutateReserve (key : Key)
  | mutateRecheck (key : Key)
  | mutateSend (key : Key)
  | appendPreparedTransferMutation (epoch : ℕ)
  | transferSend
  | catchUpPreparedTransfer
  | installChildCutoverSession (plan : SplitPlan)
  | suspendForTransfer (epoch : ℕ)
  | suspendForShutdown (epoch : ℕ)
  | shutdownLoad
  | shutdownExchange (observed : PartitionLifecycle)
  | drain
  | drainedLoad
  | releaseWriter
  | quiesceExchange
  | beginSplit (plan : SplitPlan)
  | beginExchange (plan : SplitPlan)
  | beginSplitFinalization (transitionId : ℕ)
  | finalizeExchange
  | finalizeDrain
  | recordSplitArtifact (artifact : SplitArtifact)
  | recordLock (artifact : SplitArtifact)
  | commitSplit (proof : SplitCommitProof)
  | commitLock (proof : SplitCommitProof)
  | commitStore
  | completeLocalSplitHandoff (artifact : SplitArtifact)
  | handoffLock (artifact : SplitArtifact)
  | handoffStore
  | abortSplit (proof : SplitAbortProof)
  | abortLoad
  | abortStore
  | activate
  deriving DecidableEq, Repr

namespace Call

/-- The call has reserved one of the queue's requests and not given it back. -/
def holdsSlot : Call → Bool
  | mutateRecheck _ | mutateSend _ | transferSend => true
  | _ => false

/-- The call will put a mutation into the channel. -/
def sending : Call → Bool
  | mutateSend _ => true
  | _ => false

/-- A suspend call that has set the fence and not returned. -/
def suspending : Call → Bool
  | drain | drainedLoad | releaseWriter | quiesceExchange => true
  | _ => false

/-- A suspend call that has seen the queue empty behind its fence. -/
def drained : Call → Bool
  | drainedLoad | releaseWriter | quiesceExchange => true
  | _ => false

/-- The points a caller starts from. -/
def entry : Call → Bool
  | mutate _ _ | appendPreparedTransferMutation _ | catchUpPreparedTransfer
  | installChildCutoverSession _ | suspendForTransfer _ | suspendForShutdown _
  | beginSplit _ | beginSplitFinalization _ | recordSplitArtifact _ | commitSplit _
  | completeLocalSplitHandoff _ | abortSplit _ | activate => true
  | _ => false

end Call

/-- What a handle does not share with the other handles of its worker. The dispatch has
the split key and the retained parent's handle. -/
structure Handle where
  range : PartitionRange
  ownershipEpoch : ℕ
  lifecycle : PartitionLifecycle
  splitIngress : Option (Key × ℕ) := none

/-- A worker with its channel and its handles, the first `opened` of `handle`; `home` is
the one whose words it reads. The split transition and its lock, the admission counter and
the calls in progress belong to all of them. -/
structure HandleState where
  id : PartitionId
  handle : ℕ → Handle
  opened : ℕ := 1
  home : ℕ := 0
  transition : Option SplitTransition := none
  locked : Bool := false
  queuedRequests : ℕ := 0
  channel : List WorkerRequest := []
  worker : WorkerPoint := .idle
  calls : List (ℕ × Call) := []
  appended : ℕ := 0
  fencedAt : Option ℕ := none

namespace HandleState

section
variable (s : HandleState)

def word (j : ℕ) : PartitionLifecycle := (s.handle j).lifecycle

/-- The word that the worker reads. -/
abbrev current : PartitionLifecycle := s.word s.home

/-- Continue a call at the given point. -/
def push (j : ℕ) (c : Call) : HandleState := { s with calls := (j, c) :: s.calls }

def releaseAdmission : HandleState :=
  { s with queuedRequests := s.queuedRequests - 1 }

def setHandle (j : ℕ) (h : Handle) : HandleState :=
  { s with handle := Function.update s.handle j h }

def setLifecycle (j : ℕ) (l : PartitionLifecycle) : HandleState :=
  s.setHandle j { s.handle j with lifecycle := l }

def send (r : WorkerRequest) : HandleState :=
  { s with channel := s.channel ++ [r] }

/-- From now on the worker must not append. -/
def fence : HandleState :=
  { s with fencedAt := s.fencedAt.or (some s.appended) }

/-- The worker answers requests and has `w` before it. -/
def finish (requests : ℕ) (w : WorkerPoint) : HandleState :=
  { s with queuedRequests := s.queuedRequests - requests, worker := w }

/-- The dispatch of a split is installed on the parent's handle, and the worker reads that
handle's words from now on. -/
def installIngress (parent : ℕ) (plan : SplitPlan) : HandleState :=
  let dispatching := { s.handle parent with splitIngress := some (plan.splitKey, s.opened) }
  let retained : Handle :=
    ⟨⟨plan.parentRange.start, some plan.splitKey⟩, plan.parentNextEpoch, .serving, none⟩
  { (s.setHandle parent dispatching).setHandle s.opened retained with
    opened := s.opened + 1
    home := parent
    worker := .cutoverStore }

end

end HandleState

open HandleState

/-- A compare-exchange of a lifecycle word; on failure the observed value decides. -/
def exchange (s : HandleState) (j : ℕ) (expected new : PartitionLifecycle)
    (won : HandleState → HandleState) (lost : HandleState) : HandleState :=
  if s.word j = expected then won (s.setLifecycle j new) else lost

/-- A suspend call has found the handle quiesced and returns `Ok`, or returns an error. -/
def suspendLost (s : HandleState) (j : ℕ) : HandleState :=
  if s.word j = .transferQuiesced then s.fence else s

/-- One step of a call on the handle `j`. The state is the one without the call; the call's
next point is pushed, and a call that returns is not. `ok` is the outcome of a
reservation, of a send or of the release of the writer; a step that waits is not enabled. -/
def callStep (s : HandleState) (j : ℕ) (ok : Bool) : Call → Option HandleState
  | .mutate epoch key => match (s.handle j).splitIngress with
    | some (splitKey, retained) => some (if key < splitKey
        then s.push retained (.mutate (s.handle retained).ownershipEpoch key) else s)
    | none => some (if epoch = (s.handle j).ownershipEpoch ∧ acceptsMutations (s.word j) ∧
          (s.handle j).range.contains key
        then s.push j (.mutateReserve key) else s)
  | .mutateReserve key => some (if ok then
      { s with queuedRequests := s.queuedRequests + 1 }.push j (.mutateRecheck key) else s)
  | .mutateRecheck key => some (if acceptsMutations (s.word j) then s.push j (.mutateSend key)
      else s.releaseAdmission)
  | .mutateSend key => some (if ok then s.send (.mutation key) else s.releaseAdmission)
  | .appendPreparedTransferMutation epoch =>
    some (if epoch = (s.handle j).ownershipEpoch ∧ ok = true then
      { s with queuedRequests := s.queuedRequests + 1 }.push j .transferSend else s)
  | .transferSend => some (if ok then s.send .transferAppend else s.releaseAdmission)
  | .catchUpPreparedTransfer =>
    some (if s.word j = .prepared then s.send .transferCatchUp else s)
  | .installChildCutoverSession plan => some (s.send (.childSplitCutover j plan))
  | .suspendForTransfer epoch => some (if epoch = (s.handle j).ownershipEpoch then
      exchange s j .serving .transferFencing (·.push j .drain)
        (if s.word j = .transferFencing then s.push j .drain else suspendLost s j)
      else s)
  | .suspendForShutdown epoch =>
    some (if epoch = (s.handle j).ownershipEpoch then s.push j .shutdownLoad else s)
  | .shutdownLoad => some (if fenceable (s.word j) then s.push j (.shutdownExchange (s.word j))
      else if s.word j = .transferFencing then s.push j .drain else suspendLost s j)
  | .shutdownExchange observed => if fenceable observed then some (exchange s j observed
      .transferFencing (·.push j .drain) (s.push j .shutdownLoad)) else none
  | .drain => if s.queuedRequests = 0 then some (s.push j .drainedLoad) else none
  | .drainedLoad => some (if s.word j = .transferFencing then s.push j .releaseWriter else s)
  | .releaseWriter => some (if ok then s.push j .quiesceExchange else s)
  | .quiesceExchange =>
    some (exchange s j .transferFencing .transferQuiesced (·.fence) (suspendLost s j))
  | .beginSplit plan =>
    if plan.validate && plan.parentId == s.id && plan.parentRange == (s.handle j).range
        && plan.parentEpoch == (s.handle j).ownershipEpoch then
      if s.locked then none else
        some (if s.transition.isSome then s
          else { s with locked := true }.push j (.beginExchange plan))
    else some s
  | .beginExchange plan => some (exchange { s with locked := false } j .serving .splitPreparing
      ({ · with transition := some ⟨plan, none⟩ }) { s with locked := false })
  | .beginSplitFinalization transitionId => if s.locked then none else
      some (if s.transition.any (·.plan.transitionId == transitionId) then
        s.push j .finalizeExchange else s)
  | .finalizeExchange => some (exchange s j .splitPreparing .splitFinalizing
      (·.push j .finalizeDrain)
      (if s.word j = .splitFinalizing then s.push j .finalizeDrain else s))
  | .finalizeDrain => if s.queuedRequests = 0 then some s else none
  | .recordSplitArtifact artifact =>
    some (if s.word j = .splitFinalizing then s.push j (.recordLock artifact) else s)
  | .recordLock artifact => if s.locked then none else some (match s.transition with
      | some t => if ok && validateSplitArtifact t.plan artifact artifact.cutoverSeq
            && t.artifact.isNone then
          { s with transition := some ⟨t.plan, some artifact⟩ } else s
      | none => s)
  | .commitSplit proof => some (if proof.catalogRevision ≠ 0 ∧ s.word j = .splitFinalizing
      then s.push j (.commitLock proof) else s)
  | .commitLock proof => if s.locked then none else some (match s.transition with
      | some t => if t.artifact = some proof.artifact then
          ({ s with locked := true }.setHandle j { s.handle j with
            ownershipEpoch := proof.artifact.parentNextEpoch
            range := ⟨t.plan.parentRange.start, some t.plan.splitKey⟩ }).push j .commitStore else s
      | none => s)
  | .commitStore => some ({ s with locked := false }.setLifecycle j .serving)
  | .completeLocalSplitHandoff artifact =>
    some (if s.word j = .splitFinalizing ∧ (s.handle j).splitIngress.isSome
      then s.push j (.handoffLock artifact) else s)
  | .handoffLock artifact => if s.locked then none else
      some (if (s.transition.bind (·.artifact)) = some artifact then
        { s with locked := true, transition := none }.push j .handoffStore else s)
  | .handoffStore => some ({ s with locked := false }.setLifecycle j .serving)
  | .abortSplit proof => if proof.catalogRevision = 0 then some s else if s.locked then none else
      some (if s.transition.any fun t => proof.transitionId == t.plan.transitionId
          && proof.parentId == t.plan.parentId && proof.parentEpoch == t.plan.parentEpoch then
        { s with locked := true }.push j .abortLoad else s)
  | .abortLoad => some (if s.word j = .splitPreparing ∨ s.word j = .splitFinalizing then
      ({ s with transition := none }.setHandle j
        { s.handle j with splitIngress := none }).push j .abortStore
      else { s with locked := false })
  | .abortStore => some ({ s with locked := false }.setLifecycle j .serving)
  | .activate => some (exchange s j .prepared .serving id s)

/-- What the worker does next, with the outcome of its I/O. -/
inductive WorkerAction
  | take
  | look
  | gather
  | answer
  | exhausted
  | append (ok : Bool)
  | apply (ok : Bool)
  | store
  | control (ok : Bool)
  deriving DecidableEq, Repr

/-- The rest of a batch whose first request has been answered. -/
def WorkerPoint.batchRest : ℕ → WorkerPoint
  | 0 => idle
  | n + 1 => batch n false

def WorkerPoint.applyingRest : ℕ → WorkerPoint
  | 0 => idle
  | n + 1 => applying n

/-- Where the worker is once it has taken a request from the channel. -/
def takeRequest : WorkerRequest → WorkerPoint
  | .mutation key => .offered key
  | .transferAppend => .transferOffered
  | .transferCatchUp => .catchingUp
  | .childSplitCutover parent plan => .cutover parent plan

/-- The dispatch sends keys at or above the split key to the child. -/
def forwards (s : HandleState) (key : Key) : Bool :=
  (s.handle s.home).splitIngress.any fun ingress => !decide (key < ingress.1)

def workerStep (s : HandleState) : WorkerAction → Option HandleState
  | .take => match s.worker, s.channel with
    | .idle, r :: rest => some { s with channel := rest, worker := takeRequest r }
    | _, _ => none
  | .look => match s.worker with
    | .offered key =>
      some (if forwards s key then s.finish 1 .idle
        else if workerAcceptsMutations s.current then { s with worker := .batch 0 true }
        else s.finish 1 .idle)
    | .transferOffered => some { s with
        worker := if s.current = .serving then .batch 0 false else .transferChecking }
    | .transferChecking =>
        some (if s.current = .prepared then { s with worker := .transferAppending }
        else s.finish 1 .idle)
    | _ => none
  | .gather => match s.worker, s.channel with
    | .batch n true, .mutation key :: rest => if forwards s key then none else
        some { s with channel := rest, worker := .batch (n + 1) true }
    | _, _ => none
  -- a retained result, an expired or conflicting identity, or a frame that cannot be encoded
  | .answer => match s.worker with
    | .batch n _ => some (s.finish 1 (.batchRest n))
    | .transferAppending => some (s.finish 1 .idle)
    | _ => none
  | .exhausted => match s.worker with
    | .batch n _ => some ((s.setLifecycle s.home .faulted).finish 1 (.batchRest n))
    | _ => none
  | .append ok => match s.worker with
    | .batch n _ => some (if ok then { s with appended := s.appended + 1, worker := .applying n }
        else { s with appended := s.appended + 1, worker := .failing n }.fence)
    | .transferAppending => some (if ok then { s with appended := s.appended + 1 }.finish 1 .idle
        else { s with appended := s.appended + 1, worker := .failing 0 }.fence)
    | _ => none
  | .apply ok => match s.worker with
    | .applying n => some (if ok then s.finish 1 (.applyingRest n)
        else { s with worker := .failing n }.fence)
    | _ => none
  | .store => match s.worker with
    | .failing n => some ((s.setLifecycle s.home .recovering).finish (n + 1) .idle)
    | .cutoverStore => some ({ s with worker := .idle }.setLifecycle s.home .splitFinalizing)
    | _ => none
  | .control ok => match s.worker with
    | .catchingUp => some (if ok then { s with worker := .idle }.setLifecycle s.home .serving
        else ({ s with worker := .idle }.setLifecycle s.home .recovering).fence)
    -- a request names a handle that was opened before it
    | .cutover parent plan => if s.locked = true ∨ s.opened ≤ parent then none else
        some (if ok && s.transition.any (·.plan == plan) then s.installIngress parent plan
        else { s with worker := .idle })
    | _ => none

inductive HandleAction
  | start (j : ℕ) (c : Call)
  | advance (j : ℕ) (c : Call) (ok : Bool)
  | work (a : WorkerAction)
  deriving DecidableEq, Repr

def handleStep (s : HandleState) : HandleAction → Option HandleState
  | .start j c => if c.entry ∧ j < s.opened then some (s.push j c) else none
  | .advance j c ok =>
    if (j, c) ∈ s.calls then callStep { s with calls := s.calls.erase (j, c) } j ok c else none
  | .work a => workerStep s a

/-- A worker starts with one handle, serving, or prepared with its service still to be
granted. -/
def handleSystem : System HandleState HandleAction where
  init s := ∃ id range epoch lifecycle, (lifecycle = .serving ∨ lifecycle = .prepared) ∧
    s = { id := id, handle := fun _ => ⟨range, epoch, lifecycle, none⟩ }
  step := handleStep

end CrowDB.ChunkKv
