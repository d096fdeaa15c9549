import CrowDB.Paxos.Roles
import CrowDB.Lib.Transition

/-!
# Commits to an Iceberg table

The head of a table and the journal record of each commit operation are separate records of
the catalog, each changed by compare-and-exchange. A commit moves its journal record from
`prepared` to `publishing`, exchanges the head, and then records the outcome. Any number of
helpers may carry the same operation forward, each with its own copy of the record, and a
garbage collector may fence the head meanwhile. A helper stops when it crashes, when a check
fails or when an answer is lost.
-/
namespace CrowDB.Iceberg
open Lib
open Paxos (Bytes)

/-! ## Records -/

abbrev OperationId := ℕ

structure TableLocation where
  storageNamespace : Option ℕ
  catalog : ℕ
  table : ℕ
  deriving DecidableEq

structure FileLocation where
  table : TableLocation
  relativeKey : Bytes
  deriving DecidableEq

inductive TableLifecycle
  | ready | tombstone | reclaiming
  deriving DecidableEq

structure TableHead where
  catalog : ℕ
  table : ℕ
  namespaceId : ℕ
  name : Bytes
  nameEpoch : ℕ
  lifecycle : TableLifecycle
  generation : ℕ
  metadataFile : ℕ
  metadataLocation : FileLocation
  metadataDigest : Bytes
  commitBinding : Option Bytes
  formatVersion : ℕ
  tableUuid : Option ℕ
  operationFence : ℕ
  pendingOperation : Option OperationId
  deriving DecidableEq

def maxKeyBytes : ℕ := 4096

def validateName (name : Bytes) : Bool :=
  decide (name ≠ []) && name.all (fun byte => byte != 0 && byte != 0x1f)
    && decide (name.length ≤ maxKeyBytes - 41)

namespace TableHead

def storageLocation (h : TableHead) : TableLocation := h.metadataLocation.table

def validate (h : TableHead) : Bool :=
  validateName h.name && h.nameEpoch != 0 && h.generation != 0 && h.operationFence != 0
    && decide (1 ≤ h.formatVersion ∧ h.formatVersion ≤ 3)
    && h.metadataLocation.table.catalog == h.catalog && h.metadataLocation.table.table == h.table
    && (decide (h.formatVersion ≤ 1) || h.tableUuid.isSome)
    && (h.lifecycle == .ready || h.pendingOperation.isSome)

end TableHead

structure PayloadReference where
  catalog : ℕ
  operation : OperationId
  digest : Bytes
  length : ℕ
  deriving DecidableEq

def maxPayloadBytes : ℕ := 2 * 1024 * 1024

structure TableCommitOutcome where
  status : ℕ
  body : PayloadReference
  deriving DecidableEq

inductive TableCommitPhase
  | prepared | validated | writing | publishing | published | complete | rejected
  deriving DecidableEq

namespace TableCommitPhase

def terminal : TableCommitPhase → Bool
  | complete | rejected => true
  | _ => false

def permits : TableCommitPhase → TableCommitPhase → Bool
  | prepared, validated | prepared, rejected | validated, writing | validated, rejected
  | writing, publishing | writing, rejected | publishing, published | publishing, rejected
  | published, complete => true
  | _, _ => false

end TableCommitPhase

structure TableCommitOperation where
  catalog : ℕ
  activationEpoch : ℕ
  operation : OperationId
  issuedMs : ℕ
  principal : Bytes
  revision : ℕ
  timestampMs : ℤ
  phase : TableCommitPhase
  input : PayloadReference
  before : TableHead
  candidate : Option TableHead
  outcome : Option TableCommitOutcome
  deriving DecidableEq

namespace TableCommitOperation

section
variable (op : TableCommitOperation)

def reference (r : PayloadReference) : Bool :=
  decide (r.length ≤ maxPayloadBytes) && r.catalog == op.catalog && r.operation == op.operation

def validateCandidate (c : TableHead) : Bool :=
  c.validate && c.catalog == op.before.catalog && c.table == op.before.table
    && c.namespaceId == op.before.namespaceId && c.name == op.before.name
    && c.nameEpoch == op.before.nameEpoch && c.lifecycle == .ready
    && c.generation == op.before.generation + 1
    && c.operationFence == op.before.operationFence + 1
    && c.pendingOperation == some op.operation && c.metadataFile != op.before.metadataFile
    && c.metadataLocation != op.before.metadataLocation
    && decide (op.before.formatVersion ≤ c.formatVersion)
    && op.before.tableUuid.all fun uuid => c.tableUuid == some uuid

def validateOutcome (o : TableCommitOutcome) : Bool :=
  op.reference o.body && match op.phase with
    | .complete => o.status == 200
    | .rejected => decide (o.status ∈ [400, 403, 404, 406, 409, 422])
    | _ => false

def validate : Bool :=
  op.activationEpoch != 0 && op.before.validate && op.reference op.input
    && decide (op.principal ≠ [] ∧ op.principal.length ≤ 256 ∧ 0 ∉ op.principal)
    && op.revision != 0 && decide (0 ≤ op.timestampMs) && op.before.catalog == op.catalog
    && op.before.lifecycle == .ready && op.before.pendingOperation.isNone
    && op.phase.terminal == op.outcome.isSome
    && (op.phase != .prepared || op.candidate.isNone)
    && (op.phase == .prepared || op.phase == .rejected || op.candidate.isSome)
    && op.candidate.all op.validateCandidate && op.outcome.all op.validateOutcome

end

def sameRequest (op other : TableCommitOperation) : Bool :=
  op.catalog == other.catalog && op.activationEpoch == other.activationEpoch
    && op.operation == other.operation && op.issuedMs == other.issuedMs
    && op.principal == other.principal && op.input == other.input && op.before == other.before
    && op.timestampMs == other.timestampMs

section
variable (op : TableCommitOperation) (phase : TableCommitPhase)

/-- `advance` of the publisher: the next revision, in another phase. -/
def advance : TableCommitOperation :=
  { op with revision := op.revision + 1, phase := phase }

def finished (status : ℕ) (body : PayloadReference) : TableCommitOperation :=
  { op.advance phase with outcome := some ⟨status, body⟩ }

end

end TableCommitOperation

/-! ## Checks -/

/-- The checks of `TableCommitJournal::advance` that read nothing. -/
def advances (prev next : TableCommitOperation) : Bool :=
  prev.validate && next.validate && prev.sameRequest next && next.revision == prev.revision + 1
    && prev.phase.permits next.phase
    && (prev.candidate == next.candidate || (prev.phase == .prepared && next.phase == .validated))

/-- The head has moved past the one the operation is based on. -/
def passed (before head : TableHead) : Bool :=
  decide (before.generation ≤ head.generation ∧ before.operationFence ≤ head.operationFence ∧
    (before.generation < head.generation ∨ before.operationFence < head.operationFence))

def publicationOutcome (head : TableHead) (op : TableCommitOperation) (next : TableCommitPhase) :
    Bool :=
  match op.candidate, next with
  | some candidate, .published => head == candidate
  | some candidate, .rejected => head != op.before && head != candidate && passed op.before head
      && head.pendingOperation != some op.operation
  | _, _ => false

/-- What `evaluate_durable_commit` lets pass: a candidate for a record that is not published. -/
def preparable (op : TableCommitOperation) (doc : TableHead) : Bool :=
  op.validate && decide (op.phase ∈ [.prepared, .validated, .writing])
    && op.candidate.all (· == doc) && doc.storageLocation == op.before.storageLocation
    && ({ op with phase := .validated, candidate := some doc } : TableCommitOperation).validate

/-- The head that a collection task leaves behind its fence. -/
def fencedHead (task : OperationId) (h : TableHead) : TableHead :=
  { h with
    operationFence := h.operationFence + 1
    lifecycle := .reclaiming
    pendingOperation := some task }

def releasedHead (h : TableHead) : TableHead := { h with operationFence := h.operationFence + 2 }

/-! ## Helpers -/

/-- Where a helper stands: what it does next with its copy of the record. `doc` is the head of
the evaluated metadata document, as long as the helper is in `publish`. -/
inductive Helper
  | idle
  | publish (op : TableCommitOperation) (doc : TableHead)
  | rejectSuperseded (op : TableCommitOperation) (doc : Option TableHead)
  | prepare (op : TableCommitOperation)
  | rejectValidation (op : TableCommitOperation) (status : ℕ)
  | ladder (op : TableCommitOperation) (doc : TableHead)
  | writeCandidate (op : TableCommitOperation) (doc : TableHead)
  | advance (prev next : TableCommitOperation) (doc : Option TableHead)
  | exchange (prev next : TableCommitOperation) (doc : Option TableHead)
  | finish (op : TableCommitOperation)
  | select (op : TableCommitOperation)
  | install (op : TableCommitOperation)
  | complete (op : TableCommitOperation)
  | settle (op : TableCommitOperation)
  | answer (op : TableCommitOperation)

/-- How `finish` goes on with a record that it has just read or written. -/
def Helper.resume (op : TableCommitOperation) : Helper :=
  match op.phase with
  | .publishing => .select op
  | .published => .complete op
  | .complete => .settle op
  | .rejected => .answer op
  | _ => .idle

/-- How the caller of `change` goes on. -/
def Helper.changed (prev next : TableCommitOperation) (doc : Option TableHead) : Helper :=
  match doc with
  | some doc => .ladder next doc
  | none => if prev.phase = .publishing ∨ prev.phase = .published then .resume next
      else .finish next

/-- The next journal record of `publish`. -/
def Helper.climb (op : TableCommitOperation) (doc : TableHead) : Helper :=
  match op.phase with
  | .prepared => .advance op { op.advance .validated with candidate := some doc } (some doc)
  | .validated => .advance op (op.advance .writing) (some doc)
  | .writing => if op.candidate = some doc then .writeCandidate op doc else .idle
  | _ => .idle

/-- What a helper gets from the payload store and from the evaluation of the request. The store
may answer an exchange that it has already applied from its retry window, since the identity of
a mutation is a digest of the key and of both values. -/
structure HelperInput where
  body : PayloadReference
  evaluated : Except ℕ TableHead
  remembered : Bool := false

/-! ## The table -/

/-- A head exchange that put the candidate of an operation in the place of its base. -/
structure Installation where
  operation : OperationId
  before : TableHead
  candidate : TableHead
  deriving DecidableEq

/-- `past` are the earlier heads, newest first; together with `applied`, `installed` and
`returned` it records what has happened. -/
structure CommitState where
  head : TableHead
  journal : OperationId → Option TableCommitOperation := fun _ => none
  helpers : ℕ → Helper := fun _ => .idle
  past : List TableHead := []
  applied : List (TableCommitOperation × TableCommitOperation) := []
  installed : List Installation := []
  returned : List (OperationId × TableCommitOutcome) := []

namespace CommitState

section
variable (s : CommitState)

def moveTo (i : ℕ) (h : Helper) : CommitState :=
  { s with helpers := Function.update s.helpers i h }

def current (op : TableCommitOperation) : Bool :=
  decide (s.journal op.operation = some op)

def exchangeHead (head : TableHead) : CommitState :=
  { s with head := head, past := s.head :: s.past }

def record (op : TableCommitOperation) : CommitState :=
  { s with journal := Function.update s.journal op.operation (some op) }

def putRecord (prev next : TableCommitOperation) : CommitState :=
  { s.record next with applied := (prev, next) :: s.applied }

def putInstalled (op : TableCommitOperation) (candidate : TableHead) : CommitState :=
  { s.exchangeHead candidate with installed := ⟨op.operation, op.before, candidate⟩ :: s.installed }

/-- One access of a helper to the catalog. -/
def run (i : ℕ) (input : HelperInput) : Option CommitState :=
  match s.helpers i with
  | .idle => none
  | .publish op doc => some (s.moveTo i
      (if s.current op then .rejectSuperseded op (some doc) else .idle))
  | .rejectSuperseded op doc => some (s.moveTo i
      (if s.head = op.before then (match doc with
        | some doc => .ladder op doc
        | none => .prepare op)
      else if passed op.before s.head && s.head.pendingOperation != some op.operation then
        .advance op (op.finished .rejected 409 input.body) none
      else .idle))
  | .prepare op => some (s.moveTo i (match input.evaluated with
      | .ok doc => if preparable op doc then .publish op doc else .idle
      | .error status => .rejectValidation op status))
  | .rejectValidation op status => some (s.moveTo i
      (if s.current op then .advance op (op.finished .rejected status input.body) none else .idle))
  | .ladder op doc => some (s.moveTo i (.climb op doc))
  | .writeCandidate op _ => some (s.moveTo i
      (if s.current op then .advance op (op.advance .publishing) none else .idle))
  | .advance prev next doc => some (s.moveTo i
      (if advances prev next
          && (prev.phase != .publishing || publicationOutcome s.head prev next.phase)
        then .exchange prev next doc else .idle))
  | .exchange prev next doc => some
      (if s.current prev then (s.putRecord prev next).moveTo i (.changed prev next doc)
      else s.moveTo i (if input.remembered ∧ (prev, next) ∈ s.applied then .changed prev next doc
        else .idle))
  | .finish op => some (s.moveTo i (if s.current op then .resume op else .idle))
  | .select op => some (s.moveTo i (if s.current op then .install op else .idle))
  | .install op => match op.candidate with
    | none => some (s.moveTo i .idle)
    | some candidate => some
        (if s.head = op.before then
          (s.putInstalled op candidate).moveTo i (.advance op (op.advance .published) none)
        else s.moveTo i (.advance op (if s.head = candidate
            ∨ input.remembered ∧ ⟨op.operation, op.before, candidate⟩ ∈ s.installed
          then op.advance .published else op.finished .rejected 409 input.body) none))
  | .complete op => some (s.moveTo i (.advance op (op.finished .complete 200 input.body) none))
  | .settle op => match op.candidate with
    | none => some (s.moveTo i .idle)
    | some candidate => some
        (if s.head = candidate then
          (s.exchangeHead { candidate with pendingOperation := none }).moveTo i (.answer op)
        else s.moveTo i (.answer op))
  | .answer op => some ({ s with
      returned := (op.outcome.map fun o => (op.operation, o)).toList ++ s.returned }.moveTo i .idle)

end

end CommitState

inductive CommitAction
  | begin (op : TableCommitOperation)
  | publish (i : ℕ) (op : TableCommitOperation) (doc : TableHead)
  | recover (i : ℕ) (operation : OperationId)
  | run (i : ℕ) (input : HelperInput)
  | stop (i : ℕ)
  | fence (task : OperationId)
  | release (task : OperationId)

/-- `tasks` are the heads that collection tasks were admitted with. -/
def CommitState.step (tasks : OperationId → Option TableHead) (s : CommitState) :
    CommitAction → Option CommitState
  | .begin op => if op.validate ∧ op.phase = .prepared ∧ op.revision = 1
        ∧ s.journal op.operation = none then some (s.record op) else none
  | .publish i op doc => if preparable op doc then some (s.moveTo i (.publish op doc)) else none
  | .recover i operation => match s.journal operation with
    | some op => some (s.moveTo i (if op.phase ∈ [.publishing, .published, .complete, .rejected]
        then .finish op else .rejectSuperseded op none))
    | none => none
  | .run i input => s.run i input
  | .stop i => some (s.moveTo i .idle)
  | .fence task => match tasks task with
    | some before => if before.lifecycle ≠ .reclaiming
          ∧ ¬ (before.lifecycle = .ready ∧ before.pendingOperation.isSome)
          ∧ (fencedHead task before).validate ∧ s.head = before
        then some (s.exchangeHead (fencedHead task before)) else none
    | none => none
  | .release task => match tasks task with
    | some before => if (fencedHead task before).validate ∧ s.head = fencedHead task before
        then some (s.exchangeHead (releasedHead before)) else none
    | none => none

/-- A table that nobody is working on. -/
def commitSystem (tasks : OperationId → Option TableHead) : System CommitState CommitAction where
  init s := s = { head := s.head } ∧ s.head.lifecycle ≠ .reclaiming ∧
    (s.head.lifecycle = .ready → s.head.pendingOperation = none)
  step := CommitState.step tasks

end CrowDB.Iceberg
