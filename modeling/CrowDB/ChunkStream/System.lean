import CrowDB.ChunkStream.Store
import CrowDB.Lib.Transition

/-!
# Owners, collectors and readers of a stream

Each operation on the record store is a task that goes from one KV operation to the next; any
number of tasks run at the same time, of old and new owners alike. A task keeps what it has read.
Publications, candidates, collections and read pins all fence through the revision of the tail.

Time is the time of the monotonic clocks. A wall clock may be ahead of it, by less than the grace
period of the pins, so that no two wall clocks differ by more.
-/
namespace CrowDB.ChunkStream
open Lib

def leaseMs : ℕ := 60000

def pinGraceMs : ℕ := 31000

/-- When a lease that started at `started` ends for its reader. -/
def leaseEnd (started : ℕ) : ℕ := started + (leaseMs - 1000)

structure PublishRequest where
  expected : Option Snapshot
  tail : StreamChunkRecord
  previous : Option StreamChunkRecord
  candidate : Option Snapshot
  deriving DecidableEq

namespace PublishRequest

section
variable (q : PublishRequest)

/-- The snapshot whose key and revision guard the batch. -/
def guarded : Option Snapshot := q.expected.or q.candidate

def check : Except StreamError Unit :=
  validateTransition (q.expected.map Snapshot.record) q.tail q.previous

def candidateMatches (candidate : StreamChunkRecord) : Bool :=
  candidate.state == .candidate && candidate.chunkId == q.tail.chunkId &&
    candidate.sequence == q.tail.sequence && candidate.writerEpoch == q.tail.writerEpoch &&
    candidate.ownerSession == q.tail.ownerSession

/-- The finalized predecessor. An empty one leaves its key to the successor. -/
def predecessorOps : Except StreamError (List BatchOp) :=
  match q.previous with
  | none => .ok []
  | some previous =>
    if recordKey previous ≠ recordKey q.tail then .ok [.put previous]
    else if previous.logicalStart ≠ previous.logicalEnd then
      .error (corrupt "nonempty predecessor key reused")
    else .ok []

def candidateOps : Except StreamError (List BatchOp) :=
  match q.candidate with
  | none => .ok []
  | some candidate =>
    if q.candidateMatches candidate.record then .ok [.delete (recordKey candidate.record)]
    else .error (corrupt "candidate identity differs from attachment")

/-- The batch of `publish`. -/
def ops : Except StreamError (List BatchOp) := do
  let predecessor ← q.predecessorOps
  let candidate ← q.candidateOps
  return predecessor ++ candidate ++ [.put q.tail]

/-- The chunk that a publication attaches. -/
def attaches : Bool :=
  match q.expected with
  | none => true
  | some expected => expected.record.chunkId != q.tail.chunkId

/-- The records that a publication writes. -/
def records : List StreamChunkRecord := q.tail :: q.previous.toList

end

end PublishRequest

/-- The arguments of `collect`: the generation horizon, where to go on and how many records. -/
structure CollectRequest where
  retained : ℕ
  after : Option ℕ
  maxRecords : ℕ
  deriving DecidableEq

/-- The operations under way, named by what they do next. -/
inductive Task
  -- `publish`
  | publish (q : PublishRequest)
  | publishSend (q : PublishRequest) (revision attempt : ℕ)
  | publishResolve (q : PublishRequest) (attempt : ℕ)
  | publishCandidate (q : PublishRequest) (revision attempt : ℕ)
  | published (q : PublishRequest) (result : Except StreamError Snapshot)
  -- `reserve_initial`, `register_candidate`, `remove_candidate`
  | reserve (candidate : StreamChunkRecord) (previous : Option Snapshot)
  | reserveSend (candidate : StreamChunkRecord) (previous : Option Snapshot)
  | reserveRead (candidate : StreamChunkRecord)
  | register (candidate : StreamChunkRecord)
  | registerRead (candidate : StreamChunkRecord) (tail : Snapshot)
  | registerSend (candidate : StreamChunkRecord) (tail : Snapshot)
  | registered (candidate : StreamChunkRecord)
  | remove (sequence : ℕ) (chunk : ChunkId)
  | removeRead (sequence : ℕ) (chunk : ChunkId) (tail : Snapshot)
  | removeSend (sequence : ℕ) (chunk : ChunkId) (tail : Snapshot)
  -- `collect`
  | collect (q : CollectRequest)
  | collectPins (q : CollectRequest) (tail : Snapshot)
  | collectPrune (q : CollectRequest) (tail : Snapshot) (pins : List PinRecord)
  | collectPruneSend (tail : Snapshot) (expired : List PinRecord)
  | collectScan (q : CollectRequest) (tail : Snapshot) (pins : List PinRecord)
  | collectGet (retained : ℕ) (tail : Snapshot) (pins : List PinRecord) (keys : List ℕ)
  | collectCheck (retained : ℕ) (tail : Snapshot) (pins : List PinRecord) (keys : List ℕ)
      (record : StreamChunkRecord)
  | collectMark (tail : Snapshot) (record : StreamChunkRecord)
  | collectRelease (record : StreamChunkRecord)
  | collectReload (record : StreamChunkRecord)
  | collectDelete (record : StreamChunkRecord) (current : Snapshot)
  | finished

structure Extent where
  chunkId : ChunkId
  start : ℕ
  stop : ℕ
  deriving DecidableEq

/-- How far `register_pin`, `maintain` and `release_pin` have come with a pin. -/
inductive PinPhase
  | load
  | read (current : Snapshot)
  | send (current : Snapshot) (expired : List PinRecord)
  | verify
  | pinned
  | failed
  | idle
  | renewLoad
  | renewMatch (tail : Snapshot)
  | renewPrepare (tail : Snapshot)
  | renewSend (tail : Snapshot) (next : PinRecord)
  | renewVerify (next : PinRecord)
  | renewed (next : PinRecord)
  | lapsed
  | ended
  | releaseLoad
  | releaseSend (tail : Snapshot)
  | closed
  deriving DecidableEq

/-- The pin is registered and its view was handed out. -/
def PinPhase.opened : PinPhase → Bool
  | .load | .read _ | .send _ _ | .verify | .pinned | .failed => false
  | _ => true

/-- A captured record, the lease on it and the appends since. The lease counts from `started`. -/
structure ReadView where
  captured : StreamChunkRecord
  pin : PinRecord
  phase : PinPhase := .load
  started : ℕ
  deadline : ℕ := 0
  extents : List Extent := []
  stop : ℕ
  dropped : Bool := false
  deriving DecidableEq

/-- The part of a worker's state that reads depend on: its last publication, its read view, and
whether the view of that publication is still being opened. -/
structure Worker where
  snapshot : Snapshot
  view : ℕ
  opening : Bool
  deriving DecidableEq

/-- A read of one segment: the chunk once it is located, whether the lease was checked again, and
once the chunk was read whether it was released by then. -/
structure ChunkRead where
  view : ℕ
  offset : ℕ
  chunkId : Option ChunkId := none
  checked : Bool := false
  stale : Option Bool := none
  deriving DecidableEq

/-- What the tasks work on: the store, what was read of it, and the chunks that were released.
`committed` and `condemned` are history: publications that were executed, and records that
collections have marked. -/
structure Ledger where
  store : Store := {}
  snapshots : List Snapshot := []
  candidates : List Snapshot := []
  released : List ChunkId := []
  committed : List PublishRequest := []
  condemned : List StreamChunkRecord := []

/-- `allocated` and `delivered` are history: chunks that were allocated to be attached, and reads
that have passed all checks. -/
structure StreamState extends Ledger where
  now : ℕ := 0
  tasks : List Task := []
  views : List ReadView := []
  workers : List Worker := []
  reads : List ChunkRead := []
  cache : List StreamChunkRecord := []
  allocated : List ChunkId := []
  delivered : List ChunkRead := []

/-- What the surroundings contribute to a step of a task. -/
structure Input where
  reply : Reply := .delivered
  wall : ℕ := 0
  deriving DecidableEq

namespace PinRecord

/-- Out of the grace period by a wall clock. -/
def expiredBy (p : PinRecord) (wall : ℕ) : Bool := decide (p.expires + pinGraceMs ≤ wall)

/-- The pin covers the interval of a record or names its chunk. -/
def covers (p : PinRecord) (r : StreamChunkRecord) : Bool :=
  p.active == some r.chunkId || (decide (p.start < r.stop) && decide (r.start < p.stop))

end PinRecord

/-- The record may be collected as far as the tail tells. -/
def collectable (retained : ℕ) (tail record : StreamChunkRecord) : Bool :=
  record.chunkId != tail.chunkId && decide (record.stop ≤ tail.trimOffset) &&
    decide (record.generation < retained) &&
    (record.state == .sealed || record.state == .deleting)

def marked (r : StreamChunkRecord) : StreamChunkRecord := { r with state := .deleting }

/-- `prune_pins` deletes at most 32 expired pins and ends the pass. -/
def expiredPins (pins : List PinRecord) (wall : ℕ) : List PinRecord :=
  (pins.filter fun p => p.expiredBy wall).take 32

/-- A wall clock may show this. -/
def shows (now wall : ℕ) : Bool := decide (now ≤ wall) && decide (wall < now + pinGraceMs)

namespace Ledger

/-- History of a publication, if its batch was executed. -/
def wrote (s : Ledger) (next : Store) (q : PublishRequest) : Ledger :=
  { s with
    store := next
    committed := if next.revision = s.store.revision then s.committed else q :: s.committed }

def condemns (s : Ledger) (next : Store) (record : StreamChunkRecord) : Ledger :=
  { s with
    store := next
    condemned := if next.revision = s.store.revision then s.condemned
      else record :: s.condemned }

/-! ## Publications -/

def nextAttempt (q : PublishRequest) (revision attempt : ℕ) : Task :=
  if attempt + 1 < 8 then .publishSend q revision (attempt + 1)
  else .published q (.error .backpressure)

section
variable (s : Ledger) (q : PublishRequest)

def runPublish : Ledger × Task :=
  match q.check, q.guarded with
  | .error e, _ => (s, .published q (.error e))
  | .ok _, none => (s, .published q (.error (corrupt "missing attachment guard")))
  | .ok _, some guarded =>
    match q.expected, s.store.loadTail with
    | none, some current =>
      if current.record = q.tail then
        ({ s with snapshots := current :: s.snapshots }, .published q (.ok current))
      else (s, .published q (.error .staleWriter))
    | _, _ => (s, .publishSend q guarded.revision 0)

def runPublishSend (revision attempt : ℕ) (reply : Reply) : Ledger × Task :=
  match q.ops, q.guarded with
  | .error e, _ => (s, .published q (.error e))
  | .ok _, none => (s, .published q (.error (corrupt "missing attachment guard")))
  | .ok ops, some guarded =>
    match s.store.send ops (recordKey guarded.record) revision reply with
    | (next, .ok v) =>
      let s := s.wrote next q
      ({ s with snapshots := ⟨q.tail, v⟩ :: s.snapshots }, .published q (.ok ⟨q.tail, v⟩))
    | (next, .casBusy) => (s.wrote next q, nextAttempt q revision attempt)
    | (next, .casFailed) | (next, .outcomeUnknown) =>
      (s.wrote next q, .publishResolve q attempt)
    | (next, .failed) =>
      (s.wrote next q, .published q (.error (.readUnavailable "KV operation failed")))

def runPublishResolve (attempt : ℕ) : Ledger × Task :=
  match s.store.loadTail with
  | none => (s, .published q (.error .writeStalled))
  | some current =>
    if current.record = q.tail then
      ({ s with snapshots := current :: s.snapshots }, .published q (.ok current))
    else if q.expected.any fun expected => current.record = expected.record then
      match q.candidate with
      | none => (s, nextAttempt q current.revision attempt)
      | some _ => (s, .publishCandidate q current.revision attempt)
    else if q.tail.writerEpoch ≤ current.record.writerEpoch then
      (s, .published q (.error .staleWriter))
    else (s, .published q (.error .writeStalled))

def runPublishCandidate (revision attempt : ℕ) : Ledger × Task :=
  let registered := q.candidate.any fun candidate =>
    (s.store.loadKey (recordKey candidate.record)).any fun found => found.record = candidate.record
  if registered then (s, nextAttempt q revision attempt)
  else (s, .published q (.error .staleWriter))

end

/-! ## Candidates -/

section
variable (s : Ledger) (candidate : StreamChunkRecord)

def runReserve (previous : Option Snapshot) : Task :=
  if candidate.validate.toOption.isNone ∨ candidate.state ≠ .candidate ∨ candidate.sequence ≠ 0 then
    .finished
  else if s.store.loadTail.isSome then .finished
  else if previous.any fun previous => recordKey previous.record ≠ recordKey candidate ∨
      candidate.writerEpoch < previous.record.writerEpoch then .finished
  else .reserveSend candidate previous

def runReserveSend (previous : Option Snapshot) (reply : Reply) : Ledger × Task :=
  match s.store.send [.put candidate] (recordKey candidate) (previous.elim 0 Snapshot.revision)
      reply with
  | (next, .casBusy) | (next, .failed) => ({ s with store := next }, .finished)
  | (next, _) => ({ s with store := next }, .reserveRead candidate)

/-- A reservation that is found as it was written is handed out. -/
def readCandidate : Ledger :=
  match s.store.loadKey (recordKey candidate) with
  | none => s
  | some found =>
    if found.record = candidate then { s with candidates := found :: s.candidates } else s

def runRegister : Task :=
  if candidate.state ≠ .candidate ∨ candidate.validate.toOption.isNone then .finished
  else match s.store.loadTail with
    | none => .finished
    | some tail =>
      if tail.record.writerEpoch ≠ candidate.writerEpoch ∨
          tail.record.ownerSession ≠ candidate.ownerSession ∨ tail.record.closed = true ∨
          tail.record.sequence + 1 ≠ candidate.sequence then .finished
      else .registerRead candidate tail

def runRegisterRead (tail : Snapshot) : Ledger × Task :=
  match s.store.loadKey (recordKey candidate) with
  | none => (s, .registerSend candidate tail)
  | some _ => (s.readCandidate candidate, .finished)

end

def runRemoveRead (s : Ledger) (sequence : ℕ) (chunk : ChunkId) (tail : Snapshot) : Task :=
  match s.store.loadKey (.candidate sequence) with
  | none => .finished
  | some current =>
    if current.record.chunkId ≠ chunk then .finished else .removeSend sequence chunk tail

/-! ## Collection -/

def runCollectPrune (q : CollectRequest) (tail : Snapshot) (pins : List PinRecord) (wall : ℕ) :
    Task :=
  match expiredPins pins wall with
  | [] => .collectScan q tail pins
  | expired => .collectPruneSend tail expired

/-- `scan_keys` behind the continuation. -/
def scanKeys (s : Ledger) (q : CollectRequest) : List ℕ :=
  ((s.store.attached.map Snapshot.start).filter fun start =>
    q.after.all fun after => decide (after < start)).take q.maxRecords

def runCollectGet (s : Ledger) (retained : ℕ) (tail : Snapshot) (pins : List PinRecord) :
    List ℕ → Task
  | [] => .finished
  | key :: keys =>
    match s.store.loadKey (.attached key) with
    | none => .finished
    | some found => .collectCheck retained tail pins keys found.record

def runCollectCheck (retained : ℕ) (tail : Snapshot) (pins : List PinRecord) (keys : List ℕ)
    (record : StreamChunkRecord) (wall : ℕ) : Task :=
  if !collectable retained tail.record record then .collectGet retained tail pins keys
  else if pins.any fun p => !p.expiredBy wall && p.covers record then
    .collectGet retained tail pins keys
  else if record.state = .deleting then .collectRelease record
  else .collectMark tail record

/-- Only an executed and answered mark is followed by the release. -/
def runCollectMark (s : Ledger) (tail : Snapshot) (record : StreamChunkRecord)
    (reply : Reply) : Ledger × Task :=
  match s.store.sendFenced tail [.put (marked record)] reply with
  | (next, .ok _) => (s.condemns next (marked record), .collectRelease (marked record))
  | (next, _) => (s.condemns next (marked record), .finished)

/-! ## Steps of tasks -/

def runTask (s : Ledger) (now : ℕ) (input : Input) : Task → Option (Ledger × Task)
  | .publish q => some (s.runPublish q)
  | .publishSend q revision attempt => some (s.runPublishSend q revision attempt input.reply)
  | .publishResolve q attempt => some (s.runPublishResolve q attempt)
  | .publishCandidate q revision attempt => some (s.runPublishCandidate q revision attempt)
  | .reserve candidate previous => some (s, s.runReserve candidate previous)
  | .reserveSend candidate previous => some (s.runReserveSend candidate previous input.reply)
  | .reserveRead candidate => some (s.readCandidate candidate, .finished)
  | .register candidate => some (s, s.runRegister candidate)
  | .registerRead candidate tail => some (s.runRegisterRead candidate tail)
  | .registerSend candidate tail =>
    match s.store.sendFenced tail [.put candidate] input.reply with
    | (next, .ok _) => some ({ s with store := next }, .registered candidate)
    | (next, _) => some ({ s with store := next }, .finished)
  | .registered candidate => some (s.readCandidate candidate, .finished)
  | .remove sequence chunk =>
    some (s, s.store.loadTail.elim .finished fun tail => .removeRead sequence chunk tail)
  | .removeRead sequence chunk tail => some (s, s.runRemoveRead sequence chunk tail)
  | .removeSend sequence _ tail =>
    some ({ s with
      store := (s.store.sendFenced tail [.delete (.candidate sequence)] input.reply).1 }, .finished)
  | .collect q => some (s, s.store.loadTail.elim .finished fun tail => .collectPins q tail)
  | .collectPins q tail => some (s, .collectPrune q tail s.store.pins)
  | .collectPrune q tail pins =>
    if shows now input.wall then some (s, runCollectPrune q tail pins input.wall) else none
  | .collectPruneSend tail expired =>
    some ({ s with
      store := (s.store.sendFenced tail (expired.map fun p => BatchOp.deletePin p.id)
        input.reply).1 }, .finished)
  | .collectScan q tail pins => some (s, .collectGet q.retained tail pins (s.scanKeys q))
  | .collectGet retained tail pins keys => some (s, s.runCollectGet retained tail pins keys)
  | .collectCheck retained tail pins keys record =>
    if shows now input.wall then
      some (s, runCollectCheck retained tail pins keys record input.wall)
    else none
  | .collectMark tail record => some (s.runCollectMark tail record input.reply)
  | .collectRelease record =>
    some ({ s with released := record.chunkId :: s.released }, .collectReload record)
  | .collectReload record =>
    some (s, s.store.loadTail.elim .finished fun current => .collectDelete record current)
  | .collectDelete record current =>
    some ({ s with
      store := (s.store.sendFenced current [.delete (.attached record.start)] input.reply).1 },
      .finished)
  | .published _ _ | .finished => none

end Ledger

/-! ## Pins

One process per pin registers, renews and releases it. -/

namespace StreamState

section
variable (s : StreamState) (v : ReadView)

def runPinLoad : ReadView :=
  match s.store.loadTail with
  | none => { v with phase := .failed }
  | some current =>
    if v.pin.start < current.record.trimOffset ∨ current.record.stop < v.pin.stop then
      { v with phase := .failed }
    else { v with phase := .read current }

def runPinRead (current : Snapshot) (wall : ℕ) : ReadView :=
  let expired := expiredPins s.store.pins wall
  if 512 ≤ s.store.pins.length - expired.length then { v with phase := .failed }
  else { v with phase := .send current expired }

def runPinSend (current : Snapshot) (expired : List PinRecord) (reply : Reply) : Store × ReadView :=
  match s.store.sendFenced current
      ((expired.map fun p => BatchOp.deletePin p.id) ++ [.putPin v.pin]) reply with
  | (next, .ok _) => (next, { v with phase := .pinned })
  | (next, .casBusy) | (next, .casFailed) => (next, { v with phase := .load })
  | (next, .outcomeUnknown) => (next, { v with phase := .verify })
  | (next, .failed) => (next, { v with phase := .failed })

/-- The end of `pin_read`: a pin that is already over is dropped at once. -/
def runPinned : ReadView :=
  { v with
    phase := .idle
    deadline := leaseEnd v.started
    dropped := decide (leaseEnd v.started ≤ s.now) }

/-- The next round of `maintain`. -/
def runIdle : ReadView :=
  if v.deadline ≤ s.now then { v with phase := .lapsed }
  else { v with phase := .renewLoad, started := s.now }

def runRenewMatch (tail : Snapshot) (wall : ℕ) : ReadView :=
  if s.store.loadPin v.pin.id = some v.pin ∧ wall < v.pin.expires then
    { v with phase := .renewPrepare tail }
  else { v with phase := .lapsed }

def runRenewSend (tail : Snapshot) (next : PinRecord) (reply : Reply) : Store × ReadView :=
  match s.store.sendFenced tail [.putPin next] reply with
  | (store, .ok _) => (store, { v with phase := .renewed next })
  | (store, .outcomeUnknown) => (store, { v with phase := .renewVerify next })
  | (store, _) => (store, { v with phase := .idle })

def runRenewed (next : PinRecord) : ReadView :=
  if v.deadline ≤ s.now then { v with phase := .lapsed }
  else { v with phase := .idle, pin := next, deadline := leaseEnd v.started }

def runReleaseSend (tail : Snapshot) (reply : Reply) : Store × ReadView :=
  match s.store.sendFenced tail [.deletePin v.pin.id] reply with
  | (next, .casBusy) | (next, .casFailed) => (next, { v with phase := .releaseLoad })
  | (next, _) => (next, { v with phase := .closed })

end

/-- One step of the process of a pin. A read of the store that fails ends the round. -/
def runPin (s : StreamState) (input : Input) (v : ReadView) : Option (Store × ReadView) :=
  match v.phase with
  | .load => some (s.store, s.runPinLoad v)
  | .read current =>
    if shows s.now input.wall then some (s.store, s.runPinRead v current input.wall) else none
  | .send current expired => some (s.runPinSend v current expired input.reply)
  | .verify =>
    some (s.store, { v with
      phase := if s.store.loadPin v.pin.id = some v.pin then .pinned else .load })
  | .pinned => some (s.store, s.runPinned v)
  | .idle => some (s.store, s.runIdle v)
  | .renewLoad =>
    some (s.store, { v with
      phase := if input.reply = .refused then .idle
        else s.store.loadTail.elim .idle PinPhase.renewMatch })
  | .renewMatch tail =>
    if input.reply = .refused then some (s.store, { v with phase := .idle })
    else if shows s.now input.wall then some (s.store, s.runRenewMatch v tail input.wall)
    else none
  | .renewPrepare tail =>
    if shows s.now input.wall then
      some (s.store, { v with
        phase := .renewSend tail { v.pin with expires := input.wall + leaseMs } })
    else none
  | .renewSend tail next => some (s.runRenewSend v tail next input.reply)
  | .renewVerify next =>
    some (s.store, { v with
      phase := if s.store.loadPin next.id = some next then .renewed next else .idle })
  | .renewed next => some (s.store, s.runRenewed v next)
  | .lapsed => some (s.store, { v with phase := .ended, deadline := s.now })
  | .releaseLoad =>
    some (s.store, { v with phase := s.store.loadTail.elim .closed PinPhase.releaseSend })
  | .releaseSend tail => some (s.runReleaseSend v tail input.reply)
  | .failed | .ended | .closed => none

end StreamState

/-! ## The system -/

inductive Action
  | load
  | loadCandidates
  | publish (q : PublishRequest)
  | reserve (candidate : StreamChunkRecord) (previous : Option Snapshot)
  | register (candidate : StreamChunkRecord)
  | remove (sequence : ℕ) (chunk : ChunkId)
  | collect (q : CollectRequest)
  | pin (captured : Snapshot) (wall : ℕ)
  | lease (view : ℕ) (input : Input)
  | release (view : ℕ)
  | run (task : ℕ) (input : Input)
  | retry (task : ℕ)
  | tick (elapsed : ℕ)
  | dropView (view : ℕ)
  | startWorker (snapshot : Snapshot) (view : ℕ)
  | workerPublished (worker : ℕ) (snapshot : Snapshot)
  | workerViewed (worker view : ℕ)
  | workerViewFailed (worker : ℕ)
  | append (worker length : ℕ)
  | beginRead (view offset : ℕ)
  | locateRead (read : ℕ) (hit : Option StreamChunkRecord)
  | checkRead (read : ℕ)
  | readChunk (read : ℕ)
  | endRead (read : ℕ)

/-- Errors that `publish_state` does not retry. -/
def StreamError.isFinal : StreamError → Bool
  | .corruption _ | .invalidRequest _ | .staleWriter => true
  | .readUnavailable _ | .writeStalled | .backpressure => false

/-- The record of `pin_read`. -/
def pinOf (captured : StreamChunkRecord) (id wall : ℕ) : PinRecord :=
  ⟨id, captured.trimOffset, captured.stop, some captured.chunkId, wall + leaseMs⟩

/-- The chunk of an append that was made since the capture. -/
def ReadView.resolve (v : ReadView) (offset : ℕ) : Option ChunkId :=
  (v.extents.find? fun e => decide (e.start ≤ offset) && decide (offset < e.stop)).map
    Extent.chunkId

namespace StreamState

def addTask (s : StreamState) (task : Task) : StreamState := { s with tasks := s.tasks ++ [task] }

/-- `locate_for_read` in the store: the record with the greatest start that is not above. -/
def locate (s : StreamState) (offset : ℕ) : Option StreamChunkRecord :=
  (s.store.attached.filter fun sn => decide (sn.start ≤ offset)).getLast?.bind fun sn =>
    if offset < sn.record.stop ∧ sn.record.state ≠ .deleting then some sn.record else none

def retriable : Task → Option PublishRequest
  | .published q (.error e) => if e.isFinal then none else some q
  | _ => none

/-- The chunk that a read goes to, and the record that the cache takes in. -/
def readTarget (s : StreamState) (v : ReadView) (offset : ℕ) (hit : Option StreamChunkRecord) :
    Option (ChunkId × Option StreamChunkRecord) :=
  if v.captured.stop ≤ offset then (v.resolve offset).map fun chunk => (chunk, none)
  else match hit with
    | some record =>
      if record ∈ s.cache ∧ record.start ≤ offset ∧ offset < record.stop then
        some (record.chunkId, none)
      else none
    | none => (s.locate offset).map fun record => (record.chunkId, some record)

def step (s : StreamState) : Action → Option StreamState
  | .load => s.store.loadTail.map fun tail => { s with snapshots := tail :: s.snapshots }
  | .loadCandidates => some { s with candidates := s.store.candidates ++ s.candidates }
  | .publish q =>
    -- the first publication of a stream has no predecessor; a chunk to attach is a fresh one,
    -- because ChunkDB hands out every chunk once
    if (q.expected = none → q.previous = none) ∧ (∀ sn ∈ q.expected, sn ∈ s.snapshots) ∧
        (∀ sn ∈ q.candidate, sn ∈ s.candidates) ∧
        (q.attaches = true → q.tail.chunkId ∉ s.allocated) then
      some { s.addTask (.publish q) with
        allocated := if q.attaches then q.tail.chunkId :: s.allocated else s.allocated }
    else none
  | .reserve candidate previous =>
    if ∀ sn ∈ previous, sn ∈ s.candidates then some (s.addTask (.reserve candidate previous))
    else none
  | .register candidate => some (s.addTask (.register candidate))
  | .remove sequence chunk => some (s.addTask (.remove sequence chunk))
  | .collect q =>
    if q.maxRecords ≠ 0 ∧ q.maxRecords ≤ 128 then some (s.addTask (.collect q)) else none
  | .pin captured wall =>
    -- the identity of a pin is drawn at random; here it is the place of its view
    if captured ∈ s.snapshots ∧ shows s.now wall = true then
      let record := captured.record
      some { s with views := s.views ++
        [{ captured := record, pin := pinOf record s.views.length wall, started := s.now,
           stop := record.stop }] }
    else none
  | .lease i input =>
    (s.views[i]?).bind fun v => (s.runPin input v).map fun next =>
      { s with store := next.1, views := s.views.set i next.2 }
  | .release i =>
    (s.views[i]?).bind fun v =>
      if v.phase = .idle ∧ v.dropped = true then
        some { s with views := s.views.set i { v with phase := .releaseLoad } }
      else none
  | .run i input =>
    (s.tasks[i]?).bind fun task => (s.toLedger.runTask s.now input task).map fun next =>
      { s with toLedger := next.1, tasks := s.tasks.set i next.2 }
  | .retry i =>
    ((s.tasks[i]?).bind retriable).map fun q => { s with tasks := s.tasks.set i (.publish q) }
  | .tick elapsed => some { s with now := s.now + elapsed }
  | .dropView i =>
    (s.views[i]?).bind fun v =>
      if v.phase.opened = true ∧ (∀ r ∈ s.reads, r.view ≠ i) ∧ (∀ w ∈ s.workers, w.view ≠ i) then
        some { s with views := s.views.set i { v with dropped := true } }
      else none
  | .startWorker snapshot view =>
    (s.views[view]?).bind fun v =>
      if snapshot ∈ s.snapshots ∧ v.captured = snapshot.record ∧ v.phase.opened = true then
        some { s with workers := s.workers ++ [⟨snapshot, view, false⟩] }
      else none
  | .workerPublished worker snapshot =>
    (s.workers[worker]?).bind fun w =>
      if snapshot ∈ s.snapshots ∧ w.opening = false then
        some { s with
          workers := s.workers.set worker { w with snapshot := snapshot, opening := true } }
      else none
  | .workerViewed worker view =>
    (s.workers[worker]?).bind fun w => (s.views[view]?).bind fun v =>
      if w.opening = true ∧ v.captured = w.snapshot.record ∧ v.phase.opened = true then
        some { s with workers := s.workers.set worker { w with view := view, opening := false } }
      else none
  | .workerViewFailed worker =>
    (s.workers[worker]?).bind fun w =>
      if w.opening then some { s with workers := s.workers.set worker { w with opening := false } }
      else none
  | .append worker length =>
    (s.workers[worker]?).bind fun w => (s.views[w.view]?).bind fun v =>
      if w.opening = false ∧ w.snapshot.record.state = .active ∧ length ≠ 0 then
        some { s with views := s.views.set w.view { v with
          extents := v.extents ++ [⟨w.snapshot.record.chunkId, v.stop, v.stop + length⟩]
          stop := v.stop + length } }
      else none
  | .beginRead view offset =>
    (s.views[view]?).bind fun v =>
      if v.dropped = false ∧ s.now < v.deadline ∧ v.captured.trimOffset ≤ offset ∧
          offset < v.stop then
        some { s with reads := s.reads ++ [{ view := view, offset := offset }] }
      else none
  | .locateRead i hit =>
    (s.reads[i]?).bind fun r => (s.views[r.view]?).bind fun v =>
      if r.chunkId = none then
        (s.readTarget v r.offset hit).map fun target =>
          { s with
            reads := s.reads.set i { r with chunkId := some target.1 }
            cache := target.2.toList ++ s.cache }
      else none
  | .checkRead i =>
    (s.reads[i]?).bind fun r => (s.views[r.view]?).bind fun v =>
      if r.chunkId.isSome ∧ s.now < v.deadline then
        some { s with reads := s.reads.set i { r with checked := true } }
      else none
  | .readChunk i =>
    (s.reads[i]?).bind fun r => r.chunkId.bind fun chunk =>
      if r.checked then
        some { s with
          reads := s.reads.set i { r with stale := some (decide (chunk ∈ s.released)) } }
      else none
  | .endRead i =>
    (s.reads[i]?).bind fun r => (s.views[r.view]?).bind fun v =>
      if r.stale.isSome ∧ s.now < v.deadline then
        some { s with reads := s.reads.eraseIdx i, delivered := r :: s.delivered }
      else none

end StreamState

def streamSystem : System StreamState Action where
  init s := s = {}
  step := StreamState.step

end CrowDB.ChunkStream
