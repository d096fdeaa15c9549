import CrowDB.Lib.Frontier
import CrowDB.Lib.GateWord
import CrowDB.Lib.Transition
import CrowDB.Paxos.Roles

/-!
# Owner writes and ownership changes

Within one tenure the writes of an owner share the admission of their fence key:
a word that counts them and that an ownership change closes. The change waits
until the count is zero, proposes the new owner, and reopens the word when it is
dropped. A write or a change that goes away with a proposal in flight marks the
admission unresolved first.

Every step is one atomic access of the shared state, or what lies between two
awaits where nothing shared is touched in between. A proposal is in flight from
the moment it has a slot; the group may decide it at any time after, also when the
call that made it is gone.
-/
namespace CrowDB.Cluster
open Paxos Lib

/-- Whose entry it is. A write carries the revision and the value it was admitted
with, a change the value it gives to the fence key. -/
inductive FenceParty
  | write (revision : ℕ) (expected : Bytes)
  | change (call : ℕ) (value : Bytes)
  | other (value : Option Bytes)
  deriving DecidableEq, Repr

/-- What an entry stores under the fence key. -/
def FenceParty.stores : FenceParty → Option Bytes
  | .write _ _ => none
  | .change _ value => some value
  | .other value => value

inductive ProposeResult
  | chosen (slot : ℕ)
  | notLeader
  | busy
  | casFailed
  | casBusy
  | outcomeUnknown
  | err
  deriving DecidableEq, Repr

structure FenceEntry where
  slot : ℕ
  party : FenceParty
  deriving DecidableEq, Repr

inductive WritePhase
  | checked
  | reading
  | matched (revision : ℕ)
  | waiting (revision : ℕ)
  | trying (revision slot : ℕ)
  | refencing (revision slot : ℕ)
  | applying (slot : ℕ)
  | leaving (pending : Bool) (result : Option ProposeResult)
  | returned (result : Option ProposeResult)
  deriving DecidableEq, Repr

/-- `record` says that the proposal is conditional on a record key, through a task
of its own. `detached` is the revision of such a task whose write was dropped.
`late` is set when the admission was unresolved at the call. A result is absent
when the task was dropped. -/
structure WriteCall where
  identity : ℕ
  expected : Bytes
  record : Bool
  late : Bool
  detached : Option ℕ
  phase : WritePhase
  deriving DecidableEq, Repr

inductive ChangePhase
  | admitted
  | arming
  | armed (notified : Bool)
  | parked (notified : Bool)
  | drained
  | fencing (target : ℕ)
  | matched
  | waiting
  | trying (slot : ℕ)
  | refencing (slot : ℕ)
  | applying (slot : ℕ)
  | settled (pending : Bool) (result : Option ProposeResult)
  | leaving (pending : Bool) (result : Option ProposeResult)
  | returned (result : Option ProposeResult)
  deriving DecidableEq, Repr

/-- `drained` is set once `begin_owner_change` has returned. -/
structure ChangeCall where
  identity : ℕ
  expectedRevision : ℕ
  value : Bytes
  late : Bool
  drained : Bool
  phase : ChangePhase
  deriving DecidableEq, Repr

structure FenceWorld where
  word : UInt64
  unresolved : Bool
  leaderReadReady : Bool
  leader : Bool
  inTenure : Bool
  nextSlot : ℕ
  lastChosenSlot : ℕ
  applied : Frontier
  revision : ℕ
  owner : Option Bytes
  token : Bool
  requestResults : List (ℕ × ℕ)
  writes : List WriteCall
  changes : List ChangeCall
  inflight : List FenceEntry
  decided : List FenceEntry

inductive WriteStep
  | beginWrite
  | observe
  | readFails
  | enter
  | allocate
  | cached
  | chosen
  | lose
  | reobserve
  | recordChanged
  | fail (result : ProposeResult)
  | finish
  | abort
  | wander
  | mark
  | release
  deriving DecidableEq, Repr

inductive ChangeStep
  | close
  | arm
  | check
  | wake
  | proceed
  | observe
  | readFails
  | enter
  | allocate
  | chosen
  | lose
  | reobserve
  | fail (result : ProposeResult)
  | finish
  | removeToken
  | abort
  | mark
  | reopen
  deriving DecidableEq, Repr

inductive FenceAction
  | startWrite (identity : ℕ) (expected : Bytes) (record : Bool)
  | write (i : ℕ) (s : WriteStep)
  | startChange (clientId identity expectedRevision : ℕ) (value : Bytes)
  | change (k : ℕ) (s : ChangeStep)
  | decide (e : FenceEntry)
  | decideOther (slot : ℕ) (value : Option Bytes)
  | learn (slot : ℕ)
  | remember (identity slot : ℕ)
  | apply (slot : ℕ)
  | takeSlot
  | setGate (ready leader inTenure : Bool)
  deriving DecidableEq, Repr

namespace WritePhase

/-- The write is inside the admission. -/
def live : WritePhase → Bool
  | .checked | .returned _ => false
  | _ => true

/-- The task can be dropped here. -/
def running : WritePhase → Bool
  | .checked | .leaving _ _ | .returned _ => false
  | _ => true

/-- The value of `pending_proposal`. -/
def pending : WritePhase → Bool
  | .waiting _ | .trying _ _ | .refencing _ _ | .applying _ => true
  | .leaving pending _ => pending
  | _ => false

/-- The revision the write goes on with. -/
def revision? : WritePhase → Option ℕ
  | .matched r | .waiting r | .trying r _ | .refencing r _ => some r
  | _ => none

/-- The revision of a proposal that is running. -/
def proposing? : WritePhase → Option ℕ
  | .waiting r | .trying r _ | .refencing r _ => some r
  | _ => none

end WritePhase

namespace ChangePhase

/-- An `OwnerChange` exists. -/
def holds : ChangePhase → Bool
  | .admitted | .returned _ => false
  | _ => true

/-- The task can be dropped here. -/
def running : ChangePhase → Bool
  | .admitted | .settled _ _ | .leaving _ _ | .returned _ => false
  | _ => true

def pending : ChangePhase → Bool
  | .waiting | .trying _ | .refencing _ | .applying _ => true
  | .settled pending _ | .leaving pending _ => pending
  | _ => false

def notify : ChangePhase → ChangePhase
  | .armed _ => .armed true
  | .parked _ => .parked true
  | p => p

end ChangePhase

namespace FenceWorld

def boot : FenceWorld where
  word := 0
  unresolved := false
  leaderReadReady := true
  leader := true
  inTenure := true
  nextSlot := 1
  lastChosenSlot := 0
  applied := .seed 0
  revision := 0
  owner := none
  token := false
  requestResults := []
  writes := []
  changes := []
  inflight := []
  decided := []

section
variable (c : FenceWorld)

def casAdmissionReady : Bool := c.leaderReadReady && c.leader && c.inTenure

def casNotReadyResult : ProposeResult :=
  if c.leader then .outcomeUnknown else .notLeader

def entries : List FenceEntry := c.inflight ++ c.decided

def setWrite (i : ℕ) (a : WriteCall) : FenceWorld :=
  { c with writes := c.writes.set i a }

def setChange (k : ℕ) (b : ChangeCall) : FenceWorld :=
  { c with changes := c.changes.set k b }

def writeTo (i : ℕ) (a : WriteCall) (phase : WritePhase) : FenceWorld :=
  c.setWrite i { a with phase := phase }

def changeTo (k : ℕ) (b : ChangeCall) (phase : ChangePhase) : FenceWorld :=
  c.setChange k { b with phase := phase }

/-- Take the next slot for a proposal. At a slot that is decided already nothing
comes of it. -/
def propose (party : FenceParty) : FenceWorld :=
  { c with
    nextSlot := c.nextSlot + 1
    inflight := if ∃ f ∈ c.decided, f.slot = c.nextSlot then c.inflight
      else ⟨c.nextSlot, party⟩ :: c.inflight }

/-- Mark the admission unresolved and close the read gate. -/
def poison : FenceWorld := { c with unresolved := true, leaderReadReady := false }

/-- Another entry than this one is decided at its slot. -/
def lost (e : FenceEntry) : Prop :=
  ∃ f ∈ c.decided, f.slot = e.slot ∧ f ≠ e

end

instance (c : FenceWorld) (e : FenceEntry) : Decidable (c.lost e) :=
  inferInstanceAs (Decidable (∃ f ∈ c.decided, f.slot = e.slot ∧ f ≠ e))

/-! ## Owner writes -/

/-- `propose_owner_write_owned` up to the admission. -/
def startWrite (c : FenceWorld) (identity : ℕ) (expected : Bytes) (record : Bool) : FenceWorld :=
  let enroll (c : FenceWorld) (phase : WritePhase) : FenceWorld :=
    { c with writes := c.writes ++ [⟨identity, expected, record, c.unresolved, none, phase⟩] }
  if c.casAdmissionReady = false then enroll c (.returned (some c.casNotReadyResult))
  else match c.requestResults.lookup identity with
    | some slot => enroll c (.returned (some (.chosen slot)))
    | none =>
      if c.unresolved then
        enroll { c with leaderReadReady := false } (.returned (some .outcomeUnknown))
      else enroll c .checked

/-- What a result of the proposal does to the admission. -/
def settleWrite (c : FenceWorld) (i : ℕ) (a : WriteCall) : ProposeResult → FenceWorld
  | .outcomeUnknown => c.poison.writeTo i a (.leaving true (some .outcomeUnknown))
  | .err => c.poison.writeTo i a (.leaving true (some .err))
  | .notLeader => c.writeTo i a (.leaving true (some .notLeader))
  | result => c.writeTo i a (.leaving false (some result))

/-- The results of a proposal without a slot, or with one. -/
def writeCanFail (a : WriteCall) : ProposeResult → WritePhase → Prop
  | .chosen _, _ => False
  | .notLeader, .waiting _ | .busy, .waiting _ => True
  | _, .waiting _ => a.record = true
  | .notLeader, .trying _ _ | .outcomeUnknown, .trying _ _ | .err, .trying _ _ => True
  | .err, .refencing _ _ => True
  | _, _ => False

instance (a : WriteCall) (r : ProposeResult) (p : WritePhase) : Decidable (writeCanFail a r p) := by
  cases r <;> cases p <;> simp only [writeCanFail] <;> infer_instance

section
variable (c : FenceWorld) (i : ℕ) (a : WriteCall)

/-- The write at `i` takes a slot for its proposal. -/
def tryWrite (r : ℕ) : FenceWorld :=
  (c.propose (.write r a.expected)).writeTo i a (.trying r c.nextSlot)

/-- The last write out of a closed admission wakes the change that drains it. -/
def releaseWrite (result : Option ProposeResult) : FenceWorld :=
  { c.writeTo i a (.returned result) with
    word := GateWord.leave c.word
    changes := if c.word = GateWord.closedBit + 1 then
        c.changes.map fun b => { b with phase := b.phase.notify }
      else c.changes }

def stepWrite : WriteStep → WritePhase → Option FenceWorld
  | .beginWrite, .checked =>
    match GateWord.enter c.word with
    | some word => some { c.writeTo i a .reading with word := word }
    | none => some (c.writeTo i a (.returned (some .casBusy)))
  | .observe, .reading =>
    if c.owner = some a.expected then some (c.writeTo i a (.matched c.revision))
    else some (c.writeTo i a (.leaving false (some .casFailed)))
  | .readFails, .reading => some (c.writeTo i a (.leaving false (some .err)))
  | .enter, .matched r =>
    if c.casAdmissionReady then some (c.writeTo i a (.waiting r))
    else some (c.writeTo i a (.leaving false (some c.casNotReadyResult)))
  | .allocate, .waiting r => some (c.tryWrite i a r)
  | .cached, .waiting _ =>
    -- the task of a record condition looks the request up again
    if a.record then
      (c.requestResults.lookup a.identity).map fun slot => c.writeTo i a (.applying slot)
    else none
  | .chosen, .trying r slot =>
    if ⟨slot, .write r a.expected⟩ ∈ c.decided then some (c.writeTo i a (.applying slot)) else none
  | .lose, .trying r slot =>
    if c.lost ⟨slot, .write r a.expected⟩ then some (c.writeTo i a (.refencing r slot)) else none
  | .reobserve, .refencing r slot =>
    if slot ≤ c.applied.contiguous then
      if a.record ∨ c.revision = r then some (c.tryWrite i a r)
      else some (c.settleWrite i a .casFailed)
    else none
  | .recordChanged, .refencing _ _ => if a.record then some (c.settleWrite i a .casFailed) else none
  | .fail result, phase => if writeCanFail a result phase
      then some (c.settleWrite i a result) else none
  | .finish, .applying slot =>
    if slot ≤ c.applied.contiguous then some (c.writeTo i a (.leaving false (some (.chosen slot))))
    else none
  | .abort, phase =>
    -- dropping the write leaves the task of a record condition behind
    if phase.running then
      some ({ c with leaderReadReady := false }.setWrite i { a with
        detached := if a.record then phase.proposing? else none
        phase := .leaving phase.pending none })
    else none
  | .wander, _ => a.detached.map fun r => c.propose (.write r a.expected)
  | .mark, .leaving true result =>
    some ({ c with unresolved := true }.writeTo i a (.leaving false result))
  | .release, .leaving false result => some (c.releaseWrite i a result)
  | _, _ => none

end

/-! ## Ownership changes -/

/-- `propose_cas_owned` up to `begin_owner_change`. -/
def startChange (c : FenceWorld) (clientId identity expectedRevision : ℕ) (value : Bytes) :
    FenceWorld :=
  let enroll (c : FenceWorld) (phase : ChangePhase) : FenceWorld :=
    { c with changes := c.changes ++
        [⟨identity, expectedRevision, value, c.unresolved, false, phase⟩] }
  if clientId = 0 then enroll c (.returned (some .err))
  else match c.requestResults.lookup identity with
    | some slot => enroll c (.returned (some (.chosen slot)))
    | none =>
      if c.casAdmissionReady = false then enroll c (.returned (some c.casNotReadyResult))
      else if c.token then enroll c (.returned (some .casBusy))
      else enroll { c with token := true } .admitted

/-- What a result does to the admission before the token is removed. -/
def settleChange (c : FenceWorld) (k : ℕ) (b : ChangeCall) (pending : Bool) :
    ProposeResult → FenceWorld
  | .outcomeUnknown => c.poison.changeTo k b (.settled pending (some .outcomeUnknown))
  | .err => c.poison.changeTo k b (.settled pending (some .err))
  | .notLeader => c.changeTo k b (.settled pending (some .notLeader))
  | result => c.changeTo k b (.settled false (some result))

def changeCanFail : ProposeResult → ChangePhase → Prop
  | .notLeader, .waiting | .busy, .waiting => True
  | .notLeader, .trying _ | .outcomeUnknown, .trying _ | .err, .trying _ => True
  | .err, .refencing _ => True
  | _, _ => False

instance (r : ProposeResult) (p : ChangePhase) : Decidable (changeCanFail r p) := by
  cases r <;> cases p <;> simp only [changeCanFail] <;> infer_instance

def tryChange (c : FenceWorld) (k : ℕ) (b : ChangeCall) : FenceWorld :=
  (c.propose (.change k b.value)).changeTo k b (.trying c.nextSlot)

def stepChange (c : FenceWorld) (k : ℕ) (b : ChangeCall) :
    ChangeStep → ChangePhase → Option FenceWorld
  | .close, .admitted => some { c.changeTo k b .arming with word := GateWord.close c.word }
  | .arm, .arming => some (c.changeTo k b (.armed false))
  | .check, .armed notified =>
    if c.word = GateWord.closedBit then
      some (c.setChange k { b with drained := true, phase := .drained })
    else some (c.changeTo k b (.parked notified))
  | .wake, .parked true => some (c.changeTo k b .arming)
  | .proceed, .drained =>
    if c.unresolved then
      some ({ c with leaderReadReady := false }.changeTo k b
        (.settled false (some .outcomeUnknown)))
    else some (c.changeTo k b (.fencing c.lastChosenSlot))
  | .observe, .fencing target =>
    if target ≤ c.applied.contiguous then
      if c.revision = b.expectedRevision then some (c.changeTo k b .matched)
      else some (c.settleChange k b false .casFailed)
    else none
  | .readFails, .fencing _ => some (c.settleChange k b false .err)
  | .enter, .matched =>
    if c.casAdmissionReady then some (c.changeTo k b .waiting)
    else some (c.settleChange k b false c.casNotReadyResult)
  | .allocate, .waiting => some (c.tryChange k b)
  | .chosen, .trying slot =>
    if ⟨slot, .change k b.value⟩ ∈ c.decided then some (c.changeTo k b (.applying slot)) else none
  | .lose, .trying slot =>
    if c.lost ⟨slot, .change k b.value⟩ then some (c.changeTo k b (.refencing slot)) else none
  | .reobserve, .refencing slot =>
    if slot ≤ c.applied.contiguous then
      if c.revision = b.expectedRevision then some (c.tryChange k b)
      else some (c.settleChange k b true .casFailed)
    else none
  | .fail result, phase =>
    if changeCanFail result phase then some (c.settleChange k b true result) else none
  | .finish, .applying slot =>
    if slot ≤ c.applied.contiguous then
      some (c.changeTo k b (.settled false (some (.chosen slot))))
    else none
  | .removeToken, .settled pending result =>
    -- the `OwnerChange` is dropped after this, at the end of the function
    some ({ c with token := false }.changeTo k b (.leaving pending result))
  | .abort, phase =>
    -- the token stays for the rest of the tenure
    if phase.running then
      some ({ c with leaderReadReady := false }.changeTo k b (.leaving phase.pending none))
    else none
  | .mark, .leaving true result =>
    some ({ c with unresolved := true }.changeTo k b (.leaving false result))
  | .reopen, .leaving false result =>
    some { c.changeTo k b (.returned result) with word := GateWord.reopen c.word }
  | _, _ => none

/-! ## The system -/

section
variable (c : FenceWorld)

def decideEntry (e : FenceEntry) : Option FenceWorld :=
  if e ∈ c.inflight ∧ ∀ f ∈ c.decided, f.slot ≠ e.slot then
    some { c with decided := e :: c.decided, inflight := c.inflight.filter (·.slot ≠ e.slot) }
  else none

def decideOther (slot : ℕ) (value : Option Bytes) : Option FenceWorld :=
  if ∀ f ∈ c.decided, f.slot ≠ slot then
    some { c with
      decided := ⟨slot, .other value⟩ :: c.decided
      inflight := c.inflight.filter (·.slot ≠ slot) }
  else none

/-- A decided entry reaches the engine; the highest slot wins. -/
def apply (slot : ℕ) : Option FenceWorld :=
  (c.decided.find? (·.slot = slot)).map fun e =>
    match e.party.stores with
    | some value =>
      if c.revision < slot then
        { c with applied := c.applied.note slot, revision := slot, owner := some value }
      else { c with applied := c.applied.note slot }
    | none => { c with applied := c.applied.note slot }

def step : FenceAction → Option FenceWorld
  | .startWrite identity expected record => some (c.startWrite identity expected record)
  | .write i s => (c.writes[i]?).bind fun a => c.stepWrite i a s a.phase
  | .startChange clientId identity expectedRevision value =>
    some (c.startChange clientId identity expectedRevision value)
  | .change k s => (c.changes[k]?).bind fun b => c.stepChange k b s b.phase
  | .decide e => c.decideEntry e
  | .decideOther slot value => c.decideOther slot value
  | .learn slot => some { c with lastChosenSlot := max c.lastChosenSlot slot }
  | .remember identity slot =>
      some { c with requestResults := (identity, slot) :: c.requestResults }
  | .apply slot => c.apply slot
  | .takeSlot => some { c with nextSlot := c.nextSlot + 1 }
  | .setGate ready leader inTenure =>
    some { c with leaderReadReady := ready, leader := leader, inTenure := inTenure }

/-- The condition on calls: a change closes an open admission, and a call under an
unresolved admission is a new request to the leader that finds the token free. -/
def fenceGuard : FenceAction → Bool
  | .change k .close => (c.changes[k]?).all fun b =>
      b.phase ≠ .admitted || c.word < GateWord.closedBit
  | .startWrite identity _ _ =>
    !c.unresolved || (c.leader && (c.requestResults.lookup identity).isNone)
  | .startChange clientId identity _ _ =>
    !c.unresolved || (c.leader &&
      (c.requestResults.lookup identity).isNone && clientId ≠ 0 && !c.token)
  | _ => true

end

end FenceWorld

/-- The owner fence of one key in one tenure. -/
def ownerFence : System FenceWorld FenceAction where
  init c := c = FenceWorld.boot
  step := FenceWorld.step

end CrowDB.Cluster
