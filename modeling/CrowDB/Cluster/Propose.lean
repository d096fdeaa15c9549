import CrowDB.Cluster.Group

/-!
# The proposer and the step function

A client proposal passes the leadership gate, waits for a window permit, takes
a slot and sends its steady-state entry without Phase 1; a rejected accept is
retried through Phase 1 at a higher round, and a slot that fails or is taken by
a foreign value is left for the next one. Recovery of a new leader's open
prefix and background repair run both phases with the empty payload.
-/
namespace CrowDB.Cluster
open Paxos Lib

/-- `PaxosConfig::DEFAULT`. -/
def maxPaxosRetries : ℕ := 3

def maxSlotRetries : ℕ := 3

namespace Proposal

def ready (p : Proposal) (stage : ProposalStage) : Proposal := { p with stage := stage }

def nextSlot (p : Proposal) : Proposal :=
  { p with slotAttempt := p.slotAttempt + 1, attempt := 0, stage := .allocating }

/-- Another attempt at the slot, or the next slot when the budget is used up. -/
def retry (p : Proposal) (slot minRound : ℕ) : Proposal :=
  if p.attempt + 1 < maxPaxosRetries then
    { p with attempt := p.attempt + 1, stage := .backoff slot minRound }
  else p.nextSlot

end Proposal

namespace World
variable (cfg : GroupConfig)

section
variable (c : World)

/-- Begin Phase 1 for the entry built from the current term, at a round above
`minRound` and above the local promise. -/
def startPrepare (k : ℕ) (p : Proposal) (slot : ℕ) (payload : Bytes) (minRound : ℕ) : World :=
  let R := c.nodes p.owner
  let round := max minRound ((R.acceptor.promisedAt slot).elim 0 (·.round)) + 1
  let entry := { R.baseEntry slot payload with ballot := ⟨round, R.id⟩ }
  (c.setProposal k (p.ready (.preparing c.nextTag entry []))).fanOut p.owner cfg.members
    (Packet.prepare · slot entry.ballot entry.term)

def startAccept (k : ℕ) (p : Proposal) (entry : PxLogEntry) : World :=
  (c.setProposal k (p.ready (.accepting c.nextTag entry []))).fanOut p.owner cfg.members
    (Packet.accept · entry)

/-- The gate of `propose`; the proposal then waits for a window permit. -/
def propose (r : ℕ) (payload : Bytes) : Option World :=
  if r ∈ cfg.members ∧ (c.nodes r).leadershipGate then
    some { c with proposals := c.proposals ++ [⟨r, .client payload, 0, 0, .allocating⟩] }
  else none

/-- Take the next slot and build the base entry. Leadership is not checked
again here. -/
def allocate (k : ℕ) : Option World :=
  match c.proposals[k]? with
  | some p =>
    match p.stage, p.kind with
    | .allocating, .client payload =>
      let R := c.nodes p.owner
      let entry := R.baseEntry R.nextSlot payload
      let d := c.setNode p.owner { R with nextSlot := R.nextSlot + 1 }
      if p.slotAttempt < maxSlotRetries then
        if cfg.forceClassic then some (startPrepare cfg d k p R.nextSlot payload 0)
        else some (startAccept cfg { d with bases := entry :: d.bases } k p entry)
      else some (d.setProposal k (p.ready .finished))
    | _, _ => none
  | none => none

/-- `recover_prefix_slot` for a slot up to the ceiling, or `repair_once` on the
first gap. -/
def startRecovery (r slot : ℕ) : Option World :=
  let R := c.nodes r
  if r ∈ cfg.members ∧ R.role = .leader ∧ 0 < slot ∧ slot ≤ R.slotCeiling 0 then
    let p : Proposal := ⟨r, .recovery R.currentTerm, 0, 0, .allocating⟩
    some (startPrepare cfg { c with proposals := c.proposals ++ [p] }
      c.proposals.length p slot [] 0)
  else none

def startRepair (r : ℕ) : Option World :=
  let R := c.nodes r
  if r ∈ cfg.members ∧ R.role = .leader ∧
    R.learner.chosen.contiguous < R.learner.lastChosenSlot then
    let p : Proposal := ⟨r, .repair, 0, 0, .allocating⟩
    some (startPrepare cfg { c with proposals := c.proposals ++ [p] } c.proposals.length p
      (R.learner.chosen.contiguous + 1) [] 0)
  else none

/-- The sleep before another attempt is over: Phase 1 at a higher round. -/
def resume (k : ℕ) : Option World :=
  match c.proposals[k]? with
  | some p =>
    match p.stage, p.kind with
    | .backoff slot minRound, .client payload => some (startPrepare cfg c k p slot payload minRound)
    | _, _ => none
  | none => none

/-- The entry of a prepare attempt that proceeds. Recovery checks its tenure
again and stamps its own term. -/
def preparedEntry (p : Proposal) (e : PxLogEntry) : Option PxLogEntry :=
  match p.kind with
  | .recovery term =>
    if (c.nodes p.owner).currentTerm = term ∧ (c.nodes p.owner).role = .leader then
      some { e with term := term }
    else none
  | _ => some e

def finishPrepare (k : ℕ) (p : Proposal) (tag : ℕ) (entry : PxLogEntry)
    (replies : List (ℕ × PxPrepareReply)) (now : ℕ) : World :=
  match prepareOutcome (ReplyFold.ofPrepare p.owner cfg.voting replies) cfg.quorum entry with
  | .proceed e _ =>
    match preparedEntry c p e with
    | some e => startAccept cfg { c with prepared := (tag, e) :: c.prepared } k p e
    | none => c.setProposal k (p.ready .finished)
  | .retry minRound _ =>
    match p.kind with
    | .client _ => c.setProposal k (p.retry entry.slot minRound)
    | _ => c.setProposal k (p.ready .finished)
  | .fail error =>
    match p.kind, error with
    | .client _, .termStale t =>
      (c.setNode p.owner ((c.nodes p.owner).becomeFollower now t)).setProposal k (p.ready .finished)
    | .client _, _ => c.setProposal k p.nextSlot
    | _, _ => c.setProposal k (p.ready .finished)

def finishAccept (k : ℕ) (p : Proposal) (entry : PxLogEntry) (replies : List (ℕ × PxAcceptReply))
    (now : ℕ) : World :=
  match acceptOutcome (ReplyFold.ofAccept p.owner cfg.voting replies) cfg.quorum with
  | .chosen =>
    let p' := match p.kind with
      | .client payload => if entry.payload = payload then p.ready .finished else p.nextSlot
      | _ => p.ready .finished
    let d := { c with chosen := entry :: c.chosen }
    ((d.setNode p.owner ((c.nodes p.owner).updateChosenFrontier entry.slot entry.term)).setProposal
      k p').fanOut p.owner (cfg.members.filter (· != p.owner))
        (Packet.chosenNotice · entry.slot entry.term entry.ballot)
  | .retry minRound _ =>
    match p.kind with
    | .client _ => c.setProposal k (p.retry entry.slot minRound)
    | _ => c.setProposal k (p.ready .finished)
  | .fail error =>
    match p.kind, error with
    | .client _, .termStale t =>
      (c.setNode p.owner ((c.nodes p.owner).becomeFollower now t)).setProposal k (p.ready .finished)
    | .client _, _ => c.setProposal k p.nextSlot
    | _, _ => c.setProposal k (p.ready .finished)

end

/-- Enough promises, the local one counted, and no higher term seen. -/
def prepareSettled (f : ReplyFold) : Bool :=
  cfg.quorum ≤ f.accepted && f.localFolded && f.highestSeenTerm.isNone

def acceptSettled (f : ReplyFold) : Bool := cfg.quorum ≤ f.accepted && f.localFolded

/-- Fold one reply of the current prepare attempt. A replica's reply counts
once; the attempt ends at once when it is settled. -/
def receivePrepare (c : World) (k : ℕ) (pkt : Packet) (now : ℕ) : Option World :=
  match pkt, c.proposals[k]? with
  | .prepareReply env slot ballot term reply, some p =>
    match p.stage with
    | .preparing tag entry replies =>
      if pkt ∈ c.sent ∧ env.tag = tag ∧ slot = entry.slot ∧ ballot = entry.ballot ∧
          term = entry.term ∧ env.dst ∉ replies.map Prod.fst then
        if prepareSettled cfg (.ofPrepare p.owner cfg.voting (replies ++ [(env.dst, reply)])) then
          some (finishPrepare cfg c k p tag entry (replies ++ [(env.dst, reply)]) now)
        else
          some (c.setProposal k (p.ready (.preparing tag entry (replies ++ [(env.dst, reply)]))))
      else none
    | _ => none
  | _, _ => none

/-- The remaining prepare calls failed; the attempt ends with what it has. -/
def endPrepare (c : World) (k now : ℕ) : Option World :=
  match c.proposals[k]? with
  | some p =>
    match p.stage with
    | .preparing tag entry replies =>
      if (ReplyFold.ofPrepare p.owner cfg.voting replies).localFolded then
        some (finishPrepare cfg c k p tag entry replies now)
      else none
    | _ => none
  | none => none

def receiveAccept (c : World) (k : ℕ) (pkt : Packet) (now : ℕ) : Option World :=
  match pkt, c.proposals[k]? with
  | .acceptReply env e reply, some p =>
    match p.stage with
    | .accepting tag entry replies =>
      if pkt ∈ c.sent ∧ env.tag = tag ∧ e = entry ∧ env.dst ∉ replies.map Prod.fst then
        if acceptSettled cfg (.ofAccept p.owner cfg.voting (replies ++ [(env.dst, reply)])) then
          some (finishAccept cfg c k p entry (replies ++ [(env.dst, reply)]) now)
        else
          some (c.setProposal k (p.ready (.accepting tag entry (replies ++ [(env.dst, reply)]))))
      else none
    | _ => none
  | _, _ => none

def endAccept (c : World) (k now : ℕ) : Option World :=
  match c.proposals[k]? with
  | some p =>
    match p.stage with
    | .accepting _ entry replies =>
      if (ReplyFold.ofAccept p.owner cfg.voting replies).localFolded then
        some (finishAccept cfg c k p entry replies now)
      else none
    | _ => none
  | none => none

/-- The caller of a proposal is dropped or cancelled at an await point. -/
def abandon (c : World) (k : ℕ) : Option World :=
  match c.proposals[k]? with
  | some p => some (c.setProposal k (p.ready .finished))
  | none => none

end World

inductive Action
  | startPreVote (r now : ℕ)
  | startElection (r now : ℕ)
  | receivePreVote (p : Packet) (now : ℕ)
  | preVoteLost (r now : ℕ)
  | runCandidate (r now : ℕ)
  | receiveVote (p : Packet) (now : ℕ)
  | candidateGivesUp (r : ℕ)
  | deliver (p : Packet) (now : ℕ)
  | answerVote (env : Envelope) (req : VoteRequestPayload)
  | lateReply (p : Packet) (now : ℕ)
  | sendHeartbeats (r : ℕ)
  | renewLease (r deadline : ℕ)
  | stepDown (r now : ℕ)
  | stampProposingTerm (r : ℕ)
  | raiseNextSlot (r : ℕ)
  | propose (r : ℕ) (payload : Bytes)
  | allocate (k : ℕ)
  | startRecovery (r slot : ℕ)
  | startRepair (r : ℕ)
  | resume (k : ℕ)
  | receivePrepare (k : ℕ) (p : Packet) (now : ℕ)
  | endPrepare (k now : ℕ)
  | receiveAccept (k : ℕ) (p : Packet) (now : ℕ)
  | endAccept (k now : ℕ)
  | abandon (k : ℕ)
  deriving DecidableEq, Repr

namespace World
variable (cfg : GroupConfig)

def step (c : World) : Action → Option World
  | .startPreVote r now => startPreVote cfg c r now
  | .startElection r now => startElection cfg c r now
  | .receivePreVote p now => receivePreVote cfg c p now
  | .preVoteLost r now => preVoteLost c r now
  | .runCandidate r now => runCandidate cfg c r now
  | .receiveVote p now => receiveVote cfg c p now
  | .candidateGivesUp r => candidateGivesUp c r
  | .deliver p now => deliver cfg c p now
  | .answerVote env req => answerVote c env req
  | .lateReply p now => lateReply c p now
  | .sendHeartbeats r => sendHeartbeats cfg c r
  | .renewLease r t =>
    some (c.setNode r { c.nodes r with leaseReadUntil := max (c.nodes r).leaseReadUntil t })
  | .stepDown r now => some (c.setNode r ((c.nodes r).becomeFollower now (c.nodes r).currentTerm))
  | .stampProposingTerm r =>
    if (c.nodes r).role = .leader then
      some (c.setNode r { c.nodes r with proposingTerm := (c.nodes r).currentTerm })
    else none
  | .raiseNextSlot r =>
    some (c.setNode r { c.nodes r with
      nextSlot := max (c.nodes r).nextSlot ((c.nodes r).slotCeiling 0 + 1) })
  | .propose r payload => propose cfg c r payload
  | .allocate k => allocate cfg c k
  | .startRecovery r slot => startRecovery cfg c r slot
  | .startRepair r => startRepair cfg c r
  | .resume k => resume cfg c k
  | .receivePrepare k p now => receivePrepare cfg c k p now
  | .endPrepare k now => endPrepare cfg c k now
  | .receiveAccept k p now => receiveAccept cfg c k p now
  | .endAccept k now => endAccept cfg c k now
  | .abandon k => abandon c k

end World

/-- The group as a transition system from first boot. -/
def group (cfg : GroupConfig) : System World Action where
  init c := c = World.boot
  step := World.step cfg

end CrowDB.Cluster
