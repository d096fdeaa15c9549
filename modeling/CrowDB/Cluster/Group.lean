import CrowDB.Cluster.LocalReplica
import CrowDB.Cluster.ReplyFold
import CrowDB.Lib.Transition
import CrowDB.Lib.Quorum

/-!
# A consensus group as a transition system

Every step is what one task does between two await points. Packets stay in
`sent` for ever: a step may deliver any of them, any number of times and in any
order, or never. A reply carries the request it answers, which is how the RPC
layer matches the two; a proposer calls its own replica through a packet to
itself. The last five fields are history: they record what happened and no
step reads them.
-/
namespace CrowDB.Cluster
open Paxos Lib

structure GroupConfig where
  members : List ℕ
  nodup : members.Nodup
  voting : ℕ → Bool
  leaseDurationMs : ℕ
  prevoteEnabled : Bool
  forceClassic : Bool

/-- Three members, as the concrete runs have them. -/
theorem nodup_trio : ([1, 2, 3] : List ℕ).Nodup := by decide

namespace GroupConfig

def voters (cfg : GroupConfig) : Finset ℕ := (cfg.members.filter cfg.voting).toFinset

def quorum (cfg : GroupConfig) : ℕ := (cfg.members.filter cfg.voting).length / 2 + 1

def votingRemoteIds (cfg : GroupConfig) (r : ℕ) : List ℕ :=
  cfg.members.filter fun m => cfg.voting m && m != r

end GroupConfig

/-- Source and destination of a request, and the number that ties its replies
to the attempt that sent it. -/
structure Envelope where
  tag : ℕ
  src : ℕ
  dst : ℕ
  deriving DecidableEq, Repr

inductive Packet
  | preVote (env : Envelope) (req : VoteRequestPayload)
  | preVoteReply (env : Envelope) (req : VoteRequestPayload) (reply : VoteReply)
  | requestVote (env : Envelope) (req : VoteRequestPayload)
  | voteReply (env : Envelope) (req : VoteRequestPayload) (reply : VoteReply)
  | heartbeat (env : Envelope) (term : ℕ)
  | heartbeatReply (env : Envelope) (term replyTerm : ℕ)
  | prepare (env : Envelope) (slot : ℕ) (ballot : PxBallot) (term : ℕ)
  | prepareReply (env : Envelope) (slot : ℕ) (ballot : PxBallot) (term : ℕ) (reply : PxPrepareReply)
  | accept (env : Envelope) (entry : PxLogEntry)
  | acceptReply (env : Envelope) (entry : PxLogEntry) (reply : PxAcceptReply)
  | chosenNotice (env : Envelope) (slot term : ℕ) (ballot : PxBallot)
  deriving DecidableEq, Repr

/-- Where the election driver of a replica is suspended. -/
inductive ElectionTask
  | idle
  | preVoting (tag : ℕ) (req : VoteRequestPayload) (replies : List (ℕ × VoteReply))
  | persistingVote
  | gathering (tag : ℕ) (req : VoteRequestPayload) (ceiling : ℕ) (replies : List (ℕ × VoteReply))
  deriving DecidableEq, Repr

inductive ProposalKind
  | client (payload : Bytes)
  | recovery (term : ℕ)
  | repair
  deriving DecidableEq, Repr

/-- Where a proposal is suspended: waiting for a permit or between two slots,
sleeping before the next attempt, or folding replies. -/
inductive ProposalStage
  | allocating
  | backoff (slot minRound : ℕ)
  | preparing (tag : ℕ) (entry : PxLogEntry) (replies : List (ℕ × PxPrepareReply))
  | accepting (tag : ℕ) (entry : PxLogEntry) (replies : List (ℕ × PxAcceptReply))
  | finished
  deriving DecidableEq, Repr

structure Proposal where
  owner : ℕ
  kind : ProposalKind
  slotAttempt : ℕ
  attempt : ℕ
  stage : ProposalStage
  deriving DecidableEq, Repr

/-- A replica became leader of a term, with `firstSlot` as its next slot. -/
structure Leadership where
  replica : ℕ
  term : ℕ
  firstSlot : ℕ
  deriving DecidableEq, Repr

/-- `voter` contributed its vote of `term` to `candidate`. -/
structure Vote where
  voter : ℕ
  candidate : ℕ
  term : ℕ
  deriving DecidableEq, Repr

structure World where
  nodes : ℕ → PxLocalReplica
  elections : ℕ → ElectionTask
  proposals : List Proposal
  pendingVotes : List (Envelope × VoteRequestPayload)
  sent : List Packet
  nextTag : ℕ
  leaderships : List Leadership
  votes : List Vote
  bases : List PxLogEntry
  prepared : List (ℕ × PxLogEntry)
  chosen : List PxLogEntry

namespace World

def boot : World where
  nodes := PxLocalReplica.fresh
  elections _ := .idle
  proposals := []
  pendingVotes := []
  sent := []
  nextTag := 0
  leaderships := []
  votes := []
  bases := []
  prepared := []
  chosen := []

def setNode (c : World) (r : ℕ) (R : PxLocalReplica) : World :=
  { c with nodes := Function.update c.nodes r R }

def setElection (c : World) (r : ℕ) (t : ElectionTask) : World :=
  { c with elections := Function.update c.elections r t }

def setProposal (c : World) (k : ℕ) (p : Proposal) : World :=
  { c with proposals := c.proposals.set k p }

def send (c : World) (ps : List Packet) : World := { c with sent := ps ++ c.sent }

/-- Send one request to each destination under a fresh tag. -/
def fanOut (c : World) (src : ℕ) (dsts : List ℕ) (mk : Envelope → Packet) : World :=
  { c with sent := dsts.map (fun d => mk ⟨c.nextTag, src, d⟩) ++ c.sent, nextTag := c.nextTag + 1 }

variable (cfg : GroupConfig)

/-! ## The election driver -/

def voteRequest (R : PxLocalReplica) (term : ℕ) : VoteRequestPayload :=
  ⟨term, R.id, R.acceptedLogTip.1, R.acceptedLogTip.2⟩

/-- The candidate's own vote counts only when it is a voting member. -/
def grants (r : ℕ) (replies : List (ℕ × VoteReply)) : ℕ :=
  (if cfg.voting r then 1 else 0) + (replies.filter (·.2.granted)).length

def peerCeiling (ceiling : ℕ) (replies : List (ℕ × VoteReply)) : ℕ :=
  (replies.filter (·.2.granted)).foldl (fun m v => max m v.2.highestSeenSlot) ceiling

section
variable (c : World)

/-- `become_candidate` followed by the await of `persist_current_vote`. -/
def candidacy (r now term : ℕ) : World :=
  (c.setNode r ((c.nodes r).becomeCandidate cfg.leaseDurationMs now term)).setElection r
    .persistingVote

def startPreVote (r now : ℕ) : Option World :=
  let R := (c.nodes r).becomePrecandidate
  let term := R.currentTerm + 1
  if r ∈ cfg.members ∧ cfg.prevoteEnabled ∧ c.elections r = .idle ∧ (c.nodes r).role ≠ .leader then
    if cfg.votingRemoteIds r = [] ∧ cfg.voting r
      then some (candidacy cfg (c.setNode r R) r now term)
    else
      some (((c.setNode r R).setElection r (.preVoting c.nextTag (voteRequest R term) [])).fanOut r
        (cfg.votingRemoteIds r) (Packet.preVote · (voteRequest R term)))
  else none

def startElection (r now : ℕ) : Option World :=
  if r ∈ cfg.members ∧ ¬ cfg.prevoteEnabled ∧ c.elections r = .idle ∧
      (c.nodes r).role ≠ .leader then
    some (candidacy cfg c r now ((c.nodes r).currentTerm + 1))
  else none

/-- Fold one pre-vote reply; the round is won as soon as a grant completes the
quorum. -/
def receivePreVote (p : Packet) (now : ℕ) : Option World :=
  match p with
  | .preVoteReply env req reply =>
    match c.elections env.src with
    | .preVoting tag req' replies =>
      let replies' := replies ++ [(env.dst, reply)]
      if p ∈ c.sent ∧ env.tag = tag ∧ req = req' ∧ env.dst ∉ replies.map Prod.fst then
        if req.term < reply.term then
          some ((c.setNode env.src ((c.nodes env.src).becomeFollower now reply.term)).setElection
            env.src .idle)
        else if reply.granted ∧ cfg.quorum ≤ grants cfg env.src replies' then
          some (candidacy cfg c env.src now req.term)
        else some (c.setElection env.src (.preVoting tag req replies'))
      else none
    | _ => none
  | _ => none

def preVoteLost (r now : ℕ) : Option World :=
  match c.elections r with
  | .preVoting _ _ _ =>
    some ((c.setNode r
      ((c.nodes r).becomeFollower now (c.nodes r).currentTerm)).setElection r .idle)
  | _ => none

def finalizeLeader (r now term ceiling : ℕ) : World :=
  let R := (c.nodes r).finalizeLeader now term ceiling
  { (c.setNode r R).setElection r .idle with leaderships := ⟨r, term, R.nextSlot⟩ :: c.leaderships }

/-- The candidate's vote for itself, cast when `run_candidate_election` sets
its grant count. -/
def selfVote (r : ℕ) : World :=
  if cfg.voting r then { c with votes := ⟨r, r, (c.nodes r).currentTerm⟩ :: c.votes } else c

/-- `run_candidate_election` up to its first await. The term is the current one,
read after the vote was persisted. -/
def runCandidate (r now : ℕ) : Option World :=
  match c.elections r with
  | .persistingVote =>
    let R := c.nodes r
    if r ∉ cfg.members then none
    else if cfg.votingRemoteIds r = [] ∧ cfg.voting r then
      some (finalizeLeader (selfVote cfg c r) r now R.currentTerm R.acceptor.highestSeenSlot)
    else
      some (((selfVote cfg c r).setElection r
          (.gathering c.nextTag
            (voteRequest R R.currentTerm) R.acceptor.highestSeenSlot [])).fanOut r
        (cfg.votingRemoteIds r) (Packet.requestVote · (voteRequest R R.currentTerm)))
  | _ => none

def receiveVote (p : Packet) (now : ℕ) : Option World :=
  match p with
  | .voteReply env req reply =>
    match c.elections env.src with
    | .gathering tag req' ceiling replies =>
      let replies' := replies ++ [(env.dst, reply)]
      if p ∈ c.sent ∧ env.tag = tag ∧ req = req' ∧ env.dst ∉ replies.map Prod.fst then
        if req.term < reply.term then
          some ((c.setNode env.src ((c.nodes env.src).becomeFollower now reply.term)).setElection
            env.src .idle)
        else if reply.granted ∧ cfg.quorum ≤ grants cfg env.src replies' then
          some (finalizeLeader c env.src now req.term (peerCeiling ceiling replies'))
        else some (c.setElection env.src (.gathering tag req ceiling replies'))
      else none
    | _ => none
  | _ => none

def candidateGivesUp (r : ℕ) : Option World :=
  match c.elections r with
  | .gathering _ _ _ _ => some (c.setElection r .idle)
  | _ => none

def sendHeartbeats (r : ℕ) : Option World :=
  if (c.nodes r).role = .leader then
    some (c.fanOut r (cfg.members.filter (· != r)) (Packet.heartbeat · (c.nodes r).currentTerm))
  else none

end

/-! ## Request handlers -/

/-- Run the handler of a delivered request at its destination. A granted vote
is answered later, once it is persisted. -/
def deliver (c : World) (p : Packet) (now : ℕ) : Option World :=
  if p ∈ c.sent then
    match p with
    | .preVote env req =>
        some (c.send [.preVoteReply env req ((c.nodes env.dst).handlePreVote now req)])
    | .requestVote env req =>
      match (c.nodes env.dst).grantVote cfg.leaseDurationMs now req with
      | some R =>
        some { c.setNode env.dst R with
          pendingVotes := (env, req) :: c.pendingVotes
          votes := ⟨env.dst, req.candidateId, req.term⟩ :: c.votes }
      | none =>
        some (c.send
          [.voteReply env req ((c.nodes env.dst).voteReply (c.nodes env.dst).currentTerm false)])
    | .heartbeat env term =>
      match (c.nodes env.dst).handleHeartbeat cfg.leaseDurationMs now term env.src with
      | some R => some ((c.setNode env.dst R).send [.heartbeatReply env term term])
      | none => some (c.send [.heartbeatReply env term (c.nodes env.dst).currentTerm])
    | .prepare env slot ballot term =>
      let (R, reply) := (c.nodes env.dst).onPrepare now slot ballot term
      some ((c.setNode env.dst R).send [.prepareReply env slot ballot term reply])
    | .accept env entry =>
      let (R, reply) := (c.nodes env.dst).onAccept now entry
      some ((c.setNode env.dst R).send [.acceptReply env entry reply])
    | .chosenNotice env slot term ballot =>
      some (c.setNode env.dst ((c.nodes env.dst).handleChosenNotice slot term ballot))
    | _ => none
  else none

/-- The reply to a granted vote, built after the vote was persisted. -/
def answerVote (c : World) (env : Envelope) (req : VoteRequestPayload) : Option World :=
  if (env, req) ∈ c.pendingVotes then
    some ({ c with pendingVotes := c.pendingVotes.erase (env, req) }.send
      [.voteReply env req ((c.nodes env.dst).voteReply req.term true)])
  else none

/-- A higher term in a late reply or a heartbeat reply ends the leadership. -/
def lateReply (c : World) (p : Packet) (now : ℕ) : Option World :=
  if p ∈ c.sent then
    match p with
    | .prepareReply env _ _ _ (.termStale _ t) =>
      some (c.setNode env.src ((c.nodes env.src).becomeFollower now t))
    | .acceptReply env _ (.termStale _ t) =>
      some (c.setNode env.src ((c.nodes env.src).becomeFollower now t))
    | .heartbeatReply env term t =>
      if term < t then some (c.setNode env.src ((c.nodes env.src).becomeFollower now t)) else none
    | _ => none
  else none

end World
end CrowDB.Cluster
