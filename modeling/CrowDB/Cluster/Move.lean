import CrowDB.Cluster.Propose

/-!
# What a step of the group can do

Every step is a short sequence of moves. A move either touches nothing that
safety rests on (a replica's role or clock, a packet that promises nothing, a
proposal that goes back to waiting) or is one of the few events that matter:
a vote, a leadership, a promise, an accept, a new entry, a decision. Invariants
are proved of moves and hold of steps by `step_moves`.

Two conditions on runs are read here. `candidacyGuard` asks that a candidacy
opens a new term and still owns the replica's vote when it gathers;
`agreementGuard` asks that a winner is still in the term it won, that a
steady-state entry is built under the leadership gate, and that adoption never
prefers an entry of an older term. The second is optional in a move: `strict`
says whether it is assumed.
-/
namespace CrowDB.Cluster
open Paxos Lib Option PxLocalReplica

/-- Packets that commit nobody to anything. -/
def Packet.isQuiet : Packet → Prop
  | .preVote _ _ | .preVoteReply _ _ _ | .heartbeat _ _ | .heartbeatReply _ _ _ => True
  | .chosenNotice _ _ _ _ => True
  | .voteReply _ _ reply => reply.granted = false
  | _ => False

def ElectionTask.isGathering : ElectionTask → Bool
  | .gathering _ _ _ _ => true
  | _ => false

/-- Between attempts: no replies are being folded. -/
def Proposal.isWaiting (p : Proposal) : Bool :=
  match p.stage with
  | .preparing _ _ _ | .accepting _ _ _ => false
  | _ => true

variable {replies : List (ℕ × PxPrepareReply)} {tag : ℕ}

namespace World
variable (cfg : GroupConfig) (strict : Prop)

/-- Adoption picks by ballot alone; here the picked entry also has the highest
term among the reported ones. -/
def adoptionFresh (self : ℕ) (replies : List (ℕ × PxPrepareReply)) : Bool :=
  (ReplyFold.ofPrepare self cfg.voting replies).adopted.all fun a =>
    (reported replies).all (·.term ≤ a.term)

def candidacyGuard (c : World) : Action → Bool
  | .receivePreVote (.preVoteReply env req reply) _ =>
    match c.elections env.src with
    | .preVoting _ _ replies =>
      if reply.granted ∧ cfg.quorum ≤ grants cfg env.src (replies ++ [(env.dst, reply)]) then
        (c.nodes env.src).currentTerm < req.term
      else true
    | _ => true
  | .runCandidate r _ => (c.nodes r).votedFor == some r
  | _ => true

def agreementGuard (c : World) : Action → Bool
  | .receiveVote (.voteReply env req reply) _ =>
    match c.elections env.src with
    | .gathering _ _ _ replies =>
      if reply.granted ∧ cfg.quorum ≤ grants cfg env.src (replies ++ [(env.dst, reply)]) then
        (c.nodes env.src).currentTerm == req.term
      else true
    | _ => true
  | .allocate k => c.proposals[k]?.all fun p => (c.nodes p.owner).leadershipGate
  | .receivePrepare k (.prepareReply env _ _ _ reply) _ =>
    c.proposals[k]?.all fun p => match p.stage with
      | .preparing _ _ replies =>
        !prepareSettled cfg (.ofPrepare p.owner cfg.voting (replies ++ [(env.dst, reply)])) ||
          adoptionFresh cfg p.owner (replies ++ [(env.dst, reply)])
      | _ => true
  | .endPrepare k _ =>
    c.proposals[k]?.all fun p => match p.stage with
      | .preparing _ _ replies => adoptionFresh cfg p.owner replies
      | _ => true
  | _ => true

inductive Move (c : World) : World → Prop
  | node (r : ℕ) (R : PxLocalReplica) (hE : (c.nodes r).Evolves R)
      (hA : R.acceptor = (c.nodes r).acceptor)
      (hL : R.role = .leader →
        (c.nodes r).role = .leader ∧ R.currentTerm = (c.nodes r).currentTerm) :
      Move c (c.setNode r R)
  | task (r : ℕ) (t : ElectionTask) (h : t.isGathering = false) : Move c (c.setElection r t)
  | post (ps : List Packet) (h : ∀ p ∈ ps, p.isQuiet) : Move c (c.send ps)
  | tick : Move c { c with nextTag := c.nextTag + 1 }
  | settle (k : ℕ) (p : Proposal) (h : p.isWaiting = true) : Move c (c.setProposal k p)
  | enqueue (p : Proposal) (h : p.isWaiting = true) :
      Move c { c with proposals := c.proposals ++ [p] }
  | selfVote (r : ℕ) (hr : cfg.voting r = true) (hv : (c.nodes r).votedFor = some r) :
      Move c (selfVote cfg c r)
  | gather (r : ℕ) (hm : r ∈ cfg.members)
      (hv : cfg.voting r = true → ⟨r, r, (c.nodes r).currentTerm⟩ ∈ c.votes) :
      Move c ((c.setElection r
        (.gathering c.nextTag (voteRequest (c.nodes r) (c.nodes r).currentTerm)
          (c.nodes r).acceptor.highestSeenSlot [])).fanOut r (cfg.votingRemoteIds r)
        (Packet.requestVote · (voteRequest (c.nodes r) (c.nodes r).currentTerm)))
  | count (env : Envelope) (tag : ℕ) (req : VoteRequestPayload) (ceiling : ℕ)
      (replies : List (ℕ × VoteReply)) (reply : VoteReply)
      (ht : c.elections env.src = .gathering tag req ceiling replies)
      (hp : .voteReply env req reply ∈ c.sent) (hn : env.dst ∉ replies.map Prod.fst) :
      Move c (c.setElection env.src (.gathering tag req ceiling (replies ++ [(env.dst, reply)])))
  | lead (r now tag : ℕ) (req : VoteRequestPayload) (ceiling : ℕ) (replies : List (ℕ × VoteReply))
      (ht : c.elections r = .gathering tag req ceiling replies)
      (hq : cfg.quorum ≤ grants cfg r replies)
      (hs : strict → (c.nodes r).currentTerm = req.term) :
      Move c (finalizeLeader c r now req.term (peerCeiling ceiling replies))
  | leadAlone (r now : ℕ) (hm : r ∈ cfg.members) (hr : cfg.voting r = true)
      (hn : cfg.votingRemoteIds r = []) (hv : ⟨r, r, (c.nodes r).currentTerm⟩ ∈ c.votes) :
      Move c (finalizeLeader c r now (c.nodes r).currentTerm (c.nodes r).acceptor.highestSeenSlot)
  | grant (env : Envelope) (req : VoteRequestPayload) (now : ℕ) (R : PxLocalReplica)
      (hp : .requestVote env req ∈ c.sent)
      (hR : (c.nodes env.dst).grantVote cfg.leaseDurationMs now req = some R) :
      Move c { c.setNode env.dst R with
        pendingVotes := (env, req) :: c.pendingVotes
        votes := ⟨env.dst, req.candidateId, req.term⟩ :: c.votes }
  | answer (env : Envelope) (req : VoteRequestPayload) (hp : (env, req) ∈ c.pendingVotes) :
      Move c ({ c with pendingVotes := c.pendingVotes.erase (env, req) }.send
        [.voteReply env req ((c.nodes env.dst).voteReply req.term true)])
  | promise (env : Envelope) (slot : ℕ) (ballot : PxBallot) (term now : ℕ)
      (hp : .prepare env slot ballot term ∈ c.sent) :
      Move c ((c.setNode env.dst ((c.nodes env.dst).onPrepare now slot ballot term).1).send
        [.prepareReply env slot ballot term ((c.nodes env.dst).onPrepare now slot ballot term).2])
  | take (env : Envelope) (entry : PxLogEntry) (now : ℕ) (hp : .accept env entry ∈ c.sent) :
      Move c ((c.setNode env.dst ((c.nodes env.dst).onAccept now entry).1).send
        [.acceptReply env entry ((c.nodes env.dst).onAccept now entry).2])
  | base (k : ℕ) (p : Proposal) (payload : Bytes) (hk : c.proposals[k]? = some p)
      (hs : strict → (c.nodes p.owner).leadershipGate = true) :
      Move c (startAccept cfg { c.setNode p.owner { c.nodes p.owner with
          nextSlot := (c.nodes p.owner).nextSlot + 1 } with
        bases := (c.nodes p.owner).baseEntry (c.nodes p.owner).nextSlot payload :: c.bases } k p
          ((c.nodes p.owner).baseEntry (c.nodes p.owner).nextSlot payload))
  | prepare (k : ℕ) (p : Proposal) (slot : ℕ) (payload : Bytes) (minRound : ℕ)
      (hk : c.proposals[k]? = some p)
      (hr : ∀ term, p.kind = .recovery term → (c.nodes p.owner).currentTerm = term) :
      Move c (startPrepare cfg c k p slot payload minRound)
  | foldPrepare (k : ℕ) (p : Proposal) (tag : ℕ) (entry : PxLogEntry)
      (replies : List (ℕ × PxPrepareReply)) (env : Envelope) (reply : PxPrepareReply)
      (hk : c.proposals[k]? = some p) (hs : p.stage = .preparing tag entry replies)
      (hp : .prepareReply env entry.slot entry.ballot entry.term reply ∈ c.sent)
      (ht : env.tag = tag) (hn : env.dst ∉ replies.map Prod.fst) :
      Move c (c.setProposal k (p.ready (.preparing tag entry (replies ++ [(env.dst, reply)]))))
  | proceed (k : ℕ) (p : Proposal) (tag : ℕ) (entry e e' : PxLogEntry) (fv : Bool)
      (replies : List (ℕ × PxPrepareReply)) (hk : c.proposals[k]? = some p)
      (hs : p.stage = .preparing tag entry replies)
      (ho : prepareOutcome (.ofPrepare p.owner cfg.voting replies) cfg.quorum entry = .proceed e fv)
      (he : preparedEntry c p e = some e')
      (hf : strict → adoptionFresh cfg p.owner replies = true) :
      Move c (startAccept cfg { c with prepared := (tag, e') :: c.prepared } k p e')
  | foldAccept (k : ℕ) (p : Proposal) (tag : ℕ) (entry : PxLogEntry)
      (replies : List (ℕ × PxAcceptReply)) (env : Envelope) (reply : PxAcceptReply)
      (hk : c.proposals[k]? = some p) (hs : p.stage = .accepting tag entry replies)
      (hp : .acceptReply env entry reply ∈ c.sent) (hn : env.dst ∉ replies.map Prod.fst) :
      Move c (c.setProposal k (p.ready (.accepting tag entry (replies ++ [(env.dst, reply)]))))
  | choose (k : ℕ) (p : Proposal) (tag : ℕ) (entry : PxLogEntry)
      (replies : List (ℕ × PxAcceptReply)) (hk : c.proposals[k]? = some p)
      (hs : p.stage = .accepting tag entry replies)
      (ho : acceptOutcome (.ofAccept p.owner cfg.voting replies) cfg.quorum = .chosen) :
      Move c { c with chosen := entry :: c.chosen }

/-- A sequence of moves. -/
def Moves : World → World → Prop := Relation.ReflTransGen (Move cfg strict)

variable {cfg strict} {c d : World}

lemma Moves.refl : Moves cfg strict c c := Relation.ReflTransGen.refl

lemma Moves.of_move (h : Move cfg strict c d) : Moves cfg strict c d := .single h

lemma Moves.then {e : World} (h : Moves cfg strict c d) (h' : Move cfg strict d e) :
    Moves cfg strict c e := h.tail h'

lemma Moves.trans {e : World} (h : Moves cfg strict c d) (h' : Moves cfg strict d e) :
    Moves cfg strict c e := Relation.ReflTransGen.trans h h'

lemma move_becomeFollower (r now t : ℕ) :
    Move cfg strict c (c.setNode r ((c.nodes r).becomeFollower now t)) :=
  .node r _ (evolves_becomeFollower _ now t) rfl nofun

variable {now r : ℕ}

lemma moves_candidacy {term : ℕ} (h : (c.nodes r).currentTerm < term) :
    Moves cfg strict c (candidacy cfg c r now term) :=
  (Moves.of_move (.node r _ (evolves_becomeCandidate _ now h) rfl
    nofun)).then (.task r _ rfl)

/-- Quiet packets under a fresh tag. -/
theorem moves_fanOut {src : ℕ} {dsts : List ℕ} {mk : Envelope → Packet}
    (h : ∀ env, (mk env).isQuiet) : Moves cfg strict c (c.fanOut src dsts mk) := by
  refine (Moves.of_move (.post (dsts.map fun d => mk ⟨c.nextTag, src, d⟩) ?_)).then .tick
  intro p hp
  obtain ⟨d, -, rfl⟩ := List.mem_map.mp hp
  exact h _

lemma startPreVote_moves (h : startPreVote cfg c r now = some d) : Moves cfg strict c d := by
  have hR : Move cfg strict c (c.setNode r (c.nodes r).becomePrecandidate) :=
    .node r _ (evolves_becomePrecandidate _) rfl nofun
  unfold startPreVote at h
  split at h
  · split at h
    · cases h
      exact (Moves.of_move hR).trans (moves_candidacy (by simp [setNode]))
    · cases h
      exact ((Moves.of_move hR).then (.task r _ rfl)).trans (moves_fanOut fun _ => trivial)
  · simp at h

lemma startElection_moves (h : startElection cfg c r now = some d) : Moves cfg strict c d := by
  unfold startElection at h
  split at h
  · cases h
    exact moves_candidacy (Nat.lt_succ_self _)
  · simp at h

lemma receivePreVote_moves {p : Packet} (hg : candidacyGuard cfg c (.receivePreVote p now) = true)
    (h : receivePreVote cfg c p now = some d) : Moves cfg strict c d := by
  cases p with
  | preVoteReply env =>
    simp only [receivePreVote] at h
    cases ht : c.elections env.src with
    | preVoting =>
      simp only [ht] at h
      simp only [candidacyGuard, ht] at hg
      split at h
      · split at h
        · cases h
          exact (Moves.of_move (move_becomeFollower _ now _)).then (.task _ _ rfl)
        · split at h
          · next hw =>
            cases h
            exact moves_candidacy (by simpa [hw] using hg)
          · cases h
            exact .of_move (.task _ _ rfl)
      · simp at h
    | idle => simp [ht] at h
    | persistingVote => simp [ht] at h
    | gathering => simp [ht] at h
  | _ => simp [receivePreVote] at h

lemma preVoteLost_moves (h : preVoteLost c r now = some d) : Moves cfg strict c d := by
  unfold preVoteLost at h
  split at h
  · cases h
    exact (Moves.of_move (move_becomeFollower _ now _)).then (.task _ _ rfl)
  · simp at h

lemma runCandidate_moves (hg : candidacyGuard cfg c (.runCandidate r now) = true)
    (h : runCandidate cfg c r now = some d) : Moves cfg strict c d := by
  have hv : (c.nodes r).votedFor = some r := by simpa [candidacyGuard] using hg
  unfold runCandidate at h
  split at h
  · split at h
    · simp at h
    · next hm =>
      have hm : r ∈ cfg.members := not_not.mp hm
      -- the vote for itself is recorded first, when there is one to cast
      have hself : Moves cfg strict c (selfVote cfg c r) := by
        by_cases hr : cfg.voting r = true
        · exact .of_move (.selfVote r hr hv)
        · simpa [selfVote, hr] using Moves.refl
      have hnodes : (selfVote cfg c r).nodes = c.nodes := by
        unfold selfVote; split <;> rfl
      have htag : (selfVote cfg c r).nextTag = c.nextTag := by
        unfold selfVote; split <;> rfl
      have hmem : cfg.voting r = true →
          ⟨r, r, ((selfVote cfg c r).nodes r).currentTerm⟩ ∈ (selfVote cfg c r).votes := by
        intro hr; simp [selfVote, hr]
      split at h
      · next ha =>
        cases h
        refine hself.then ?_
        have : Move cfg strict _ _ := .leadAlone r now hm ha.2 ha.1 (hmem ha.2)
        rwa [hnodes] at this
      · cases h
        refine hself.then ?_
        have : Move cfg strict _ _ := .gather r hm hmem
        rwa [hnodes, htag] at this
  · simp at h

lemma receiveVote_moves {p : Packet}
    (hs : strict → agreementGuard cfg c (.receiveVote p now) = true)
    (h : receiveVote cfg c p now = some d) : Moves cfg strict c d := by
  cases p with
  | voteReply env req reply =>
    simp only [receiveVote] at h
    cases ht : c.elections env.src with
    | gathering tag _ ceiling replies =>
      simp only [ht] at h
      simp only [agreementGuard, ht] at hs
      split at h
      · next hc =>
        obtain ⟨hp, -, rfl, hn⟩ := hc
        have hcount : Move cfg strict c _ := .count env tag req ceiling replies reply ht hp hn
        split at h
        · cases h
          exact (Moves.of_move (move_becomeFollower _ now _)).then (.task _ _ rfl)
        · split at h
          · next hw =>
            cases h
            refine (Moves.of_move hcount).then ?_
            have hlead : Move cfg strict (c.setElection env.src
                (.gathering tag req ceiling (replies ++ [(env.dst, reply)]))) _ :=
              .lead env.src now tag req ceiling (replies ++ [(env.dst, reply)])
              (by simp [setElection]) hw.2 (fun hst => by simpa [hw, setElection] using hs hst)
            simpa [finalizeLeader, setElection, setNode] using hlead
          · cases h
            exact .of_move hcount
      · simp at h
    | idle => simp [ht] at h
    | persistingVote => simp [ht] at h
    | preVoting => simp [ht] at h
  | _ => simp [receiveVote] at h

lemma candidateGivesUp_moves (h : candidateGivesUp c r = some d) : Moves cfg strict c d := by
  unfold candidateGivesUp at h
  split at h
  · cases h
    exact .of_move (.task _ _ rfl)
  · simp at h

lemma deliver_moves {p : Packet} (h : deliver cfg c p now = some d) : Moves cfg strict c d := by
  unfold deliver at h
  split at h
  · next hp =>
    cases p with
    | preVote =>
      cases h
      exact .of_move (.post _ (by simp [Packet.isQuiet]))
    | requestVote env req =>
      dsimp only at h
      split at h <;> cases h
      · next R hR => exact .of_move (.grant env req now R hp hR)
      · exact .of_move (.post _ (by simp [Packet.isQuiet, voteReply]))
    | heartbeat env =>
      dsimp only at h
      split at h <;> cases h
      · next R hR =>
        obtain ⟨hE, hA, hF⟩ := handleHeartbeat_some hR
        exact (Moves.of_move (.node env.dst R hE hA (by simp [hF]))).then
          (.post _ (by simp [Packet.isQuiet]))
      · exact .of_move (.post _ (by simp [Packet.isQuiet]))
    | prepare env slot ballot term =>
      cases h
      exact .of_move (.promise env slot ballot term now hp)
    | accept env entry =>
      cases h
      exact .of_move (.take env entry now hp)
    | chosenNotice env =>
      cases h
      refine .of_move (.node env.dst _ (evolves_handleChosenNotice _ _ _ _) ?_ ?_)
      · unfold handleChosenNotice; split <;> rfl
      · unfold handleChosenNotice; split <;> exact fun h => ⟨h, rfl⟩
    | _ => simp at h
  · simp at h

lemma answerVote_moves {env : Envelope} {req : VoteRequestPayload}
    (h : answerVote c env req = some d) : Moves cfg strict c d := by
  unfold answerVote at h
  split at h
  · next hp =>
    cases h
    exact .of_move (.answer env req hp)
  · simp at h

lemma lateReply_moves {p : Packet} (h : lateReply c p now = some d) : Moves cfg strict c d := by
  unfold lateReply at h
  split at h
  · split at h
    · obtain rfl := some.inj h; exact .of_move (move_becomeFollower _ now _)
    · obtain rfl := some.inj h; exact .of_move (move_becomeFollower _ now _)
    · split at h
      · obtain rfl := some.inj h; exact .of_move (move_becomeFollower _ now _)
      · simp at h
    · simp at h
  · simp at h

lemma sendHeartbeats_moves (h : sendHeartbeats cfg c r = some d) : Moves cfg strict c d := by
  unfold sendHeartbeats at h
  split at h
  · obtain rfl := some.inj h; exact moves_fanOut fun _ => trivial
  · simp at h

lemma propose_moves {payload : Bytes} (h : propose cfg c r payload = some d) :
    Moves cfg strict c d := by
  unfold propose at h
  split at h
  · obtain rfl := some.inj h; exact .of_move (.enqueue _ rfl)
  · simp at h

variable {k : ℕ}

lemma allocate_moves (hs : strict → agreementGuard cfg c (.allocate k) = true)
    (h : allocate cfg c k = some d) : Moves cfg strict c d := by
  unfold allocate at h
  split at h
  · next p hk =>
    simp only [agreementGuard, hk] at hs
    have hslot : Move cfg strict c (c.setNode p.owner
        { c.nodes p.owner with nextSlot := (c.nodes p.owner).nextSlot + 1 }) :=
      .node p.owner _ (evolves_takeSlot _) rfl (fun h => ⟨h, rfl⟩)
    split at h
    · next payload _ hkind =>
      split at h
      · split at h
        · cases h
          exact (Moves.of_move hslot).then
            (.prepare k p _ payload 0 hk (by simp [hkind]))
        · cases h
          exact .of_move (.base k p payload hk hs)
      · cases h
        exact (Moves.of_move hslot).then (.settle k _ rfl)
    · simp at h
  · simp at h

lemma startRecovery_moves {slot : ℕ} (h : startRecovery cfg c r slot = some d) :
    Moves cfg strict c d := by
  unfold startRecovery at h
  dsimp only at h
  split at h
  · cases h
    refine (Moves.of_move (.enqueue _ rfl)).then (.prepare _ _ slot [] 0 (by simp) ?_)
    intro term ht
    exact ProposalKind.recovery.inj ht
  · simp at h

lemma startRepair_moves (h : startRepair cfg c r = some d) : Moves cfg strict c d := by
  unfold startRepair at h
  dsimp only at h
  split at h
  · cases h
    exact (Moves.of_move (.enqueue _ rfl)).then (.prepare _ _ _ [] 0 (by simp) (by simp))
  · simp at h

lemma resume_moves (h : resume cfg c k = some d) : Moves cfg strict c d := by
  unfold resume at h
  split at h
  · next p hk =>
    split at h
    · next slot minRound payload _ hkind =>
      cases h
      exact .of_move (.prepare k p slot payload minRound hk (by simp [hkind]))
    · simp at h
  · simp at h

lemma retry_isWaiting (p : Proposal) (slot minRound : ℕ) :
    (p.retry slot minRound).isWaiting = true := by
  unfold Proposal.retry; split <;> rfl

variable {entry : PxLogEntry} {p : Proposal}

/-- The end of a prepare attempt whose replies are already in the proposal. -/
theorem moves_finishPrepare (hk : c.proposals[k]? = some p)
    (hs : p.stage = .preparing tag entry replies)
    (hf : strict → adoptionFresh cfg p.owner replies = true) :
    Moves cfg strict c (finishPrepare cfg c k p tag entry replies now) := by
  unfold finishPrepare
  split
  · next e fv ho =>
    split
    · next e' he => exact .of_move (.proceed k p tag entry e e' fv replies hk hs ho he hf)
    · exact .of_move (.settle k _ rfl)
  · split
    · exact .of_move (.settle k _ (retry_isWaiting _ _ _))
    · exact .of_move (.settle k _ rfl)
  · split
    · exact (Moves.of_move (move_becomeFollower _ now _)).then (.settle k _ rfl)
    · exact .of_move (.settle k _ rfl)
    · exact .of_move (.settle k _ rfl)

lemma moves_finishAccept {replies : List (ℕ × PxAcceptReply)} (hk : c.proposals[k]? = some p)
    (hs : p.stage = .accepting tag entry replies) :
    Moves cfg strict c (finishAccept cfg c k p entry replies now) := by
  unfold finishAccept
  split
  · next ho =>
    refine Moves.trans (((Moves.of_move (.choose k p tag entry replies hk hs ho)).then
      (.node p.owner _ (evolves_updateChosenFrontier _ _ _) rfl
        (fun h => ⟨h, rfl⟩))).then (.settle k _ ?_)) (moves_fanOut fun _ => trivial)
    split
    · split <;> rfl
    · rfl
  · split
    · exact .of_move (.settle k _ (retry_isWaiting _ _ _))
    · exact .of_move (.settle k _ rfl)
  · split
    · exact (Moves.of_move (move_becomeFollower _ now _)).then (.settle k _ rfl)
    · exact .of_move (.settle k _ rfl)
    · exact .of_move (.settle k _ rfl)

/-- Ending an attempt overwrites the proposal, so it does not matter whether
the last reply was stored in it first. -/
theorem finishPrepare_ready (st : ProposalStage) :
    finishPrepare cfg (c.setProposal k (p.ready st)) k (p.ready st) tag entry replies now =
      finishPrepare cfg c k p tag entry replies now := by
  simp only [finishPrepare, startAccept, setProposal, setNode, List.set_set]
  rfl

lemma finishAccept_ready (st : ProposalStage) {replies : List (ℕ × PxAcceptReply)} :
    finishAccept cfg (c.setProposal k (p.ready st)) k (p.ready st) entry replies now =
      finishAccept cfg c k p entry replies now := by
  simp only [finishAccept, setProposal, setNode, List.set_set]
  rfl

lemma setProposal_get {q : Proposal} (hk : c.proposals[k]? = some p) :
    (c.setProposal k q).proposals[k]? = some q := by
  have := (List.getElem?_eq_some_iff.mp hk).1
  simp [setProposal, this]

lemma receivePrepare_moves {pkt : Packet}
    (hg : strict → agreementGuard cfg c (.receivePrepare k pkt now) = true)
    (h : receivePrepare cfg c k pkt now = some d) : Moves cfg strict c d := by
  unfold receivePrepare at h
  split at h
  · next env slot ballot term reply p hk =>
    split at h
    · next tag entry replies hs =>
      simp only [agreementGuard, hk, hs, all_some] at hg
      split at h
      · next hc =>
        obtain ⟨hp, ht, rfl, rfl, rfl, hn⟩ := hc
        have hfold : Move cfg strict c _ := .foldPrepare k p tag entry replies env
          reply hk hs hp ht hn
        split at h
        · next hsettled =>
          cases h
          rw [← finishPrepare_ready (.preparing tag entry (replies ++ [(env.dst, reply)]))]
          refine (Moves.of_move hfold).trans (moves_finishPrepare (setProposal_get hk) rfl ?_)
          intro hst
          simpa [hsettled, Proposal.ready] using hg hst
        · cases h
          exact .of_move hfold
      · simp at h
    · simp at h
  · simp at h

lemma endPrepare_moves (hg : strict → agreementGuard cfg c (.endPrepare k now) = true)
    (h : endPrepare cfg c k now = some d) : Moves cfg strict c d := by
  unfold endPrepare at h
  split at h
  · next p hk =>
    split at h
    · next tag entry replies hs =>
      simp only [agreementGuard, hk, hs, all_some] at hg
      split at h
      · cases h
        exact moves_finishPrepare hk hs hg
      · simp at h
    · simp at h
  · simp at h

lemma receiveAccept_moves {pkt : Packet} (h : receiveAccept cfg c k pkt now = some d) :
    Moves cfg strict c d := by
  unfold receiveAccept at h
  split at h
  · next env e reply p hk =>
    split at h
    · next tag entry replies hs =>
      split at h
      · next hc =>
        obtain ⟨hp, -, rfl, hn⟩ := hc
        have hfold : Move cfg strict c _ := .foldAccept k p tag e replies env reply hk hs hp hn
        split at h
        · cases h
          rw [← finishAccept_ready (.accepting tag e (replies ++ [(env.dst, reply)]))]
          exact (Moves.of_move hfold).trans (moves_finishAccept (setProposal_get hk) rfl)
        · cases h
          exact .of_move hfold
      · simp at h
    · simp at h
  · simp at h

lemma endAccept_moves (h : endAccept cfg c k now = some d) : Moves cfg strict c d := by
  unfold endAccept at h
  split at h
  · next p hk =>
    split at h
    · next tag entry replies hs =>
      split at h
      · cases h
        exact moves_finishAccept hk hs
      · simp at h
    · simp at h
  · simp at h

lemma abandon_moves (h : abandon c k = some d) : Moves cfg strict c d := by
  unfold abandon at h
  split at h
  · obtain rfl := some.inj h; exact .of_move (.settle k _ rfl)
  · simp at h

/-- Every step of the group is a sequence of moves. -/
theorem step_moves {a : Action} (hc : candidacyGuard cfg c a = true)
    (hs : strict → agreementGuard cfg c a = true) (h : step cfg c a = some d) :
    Moves cfg strict c d := by
  cases a with
  | startPreVote => exact startPreVote_moves h
  | startElection => exact startElection_moves h
  | receivePreVote => exact receivePreVote_moves hc h
  | preVoteLost => exact preVoteLost_moves h
  | runCandidate => exact runCandidate_moves hc h
  | receiveVote => exact receiveVote_moves hs h
  | candidateGivesUp => exact candidateGivesUp_moves h
  | deliver => exact deliver_moves h
  | answerVote => exact answerVote_moves h
  | lateReply => exact lateReply_moves h
  | sendHeartbeats => exact sendHeartbeats_moves h
  | renewLease r =>
    cases h
    exact .of_move
      (.node r _ ⟨rfl, le_rfl, fun _ _ h => h, .refl _, le_rfl⟩ rfl (fun h => ⟨h, rfl⟩))
  | stepDown r now =>
    cases h
    exact .of_move (move_becomeFollower r now _)
  | stampProposingTerm r =>
    simp only [step] at h
    split at h <;> cases h
    exact .of_move (.node r _ ⟨rfl, le_rfl, fun _ _ h => h, .refl _, le_rfl⟩ rfl
      (fun h => ⟨h, rfl⟩))
  | raiseNextSlot r =>
    cases h
    exact .of_move (.node r _ ⟨rfl, le_rfl, fun _ _ h => h, .refl _, le_max_left _ _⟩ rfl
      (fun h => ⟨h, rfl⟩))
  | propose => exact propose_moves h
  | allocate => exact allocate_moves hs h
  | startRecovery => exact startRecovery_moves h
  | startRepair => exact startRepair_moves h
  | resume => exact resume_moves h
  | receivePrepare => exact receivePrepare_moves hs h
  | endPrepare => exact endPrepare_moves hs h
  | receiveAccept => exact receiveAccept_moves h
  | endAccept => exact endAccept_moves h
  | abandon => exact abandon_moves h

/-- What holds at boot and is kept by every move holds in every state that a
run under the guards reaches. -/
theorem reach_invariant (strict : Prop) {I : World → Prop} (hboot : I boot)
    (hmove : ∀ c d, I c → Move cfg strict c d → I d)
    (h : (group cfg).Reach (fun c a => candidacyGuard cfg c a = true ∧
      (strict → agreementGuard cfg c a = true)) c) : I c := by
  refine System.Reach.invariant (fun s hs => hs ▸ hboot) (fun s a t hs hg ht => ?_) h
  have hm := step_moves hg.1 hg.2 ht
  clear ht
  induction hm with
  | refl => exact hs
  | tail _ hm ih => exact hmove _ _ ih hm

end World
end CrowDB.Cluster
