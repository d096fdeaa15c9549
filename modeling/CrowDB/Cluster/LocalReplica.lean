import CrowDB.Paxos.Learner
import CrowDB.Paxos.Acceptor

/-!
# One replica: election state and the Paxos handlers

The role is stored twice in the source, under the election lock (`stateRole`)
and in an atomic that the leadership checks read (`role`); granting a vote in
the current term changes only the second. `nextSlot` and `proposingTerm` belong
to the group object around the replica. Clocks are milliseconds passed in by
the caller, so nothing is assumed about how clocks of different replicas relate.
-/
namespace CrowDB.Cluster
open Paxos Lib

inductive PxLocalReplicaRole
  | follower
  | preCandidate
  | candidate
  | leader
  deriving DecidableEq, Repr

structure PxLocalReplica where
  id : ℕ
  currentTerm : ℕ
  votedFor : Option ℕ
  stateRole : PxLocalReplicaRole
  role : PxLocalReplicaRole
  leaderId : Option ℕ
  voteLockoutUntil : ℕ
  leaseReadUntil : ℕ
  acceptor : PxAcceptor
  learner : PxLearner
  nextSlot : ℕ
  proposingTerm : ℕ

structure VoteRequestPayload where
  term : ℕ
  candidateId : ℕ
  acceptedLogTipSlot : ℕ
  acceptedLogTipTerm : ℕ
  deriving DecidableEq, Repr

structure VoteReply where
  term : ℕ
  granted : Bool
  contiguousChosen : ℕ
  lastChosenTerm : ℕ
  highestSeenSlot : ℕ
  deriving DecidableEq, Repr

variable {lease : ℕ}

namespace PxLocalReplica

/-- A replica at first boot. -/
def fresh (id : ℕ) : PxLocalReplica where
  id := id
  currentTerm := 0
  votedFor := none
  stateRole := .follower
  role := .follower
  leaderId := none
  voteLockoutUntil := 0
  leaseReadUntil := 0
  acceptor := default
  learner := .fresh
  nextSlot := 1
  proposingTerm := 0

section
variable (R : PxLocalReplica)

def becomeFollower (now newTerm : ℕ) : PxLocalReplica :=
  { R with
    currentTerm := if R.currentTerm < newTerm then newTerm else R.currentTerm
    votedFor := if R.currentTerm < newTerm then none else R.votedFor
    stateRole := .follower
    role := .follower
    leaderId := none
    leaseReadUntil := now }

def becomePrecandidate : PxLocalReplica :=
  { R with stateRole := .preCandidate, role := .preCandidate }

/-- The term and the vote are overwritten whatever they were. -/
def becomeCandidate (lease now newTerm : ℕ) : PxLocalReplica :=
  { R with
    currentTerm := newTerm
    votedFor := some R.id
    stateRole := .candidate
    role := .candidate
    voteLockoutUntil := now + lease }

def becomeLeader (now : ℕ) : PxLocalReplica :=
  { R with stateRole := .leader, role := .leader, leaderId := some R.id, leaseReadUntil := now }

/-- Slot and term of the accepted log tip, `(0, 0)` for an empty log. -/
def acceptedLogTip : ℕ × ℕ := R.acceptor.acceptedLogTip.getD (0, 0)

def candidateLogUpToDate (req : VoteRequestPayload) : Bool :=
  R.acceptedLogTip.2 < req.acceptedLogTipTerm || (R.acceptedLogTip.2 == req.acceptedLogTipTerm &&
      R.acceptedLogTip.1 ≤ req.acceptedLogTipSlot)

/-- No vote while the lockout runs, nor from a leader that holds its lease. -/
def lockoutOk (now : ℕ) : Bool :=
  R.voteLockoutUntil ≤ now && (R.stateRole != .leader || R.leaseReadUntil ≤ now)

def voteReply (term : ℕ) (granted : Bool) : VoteReply where
  term := term
  granted := granted
  contiguousChosen := R.learner.chosen.contiguous
  lastChosenTerm := R.learner.lastChosenTerm
  highestSeenSlot := R.acceptor.highestSeenSlot

def handlePreVote (now : ℕ) (req : VoteRequestPayload) : VoteReply :=
  R.voteReply R.currentTerm
    (R.currentTerm < req.term && R.candidateLogUpToDate req && R.lockoutOk now)

def voteTermOk (req : VoteRequestPayload) : Bool :=
  R.currentTerm < req.term || (req.term == R.currentTerm && R.votedFor.all (· == req.candidateId))

/-- The decision of `handle_request_vote` and the state it leaves, up to the
point where the granted vote is persisted. The reply is built after that. -/
def grantVote (lease now : ℕ) (req : VoteRequestPayload) : Option PxLocalReplica :=
  if R.voteTermOk req && R.candidateLogUpToDate req && R.lockoutOk now then
    some { R with
      currentTerm := req.term
      votedFor := some req.candidateId
      stateRole := if R.currentTerm < req.term then .follower else R.stateRole
      role := .follower
      leaderId := if R.currentTerm < req.term then none else R.leaderId
      voteLockoutUntil := now + lease }
  else none

/-- The election half of `handle_heartbeat`; `none` refuses a stale term. -/
def handleHeartbeat (lease now term leader : ℕ) : Option PxLocalReplica :=
  if term < R.currentTerm then none
  else
    some { R with
      currentTerm := term
      votedFor := if R.currentTerm < term then none else R.votedFor
      stateRole := .follower
      role := .follower
      leaderId := some leader
      voteLockoutUntil := now + lease }

/-- The term fence in front of both Paxos handlers: `none` is a stale term. -/
def adoptTerm (now term : ℕ) : Option PxLocalReplica :=
  if term < R.currentTerm then none
  else some (if R.currentTerm < term then R.becomeFollower now term else R)

def onPrepare (now slot : ℕ) (ballot : PxBallot) (term : ℕ) : PxLocalReplica × PxPrepareReply :=
  match R.adoptTerm now term with
  | none => (R, .termStale slot R.currentTerm)
  | some S =>
    ({ S with acceptor := (S.acceptor.prepare slot ballot).1 }, (S.acceptor.prepare slot ballot).2)

def onAccept (now : ℕ) (entry : PxLogEntry) : PxLocalReplica × PxAcceptReply :=
  match R.adoptTerm now entry.term with
  | none => (R, .termStale entry.slot R.currentTerm)
  | some S => ({ S with acceptor := (S.acceptor.accept entry).1 }, (S.acceptor.accept entry).2)

def noteChosen (slot term : ℕ) : PxLocalReplica :=
  { R with learner := R.learner.noteChosen slot term }

def updateChosenFrontier (slot term : ℕ) : PxLocalReplica :=
  { R with learner := R.learner.updateChosenFrontier slot term }

/-- The chosen-notice handler: a matching accepted ballot advances the chosen
frontier, anything else only raises the high-water mark. -/
def handleChosenNotice (slot term : ℕ) (ballot : PxBallot) : PxLocalReplica :=
  if (R.acceptor.acceptedAt slot).any (·.ballot == ballot) then R.updateChosenFrontier slot term
  else R.noteChosen slot term

/-- The steady-state entry: round zero, the current term, no Phase 1. -/
def baseEntry (slot : ℕ) (payload : Bytes) : PxLogEntry :=
  ⟨slot, ⟨0, R.id⟩, R.currentTerm, payload⟩

/-- `role == Leader` and `current_term == proposing_term`. -/
def leadershipGate : Bool :=
  R.role == .leader && R.currentTerm == R.proposingTerm

/-- Highest slot anyone may have used, seen from a new leader. -/
def slotCeiling (peerCeiling : ℕ) : ℕ :=
  max (max R.acceptor.highestSeenSlot (R.nextSlot - 1)) peerCeiling

def finalizeLeader (now term peerCeiling : ℕ) : PxLocalReplica :=
  { { R with nextSlot := max R.nextSlot (R.slotCeiling peerCeiling + 1) }.becomeLeader now with
    proposingTerm := term }

end

/-! ## What no step of a replica undoes -/

/-- Terms, promises and the slot counter grow, and a vote stands for the rest
of its term. -/
structure Evolves (R S : PxLocalReplica) : Prop where
  id : S.id = R.id
  term : R.currentTerm ≤ S.currentTerm
  vote : S.currentTerm = R.currentTerm → ∀ v, R.votedFor = some v → S.votedFor = some v
  acceptor : R.acceptor.Grows S.acceptor
  nextSlot : R.nextSlot ≤ S.nextSlot

lemma Evolves.refl (R : PxLocalReplica) : Evolves R R :=
  ⟨rfl, le_rfl, fun _ _ h => h, .refl _, le_rfl⟩

variable {R S : PxLocalReplica}

lemma evolves_becomeFollower (R : PxLocalReplica) (now t : ℕ) :
    Evolves R (R.becomeFollower now t) := by
  refine ⟨rfl, ?_, ?_, .refl _, le_rfl⟩ <;> simp only [becomeFollower] <;> split
  · omega
  · exact le_rfl
  · intro h; omega
  · exact fun _ _ h => h

lemma evolves_becomePrecandidate (R : PxLocalReplica) : Evolves R R.becomePrecandidate :=
  ⟨rfl, le_rfl, fun _ _ h => h, .refl _, le_rfl⟩

/-- The one transition that needs its caller: the new term must be above the
current one, or a vote already given is overwritten. -/
theorem evolves_becomeCandidate {t : ℕ} (lease now : ℕ) (h : R.currentTerm < t) :
    Evolves R (R.becomeCandidate lease now t) :=
  ⟨rfl, h.le, fun he => absurd he (by simp only [becomeCandidate]; omega), .refl _, le_rfl⟩

lemma evolves_finalizeLeader (R : PxLocalReplica) (now t ceiling : ℕ) :
    Evolves R (R.finalizeLeader now t ceiling) :=
  ⟨rfl, le_rfl, fun _ _ h => h, .refl _, le_max_left _ _⟩

lemma evolves_takeSlot (R : PxLocalReplica) : Evolves R { R with nextSlot := R.nextSlot + 1 } :=
  ⟨rfl, le_rfl, fun _ _ h => h, .refl _, Nat.le_succ _⟩

variable {now : ℕ}

lemma grantVote_some {req : VoteRequestPayload} (h : R.grantVote lease now req = some S) :
    Evolves R S ∧ S.acceptor = R.acceptor ∧ S.currentTerm = req.term ∧
      S.votedFor = some req.candidateId ∧ S.role = .follower := by
  unfold grantVote at h
  split at h
  · next hc =>
    simp only [Bool.and_eq_true, voteTermOk, Bool.or_eq_true, decide_eq_true_eq, beq_iff_eq] at hc
    cases h
    refine ⟨⟨rfl, ?_, ?_, .refl _, le_rfl⟩, rfl, rfl, rfl, rfl⟩
    · rcases hc.1.1 with h | h
      · exact h.le
      · exact h.1.ge
    · intro he v hv
      rcases hc.1.1 with h | h
      · exact absurd he (by simp only; omega)
      · have hall := h.2
        rw [hv, Option.all_some, beq_iff_eq] at hall
        exact congrArg some hall.symm
  · simp at h

variable {term : ℕ}

lemma handleHeartbeat_some {leader : ℕ} (h : R.handleHeartbeat lease now term leader = some S) :
    Evolves R S ∧ S.acceptor = R.acceptor ∧ S.role = .follower := by
  unfold handleHeartbeat at h
  split at h
  · simp at h
  · next hlt =>
    cases h
    refine ⟨⟨rfl, not_lt.mp hlt, ?_, .refl _, le_rfl⟩, rfl, rfl⟩
    intro he v hv
    simp only at he
    rw [if_neg (by omega)]
    exact hv

lemma adoptTerm_some (h : R.adoptTerm now term = some S) :
    Evolves R S ∧ S.acceptor = R.acceptor ∧ S.currentTerm = term ∧
      (S = R ∨ S.role = .follower) := by
  unfold adoptTerm at h
  split at h
  · simp at h
  · next hlt =>
    cases h
    split
    · next hgt =>
      exact ⟨evolves_becomeFollower R now term, rfl, by simp [becomeFollower, hgt], .inr rfl⟩
    · exact ⟨.refl R, rfl, by omega, .inl rfl⟩

lemma Evolves.withAcceptor {B : PxAcceptor} (h : Evolves R S) (hS : S.acceptor = R.acceptor)
    (hB : S.acceptor.Grows B) : Evolves R { S with acceptor := B } :=
  { h with acceptor := hS ▸ hB }

lemma evolves_onPrepare (R : PxLocalReplica) (now slot : ℕ) (b : PxBallot) (term : ℕ) :
    Evolves R (R.onPrepare now slot b term).1 := by
  unfold onPrepare
  split
  · exact .refl R
  · next S h =>
    obtain ⟨hE, hA, -, -⟩ := adoptTerm_some h
    exact hE.withAcceptor hA (PxAcceptor.grows_prepare _ _ _)

lemma evolves_onAccept (R : PxLocalReplica) (now : ℕ) (e : PxLogEntry) :
    Evolves R (R.onAccept now e).1 := by
  unfold onAccept
  split
  · exact .refl R
  · next S h =>
    obtain ⟨hE, hA, -, -⟩ := adoptTerm_some h
    exact hE.withAcceptor hA (PxAcceptor.grows_accept _ _)

/-- Phase 1 leaves every accepted entry in place. -/
@[simp] theorem onPrepare_node_accepted (R : PxLocalReplica) (now slot t : ℕ) (b : PxBallot)
    (term : ℕ) : ((R.onPrepare now slot b term).1.acceptor.node t).accepted =
      (R.acceptor.node t).accepted := by
  unfold onPrepare
  split
  · rfl
  · next S h =>
    obtain ⟨-, hA, -, -⟩ := adoptTerm_some h
    simp [hA]

variable {b : PxBallot}

lemma onPrepare_promised {slot s : ℕ} {acc : Option PxLogEntry}
    (h : (R.onPrepare now slot b term).2 = .promised s acc) :
    ¬ (R.acceptor.node slot).refusesPrepare b = true ∧ acc = (R.acceptor.node slot).accepted ∧
      ((R.onPrepare now slot b term).1.acceptor.node slot).floor = b ∧
      (R.onPrepare now slot b term).1.currentTerm = term := by
  unfold onPrepare at h ⊢
  cases hS : R.adoptTerm now term with
  | none => simp [hS] at h
  | some =>
    obtain ⟨-, hA, hT, -⟩ := adoptTerm_some hS
    simp only [hS] at h
    obtain ⟨h1, h3, h4⟩ := PxAcceptor.prepare_promised h
    exact ⟨hA ▸ h1, hA ▸ h3, h4, hT⟩

lemma onAccept_node_accepted (R : PxLocalReplica) (now : ℕ) (e : PxLogEntry) (t : ℕ) :
    ((R.onAccept now e).1.acceptor.node t).accepted = (R.acceptor.node t).accepted ∨
      (t = e.slot ∧ (R.onAccept now e).2 = .accepted e.slot e.ballot ∧
        ((R.onAccept now e).1.acceptor.node t).accepted = some e) := by
  unfold onAccept
  split
  · exact .inl rfl
  · next S h =>
    obtain ⟨-, hA, -, -⟩ := adoptTerm_some h
    rw [← hA]
    exact PxAcceptor.accept_node_accepted S.acceptor e t

lemma onAccept_accepted {e : PxLogEntry} {s : ℕ} (h : (R.onAccept now e).2 = .accepted s b) :
    (R.acceptor.node e.slot).floor ≤ e.ballot ∧
      ((R.onAccept now e).1.acceptor.node e.slot).accepted = some e ∧
      ((R.onAccept now e).1.acceptor.node e.slot).floor = e.ballot ∧
      e.slot ≤ (R.onAccept now e).1.acceptor.highestSeenSlot ∧
      (R.onAccept now e).1.currentTerm = e.term := by
  unfold onAccept at h ⊢
  cases hS : R.adoptTerm now e.term with
  | none => simp [hS] at h
  | some =>
    obtain ⟨-, hA, hT, -⟩ := adoptTerm_some hS
    simp only [hS] at h
    obtain ⟨h1, h2, h3, h4⟩ := PxAcceptor.accept_accepted h
    exact ⟨hA ▸ h1, h2, h3, h4, hT⟩

/-- A handler keeps a leader only in its own term. -/
theorem role_onPrepare {slot : ℕ} (h : (R.onPrepare now slot b term).1.role = .leader) :
    R.role = .leader ∧ (R.onPrepare now slot b term).1.currentTerm = R.currentTerm := by
  unfold onPrepare at h ⊢
  cases hS : R.adoptTerm now term with
  | none => simpa [hS] using h
  | some =>
    obtain ⟨-, -, -, rfl | hF⟩ := adoptTerm_some hS
    · simpa [hS] using h
    · simp [hS, hF] at h

lemma role_onAccept {e : PxLogEntry} (h : (R.onAccept now e).1.role = .leader) :
    R.role = .leader ∧ (R.onAccept now e).1.currentTerm = R.currentTerm := by
  unfold onAccept at h ⊢
  cases hS : R.adoptTerm now e.term with
  | none => simpa [hS] using h
  | some =>
    obtain ⟨-, -, -, rfl | hF⟩ := adoptTerm_some hS
    · simpa [hS] using h
    · simp [hS, hF] at h

lemma adoptTerm_learner (h : R.adoptTerm now term = some S) : S.learner = R.learner := by
  unfold adoptTerm at h
  split at h
  · simp at h
  · cases h
    split <;> rfl

@[simp] lemma onPrepare_learner (R : PxLocalReplica) (now slot : ℕ) (b : PxBallot) (term : ℕ) :
    (R.onPrepare now slot b term).1.learner = R.learner := by
  unfold onPrepare
  split
  · rfl
  · next S h =>
    show S.learner = R.learner
    exact adoptTerm_learner h

@[simp] lemma onAccept_learner (R : PxLocalReplica) (now : ℕ) (e : PxLogEntry) :
    (R.onAccept now e).1.learner = R.learner := by
  unfold onAccept
  split
  · rfl
  · next S h =>
    show S.learner = R.learner
    exact adoptTerm_learner h

lemma onAccept_advances (R : PxLocalReplica) (now : ℕ) (e : PxLogEntry) : R.acceptor.Advances
      (if (R.onAccept now e).2 = .accepted e.slot e.ballot then some e else none)
      (R.onAccept now e).1.acceptor := by
  unfold onAccept
  split
  · exact .of_eq _ fun _ => rfl
  · next S h =>
    obtain ⟨-, hA, -, -⟩ := adoptTerm_some h
    rw [← hA]
    exact S.acceptor.advances_accept e

lemma handleHeartbeat_learner {leader : ℕ}
    (h : R.handleHeartbeat lease now term leader = some S) :
    S.learner = R.learner := by
  unfold handleHeartbeat at h
  split at h
  · simp at h
  · cases h
    rfl

lemma evolves_noteChosen (R : PxLocalReplica) (slot term : ℕ) :
    Evolves R (R.noteChosen slot term) :=
  ⟨rfl, le_rfl, fun _ _ h => h, .refl _, le_rfl⟩

lemma evolves_updateChosenFrontier (R : PxLocalReplica) (slot term : ℕ) :
    Evolves R (R.updateChosenFrontier slot term) :=
  ⟨rfl, le_rfl, fun _ _ h => h, .refl _, le_rfl⟩

lemma evolves_handleChosenNotice (R : PxLocalReplica) (slot term : ℕ) (b : PxBallot) :
    Evolves R (R.handleChosenNotice slot term b) := by
  unfold handleChosenNotice
  split
  · exact evolves_updateChosenFrontier R slot term
  · exact evolves_noteChosen R slot term

end PxLocalReplica
end CrowDB.Cluster
