import CrowDB.Cluster.Move

/-!
# Election safety

A vote given in a term stands while the voter stays in that term, a reply that
grants a vote is backed by a recorded vote, and a replica that becomes leader
has a majority of them. The exception is `become_candidate`, which overwrites
the term and the vote after an await: without `candidacyGuard` one replica can
vote twice in a term (`two_leaders_in_one_term`).
-/
namespace CrowDB.Cluster
open Paxos Lib List PxLocalReplica

variable {r : ℕ}

namespace GroupConfig

lemma quorum_eq (cfg : GroupConfig) : cfg.quorum = cfg.voters.card / 2 + 1 := by
  rw [voters, toFinset_card_of_nodup (cfg.nodup.filter _), quorum]

lemma mem_voters {cfg : GroupConfig} :
    r ∈ cfg.voters ↔ r ∈ cfg.members ∧ cfg.voting r = true := by
  simp [voters]

lemma mem_votingRemoteIds {cfg : GroupConfig} {v : ℕ} :
    v ∈ cfg.votingRemoteIds r ↔ v ∈ cfg.members ∧ cfg.voting v = true ∧ v ≠ r := by
  simp [votingRemoteIds]

end GroupConfig

namespace World
variable {cfg : GroupConfig} {strict : Prop} {c d : World}

@[simp] lemma setNode_nodes_self (c : World) (r : ℕ) (R : PxLocalReplica) :
    (c.setNode r R).nodes r = R := by simp [setNode]

lemma setNode_evolves {R : PxLocalReplica} (h : (c.nodes r).Evolves R) (q : ℕ) :
    (c.nodes q).Evolves ((c.setNode r R).nodes q) := by
  by_cases hq : q = r
  · subst q; simpa using h
  · simpa [setNode, hq] using Evolves.refl _

/-- Every move lets every replica evolve. -/
theorem Move.evolves (h : Move cfg strict c d) (q : ℕ) : (c.nodes q).Evolves (d.nodes q) := by
  cases h with
  | node _ _ hE => exact setNode_evolves hE q
  | lead | leadAlone => exact setNode_evolves (evolves_finalizeLeader _ _ _ _) q
  | grant _ _ _ _ _ hR => exact setNode_evolves (grantVote_some hR).1 q
  | promise => exact setNode_evolves (evolves_onPrepare _ _ _ _ _) q
  | take => exact setNode_evolves (evolves_onAccept _ _ _) q
  | base _ p =>
    exact setNode_evolves (evolves_takeSlot (c.nodes p.owner)) q
  | selfVote _ hr => simpa [World.selfVote, hr] using Evolves.refl _
  | _ => exact .refl _

/-- Packets are never lost from the history. -/
theorem Move.sent_subset (h : Move cfg strict c d) {p : Packet} (hp : p ∈ c.sent) : p ∈ d.sent := by
  cases h with
  | selfVote _ hr => simpa [World.selfVote, hr] using hp
  | node | task | tick | settle | enqueue | count | lead | leadAlone | grant | foldPrepare
  | foldAccept | choose => exact hp
  | post | gather | answer | promise | take | base | prepare | proceed =>
    exact mem_append_right _ hp

/-- The facts that make elections safe, each needed to keep another. -/
structure ElectionInv (cfg : GroupConfig) (c : World) : Prop where
  ident : ∀ r, (c.nodes r).id = r
  backed : ∀ v ∈ c.votes, v.term ≤ (c.nodes v.voter).currentTerm ∧
    ((c.nodes v.voter).currentTerm = v.term → (c.nodes v.voter).votedFor = some v.candidate)
  unique : ∀ v ∈ c.votes, ∀ w ∈ c.votes, v.voter = w.voter → v.term = w.term →
    v.candidate = w.candidate
  asked : ∀ env req, .requestVote env req ∈ c.sent →
    req.candidateId = env.src ∧ env.dst ∈ cfg.votingRemoteIds env.src
  pending : ∀ env req, (env, req) ∈ c.pendingVotes → .requestVote env req ∈ c.sent ∧
    ⟨env.dst, req.candidateId, req.term⟩ ∈ c.votes
  replied : ∀ env req reply, .voteReply env req reply ∈ c.sent → reply.granted = true →
    .requestVote env req ∈ c.sent ∧ ⟨env.dst, req.candidateId, req.term⟩ ∈ c.votes
  gathered : ∀ r tag req ceiling replies, c.elections r = .gathering tag req ceiling replies →
    r ∈ cfg.members ∧ req.candidateId = r ∧
      (cfg.voting r = true → ⟨r, r, req.term⟩ ∈ c.votes) ∧ (replies.map Prod.fst).Nodup ∧
      ∀ x ∈ replies, x.2.granted = true → x.1 ∈ cfg.votingRemoteIds r ∧ ⟨x.1, r, req.term⟩ ∈ c.votes
  led : ∀ l ∈ c.leaderships, ByMajority cfg.voters fun v => ⟨v, l.replica, l.term⟩ ∈ c.votes

section
variable (hI : ElectionInv cfg c) (hE : ∀ r, (c.nodes r).Evolves (d.nodes r))
include hI hE

/-- What a move must show while no vote is cast: where new requests, replies and
tasks of the election come from. -/
theorem ElectionInv.extend (hsent : ∀ p ∈ c.sent, p ∈ d.sent) (hvotes : d.votes = c.votes)
    (hasked : ∀ env req, .requestVote env req ∈ d.sent → .requestVote env req ∈ c.sent ∨
      req.candidateId = env.src ∧ env.dst ∈ cfg.votingRemoteIds env.src)
    (hreplied : ∀ env req reply, .voteReply env req reply ∈ d.sent → reply.granted = true →
      .voteReply env req reply ∈ c.sent ∨ (env, req) ∈ c.pendingVotes)
    (hpending : ∀ x ∈ d.pendingVotes, x ∈ c.pendingVotes)
    (hgathered : ∀ r tag req ceiling replies, d.elections r = .gathering tag req ceiling replies →
      c.elections r = .gathering tag req ceiling replies ∨ r ∈ cfg.members ∧ req.candidateId = r ∧
        (cfg.voting r = true → ⟨r, r, req.term⟩ ∈ c.votes) ∧ (replies.map Prod.fst).Nodup ∧
        ∀ x ∈ replies, x.2.granted = true →
          x.1 ∈ cfg.votingRemoteIds r ∧ ⟨x.1, r, req.term⟩ ∈ c.votes)
    (hled : d.leaderships = c.leaderships) : ElectionInv cfg d where
  ident r := (hE r).id.trans (hI.ident r)
  backed v hv := by
    obtain ⟨hle, heq⟩ := hI.backed v (hvotes ▸ hv)
    have hterm := (hE v.voter).term
    exact ⟨hle.trans hterm, fun h => (hE v.voter).vote (by omega) _ (heq (by omega))⟩
  unique := by rw [hvotes]; exact hI.unique
  asked env req h := (hasked env req h).elim (hI.asked env req) id
  pending env req h := by
    obtain ⟨h1, h2⟩ := hI.pending env req (hpending _ h)
    exact ⟨hsent _ h1, hvotes ▸ h2⟩
  replied env req reply h hg := by
    obtain ⟨h1, h2⟩ := (hreplied env req reply h hg).elim
      (fun h => hI.replied env req reply h hg) (hI.pending env req)
    exact ⟨hsent _ h1, hvotes ▸ h2⟩
  gathered r tag req ceiling replies h := by
    rw [hvotes]
    exact (hgathered r tag req ceiling replies h).elim (hI.gathered r tag req ceiling replies) id
  led := by rw [hled, hvotes]; exact hI.led

/-- Casting a vote that the voter's new state records keeps votes backed and
unique. -/
theorem ElectionInv.cast {v : Vote} (hv : d.votes = v :: c.votes)
    (ht : (d.nodes v.voter).currentTerm = v.term)
    (hc : (d.nodes v.voter).votedFor = some v.candidate) :
    (∀ w ∈ d.votes, w.term ≤ (d.nodes w.voter).currentTerm ∧
      ((d.nodes w.voter).currentTerm = w.term → (d.nodes w.voter).votedFor = some w.candidate)) ∧
    (∀ w ∈ d.votes, ∀ x ∈ d.votes, w.voter = x.voter → w.term = x.term →
      w.candidate = x.candidate) := by
  have hback : ∀ w ∈ d.votes, w.term ≤ (d.nodes w.voter).currentTerm ∧
      ((d.nodes w.voter).currentTerm = w.term → (d.nodes w.voter).votedFor = some w.candidate) := by
    intro w hw
    rw [hv] at hw
    rcases mem_cons.mp hw with rfl | hw
    · exact ⟨ht.ge, fun _ => hc⟩
    · obtain ⟨hle, heq⟩ := hI.backed w hw
      have hterm := (hE w.voter).term
      exact ⟨hle.trans hterm, fun h => (hE w.voter).vote (by omega) _ (heq (by omega))⟩
  refine ⟨hback, ?_⟩
  -- a second vote in the new vote's term is recorded in the same state
  have hnew : ∀ w ∈ d.votes, w.voter = v.voter → w.term = v.term → w.candidate = v.candidate := by
    intro w hw hvoter hterm
    have h := (hback w hw).2 (by rw [hvoter, hterm]; exact ht)
    rw [hvoter, hc] at h
    exact (Option.some.inj h).symm
  intro w hw x hx hvoter hterm
  have hw' := hw
  have hx' := hx
  rw [hv] at hw' hx'
  rcases mem_cons.mp hw' with rfl | hw'
  · exact (hnew x hx hvoter.symm hterm.symm).symm
  · rcases mem_cons.mp hx' with rfl | hx'
    · exact hnew w hw hvoter hterm
    · exact hI.unique w hw' x hx' hvoter hterm

/-- A cast vote keeps everything else that votes back. -/
theorem ElectionInv.vote {v : Vote} (hv : d.votes = v :: c.votes)
    (ht : (d.nodes v.voter).currentTerm = v.term)
    (hc : (d.nodes v.voter).votedFor = some v.candidate) (hsent : d.sent = c.sent)
    (helections : d.elections = c.elections) (hled : d.leaderships = c.leaderships)
    (hpending : ∀ env req, (env, req) ∈ d.pendingVotes → (env, req) ∈ c.pendingVotes ∨
      (.requestVote env req ∈ c.sent ∧ v = ⟨env.dst, req.candidateId, req.term⟩)) :
    ElectionInv cfg d := by
  obtain ⟨hback, huniq⟩ := hI.cast hE hv ht hc
  have hmem : ∀ w ∈ c.votes, w ∈ d.votes := fun w hw => hv ▸ mem_cons_of_mem _ hw
  refine ⟨fun r => (hE r).id.trans (hI.ident r), hback, huniq, hsent ▸ hI.asked, ?_, ?_, ?_, ?_⟩
  · intro env req h
    rcases hpending env req h with h | ⟨h, rfl⟩
    · obtain ⟨h1, h2⟩ := hI.pending env req h
      exact ⟨hsent ▸ h1, hmem _ h2⟩
    · exact ⟨hsent ▸ h, hv ▸ mem_cons_self⟩
  · intro env req reply h hg
    obtain ⟨h1, h2⟩ := hI.replied env req reply (hsent ▸ h) hg
    exact ⟨hsent ▸ h1, hmem _ h2⟩
  · intro r tag req ceiling replies h
    obtain ⟨h1, h2, h3, h4, h5⟩ := hI.gathered r tag req ceiling replies (helections ▸ h)
    exact ⟨h1, h2, fun hr => hmem _ (h3 hr), h4, fun x hx hg =>
      ⟨(h5 x hx hg).1, hmem _ (h5 x hx hg).2⟩⟩
  · intro l hl
    exact (hI.led l (hled ▸ hl)).mono fun w => hmem _

end

lemma electionInv_boot : ElectionInv cfg boot := by
  constructor <;> simp [boot, PxLocalReplica.fresh]

/-- The voters of a candidate with enough grants are a majority: itself when it
votes, and the peers that granted. -/
theorem ElectionInv.granters_majority (hI : ElectionInv cfg c) {tag : ℕ} {req : VoteRequestPayload}
    {ceiling : ℕ} {replies : List (ℕ × VoteReply)}
    (ht : c.elections r = .gathering tag req ceiling replies)
    (hq : cfg.quorum ≤ grants cfg r replies) {P : ℕ → Prop} (hself : cfg.voting r = true → P r)
    (hpeer : ∀ x ∈ replies, x.2.granted = true → P x.1) : ByMajority cfg.voters P := by
  obtain ⟨hm, -, -, hnodup, hgrant⟩ := hI.gathered r tag req ceiling replies ht
  have hmem : ∀ v ∈ (replies.filter (·.2.granted)).map Prod.fst,
      v ∈ cfg.votingRemoteIds r ∧ P v := by
    intro v hv
    obtain ⟨x, hx, rfl⟩ := mem_map.mp hv
    obtain ⟨hx, hg⟩ := mem_filter.mp hx
    exact ⟨(hgrant x hx hg).1, hpeer x hx hg⟩
  have hnd : ((replies.filter (·.2.granted)).map Prod.fst).Nodup :=
    hnodup.sublist (filter_sublist.map _)
  have hvoter : ∀ v ∈ (replies.filter (·.2.granted)).map Prod.fst, v ∈ cfg.voters := by
    intro v hv
    obtain ⟨h1, h2, -⟩ := GroupConfig.mem_votingRemoteIds.mp (hmem v hv).1
    exact GroupConfig.mem_voters.mpr ⟨h1, h2⟩
  rw [cfg.quorum_eq] at hq
  by_cases hr : cfg.voting r = true
  · refine ByMajority.of_list (r :: (replies.filter (·.2.granted)).map Prod.fst) ?_ ?_ ?_ ?_
    · refine nodup_cons.mpr ⟨fun h => ?_, hnd⟩
      exact (GroupConfig.mem_votingRemoteIds.mp (hmem r h).1).2.2 rfl
    · exact forall_mem_cons.mpr ⟨GroupConfig.mem_voters.mpr ⟨hm, hr⟩, hvoter⟩
    · simp only [grants, hr, if_true] at hq
      simp only [length_cons, length_map]
      omega
    · intro v hv
      rcases mem_cons.mp hv with rfl | hv
      · exact hself hr
      · exact (hmem v hv).2
  · refine ByMajority.of_list _ hnd hvoter ?_ fun v hv => (hmem v hv).2
    simpa [grants, hr] using hq

/-- A single voter is its own majority. -/
theorem majority_alone (hm : r ∈ cfg.members) (hr : cfg.voting r = true)
    (hn : cfg.votingRemoteIds r = []) {P : ℕ → Prop} (h : P r) : ByMajority cfg.voters P := by
  have hvoters : cfg.voters = {r} := by
    ext v
    rw [GroupConfig.mem_voters, Finset.mem_singleton]
    refine ⟨fun h => ?_, fun h => h ▸ ⟨hm, hr⟩⟩
    by_contra hne
    have := GroupConfig.mem_votingRemoteIds.mpr ⟨h.1, h.2, hne⟩
    simp [hn] at this
  exact ByMajority.of_list [r] (by simp) (by simp [hvoters]) (by simp [hvoters]) (by simpa using h)

section
variable (hI : ElectionInv cfg c)
include hI

lemma ElectionInv.finalize {now term ceiling : ℕ}
    (hq : ByMajority cfg.voters fun v => ⟨v, r, term⟩ ∈ c.votes)
    (hE : ∀ q, (c.nodes q).Evolves ((finalizeLeader c r now term ceiling).nodes q)) :
    ElectionInv cfg (finalizeLeader c r now term ceiling) := by
  have h : ElectionInv cfg { finalizeLeader c r now term ceiling with
      leaderships := c.leaderships } := by
    refine hI.extend hE (fun _ h => h) rfl (fun _ _ => .inl) (fun _ _ _ h _ => .inl h)
      (fun _ h => h) (fun q _ _ _ _ h => .inl ?_) rfl
    by_cases hqr : q = r
    · subst q; simp [finalizeLeader, setElection] at h
    · simpa [finalizeLeader, setElection, setNode, hqr] using h
  exact { h with led := forall_mem_cons.mpr ⟨hq, hI.led⟩ }

/-- Only requests and granted replies of the voting phase concern the election. -/
theorem ElectionInv.sends (hE : ∀ r, (c.nodes r).Evolves (d.nodes r)) (ps : List Packet)
    (hd : d.sent = ps ++ c.sent)
    (hps : ∀ p ∈ ps, (∀ env req, p ≠ .requestVote env req) ∧
      ∀ env req reply, p = .voteReply env req reply → reply.granted = false)
    (hvotes : d.votes = c.votes) (hpending : d.pendingVotes = c.pendingVotes)
    (helections : ∀ r, (d.elections r).isGathering = true → d.elections r = c.elections r)
    (hled : d.leaderships = c.leaderships) : ElectionInv cfg d := by
  refine hI.extend hE (fun p hp => hd ▸ mem_append_right _ hp) hvotes
    (fun env req h => .inl ?_) (fun env req reply h hg => .inl ?_) (fun x hx => hpending ▸ hx)
    (fun r _ _ _ _ h => .inl (helections r (by rw [h]; rfl) ▸ h)) hled
  · rw [hd] at h
    exact (mem_append.mp h).resolve_left fun h => absurd rfl ((hps _ h).1 env req)
  · rw [hd] at h
    exact (mem_append.mp h).resolve_left fun h => by
      simp [(hps _ h).2 env req reply rfl] at hg

lemma ElectionInv.move (hm : Move cfg strict c d) : ElectionInv cfg d := by
  have hE := hm.evolves
  cases hm with
  | node | tick | settle | enqueue | foldPrepare | foldAccept | choose =>
    exact hI.sends hE [] rfl (by simp) rfl rfl (fun _ _ => rfl) rfl
  | task r _ h =>
    refine hI.sends hE [] rfl (by simp) rfl rfl (fun q hq => ?_) rfl
    by_cases hqr : q = r
    · subst q; simp [setElection, h] at hq
    · simp [setElection, hqr]
  | post ps h =>
    refine hI.sends hE ps rfl (fun p hp => ⟨?_, ?_⟩) rfl rfl (fun _ _ => rfl) rfl
    · rintro env req rfl; exact h _ hp
    · rintro env req reply rfl; exact h _ hp
  | promise | take | base | prepare | proceed =>
    exact hI.sends hE _ rfl (by simp) rfl rfl (fun _ _ => rfl) rfl
  | selfVote r hr hv =>
    refine hI.vote hE (v := ⟨r, r, (c.nodes r).currentTerm⟩) ?_ ?_ ?_ ?_ ?_ ?_ ?_ <;>
      simp [selfVote, hr, hv]
    exact fun _ _ h => .inl h
  | gather r hm hv =>
    -- the requests are new, and the gathering task starts without replies
    refine hI.extend hE (fun _ h => mem_append_right _ h) rfl (fun env req h => ?_)
      (fun _ _ _ h _ => .inl ?_) (fun _ h => h) (fun q tag req ceiling replies h => ?_) rfl
    · rcases mem_append.mp h with h | h
      · obtain ⟨v, hv, he⟩ := mem_map.mp h
        cases he
        exact .inr ⟨hI.ident r, hv⟩
      · exact .inl h
    · exact (mem_append.mp h).resolve_left (by simp)
    · by_cases hqr : q = r
      · subst q
        simp only [fanOut, setElection, Function.update_self] at h
        cases h
        exact .inr ⟨hm, hI.ident r, hv, nodup_nil, by simp⟩
      · exact .inl (by simpa [fanOut, setElection, hqr] using h)
  | count env _ req _ _ reply ht hp hn =>
    refine hI.extend hE (fun _ h => h) rfl (fun _ _ h => .inl h) (fun _ _ _ h _ => .inl h)
      (fun _ h => h) (fun q _ _ _ _ h => ?_) rfl
    by_cases hqr : q = env.src
    · subst q
      simp only [setElection, Function.update_self] at h
      cases h
      obtain ⟨h1, h2, h3, h4, h5⟩ := hI.gathered _ _ _ _ _ ht
      refine .inr ⟨h1, h2, h3, by simpa using Nodup.concat hn h4, forall_mem_concat h5 fun hg => ?_⟩
      · obtain ⟨hreq, hvote⟩ := hI.replied env req reply hp hg
        exact ⟨(hI.asked env req hreq).2, h2 ▸ hvote⟩
    · exact .inl (by simpa [setElection, hqr] using h)
  | lead _ _ _ _ _ _ ht hq =>
    obtain ⟨-, -, hself, -, hgrant⟩ := hI.gathered _ _ _ _ _ ht
    exact hI.finalize (hI.granters_majority ht hq hself fun x hx hg => (hgrant x hx hg).2) hE
  | leadAlone _ _ hm hr hn hv => exact hI.finalize (majority_alone hm hr hn hv) hE
  | grant _ _ _ _ hp hR =>
    obtain ⟨hev, -, hterm, hvote, -⟩ := grantVote_some hR
    refine hI.vote hE rfl (by simpa using hterm) (by simpa using hvote) rfl rfl rfl ?_
    intro env' req' h
    rcases mem_cons.mp h with h | h
    · cases h
      exact .inr ⟨hp, rfl⟩
    · exact .inl h
  | answer _ _ hp =>
    refine hI.extend hE (fun _ => mem_append_right _) rfl (fun _ _ h => .inl ?_)
      (fun _ _ _ h _ => ?_) (fun _ => mem_of_mem_erase) (fun _ _ _ _ _ => .inl) rfl
    · exact (mem_append.mp h).resolve_left (by simp)
    · rcases mem_append.mp h with h | h
      · cases mem_singleton.mp h
        exact .inr hp
      · exact .inl h

end

/-- The election invariant of every run whose candidacies are clean. -/
theorem electionInv_of_reach
    (h : (group cfg).Reach (fun c a => candidacyGuard cfg c a = true) c) : ElectionInv cfg c :=
  reach_invariant False electionInv_boot (fun _ _ hI => hI.move)
    (h.mono fun _ _ hg => ⟨hg, fun hs => hs.elim⟩)

/-- One leader in a term: two majorities of votes share a voter. -/
theorem ElectionInv.one_leader (hI : ElectionInv cfg c) {l l' : Leadership}
    (hl : l ∈ c.leaderships) (hl' : l' ∈ c.leaderships) (ht : l.term = l'.term) :
    l.replica = l'.replica := by
  obtain ⟨v, hv, hv'⟩ := (hI.led l hl).meet (hI.led l' hl')
  exact hI.unique _ hv _ hv' rfl ht

end World

/-- In every run in which each won pre-vote round opens a term above the
replica's own and each candidate still holds its own vote when it starts to
gather: a term has at most one leader, a replica contributes its vote of a term
to one candidate only, and no step lowers a replica's term. -/
theorem election_safety (cfg : GroupConfig) {c : World}
    (h : (group cfg).Reach (fun c a => World.candidacyGuard cfg c a = true) c) :
    (∀ l ∈ c.leaderships, ∀ l' ∈ c.leaderships, l.term = l'.term → l.replica = l'.replica) ∧
      (∀ v ∈ c.votes, ∀ w ∈ c.votes, v.voter = w.voter → v.term = w.term →
        v.candidate = w.candidate) ∧
      ∀ a d, World.candidacyGuard cfg c a = true → (group cfg).step c a = some d →
        ∀ r, (c.nodes r).currentTerm ≤ (d.nodes r).currentTerm := by
  have hI := World.electionInv_of_reach h
  refine ⟨fun l hl l' => hI.one_leader hl, hI.unique, ?_⟩
  intro a d hg hd r
  have hm : World.Moves cfg False c d := World.step_moves hg (fun hs => hs.elim) hd
  clear hd
  induction hm with
  | refl => exact le_rfl
  | tail _ hm ih => exact ih.trans (hm.evolves r).term

/-- Three voting replicas with pre-votes and a ten-millisecond lease. -/
def trio : GroupConfig := ⟨[1, 2, 3], nodup_trio, fun _ => true, 10, true, false⟩

/-- Replicas 1 and 2 both win a pre-vote for term 1. Replica 2 grants its vote to
replica 1, which becomes leader, and only then reads the reply that makes
itself a candidate of the same term. -/
def overlappingPreVotes : List Action :=
  let req : ℕ → VoteRequestPayload := fun r => ⟨1, r, 0, 0⟩
  [.startPreVote 1 0, .startPreVote 2 0,
    .deliver (.preVote ⟨0, 1, 3⟩ (req 1)) 1, .deliver (.preVote ⟨1, 2, 3⟩ (req 2)) 1,
    .receivePreVote (.preVoteReply ⟨0, 1, 3⟩ (req 1) ⟨0, true, 0, 0, 0⟩) 2, .runCandidate 1 3,
    .deliver (.requestVote ⟨2, 1, 2⟩ (req 1)) 4, .answerVote ⟨2, 1, 2⟩ (req 1),
    .receiveVote (.voteReply ⟨2, 1, 2⟩ (req 1) ⟨1, true, 0, 0, 0⟩) 5,
    .receivePreVote (.preVoteReply ⟨1, 2, 3⟩ (req 2) ⟨0, true, 0, 0, 0⟩) 6, .runCandidate 2 7,
    .deliver (.requestVote ⟨3, 2, 3⟩ (req 2)) 8, .answerVote ⟨3, 2, 3⟩ (req 2),
    .receiveVote (.voteReply ⟨3, 2, 3⟩ (req 2) ⟨1, true, 0, 0, 0⟩) 9]

/-- Two leaders in one term, and a replica that voted for both. -/
theorem two_leaders_in_one_term : ∃ c, (group trio).Reach System.Free c ∧
    (∃ l ∈ c.leaderships, ∃ l' ∈ c.leaderships, l.term = l'.term ∧ l.replica ≠ l'.replica) ∧
      ∃ v ∈ c.votes, ∃ w ∈ c.votes, v.voter = w.voter ∧ v.term = w.term ∧
        v.candidate ≠ w.candidate :=
  ⟨_, System.reach_run overlappingPreVotes rfl, by decide +kernel, by decide +kernel⟩

/-- The first nine steps of the run are clean and elect replica 1. -/
theorem election_safety_clean_run : ∃ c,
    (group trio).Reach (fun c a => World.candidacyGuard trio c a = true) c ∧
      c.leaderships = [⟨1, 1, 1⟩] ∧
      ∀ l ∈ c.leaderships, ∀ l' ∈ c.leaderships, l.term = l'.term → l.replica = l'.replica := by
  have hr := System.reach_runGuarded (S := group trio) (g := World.candidacyGuard trio)
    (overlappingPreVotes.take 9) rfl
  exact ⟨_, hr, by decide +kernel, (election_safety trio hr).1⟩

end CrowDB.Cluster
