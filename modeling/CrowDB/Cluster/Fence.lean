import CrowDB.Cluster.Acceptance

/-!
# What an election fences

A replica that grants a vote reports the highest slot it has seen. From then on
it takes entries of the new term or later only, so at every slot above the
report it holds nothing older. The winner starts above all reports of its
majority; this is why a steady-state entry needs no Phase 1.
-/
namespace CrowDB.Cluster
open Paxos Lib List PxLocalReplica

namespace World
variable {cfg : GroupConfig} {strict : Prop} {c d : World}

/-- Replica `a` is in term `T` or later, and every entry it took at slot `n` or
above is of term `T` or later. -/
def Fenced (c : World) (a T n : ℕ) : Prop :=
  T ≤ (c.nodes a).currentTerm ∧ ∀ e, c.Took a e → e.slot < n ∨ T ≤ e.term

lemma Fenced.move (hm : Move cfg strict c d) {a T n : ℕ} (h : c.Fenced a T n) :
    d.Fenced a T n := by
  refine ⟨h.1.trans (hm.evolves a).term, fun e he => ?_⟩
  rcases hm.took he with he | ht
  · exact h.2 e he
  · exact .inr (h.1.trans ht)

lemma Fenced.mono {a T n m : ℕ} (h : c.Fenced a T n) (hnm : n ≤ m) : c.Fenced a T m :=
  ⟨h.1, fun e he => (h.2 e he).imp (fun hlt => hlt.trans_le hnm) id⟩

/-- A replica is fenced above its own highest seen slot. -/
theorem AcceptorInv.fenced (hA : AcceptorInv c) {a T n : ℕ} (hT : T ≤ (c.nodes a).currentTerm)
    (hn : (c.nodes a).acceptor.highestSeenSlot < n) : c.Fenced a T n :=
  ⟨hT, fun e he => .inl ((hA.took a e he).seen.trans_lt hn)⟩

structure LeaderInv (cfg : GroupConfig) (c : World) : Prop where
  pending : ∀ env req, (env, req) ∈ c.pendingVotes → req.term ≤ (c.nodes env.dst).currentTerm
  replied : ∀ env req reply, .voteReply env req reply ∈ c.sent → reply.granted = true →
    c.Fenced env.dst req.term (reply.highestSeenSlot + 1)
  gathered : ∀ r tag req ceiling replies, c.elections r = .gathering tag req ceiling replies →
    req.term ≤ (c.nodes r).currentTerm ∧
      ∀ x ∈ replies, x.2.granted = true → c.Fenced x.1 req.term (x.2.highestSeenSlot + 1)
  led : ∀ l ∈ c.leaderships, ByMajority cfg.voters fun v => c.Fenced v l.term l.firstSlot
  leading : ∀ r, (c.nodes r).role = .leader → ∃ l ∈ c.leaderships, l.replica = r ∧
    l.term = (c.nodes r).currentTerm ∧ l.firstSlot ≤ (c.nodes r).nextSlot

lemma leaderInv_boot : LeaderInv cfg boot := by
  constructor <;> simp [boot, fresh]

section
variable (hI : LeaderInv cfg c) (hm : Move cfg strict c d)
include hI hm

/-- Fences outlive every move, so only what a move adds has to be checked. -/
theorem LeaderInv.extend
    (hpending : ∀ env req, (env, req) ∈ d.pendingVotes → (env, req) ∈ c.pendingVotes ∨
      req.term ≤ (d.nodes env.dst).currentTerm)
    (hreplied : ∀ env req reply, .voteReply env req reply ∈ d.sent → reply.granted = true →
      .voteReply env req reply ∈ c.sent ∨ c.Fenced env.dst req.term (reply.highestSeenSlot + 1))
    (hgathered : ∀ r tag req ceiling replies, d.elections r = .gathering tag req ceiling replies →
      c.elections r = .gathering tag req ceiling replies ∨
      (req.term ≤ (c.nodes r).currentTerm ∧ ∀ x ∈ replies, x.2.granted = true →
      c.Fenced x.1 req.term (x.2.highestSeenSlot + 1)))
    (hsub : ∀ l ∈ c.leaderships, l ∈ d.leaderships)
    (hled : ∀ l ∈ d.leaderships, l ∈ c.leaderships ∨ ByMajority cfg.voters fun v =>
      c.Fenced v l.term l.firstSlot)
    (hleading : ∀ r, (d.nodes r).role = .leader →
      ((c.nodes r).role = .leader ∧ (d.nodes r).currentTerm = (c.nodes r).currentTerm) ∨
      ∃ l ∈ d.leaderships, l.replica = r ∧ l.term = (d.nodes r).currentTerm ∧
      l.firstSlot ≤ (d.nodes r).nextSlot) :
    LeaderInv cfg d where
  pending env req h := (hpending env req h).elim
    (fun h => (hI.pending env req h).trans (hm.evolves _).term) id
  replied env req reply h hg := ((hreplied env req reply h hg).elim
    (fun h => hI.replied env req reply h hg) id).move hm
  gathered r tag req ceiling replies h := by
    obtain ⟨h1, h2⟩ := (hgathered r tag req ceiling replies h).elim
      (hI.gathered r tag req ceiling replies) id
    exact ⟨h1.trans (hm.evolves r).term, fun x hx hg => (h2 x hx hg).move hm⟩
  led l hl := ((hled l hl).elim (hI.led l) id).mono fun v hv => hv.move hm
  leading r hr := by
    rcases hleading r hr with ⟨h, ht⟩ | h
    · obtain ⟨l, hl, h1, h2, h3⟩ := hI.leading r h
      exact ⟨l, hsub l hl, h1, h2.trans ht.symm, h3.trans (hm.evolves r).nextSlot⟩
    · exact h

/-- Moves that add nothing to the election. -/
theorem LeaderInv.keep (hpending : d.pendingVotes = c.pendingVotes)
    (hreplied : ∀ env req reply, .voteReply env req reply ∈ d.sent → reply.granted = true →
      .voteReply env req reply ∈ c.sent)
    (hgathered : ∀ r, (d.elections r).isGathering = true → d.elections r = c.elections r)
    (hled : d.leaderships = c.leaderships)
    (hleading : ∀ r, (d.nodes r).role = .leader → (c.nodes r).role = .leader ∧
      (d.nodes r).currentTerm = (c.nodes r).currentTerm) :
    LeaderInv cfg d := by
  refine hI.extend hm (fun _ _ h => .inl (hpending ▸ h))
    (fun _ _ _ h hg => .inl (hreplied _ _ _ h hg))
    (fun r tag req ceiling replies h => .inl ?_) (fun _ h => hled ▸ h) (fun _ h => .inl (hled ▸ h))
    (fun r h => .inl (hleading r h))
  rw [← hgathered r (by rw [h]; rfl)]
  exact h

end

lemma setNode_role {r : ℕ} {R : PxLocalReplica}
    (h : R.role = .leader → (c.nodes r).role = .leader ∧ R.currentTerm = (c.nodes r).currentTerm)
    (q : ℕ) (hq : ((c.setNode r R).nodes q).role = .leader) :
    (c.nodes q).role = .leader ∧
      ((c.setNode r R).nodes q).currentTerm = (c.nodes q).currentTerm := by
  by_cases hqr : q = r
  · subst q; simpa using h (by simpa using hq)
  · simpa [setNode, hqr] using hq

/-- Every granted report is below the winner's first slot. -/
theorem le_peerCeiling (ceiling : ℕ) {replies : List (ℕ × VoteReply)} {x : ℕ × VoteReply}
    (hx : x ∈ replies) (hg : x.2.granted = true) :
    x.2.highestSeenSlot ≤ peerCeiling ceiling replies := by
  have hfold : ∀ (l : List (ℕ × VoteReply)) (m : ℕ),
      m ≤ l.foldl (fun m v => max m v.2.highestSeenSlot) m ∧
        ∀ x ∈ l, x.2.highestSeenSlot ≤ l.foldl (fun m v => max m v.2.highestSeenSlot) m := by
    intro l
    induction l with
    | nil => simp
    | cons y _ ih =>
      intro m
      obtain ⟨h1, h2⟩ := ih (max m y.2.highestSeenSlot)
      exact ⟨(le_max_left _ _).trans h1, forall_mem_cons.mpr ⟨(le_max_right _ _).trans h1, h2⟩⟩
  exact (hfold _ ceiling).2 x (mem_filter.mpr ⟨hx, hg⟩)

/-- A winner whose majority is fenced at its first slot, in its own term. -/
theorem LeaderInv.finalize (hI : LeaderInv cfg c) {r now ceiling : ℕ} (hm : Move cfg strict c d)
    (hd : d = finalizeLeader c r now (c.nodes r).currentTerm ceiling)
    (hq : ByMajority cfg.voters fun v => c.Fenced v (c.nodes r).currentTerm
      ((c.nodes r).finalizeLeader now (c.nodes r).currentTerm ceiling).nextSlot) :
    LeaderInv cfg d := by
  subst hd
  refine hI.extend hm (fun _ _ h => .inl h) (fun _ _ _ h _ => .inl h) ?_
    (fun _ h => mem_cons_of_mem _ h) ?_ ?_
  · intro q tag req ceiling' replies h
    by_cases hqr : q = r
    · subst q; simp [finalizeLeader, setElection] at h
    · exact .inl (by simpa [finalizeLeader, setElection, setNode, hqr] using h)
  · intro l hl
    rcases mem_cons.mp hl with rfl | hl
    · exact .inr hq
    · exact .inl hl
  · intro q hq
    by_cases hqr : q = r
    · subst q
      exact .inr ⟨_, mem_cons_self, rfl, by simp [finalizeLeader, setElection,
        PxLocalReplica.finalizeLeader, PxLocalReplica.becomeLeader],
        by simp [finalizeLeader, setElection]⟩
    · exact .inl (by simpa [finalizeLeader, setElection, setNode, hqr] using hq)

lemma LeaderInv.move (hI : LeaderInv cfg c) (hA : AcceptorInv c) (hV : ElectionInv cfg c)
    (hm : Move cfg True c d) : LeaderInv cfg d := by
  have hm' := hm
  have hkeep := hI.keep hm
  have hadd := hI.extend hm
  cases hm with
  | node _ _ _ _ hL =>
    exact hkeep rfl (fun _ _ _ h _ => h) (fun _ _ => rfl) rfl (setNode_role hL)
  | tick | settle | enqueue | foldPrepare | foldAccept | choose =>
    exact hkeep rfl (fun _ _ _ h _ => h) (fun _ _ => rfl) rfl (fun _ h => ⟨h, rfl⟩)
  | task r _ h =>
    refine hkeep rfl (fun _ _ _ h _ => h) (fun q hq => ?_) rfl (fun _ h => ⟨h, rfl⟩)
    by_cases hqr : q = r
    · subst q; simp [setElection, h] at hq
    · simp [setElection, hqr]
  | post _ h =>
    refine hkeep rfl (fun env req reply hp hg => ?_) (fun _ _ => rfl) rfl (fun _ h => ⟨h, rfl⟩)
    rcases mem_append.mp hp with hp | hp
    · have := h _ hp
      simp [Packet.isQuiet, hg] at this
    · exact hp
  | promise | take =>
    refine hkeep rfl (fun _ _ _ h _ => by simpa [send, setNode] using h) (fun _ _ => rfl) rfl
      (setNode_role ?_)
    first | exact role_onPrepare | exact role_onAccept
  | base =>
    exact hkeep rfl (fun _ _ _ h _ => by simpa [startAccept, fanOut, setNode, setProposal] using h)
      (fun _ _ => rfl) rfl (setNode_role fun h => ⟨h, rfl⟩)
  | prepare | proceed =>
    exact hkeep rfl
      (fun _ _ _ h _ => by simpa [startPrepare, startAccept, fanOut, setProposal] using h)
      (fun _ _ => rfl) rfl (fun _ h => ⟨h, rfl⟩)
  | selfVote =>
    refine hkeep ?_ (fun _ _ _ h _ => ?_) ?_ ?_ ?_ <;> simp_all [selfVote]
  | gather r =>
    refine hadd (fun _ _ => .inl) (fun _ _ _ h _ => .inl ?_) ?_ (fun _ h => h)
      (fun _ => .inl) (fun _ h => .inl ⟨h, rfl⟩)
    · next h _ => simpa [fanOut, setElection] using h
    · intro q tag req ceiling replies h
      by_cases hqr : q = r
      · subst q
        simp only [fanOut, setElection, Function.update_self] at h
        cases h
        exact .inr ⟨le_rfl, by simp⟩
      · exact .inl (by simpa [fanOut, setElection, hqr] using h)
  | count env _ req _ _ reply ht hp =>
    refine hadd (fun _ _ => .inl) (fun _ _ _ h _ => .inl h) ?_ (fun _ h => h)
      (fun _ => .inl) (fun _ h => .inl ⟨h, rfl⟩)
    intro q tag' req' ceiling' replies' h
    by_cases hqr : q = env.src
    · subst q
      simp only [setElection, Function.update_self] at h
      cases h
      obtain ⟨h1, h2⟩ := hI.gathered _ _ _ _ _ ht
      exact .inr ⟨h1, forall_mem_concat h2 (hI.replied env req reply hp)⟩
    · exact .inl (by simpa [setElection, hqr] using h)
  | lead _ _ _ _ ceiling _ ht hq hs =>
    have hterm := hs trivial
    obtain ⟨-, hpeer⟩ := hI.gathered _ _ _ _ _ ht
    rw [← hterm] at hpeer
    refine hI.finalize hm' (by rw [hterm])
      (hV.granters_majority ht hq (fun _ => hA.fenced le_rfl ?_) fun x hx hg => ?_)
    · simp only [PxLocalReplica.finalizeLeader, becomeLeader,
        slotCeiling]
      omega
    · refine (hpeer x hx hg).mono ?_
      have := le_peerCeiling ceiling hx hg
      simp only [PxLocalReplica.finalizeLeader, becomeLeader,
        slotCeiling]
      omega
  | leadAlone _ _ hr hv hn =>
    refine hI.finalize hm' rfl (majority_alone hr hv hn (hA.fenced le_rfl ?_))
    simp only [PxLocalReplica.finalizeLeader, becomeLeader,
      slotCeiling]
    omega
  | grant _ _ _ _ _ hR =>
    obtain ⟨-, -, hterm, -, hrole⟩ := grantVote_some hR
    refine hadd ?_ (fun _ _ _ h _ => .inl h) (fun _ _ _ _ _ => .inl) (fun _ h => h)
      (fun _ => .inl) (fun q h => .inl (setNode_role (by simp [hrole]) q h))
    intro env' req' h
    rcases mem_cons.mp h with h | h
    · cases h
      exact .inr (by simp [hterm])
    · exact .inl h
  | answer env req hp =>
    refine hadd (fun _ _ h => .inl (mem_of_mem_erase h)) ?_ (fun _ _ _ _ _ => .inl)
      (fun _ h => h) (fun _ => .inl) (fun _ h => .inl ⟨h, rfl⟩)
    intro env' req' reply h hg
    rcases mem_append.mp h with h | h
    · cases mem_singleton.mp h
      exact .inr (hA.fenced (hI.pending env req hp) (Nat.lt_succ_self _))
    · exact .inl h

end World
end CrowDB.Cluster
