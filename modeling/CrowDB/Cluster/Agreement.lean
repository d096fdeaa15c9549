import CrowDB.Cluster.Fence

/-!
# Agreement on every slot

An entry is proposed either as the steady-state entry of a leader, backed by
the fence of its election, or after Phase 1, backed by a majority of promises.
Ordered by term and then by ballot, a proposal above a chosen entry of the same
slot repeats the payload of a proposal in between, as `proposed_above_chosen`
asks for. Adoption in the source compares ballots only; where it prefers an
entry of an older term the argument, and agreement with it, fails.
-/
namespace CrowDB.Cluster
open Paxos Lib List World Proposal

namespace World
variable {cfg : GroupConfig} {strict : Prop} {c d : World}

/-! ## Packets answer packets -/

/-- Where a Paxos packet comes from. -/
def Packet.IsWired (cfg : GroupConfig) (c : World) : Packet → Prop
  | .prepare env _ _ _ | .accept env _ => env.dst ∈ cfg.members
  | .prepareReply env s b t _ => .prepare env s b t ∈ c.sent
  | .acceptReply env e _ => .accept env e ∈ c.sent
  | _ => True

def WireInv (cfg : GroupConfig) (c : World) : Prop := ∀ p ∈ c.sent, Packet.IsWired cfg c p

lemma Packet.isWired_of_isQuiet {p : Packet} (h : p.isQuiet) : Packet.IsWired cfg c p := by
  cases p <;> trivial

lemma Move.sent_new (hm : Move cfg strict c d) {p : Packet} (hp : p ∈ d.sent) :
    p ∈ c.sent ∨ Packet.IsWired cfg c p := by
  cases hm with
  | node | task | tick | settle | enqueue | count | lead | leadAlone | grant | foldPrepare
  | foldAccept | choose => exact .inl hp
  | selfVote r hr hv => exact .inl (by simpa [World.selfVote, hr] using hp)
  | post ps h =>
    exact (mem_append.mp hp).elim (fun hp => .inr (Packet.isWired_of_isQuiet (h _ hp))) .inl
  | gather | answer =>
    rcases mem_append.mp hp with hp | hp
    · refine .inr ?_
      simp only [mem_map, mem_singleton] at hp
      first | (subst hp; trivial) | (obtain ⟨v, -, rfl⟩ := hp; trivial)
    · exact .inl hp
  | promise _ _ _ _ _ hq | take _ _ _ hq =>
    exact (mem_append.mp hp).elim (fun hp => .inr (mem_singleton.mp hp ▸ hq)) .inl
  | base | prepare | proceed =>
    rcases mem_append.mp hp with hp | hp
    · obtain ⟨v, hv, rfl⟩ := mem_map.mp hp
      exact .inr hv
    · exact .inl hp

lemma WireInv.move (hI : WireInv cfg c) (hm : Move cfg strict c d) : WireInv cfg d := by
  intro p hp
  have hw : Packet.IsWired cfg c p := (hm.sent_new hp).elim (hI p) id
  cases p with
  | prepareReply | acceptReply => exact hm.sent_subset hw
  | _ => exact hw

variable {env : Envelope}

lemma WireInv.promiser {s : ℕ} {b : PxBallot} {t : ℕ} {r : PxPrepareReply} (hI : WireInv cfg c)
    (h : .prepareReply env s b t r ∈ c.sent) : env.dst ∈ cfg.members :=
  hI _ (hI _ h)

variable {e : PxLogEntry}

lemma WireInv.acceptor {r : PxAcceptReply} (hI : WireInv cfg c)
    (h : .acceptReply env e r ∈ c.sent) : env.dst ∈ cfg.members :=
  hI _ (hI _ h)

/-! ## Proposals -/

def Proposed (c : World) (e : PxLogEntry) : Prop := e ∈ c.bases ∨ ∃ tag, (tag, e) ∈ c.prepared

/-- Replica `a` promised in the attempt `tag` for `e`, and what it reported is
covered by an older entry of the slot with the payload of `e`. -/
def Backs (c : World) (tag : ℕ) (e : PxLogEntry) (a : ℕ) : Prop :=
  ∃ env s acc, Packet.prepareReply env e.slot e.ballot e.term (.promised s acc) ∈ c.sent ∧
    env.dst = a ∧ env.tag = tag ∧ ∀ x ∈ acc, ∃ a' y, c.Took a' y ∧ y.slot = e.slot ∧
      y.payload = e.payload ∧ Covers y x ∧ y.ballot < e.ballot ∧ y.term ≤ e.term

structure PrepareTask (c : World) (p : Proposal) (tag : ℕ) (entry : PxLogEntry)
    (replies : List (ℕ × PxPrepareReply)) : Prop where
  tag_lt : tag < c.nextTag
  unused : ∀ e, (tag, e) ∉ c.prepared
  round : 0 < entry.ballot.round
  nodup : (replies.map Prod.fst).Nodup
  tenure : ∀ term, p.kind = .recovery term → entry.term = term
  replied : ∀ x ∈ replies, ∃ env : Envelope, env.tag = tag ∧ env.dst = x.1 ∧
    .prepareReply env entry.slot entry.ballot entry.term x.2 ∈ c.sent

structure AcceptTask (c : World) (entry : PxLogEntry) (replies : List (ℕ × PxAcceptReply)) :
    Prop where
  proposed : c.Proposed entry
  nodup : (replies.map Prod.fst).Nodup
  replied : ∀ x ∈ replies, ∃ env : Envelope, env.dst = x.1 ∧ .acceptReply env entry x.2 ∈ c.sent

structure BaseHolds (c : World) (e : PxLogEntry) : Prop where
  round : e.ballot.round = 0
  slot_lt : e.slot < (c.nodes e.ballot.leaderId).nextSlot
  led : ∃ l ∈ c.leaderships, l.replica = e.ballot.leaderId ∧ l.term = e.term ∧ l.firstSlot ≤ e.slot

structure ProposalInv (cfg : GroupConfig) (c : World) : Prop where
  base : ∀ e ∈ c.bases, c.BaseHolds e
  base_unique : ∀ e ∈ c.bases, ∀ e' ∈ c.bases, e.slot = e'.slot → e.ballot = e'.ballot → e = e'
  prepared : ∀ tag e, (tag, e) ∈ c.prepared →
    tag < c.nextTag ∧ 0 < e.ballot.round ∧ ByMajority cfg.voters (c.Backs tag e)
  prepared_unique : ∀ tag e e', (tag, e) ∈ c.prepared → (tag, e') ∈ c.prepared → e = e'
  preparing : ∀ (k : ℕ) p tag entry replies, c.proposals[k]? = some p →
    p.stage = .preparing tag entry replies → c.PrepareTask p tag entry replies
  preparing_tag : ∀ (k k' : ℕ) p p' tag entry entry' replies replies',
    c.proposals[k]? = some p → c.proposals[k']? = some p' → p.stage = .preparing tag entry replies →
      p'.stage = .preparing tag entry' replies' → k = k'
  accepting : ∀ (k : ℕ) p tag entry replies, c.proposals[k]? = some p →
    p.stage = .accepting tag entry replies → c.AcceptTask entry replies
  requested : ∀ env e, .accept env e ∈ c.sent → c.Proposed e
  chosen : ∀ e ∈ c.chosen, ByMajority cfg.voters (c.Took · e)

lemma proposalInv_boot : ProposalInv cfg boot := by
  constructor <;> simp [boot]

/-- History and counters only grow. -/
structure Extends (c d : World) : Prop where
  sent : ∀ p ∈ c.sent, p ∈ d.sent
  bases : ∀ e ∈ c.bases, e ∈ d.bases
  prepared : ∀ x ∈ c.prepared, x ∈ d.prepared
  leaderships : ∀ l ∈ c.leaderships, l ∈ d.leaderships
  nextTag : c.nextTag ≤ d.nextTag
  nextSlot : ∀ r, (c.nodes r).nextSlot ≤ (d.nodes r).nextSlot

lemma Move.extends (hm : Move cfg strict c d) : Extends c d := by
  refine ⟨fun p => hm.sent_subset, ?_, ?_, ?_, ?_, fun r => (hm.evolves r).nextSlot⟩
  all_goals cases hm
  case refine_1.base => exact fun e => mem_cons_of_mem _
  case refine_2.proceed => exact fun x => mem_cons_of_mem _
  case refine_3.lead | refine_3.leadAlone => exact fun l => mem_cons_of_mem _
  case refine_4.tick | refine_4.gather | refine_4.base | refine_4.prepare | refine_4.proceed =>
    exact Nat.le_succ _
  case refine_1.selfVote r hr hv | refine_2.selfVote r hr hv | refine_3.selfVote r hr hv
      | refine_4.selfVote r hr hv => simp [World.selfVote, hr]
  all_goals first | exact fun _ h => h | exact le_rfl

lemma Proposed.mono (h : Extends c d) (hp : c.Proposed e) : d.Proposed e :=
  hp.imp (h.bases e) fun ⟨tag, ht⟩ => ⟨tag, h.prepared _ ht⟩

variable {tag : ℕ}

lemma Backs.mono (h : Extends c d) {a : ℕ} (hb : c.Backs tag e a) : d.Backs tag e a := by
  obtain ⟨env, s, acc, hp, ha, ht, hx⟩ := hb
  refine ⟨env, s, acc, h.sent _ hp, ha, ht, fun x hxa => ?_⟩
  obtain ⟨a', y, hT, hy⟩ := hx x hxa
  exact ⟨a', y, hT.mono h.sent, hy⟩

variable {entry : PxLogEntry}

lemma AcceptTask.mono (h : Extends c d) {replies : List (ℕ × PxAcceptReply)}
    (ht : c.AcceptTask entry replies) : d.AcceptTask entry replies where
  proposed := ht.proposed.mono h
  nodup := ht.nodup
  replied x hx := by
    obtain ⟨env, ha, hp⟩ := ht.replied x hx
    exact ⟨env, ha, h.sent _ hp⟩

variable {p : Proposal} {replies : List (ℕ × PxPrepareReply)}

lemma PrepareTask.mono (h : Extends c d) (ht : c.PrepareTask p tag entry replies)
    (hu : ∀ e, (tag, e) ∉ d.prepared) : d.PrepareTask p tag entry replies where
  tag_lt := ht.tag_lt.trans_le h.nextTag
  unused := hu
  round := ht.round
  nodup := ht.nodup
  tenure := ht.tenure
  replied x hx := by
    obtain ⟨env, h1, h2, hp⟩ := ht.replied x hx
    exact ⟨env, h1, h2, h.sent _ hp⟩

lemma BaseHolds.mono (h : Extends c d) (hb : c.BaseHolds e) : d.BaseHolds e where
  round := hb.round
  slot_lt := hb.slot_lt.trans_le (h.nextSlot _)
  led := by
    obtain ⟨l, hl, hx⟩ := hb.led
    exact ⟨l, h.leaderships l hl, hx⟩

section
variable (hI : ProposalInv cfg c) (hX : Extends c d) (hb : d.bases = c.bases)
  (hp : d.prepared = c.prepared)
include hI hX hb hp

/-- With no new steady-state or prepared entry, only the task of one proposal,
new accept requests and new decisions have to be justified. -/
theorem ProposalInv.frame (k₀ : ℕ)
    (hother : ∀ (k : ℕ) p, k ≠ k₀ → d.proposals[k]? = some p → c.proposals[k]? = some p)
    (hprep : ∀ p tag entry replies, d.proposals[k₀]? = some p →
      p.stage = .preparing tag entry replies → d.PrepareTask p tag entry replies ∧
      ∀ (k : ℕ) q entry' replies', c.proposals[k]? = some q →
      q.stage = .preparing tag entry' replies' → k = k₀)
    (hacc : ∀ p tag entry replies, d.proposals[k₀]? = some p →
      p.stage = .accepting tag entry replies → d.AcceptTask entry replies)
    (hreq : ∀ env e, .accept env e ∈ d.sent → .accept env e ∈ c.sent ∨ d.Proposed e)
    (hch : ∀ e ∈ d.chosen, e ∈ c.chosen ∨ ByMajority cfg.voters (c.Took · e)) :
    ProposalInv cfg d where
  base e he := (hI.base e (hb ▸ he)).mono hX
  base_unique := by rw [hb]; exact hI.base_unique
  prepared tag e he := by
    obtain ⟨h1, h2, h3⟩ := hI.prepared tag e (hp ▸ he)
    exact ⟨h1.trans_le hX.nextTag, h2, h3.mono fun a ha => ha.mono hX⟩
  prepared_unique := by rw [hp]; exact hI.prepared_unique
  preparing k p tag entry replies hk hs := by
    by_cases h : k = k₀
    · subst k; exact (hprep p tag entry replies hk hs).1
    · have ht := hI.preparing k p tag entry replies (hother k p h hk) hs
      exact ht.mono hX (hp ▸ ht.unused)
  preparing_tag k k' p p' tag entry entry' replies replies' hk hk' hs hs' := by
    by_cases h : k = k₀
    · by_cases h' : k' = k₀
      · exact h.trans h'.symm
      · subst k
        exact ((hprep p tag entry replies hk hs).2 k' p' entry' replies'
          (hother k' p' h' hk') hs').symm
    · by_cases h' : k' = k₀
      · subst k'
        exact (hprep p' tag entry' replies' hk' hs').2 k p entry replies (hother k p h hk) hs
      · exact hI.preparing_tag k k' p p' tag entry entry' replies replies' (hother k p h hk)
          (hother k' p' h' hk') hs hs'
  accepting k p tag entry replies hk hs := by
    by_cases h : k = k₀
    · subst k; exact hacc p tag entry replies hk hs
    · exact (hI.accepting k p tag entry replies (hother k p h hk) hs).mono hX
  requested env e h := (hreq env e h).elim (fun h => (hI.requested env e h).mono hX) id
  chosen e he := ((hch e he).elim (hI.chosen e) id).mono fun _ ha => ha.mono hX.sent

/-- No proposal moves: the index past the end stands for the changed one. -/
theorem ProposalInv.still (hk : d.proposals = c.proposals)
    (hreq : ∀ env e, .accept env e ∈ d.sent → .accept env e ∈ c.sent)
    (hch : ∀ e ∈ d.chosen, e ∈ c.chosen ∨ ByMajority cfg.voters (c.Took · e)) :
    ProposalInv cfg d := by
  refine hI.frame hX hb hp c.proposals.length (fun k p _ h => hk ▸ h) ?_ ?_
    (fun env e h => .inl (hreq env e h)) hch
  all_goals
    intro p tag entry replies h
    simp [hk] at h

end

variable {k : ℕ}

lemma setProposal_cases {j : ℕ} {q : Proposal} (h : (c.setProposal k q).proposals[j]? = some p) :
    (j = k ∧ p = q) ∨ (j ≠ k ∧ c.proposals[j]? = some p) := by
  by_cases hjk : j = k
  · subst j
    have hlt : k < c.proposals.length := by
      simpa [setProposal] using (List.getElem?_eq_some_iff.mp h).1
    exact .inl ⟨rfl, by simpa [setProposal, hlt, eq_comm] using h⟩
  · exact .inr ⟨hjk, by simpa [setProposal, Ne.symm hjk] using h⟩

lemma Extends.of_sent (hs : ∀ p ∈ c.sent, p ∈ d.sent) (hb : d.bases = c.bases)
    (hp : d.prepared = c.prepared) (hl : d.leaderships = c.leaderships)
    (ht : c.nextTag ≤ d.nextTag) (hn : d.nodes = c.nodes) : Extends c d :=
  ⟨hs, fun _ h => hb ▸ h, fun _ h => hp ▸ h, fun _ h => hl ▸ h, ht, fun _ => hn ▸ le_rfl⟩

section
variable (hI : ProposalInv cfg c)
include hI

/-- One proposal moves. -/
theorem ProposalInv.replace (hX : Extends c d) (hb : d.bases = c.bases)
    (hp : d.prepared = c.prepared) (hk : d.proposals = (c.setProposal k p).proposals)
    (hprep : ∀ tag entry replies, p.stage = .preparing tag entry replies →
      d.PrepareTask p tag entry replies ∧ ∀ (j : ℕ) q entry' replies', c.proposals[j]? = some q →
        q.stage = .preparing tag entry' replies' → j = k)
    (hacc : ∀ tag entry replies, p.stage = .accepting tag entry replies →
      d.AcceptTask entry replies)
    (hreq : ∀ env e, .accept env e ∈ d.sent → .accept env e ∈ c.sent ∨ d.Proposed e)
    (hch : d.chosen = c.chosen) : ProposalInv cfg d := by
  have hself : ∀ q, d.proposals[k]? = some q → q = p := fun q hq =>
    (setProposal_cases (hk ▸ hq)).elim And.right fun h => absurd rfl h.1
  refine hI.frame hX hb hp k (fun j q hj hq => ?_) (fun q tag entry replies hq => ?_)
    (fun q tag entry replies hq => ?_) hreq fun _ h => .inl (hch ▸ h)
  · exact (setProposal_cases (hk ▸ hq)).elim (fun h => absurd h.1 hj) And.right
  · exact hself q hq ▸ hprep tag entry replies
  · exact hself q hq ▸ hacc tag entry replies

/-- A proposal that goes back to waiting leaves nothing to justify. -/
theorem ProposalInv.settle (h : p.isWaiting = true) : ProposalInv cfg (c.setProposal k p) := by
  refine hI.replace (.of_sent (fun _ h => h) rfl rfl rfl le_rfl rfl) rfl rfl rfl
    (fun _ _ _ hs => ?_) (fun _ _ _ hs => ?_) (fun _ _ => .inl) rfl
  all_goals simp [isWaiting, hs] at h

/-- Accept requests for an entry that has been proposed. -/
theorem ProposalInv.startAccept (he : c.Proposed e) :
    ProposalInv cfg (startAccept cfg c k p e) := by
  have hX : Extends c (World.startAccept cfg c k p e) :=
    .of_sent (fun _ => mem_append_right _) rfl rfl rfl (Nat.le_succ _) rfl
  refine hI.replace hX rfl rfl rfl (fun _ _ _ hs => ?_) (fun _ _ _ hs => ?_) ?_ rfl
  · simp [ready] at hs
  · simp only [ready] at hs
    obtain ⟨-, rfl, rfl⟩ := hs
    exact ⟨he.mono hX, nodup_nil, by simp⟩
  · intro env e' h
    rcases mem_append.mp h with h | h
    · obtain ⟨v, -, hv⟩ := mem_map.mp h
      cases hv
      exact .inr (he.mono hX)
    · exact .inl h

/-- A steady-state entry that takes a slot nobody gave to its leader before. -/
theorem ProposalInv.addBase (he : c.BaseHolds e)
    (hnew : ∀ e' ∈ c.bases, e'.ballot = e.ballot → e'.slot ≠ e.slot) :
    ProposalInv cfg { c with bases := e :: c.bases } := by
  have hX : Extends c { c with bases := e :: c.bases } :=
    ⟨fun _ h => h, fun _ => mem_cons_of_mem _, fun _ h => h, fun _ h => h, le_rfl,
      fun _ => le_rfl⟩
  refine ⟨?_, ?_, hI.prepared, hI.prepared_unique, ?_, hI.preparing_tag, ?_, ?_, hI.chosen⟩
  · intro x hx
    rcases mem_cons.mp hx with rfl | hx
    · exact he.mono hX
    · exact (hI.base x hx).mono hX
  · intro x hx y hy hslot hballot
    rcases mem_cons.mp hx with rfl | hx'
    · rcases mem_cons.mp hy with rfl | hy'
      · rfl
      · exact absurd hslot.symm (hnew y hy' hballot.symm)
    · rcases mem_cons.mp hy with rfl | hy'
      · exact absurd hslot (hnew x hx' hballot)
      · exact hI.base_unique x hx' y hy' hslot hballot
  · intro k p tag entry replies hk hs
    have ht := hI.preparing k p tag entry replies hk hs
    exact ht.mono hX ht.unused
  · exact fun k p tag entry replies hk hs => (hI.accepting k p tag entry replies hk hs).mono hX
  · exact fun env x h => (hI.requested env x h).mono hX

/-- A prepared entry under a tag that no attempt uses any more. -/
theorem ProposalInv.addPrepared (ht : tag < c.nextTag) (hr : 0 < e.ballot.round)
    (hq : ByMajority cfg.voters (c.Backs tag e)) (hu : ∀ e', (tag, e') ∉ c.prepared)
    (hfree : ∀ (k : ℕ) p entry replies, c.proposals[k]? = some p →
      p.stage ≠ .preparing tag entry replies) :
    ProposalInv cfg { c with prepared := (tag, e) :: c.prepared } := by
  have hX : Extends c { c with prepared := (tag, e) :: c.prepared } :=
    ⟨fun _ h => h, fun _ h => h, fun _ => mem_cons_of_mem _, fun _ h => h, le_rfl,
      fun _ => le_rfl⟩
  refine ⟨fun x hx => (hI.base x hx).mono hX, hI.base_unique, ?_, ?_, ?_, hI.preparing_tag, ?_, ?_,
    hI.chosen⟩
  · intro tag' e' h
    rcases mem_cons.mp h with h | h
    · cases h; exact ⟨ht, hr, hq⟩
    · exact hI.prepared tag' e' h
  · intro tag' x y hx hy
    rcases mem_cons.mp hx with hx | hx <;> rcases mem_cons.mp hy with hy | hy
    · cases hx; cases hy; rfl
    · cases hx; exact absurd hy (hu y)
    · cases hy; exact absurd hx (hu x)
    · exact hI.prepared_unique tag' x y hx hy
  · intro k p tag' entry replies hk hs
    have ht := hI.preparing k p tag' entry replies hk hs
    refine ht.mono hX fun x hx => ?_
    rcases mem_cons.mp hx with hx | hx
    · cases hx; exact hfree k p entry replies hk hs
    · exact ht.unused x hx
  · exact fun k p tag entry replies hk hs => (hI.accepting k p tag entry replies hk hs).mono hX
  · exact fun env x h => (hI.requested env x h).mono hX

/-- Phase 1 starts under a fresh tag. -/
theorem ProposalInv.startPrepare {slot : ℕ} {payload : Bytes} {minRound : ℕ}
    (hr : ∀ term, p.kind = .recovery term → (c.nodes p.owner).currentTerm = term) :
    ProposalInv cfg (startPrepare cfg c k p slot payload minRound) := by
  have hX : Extends c (World.startPrepare cfg c k p slot payload minRound) :=
    .of_sent (fun _ => mem_append_right _) rfl rfl rfl (Nat.le_succ _) rfl
  refine hI.replace hX rfl rfl rfl (fun _ _ _ hs => ?_) (fun _ _ _ hs => ?_) ?_ rfl
  · simp only [ready] at hs
    obtain ⟨rfl, rfl, rfl⟩ := hs
    refine ⟨⟨Nat.lt_succ_self _, ?_, Nat.succ_pos _, nodup_nil, hr, by simp⟩, ?_⟩
    · exact fun e he => absurd (hI.prepared _ e he).1 (Nat.lt_irrefl _)
    · exact fun j q entry' replies' hj hs' =>
        absurd (hI.preparing j q _ entry' replies' hj hs').tag_lt (Nat.lt_irrefl _)
  · simp [ready] at hs
  · intro env e' h
    rcases mem_append.mp h with h | h
    · simp at h
    · exact .inl h

lemma ProposalInv.foldPrepare {reply : PxPrepareReply} (hk : c.proposals[k]? = some p)
    (hs : p.stage = .preparing tag entry replies)
    (hp : .prepareReply env entry.slot entry.ballot entry.term reply ∈ c.sent) (ht : env.tag = tag)
    (hn : env.dst ∉ replies.map Prod.fst) :
    ProposalInv cfg
      (c.setProposal k (p.ready (.preparing tag entry (replies ++ [(env.dst, reply)])))) := by
  refine hI.replace (.of_sent (fun _ h => h) rfl rfl rfl le_rfl rfl) rfl rfl rfl
    (fun _ _ _ hs' => ?_) (fun _ _ _ hs' => ?_) (fun _ _ => .inl) rfl
  · obtain ⟨rfl, rfl, rfl⟩ := hs'
    have hT := hI.preparing k p tag entry replies hk hs
    refine ⟨⟨hT.tag_lt, hT.unused, hT.round, by simpa using Nodup.concat hn hT.nodup,
      hT.tenure, forall_mem_concat hT.replied ⟨env, ht, rfl, hp⟩⟩, ?_⟩
    · exact fun j q entry' replies' hj hs' =>
        hI.preparing_tag j k q p tag entry' entry replies' replies hj hk hs' hs
  · simp [ready] at hs'

lemma ProposalInv.foldAccept {replies : List (ℕ × PxAcceptReply)} {reply : PxAcceptReply}
    (hk : c.proposals[k]? = some p) (hs : p.stage = .accepting tag entry replies)
    (hp : .acceptReply env entry reply ∈ c.sent) (hn : env.dst ∉ replies.map Prod.fst) :
    ProposalInv cfg
      (c.setProposal k (p.ready (.accepting tag entry (replies ++ [(env.dst, reply)])))) := by
  refine hI.replace (.of_sent (fun _ h => h) rfl rfl rfl le_rfl rfl) rfl rfl rfl
    (fun _ _ _ hs' => ?_) (fun _ _ _ hs' => ?_) (fun _ _ => .inl) rfl
  · simp [ready] at hs'
  · obtain ⟨rfl, rfl, rfl⟩ := hs'
    have hT := hI.accepting k p tag entry replies hk hs
    exact ⟨hT.proposed, by simpa using Nodup.concat hn hT.nodup,
      forall_mem_concat hT.replied ⟨env, rfl, hp⟩⟩

end

variable {e' : PxLogEntry}

lemma preparedEntry_eq (h : preparedEntry c p e = some e')
    (ht : ∀ term, p.kind = .recovery term → e.term = term) : e' = e := by
  unfold preparedEntry at h
  split at h
  · next term hk =>
    split at h
    · rw [← Option.some.inj h, ← ht term hk]
    · simp at h
  · exact (Option.some.inj h).symm

/-- The promises behind an attempt that proceeds: whatever they report is
covered by the adopted entry, provided it also has the highest term. -/
theorem PrepareTask.backs (hA : AcceptorInv c) (hW : WireInv cfg c) {fv : Bool}
    (hT : c.PrepareTask p tag entry replies)
    (ho : prepareOutcome (.ofPrepare p.owner cfg.voting replies) cfg.quorum entry = .proceed e fv)
    (hf : adoptionFresh cfg p.owner replies = true) : ByMajority cfg.voters (c.Backs tag e) := by
  obtain ⟨hq, rfl⟩ := prepareOutcome_proceed ho
  rw [ReplyFold.ofPrepare_accepted, cfg.quorum_eq] at hq
  refine ByMajority.of_list _ ((nodup_promisers hT.nodup).filter _) ?_ hq ?_
  · intro a ha
    obtain ⟨ha, hv⟩ := mem_filter.mp ha
    obtain ⟨s, acc, hr⟩ := of_mem_promisers ha
    obtain ⟨env, -, hdst, hp⟩ := hT.replied _ hr
    have hm := hW.promiser hp
    rw [hdst] at hm
    exact GroupConfig.mem_voters.mpr ⟨hm, hv⟩
  · intro a ha
    obtain ⟨s, acc, hr⟩ := of_mem_promisers (mem_filter.mp ha).1
    obtain ⟨env, htag, hdst, hp⟩ := hT.replied _ hr
    refine ⟨env, s, acc, hp, hdst, htag, fun x hx => ?_⟩
    obtain rfl : acc = some x := hx
    have hx : x ∈ reported replies := mem_reported.mpr ⟨a, s, hr⟩
    rcases ReplyFold.ofPrepare_adopted p.owner cfg.voting replies
      with ⟨-, hnil⟩ | ⟨y, hy, hmem, hmax⟩
    · simp [hnil] at hx
    · obtain ⟨a', s', hr'⟩ := mem_reported.mp hmem
      obtain ⟨env', -, hdst', hp'⟩ := hT.replied _ hr'
      obtain ⟨h1, h2, h3, h4⟩ := (hA.promised _ _ _ _ _ _ hp').report y rfl
      simp only [adoptionFresh, hy, Option.all_some, all_eq_true, decide_eq_true_eq] at hf
      exact ⟨_, y, h4, h1, by simp [hy], ⟨hf x hx, hmax x hx⟩, h2, h3⟩

lemma AcceptTask.chosen (hW : WireInv cfg c) {owner : ℕ} {replies : List (ℕ × PxAcceptReply)}
    (hT : c.AcceptTask entry replies)
    (ho : acceptOutcome (.ofAccept owner cfg.voting replies) cfg.quorum = .chosen) :
    ByMajority cfg.voters (c.Took · entry) := by
  have hq := acceptOutcome_chosen ho
  rw [ReplyFold.ofAccept_accepted, cfg.quorum_eq] at hq
  refine ByMajority.of_list _ ((nodup_acceptors hT.nodup).filter _) ?_ hq ?_
  · intro a ha
    obtain ⟨ha, hv⟩ := mem_filter.mp ha
    obtain ⟨s, b, hr⟩ := of_mem_acceptors ha
    obtain ⟨env, hdst, hp⟩ := hT.replied _ hr
    have hm := hW.acceptor hp
    rw [hdst] at hm
    exact GroupConfig.mem_voters.mpr ⟨hm, hv⟩
  · intro a ha
    obtain ⟨s, b, hr⟩ := of_mem_acceptors (mem_filter.mp ha).1
    obtain ⟨env, hdst, hp⟩ := hT.replied _ hr
    exact ⟨env, s, b, hp, hdst⟩

/-- The proposal gives up its tag, the entry is recorded, its accept goes out. -/
theorem ProposalInv.proceed (hI : ProposalInv cfg c) (hA : AcceptorInv c) (hW : WireInv cfg c)
    {fv : Bool} (hk : c.proposals[k]? = some p) (hs : p.stage = .preparing tag entry replies)
    (ho : prepareOutcome (.ofPrepare p.owner cfg.voting replies) cfg.quorum entry = .proceed e fv)
    (he : preparedEntry c p e = some e') (hf : adoptionFresh cfg p.owner replies = true) :
    ProposalInv cfg
      (World.startAccept cfg { c with prepared := (tag, e') :: c.prepared } k p e') := by
  have hT := hI.preparing k p tag entry replies hk hs
  have hbacks := hT.backs hA hW ho hf
  obtain ⟨-, hpay⟩ := prepareOutcome_proceed ho
  have hround : 0 < e.ballot.round := by rw [hpay]; exact hT.round
  obtain rfl := preparedEntry_eq he (by rw [hpay]; exact hT.tenure)
  have h1 : ProposalInv cfg (c.setProposal k (p.ready .finished)) := hI.settle rfl
  have hX : Extends c (c.setProposal k (p.ready .finished)) :=
    .of_sent (fun _ h => h) rfl rfl rfl le_rfl rfl
  have h2 := h1.addPrepared hT.tag_lt hround (hbacks.mono fun a ha => ha.mono hX) hT.unused
    fun j q entry' replies' hj hs' => by
      rcases setProposal_cases hj with ⟨-, rfl⟩ | ⟨hne, hj⟩
      · simp [Proposal.ready] at hs'
      · exact hne (hI.preparing_tag j k q p tag entry' entry replies' replies hj hk hs' hs)
  have h3 := h2.startAccept (k := k) (p := p) (.inr ⟨tag, mem_cons_self⟩)
  simpa [World.startAccept, setProposal] using h3

/-- The owner is leader of its term, and the slot is past everything it has
handed out. -/
theorem ProposalInv.allocateBase (hI : ProposalInv cfg c) (hL : LeaderInv cfg c)
    (hV : ElectionInv cfg c) {payload : Bytes} (hs : (c.nodes p.owner).leadershipGate = true) :
    ProposalInv cfg (World.startAccept cfg { c.setNode p.owner { c.nodes p.owner with
        nextSlot := (c.nodes p.owner).nextSlot + 1 } with
      bases := (c.nodes p.owner).baseEntry (c.nodes p.owner).nextSlot payload :: c.bases } k p
        ((c.nodes p.owner).baseEntry (c.nodes p.owner).nextSlot payload)) := by
  have hid := hV.ident p.owner
  obtain ⟨l, hl, hrep, hterm, hfirst⟩ := hL.leading p.owner
    (by simp only [PxLocalReplica.leadershipGate, Bool.and_eq_true, beq_iff_eq] at hs; exact hs.1)
  have hE := setNode_evolves (PxLocalReplica.evolves_takeSlot (c.nodes p.owner))
  have h1 : ProposalInv cfg (c.setNode p.owner { c.nodes p.owner with
      nextSlot := (c.nodes p.owner).nextSlot + 1 }) :=
    hI.still ⟨fun _ h => h, fun _ h => h, fun _ h => h, fun _ h => h, le_rfl,
      fun r => (hE r).nextSlot⟩ rfl rfl rfl (fun _ _ h => h) (fun _ => .inl)
  refine (h1.addBase ⟨rfl, ?_, l, hl, ?_, hterm, hfirst⟩ ?_).startAccept (.inl mem_cons_self)
  · simp [PxLocalReplica.baseEntry, hid]
  · simp [PxLocalReplica.baseEntry, hid, hrep]
  · intro e he hb hslot
    have := (hI.base e he).slot_lt
    rw [hb, hslot] at this
    simp [PxLocalReplica.baseEntry, hid] at this

lemma ProposalInv.move (hI : ProposalInv cfg c) (hA : AcceptorInv c) (hL : LeaderInv cfg c)
    (hV : ElectionInv cfg c) (hW : WireInv cfg c) (hm : Move cfg True c d) : ProposalInv cfg d := by
  have hstill := hI.still hm.extends
  have hframe := hI.frame hm.extends
  cases hm with
  | node | task | tick | count | lead | leadAlone | grant =>
    exact hstill rfl rfl rfl (fun _ _ h => h) (fun _ => .inl)
  | selfVote r hr hv =>
    refine hstill ?_ ?_ ?_ (fun _ _ h => ?_) (fun _ h => .inl ?_) <;> simp_all [selfVote]
  | post ps h =>
    refine hstill rfl rfl rfl (fun env e hp => ?_) (fun _ => .inl)
    exact (mem_append.mp hp).resolve_left (h _)
  | gather | answer | promise | take =>
    refine hstill rfl rfl rfl (fun env e hp => ?_) (fun _ => .inl)
    exact (mem_append.mp hp).resolve_left (by simp)
  | settle k p h => exact hI.settle h
  | enqueue p h =>
    have hnew : ∀ q, (c.proposals ++ [p])[c.proposals.length]? = some q → q = p := by
      simp
    refine hframe rfl rfl c.proposals.length ?_ ?_ ?_ (fun _ _ => .inl) (fun _ => .inl)
    · intro k q hne hq
      have hlt : k < (c.proposals ++ [p]).length := (List.getElem?_eq_some_iff.mp hq).1
      simp only [length_append, length_singleton] at hlt
      rwa [getElem?_append_left (by omega)] at hq
    all_goals
      intro q tag entry replies hq hs
      rw [hnew q hq] at hs
      simp [isWaiting, hs] at h
  | base k p payload hk hs => exact hI.allocateBase hL hV (hs trivial)
  | prepare k p slot payload minRound hk hr => exact hI.startPrepare hr
  | foldPrepare k p tag entry replies env reply hk hs hp ht hn =>
    exact hI.foldPrepare hk hs hp ht hn
  | proceed k p tag entry e e' fv replies hk hs ho he hf =>
    exact hI.proceed hA hW hk hs ho he (hf trivial)
  | foldAccept k p tag entry replies env reply hk hs hp hn => exact hI.foldAccept hk hs hp hn
  | choose k p tag entry replies hk hs ho =>
    refine hstill rfl rfl rfl (fun _ _ h => h) fun e he => ?_
    rcases mem_cons.mp he with rfl | he
    · exact .inr ((hI.accepting k p tag e replies hk hs).chosen hW ho)
    · exact .inl he

/-! ## From the invariants to agreement -/

structure SafetyInv (cfg : GroupConfig) (c : World) : Prop where
  election : ElectionInv cfg c
  acceptor : AcceptorInv c
  leader : LeaderInv cfg c
  wire : WireInv cfg c
  proposal : ProposalInv cfg c

lemma safetyInv_boot : SafetyInv cfg boot :=
  ⟨electionInv_boot, acceptorInv_boot, leaderInv_boot, by simp [WireInv, boot], proposalInv_boot⟩

lemma SafetyInv.move (h : SafetyInv cfg c) (hm : Move cfg True c d) : SafetyInv cfg d where
  election := h.election.move hm
  acceptor := h.acceptor.move hm
  leader := h.leader.move h.acceptor h.election hm
  wire := h.wire.move hm
  proposal := h.proposal.move h.acceptor h.leader h.election h.wire hm

lemma safetyInv_of_reach (h : (group cfg).Reach (fun c a =>
    candidacyGuard cfg c a = true ∧ agreementGuard cfg c a = true) c) : SafetyInv cfg c :=
  reach_invariant True safetyInv_boot (fun _ _ hI => hI.move)
    (h.mono fun _ _ hg => ⟨hg.1, fun _ => hg.2⟩)

variable (h : SafetyInv cfg c)
include h

lemma SafetyInv.took_proposed {a : ℕ} (ht : c.Took a e) : c.Proposed e := by
  obtain ⟨env, s, b, hp, -⟩ := ht
  exact h.proposal.requested env e (h.wire _ hp)

/-- Slot and ballot determine a proposal. -/
theorem SafetyInv.proposed_unique (he : c.Proposed e) (he' : c.Proposed e')
    (hslot : e.slot = e'.slot) (hballot : e.ballot = e'.ballot) : e = e' := by
  rcases he with he | ⟨tag, he⟩ <;> rcases he' with he' | ⟨tag', he'⟩
  · exact h.proposal.base_unique e he e' he' hslot hballot
  · have h1 := (h.proposal.base e he).round
    have h2 := (h.proposal.prepared tag' e' he').2.1
    rw [hballot] at h1
    omega
  · have h1 := (h.proposal.prepared tag e he).2.1
    have h2 := (h.proposal.base e' he').round
    rw [hballot] at h1
    omega
  · -- both majorities hold a promise of the one ballot, and a ballot is promised once
    obtain ⟨a, ha, ha'⟩ :=
      (h.proposal.prepared tag e he).2.2.meet (h.proposal.prepared tag' e' he').2.2
    obtain ⟨env, s, acc, hp, hdst, rfl, -⟩ := ha
    obtain ⟨env', s', acc', hp', hdst', rfl, -⟩ := ha'
    rw [← hslot, ← hballot] at hp'
    have htag := h.acceptor.once _ _ _ _ _ _ _ _ _ _ hp hp' (hdst.trans hdst'.symm)
    rw [← htag] at he'
    exact h.proposal.prepared_unique _ e e' he he'

/-- A proposal that comes after a chosen entry repeats the payload of a proposal
between the two. -/
theorem SafetyInv.support (hc : ByMajority cfg.voters (c.Took · e)) (hp : c.Proposed e')
    (hslot : e.slot = e'.slot) (hlt : e.rank < e'.rank) :
    ∃ y, c.Proposed y ∧ y.slot = e.slot ∧ y.payload = e'.payload ∧
      e.rank ≤ y.rank ∧ y.rank < e'.rank := by
  rw [PxLogEntry.rank_lt] at hlt
  rcases hp with hb | ⟨tag, hp⟩
  · -- the fence of the later leader leaves only its own term, hence its own ballot
    have hB := h.proposal.base e' hb
    obtain ⟨l, hl, hrep, hterm, hfirst⟩ := hB.led
    obtain ⟨a, hT, hF⟩ := hc.meet (h.leader.led l hl)
    have hge : e'.term ≤ e.term := hterm ▸ (hF.2 e hT).resolve_left (by omega)
    obtain ⟨heq, hblt⟩ : e.term = e'.term ∧ e.ballot < e'.ballot := by
      rcases hlt with hlt | hlt
      · exact absurd hlt (not_lt.mpr hge)
      · exact hlt
    have hzero := hB.round
    have hround : e.ballot.round = 0 := by
      rcases PxBallot.lt_def.mp hblt with hr | hr <;> omega
    rcases h.took_proposed hT with he | ⟨tag, he⟩
    · obtain ⟨l', hl', hrep', hterm', -⟩ := (h.proposal.base e he).led
      have := h.election.one_leader hl' hl (by omega)
      rcases PxBallot.lt_def.mp hblt with hr | hr <;> omega
    · have := (h.proposal.prepared tag e he).2.1
      omega
  · obtain ⟨-, -, hq⟩ := h.proposal.prepared tag e' hp
    obtain ⟨a, hT, env, s, acc, hr, rfl, -, hcov⟩ := hc.meet hq
    rcases (h.acceptor.promised _ _ _ _ _ _ hr).fence e hT hslot with hge | ⟨x, hx, hxe⟩
    · rcases hlt with hlt | ⟨-, hlt⟩
      · exact absurd hlt (not_lt.mpr hge.2)
      · exact absurd hlt (not_lt.mpr hge.1)
    · obtain ⟨a', y, hTy, hys, hyp, hyx, hyb, hyt⟩ := hcov x hx
      refine ⟨y, h.took_proposed hTy, hys.trans hslot.symm, hyp, ?_, ?_⟩
      · exact PxLogEntry.rank_le (hxe.term.trans hyx.term) (hxe.ballot.trans hyx.ballot)
      · rw [PxLogEntry.rank_lt]
        exact hyt.lt_or_eq.imp id fun heq => ⟨heq, hyb⟩

lemma SafetyInv.chosen_proposed (he : e ∈ c.chosen) : c.Proposed e := by
  obtain ⟨a, hT, -⟩ := (h.proposal.chosen e he).meet (h.proposal.chosen e he)
  exact h.took_proposed hT

/-- Whatever an acceptor takes is consistent with what is chosen: from a chosen
entry upwards every proposal of the slot repeats its payload. -/
theorem SafetyInv.consistent {x y : PxLogEntry} (hx : x ∈ c.chosen) (hy : c.Proposed y) :
    x.Consistent y := by
  intro hslot
  refine ⟨fun hle => ?_, h.proposed_unique (h.chosen_proposed hx) hy hslot⟩
  refine proposed_above_chosen
    (fun k v => ∃ z, c.Proposed z ∧ z.slot = x.slot ∧ z.rank = k ∧ z.payload = v)
    (fun k v => ∃ z ∈ c.chosen, z.slot = x.slot ∧ z.rank = k ∧ z.payload = v) ?_ ?_ ?_
    ⟨x, hx, rfl, rfl, rfl⟩ ⟨y, hy, hslot.symm, rfl, rfl⟩ hle
  · rintro k v v' ⟨z, hz, hs, rfl, rfl⟩ ⟨z', hz', hs', hk, rfl⟩
    rw [PxLogEntry.rank, PxLogEntry.rank, toLex_inj, Prod.mk.injEq] at hk
    rw [h.proposed_unique hz hz' (hs.trans hs'.symm) hk.2.symm]
  · rintro k v ⟨z, hz, hs, hk, hv⟩
    exact ⟨z, h.chosen_proposed hz, hs, hk, hv⟩
  · rintro k v k' v' ⟨z, hz, hs, rfl, rfl⟩ ⟨z', hz', hs', rfl, rfl⟩ hlt
    obtain ⟨w, hw, hws, hwp, h1, h2⟩ :=
      h.support (h.proposal.chosen z hz) hz' (hs.trans hs'.symm) hlt
    exact ⟨_, h1, h2, w, hw, hws.trans hs, rfl, hwp⟩

lemma SafetyInv.agreement (he : e ∈ c.chosen) (he' : e' ∈ c.chosen) (hslot : e.slot = e'.slot) :
    e.payload = e'.payload := by
  rcases le_total e.rank e'.rank with hle | hle
  · exact ((h.consistent he (h.chosen_proposed he') hslot).1 hle).symm
  · exact (h.consistent he' (h.chosen_proposed he) hslot.symm).1 hle

end World

/-- In every run in which candidacies are clean, a winner is still in the term it
won, steady-state entries are built under the leadership gate and adoption never
prefers an entry of an older term, a slot has at most one chosen payload. -/
theorem slot_agreement (cfg : GroupConfig) {c : World} (h : (group cfg).Reach (fun c a =>
      World.candidacyGuard cfg c a = true ∧ World.agreementGuard cfg c a = true) c) :
    ∀ e ∈ c.chosen, ∀ e' ∈ c.chosen, e.slot = e'.slot → e.payload = e'.payload := by
  intro e he e' he' hslot
  exact (safetyInv_of_reach h).agreement he he' hslot

/-- Three voting replicas without pre-votes. -/
def trioDirect : GroupConfig := ⟨[1, 2, 3], nodup_trio, fun _ => true, 10, false, false⟩

/-- Replica 3 leads term 1 and gets its own steady-state accept only. Replica 1
leads term 2 and has another payload chosen by replicas 1 and 2. Replica 2
leads term 3 and recovers the slot from itself and replica 3: it compares
ballots (0, 1) and (0, 3) and adopts the entry of term 1. -/
def staleAdoption : List Action :=
  let v1 : PxLogEntry := ⟨1, ⟨0, 3⟩, 1, [1]⟩
  let v2 : PxLogEntry := ⟨1, ⟨0, 1⟩, 2, [2]⟩
  let v3 : PxLogEntry := ⟨1, ⟨1, 2⟩, 3, [1]⟩
  [.startElection 3 0, .runCandidate 3 0, .deliver (.requestVote ⟨0, 3, 1⟩ ⟨1, 3, 0, 0⟩) 1,
    .answerVote ⟨0, 3, 1⟩ ⟨1, 3, 0, 0⟩,
    .receiveVote (.voteReply ⟨0, 3, 1⟩ ⟨1, 3, 0, 0⟩ ⟨1, true, 0, 0, 0⟩) 2,
    .propose 3 [1], .allocate 0, .deliver (.accept ⟨1, 3, 3⟩ v1) 3,
    .startElection 1 20, .runCandidate 1 20, .deliver (.requestVote ⟨2, 1, 2⟩ ⟨2, 1, 0, 0⟩) 21,
    .answerVote ⟨2, 1, 2⟩ ⟨2, 1, 0, 0⟩,
    .receiveVote (.voteReply ⟨2, 1, 2⟩ ⟨2, 1, 0, 0⟩ ⟨2, true, 0, 0, 0⟩) 22,
    .propose 1 [2], .allocate 1, .deliver (.accept ⟨3, 1, 1⟩ v2) 23,
    .deliver (.accept ⟨3, 1, 2⟩ v2) 23,
    .receiveAccept 1 (.acceptReply ⟨3, 1, 1⟩ v2 (.accepted 1 ⟨0, 1⟩)) 24,
    .receiveAccept 1 (.acceptReply ⟨3, 1, 2⟩ v2 (.accepted 1 ⟨0, 1⟩)) 24,
    .startElection 2 40, .runCandidate 2 40, .deliver (.requestVote ⟨5, 2, 3⟩ ⟨3, 2, 1, 2⟩) 41,
    .answerVote ⟨5, 2, 3⟩ ⟨3, 2, 1, 2⟩,
    .receiveVote (.voteReply ⟨5, 2, 3⟩ ⟨3, 2, 1, 2⟩ ⟨3, true, 0, 0, 1⟩) 42, .startRecovery 2 1,
    .deliver (.prepare ⟨6, 2, 2⟩ 1 ⟨1, 2⟩ 3) 43, .deliver (.prepare ⟨6, 2, 3⟩ 1 ⟨1, 2⟩ 3) 43,
    .receivePrepare 2 (.prepareReply ⟨6, 2, 2⟩ 1 ⟨1, 2⟩ 3 (.promised 1 (some v2))) 44,
    .receivePrepare 2 (.prepareReply ⟨6, 2, 3⟩ 1 ⟨1, 2⟩ 3 (.promised 1 (some v1))) 44,
    .deliver (.accept ⟨7, 2, 2⟩ v3) 45, .deliver (.accept ⟨7, 2, 3⟩ v3) 45,
    .receiveAccept 2 (.acceptReply ⟨7, 2, 2⟩ v3 (.accepted 1 ⟨1, 2⟩)) 46,
    .receiveAccept 2 (.acceptReply ⟨7, 2, 3⟩ v3 (.accepted 1 ⟨1, 2⟩)) 46]

/-- Two payloads chosen at one slot. -/
theorem two_payloads_at_one_slot : ∃ c, (group trioDirect).Reach System.Free c ∧
    ∃ e ∈ c.chosen, ∃ e' ∈ c.chosen, e.slot = e'.slot ∧ e.payload ≠ e'.payload :=
  ⟨_, System.reach_run staleAdoption rfl, by decide +kernel⟩

/-- Up to the last election the run meets the conditions. -/
theorem slot_agreement_clean_run : ∃ c, (group trioDirect).Reach (fun c a =>
      World.candidacyGuard trioDirect c a = true ∧ World.agreementGuard trioDirect c a = true) c ∧
    c.chosen = [⟨1, ⟨0, 1⟩, 2, [2]⟩] ∧
      ∀ e ∈ c.chosen, ∀ e' ∈ c.chosen, e.slot = e'.slot → e.payload = e'.payload := by
  have hr := (System.reach_runGuarded (S := group trioDirect) (g := fun c a =>
    candidacyGuard trioDirect c a && agreementGuard trioDirect c a) (staleAdoption.take 27)
    rfl).mono fun _ _ => Bool.and_eq_true_iff.mp
  exact ⟨_, hr, by decide +kernel, slot_agreement trioDirect hr⟩

lemma run_to_last_election : ∃ c, (group trioDirect).Reach (fun c a =>
      World.candidacyGuard trioDirect c a = true ∧ World.agreementGuard trioDirect c a = true) c ∧
    c.leaderships = [⟨2, 3, 2⟩, ⟨1, 2, 1⟩, ⟨3, 1, 1⟩] ∧ c.chosen = [⟨1, ⟨0, 1⟩, 2, [2]⟩] :=
  ⟨_, (System.reach_runGuarded (S := group trioDirect) (g := fun c a =>
    candidacyGuard trioDirect c a && agreementGuard trioDirect c a) (staleAdoption.take 27)
    rfl).mono fun _ _ => Bool.and_eq_true_iff.mp, by decide +kernel⟩

/-- In the same runs a chosen entry is out of reach of later leaders: it is below the first slot
of a leader of a later term, and whatever a replica takes at its slot from its rank on has its
payload. -/
theorem chosen_locked (cfg : GroupConfig) {c : World} (h : (group cfg).Reach (fun c a =>
      World.candidacyGuard cfg c a = true ∧ World.agreementGuard cfg c a = true) c) :
    ∀ e ∈ c.chosen, (∀ l ∈ c.leaderships, e.term < l.term → e.slot < l.firstSlot) ∧
      ∀ a y, c.Took a y → e.slot = y.slot → e.rank ≤ y.rank → y.payload = e.payload := by
  have hS := safetyInv_of_reach h
  refine fun e he => ⟨fun l hl hlt => ?_, fun a y hy hslot => ?_⟩
  · obtain ⟨a, hT, hF⟩ := (hS.proposal.chosen e he).meet (hS.leader.led l hl)
    exact (hF.2 e hT).resolve_right (not_le.mpr hlt)
  · exact (hS.consistent he (hS.took_proposed hy) hslot).1

theorem chosen_locked_last_election : ∃ c : World,
    c.leaderships = [⟨2, 3, 2⟩, ⟨1, 2, 1⟩, ⟨3, 1, 1⟩] ∧ c.chosen = [⟨1, ⟨0, 1⟩, 2, [2]⟩] ∧
    ∀ e ∈ c.chosen, ∀ l ∈ c.leaderships, e.term < l.term → e.slot < l.firstSlot := by
  obtain ⟨c, hr, hled, hchosen⟩ := run_to_last_election
  exact ⟨c, hled, hchosen, fun e he => (chosen_locked trioDirect hr e he).1⟩

end CrowDB.Cluster
