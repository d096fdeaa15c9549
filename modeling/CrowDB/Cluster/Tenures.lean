import CrowDB.Cluster.Agreement
import CrowDB.Lib.TenuredLog

/-!
# The group decides a tenured log

What the code above consensus relies on is stated by `Lib.TenuredLog`. Here every
run of the group is matched by operations of such a log: proposals are offers,
decisions close them, and a leadership is a reign whose ceiling is below its first
slot. The majority that elected a leader holds nothing of an earlier term that was
not offered by then, and it never takes such an entry afterwards.
-/
namespace CrowDB.Cluster
open Paxos Lib List

/-- An entry without its ballot. -/
def offerOf (e : PxLogEntry) : Offer Bytes := ⟨e.slot, e.term, e.payload⟩

namespace World
variable {cfg : GroupConfig} {c d : World}

/-- Replica `v` has reached the reign's term and holds only what the reign admits. -/
def Heeds (c : World) (R : Reign Bytes) (v : ℕ) : Prop :=
  R.term ≤ (c.nodes v).currentTerm ∧ ∀ e, c.Took v e → R.Admits (offerOf e)

lemma Heeds.move (hm : Move cfg True c d) {R : Reign Bytes} {v : ℕ} (h : c.Heeds R v) :
    d.Heeds R v := by
  refine ⟨h.1.trans (hm.evolves v).term, fun e he => ?_⟩
  rcases hm.took he with he | ht
  · exact h.2 e he
  · exact fun hlt => absurd (h.1.trans ht) (not_le.mpr hlt)

structure Refines (cfg : GroupConfig) (c : World) (L : TenuredLog Bytes) : Prop where
  offers : ∀ o, o ∈ L.offers ↔ ∃ e, c.Proposed e ∧ offerOf e = o
  closed : ∀ o, o ∈ L.closed ↔ ∃ e ∈ c.chosen, offerOf e = o
  reigns : ∀ l ∈ c.leaderships, ∃ R ∈ L.reigns, R.term = l.term ∧ R.leader = l.replica ∧
    R.ceiling < l.firstSlot
  led : ∀ R ∈ L.reigns, ∃ l ∈ c.leaderships, l.term = R.term ∧ l.replica = R.leader
  next : ∀ R ∈ L.reigns, R.ceiling < (c.nodes R.leader).nextSlot
  heeded : ∀ R ∈ L.reigns, ByMajority cfg.voters (c.Heeds R)

lemma refines_boot : Refines cfg boot .empty := by
  constructor <;> simp [boot, TenuredLog.empty, Proposed]

variable {L : TenuredLog Bytes}

section
variable (h : Refines cfg c L)
include h

/-- Fences and slot counters outlive every move. -/
theorem Refines.frame (hm : Move cfg True c d) {M : TenuredLog Bytes} (hR : M.reigns = L.reigns)
    (hl : d.leaderships = c.leaderships)
    (hO : ∀ o, o ∈ M.offers ↔ ∃ e, d.Proposed e ∧ offerOf e = o)
    (hC : ∀ o, o ∈ M.closed ↔ ∃ e ∈ d.chosen, offerOf e = o) : Refines cfg d M where
  offers := hO
  closed := hC
  reigns := by rw [hR, hl]; exact h.reigns
  led := by rw [hR, hl]; exact h.led
  next R hR' := (h.next R (hR ▸ hR')).trans_le (hm.evolves _).nextSlot
  heeded R hR' := (h.heeded R (hR ▸ hR')).mono fun _ hv => hv.move hm

/-- Nothing is proposed or decided. -/
theorem Refines.keep (hm : Move cfg True c d) (hl : d.leaderships = c.leaderships)
    (hb : d.bases = c.bases) (hp : d.prepared = c.prepared) (hc : d.chosen = c.chosen) :
    Refines cfg d L := by
  refine h.frame hm rfl hl (fun o => ?_) fun o => hc ▸ h.closed o
  simp [h.offers, Proposed, hb, hp]

/-- One entry is proposed. -/
theorem Refines.propose (hm : Move cfg True c d) (hl : d.leaderships = c.leaderships)
    (hc : d.chosen = c.chosen) {e : PxLogEntry} (he : ∀ x, d.Proposed x ↔ x = e ∨ c.Proposed x) :
    Refines cfg d (L.offer (offerOf e)) := by
  refine h.frame hm rfl hl (fun o => ?_) fun o => hc ▸ h.closed o
  simp only [TenuredLog.offer, mem_cons, h.offers, he]
  constructor
  · rintro (rfl | ⟨x, hx, rfl⟩)
    · exact ⟨e, .inl rfl, rfl⟩
    · exact ⟨x, .inr hx, rfl⟩
  · rintro ⟨x, rfl | hx, rfl⟩
    · exact .inl rfl
    · exact .inr ⟨x, hx, rfl⟩

/-- What a majority has taken can be closed: that majority meets the one behind
every reign. -/
theorem Refines.canClose (hS : SafetyInv cfg d) (hsub : ∀ x ∈ c.chosen, x ∈ d.chosen)
    {e : PxLogEntry} (he : e ∈ d.chosen) (hp : c.Proposed e)
    (hq : ByMajority cfg.voters (c.Took · e)) : L.CanClose (offerOf e) where
  offered := (h.offers _).mpr ⟨e, hp, rfl⟩
  agrees p hp' hs := by
    obtain ⟨x, hx, rfl⟩ := (h.closed p).mp hp'
    exact hS.agreement (hsub x hx) he hs
  admitted R hR := by
    obtain ⟨v, ht, -, hv⟩ := hq.meet (h.heeded R hR)
    exact hv e ht

/-- A new leadership, over a log that may know the term already. -/
theorem Refines.lead (hm : Move cfg True c d) (hS : SafetyInv cfg d) {l : Leadership}
    (hl : d.leaderships = l :: c.leaderships) (hb : d.bases = c.bases)
    (hp : d.prepared = c.prepared) (hc : d.chosen = c.chosen)
    (hn : (d.nodes l.replica).nextSlot = l.firstSlot) (hpos : 0 < l.firstSlot) :
    ∃ M, L.Steps M ∧ Refines cfg d M := by
  have hmem : l ∈ d.leaderships := hl ▸ mem_cons_self
  have hold : ∀ x ∈ c.leaderships, x ∈ d.leaderships := fun x hx => hl ▸ mem_cons_of_mem _ hx
  have hO : ∀ o, o ∈ L.offers ↔ ∃ e, d.Proposed e ∧ offerOf e = o := fun o => by
    simp [h.offers, Proposed, hb, hp]
  have hC : ∀ o, o ∈ L.closed ↔ ∃ e ∈ d.chosen, offerOf e = o := hc ▸ h.closed
  have hnext : ∀ R ∈ L.reigns, R.ceiling < (d.nodes R.leader).nextSlot := fun R hR =>
    (h.next R hR).trans_le (hm.evolves _).nextSlot
  have hheeded : ∀ R ∈ L.reigns, ByMajority cfg.voters (d.Heeds R) := fun R hR =>
    (h.heeded R hR).mono fun _ hv => hv.move hm
  by_cases hex : ∃ R ∈ L.reigns, R.term = l.term
  · -- the same replica, at a slot counter that only grew
    obtain ⟨R, hR, ht⟩ := hex
    obtain ⟨l', hl', ht', hr'⟩ := h.led R hR
    have hrep := hS.election.one_leader (hold l' hl') hmem (ht'.trans ht)
    refine ⟨L, .refl, hO, hC, fun x hx => ?_, fun R hR => ?_, hnext, hheeded⟩
    · rcases mem_cons.mp (hl ▸ hx) with rfl | hx
      · have := hnext R hR
        rw [← hr', hrep, hn] at this
        exact ⟨R, hR, ht, hr'.symm.trans hrep, this⟩
      · exact h.reigns x hx
    · obtain ⟨x, hx, h'⟩ := h.led R hR
      exact ⟨x, hold x hx, h'⟩
  · have hled := hS.leader.led l hmem
    have hE : L.CanElect l.term (l.firstSlot - 1) := by
      refine ⟨fun R hR ht => hex ⟨R, hR, ht⟩, fun o ho hlt => ?_⟩
      obtain ⟨e, he, rfl⟩ := (hC o).mp ho
      obtain ⟨v, ht, hf⟩ := (hS.proposal.chosen e he).meet hled
      have := (hf.2 e ht).resolve_right (not_le.mpr hlt)
      dsimp [offerOf]
      omega
    refine ⟨L.elect l.term l.replica (l.firstSlot - 1) hE, .single (.elect _ _ _ hE), hO, hC,
      fun x hx => ?_, fun R hR => ?_, fun R hR => ?_, fun R hR => ?_⟩
    · rcases mem_cons.mp (hl ▸ hx) with rfl | hx
      · exact ⟨_, mem_cons_self, rfl, rfl, Nat.sub_lt hpos Nat.one_pos⟩
      · obtain ⟨R, hR, h'⟩ := h.reigns x hx
        exact ⟨R, mem_cons_of_mem _ hR, h'⟩
    · rcases mem_cons.mp hR with rfl | hR
      · exact ⟨l, hmem, rfl, rfl⟩
      · obtain ⟨x, hx, h'⟩ := h.led R hR
        exact ⟨x, hold x hx, h'⟩
    · rcases mem_cons.mp hR with rfl | hR
      · simp only
        omega
      · exact hnext R hR
    · rcases mem_cons.mp hR with rfl | hR
      · -- what the majority holds has been proposed, hence offered
        refine hled.mono fun v hv => ⟨hv.1, fun e he hlt => ⟨?_, ?_⟩⟩
        · exact (hO _).mpr ⟨e, hS.took_proposed he, rfl⟩
        · have := (hv.2 e he).resolve_right (not_le.mpr hlt)
          dsimp [offerOf]
          omega
      · exact hheeded R hR

/-- Every move is matched by operations of the log. -/
theorem Refines.move (hS : SafetyInv cfg c) (hm : Move cfg True c d) :
    ∃ M, L.Steps M ∧ Refines cfg d M := by
  have hS' := hS.move hm
  have hm' := hm
  cases hm with
  | selfVote _ hr =>
    refine ⟨L, .refl, h.keep hm' ?_ ?_ ?_ ?_⟩ <;> simp [selfVote, hr]
  | base _ p payload =>
    refine ⟨_, .single (.offer _), h.propose hm' rfl rfl
      (e := (c.nodes p.owner).baseEntry (c.nodes p.owner).nextSlot payload) fun x => ?_⟩
    simp only [Proposed, startAccept, fanOut, setProposal, mem_cons]
    exact or_assoc
  | proceed _ _ tag _ e e' =>
    refine ⟨_, .single (.offer _), h.propose hm' rfl rfl (e := e') fun x => ?_⟩
    simp only [Proposed, startAccept, fanOut, setProposal, mem_cons, Prod.mk.injEq]
    constructor
    · rintro (hx | ⟨t, ⟨-, rfl⟩ | hx⟩)
      · exact .inr (.inl hx)
      · exact .inl rfl
      · exact .inr (.inr ⟨t, hx⟩)
    · rintro (rfl | hx | ⟨t, hx⟩)
      · exact .inr ⟨tag, .inl ⟨rfl, rfl⟩⟩
      · exact .inl hx
      · exact .inr ⟨t, .inr hx⟩
  | choose _ _ _ entry =>
    have hq := hS'.proposal.chosen entry mem_cons_self
    have hcl := h.canClose hS' (fun x => mem_cons_of_mem _) mem_cons_self
      (hS'.chosen_proposed mem_cons_self) hq
    refine ⟨_, .single (.close _ hcl), h.frame hm' rfl rfl h.offers fun o => ?_⟩
    simp only [TenuredLog.close, mem_cons, h.closed]
    constructor
    · rintro (rfl | ⟨x, hx, rfl⟩)
      · exact ⟨entry, .inl rfl, rfl⟩
      · exact ⟨x, .inr hx, rfl⟩
    · rintro ⟨x, rfl | hx, rfl⟩
      · exact .inl rfl
      · exact .inr ⟨x, hx, rfl⟩
  | lead =>
    exact h.lead hm' hS' rfl rfl rfl rfl (by simp [finalizeLeader, setElection])
      (by simp [PxLocalReplica.finalizeLeader, PxLocalReplica.becomeLeader])
  | leadAlone =>
    exact h.lead hm' hS' rfl rfl rfl rfl (by simp [finalizeLeader, setElection])
      (by simp [PxLocalReplica.finalizeLeader, PxLocalReplica.becomeLeader])
  | _ => exact ⟨L, .refl, h.keep hm' rfl rfl rfl rfl⟩

/-- So is every step under the guards, which is a sequence of moves. -/
theorem Refines.step {a : Action} (hS : SafetyInv cfg c)
    (hg : candidacyGuard cfg c a = true ∧ agreementGuard cfg c a = true)
    (hd : (group cfg).step c a = some d) : ∃ M, L.Steps M ∧ Refines cfg d M := by
  have hm : Moves cfg True c d := step_moves hg.1 (fun _ => hg.2) hd
  suffices SafetyInv cfg d ∧ ∃ M, L.Steps M ∧ Refines cfg d M from this.2
  clear hd
  induction hm with
  | refl => exact ⟨hS, L, .refl, h⟩
  | tail _ hm ih =>
    obtain ⟨hS, M, hM, hr⟩ := ih
    obtain ⟨N, hN, hr'⟩ := hr.move hS hm
    exact ⟨hS.move hm, N, hM.trans hN, hr'⟩

end

/-- Every run under the guards of agreement decides a log that was built by offering, closing
and electing, and every further step under the guards goes on with the log that stands. -/
theorem group_decides_tenured_log (h : (group cfg).Reach (fun c a =>
      candidacyGuard cfg c a = true ∧ agreementGuard cfg c a = true) c) :
    (∃ L, TenuredLog.empty.Steps L ∧ Refines cfg c L) ∧ ∀ L, Refines cfg c L → ∀ a d,
      candidacyGuard cfg c a = true ∧ agreementGuard cfg c a = true →
        (group cfg).step c a = some d → ∃ M, L.Steps M ∧ Refines cfg d M := by
  refine ⟨?_, fun L hr a d => hr.step (safetyInv_of_reach h)⟩
  induction h with
  | init hs =>
    cases hs
    exact ⟨.empty, .refl, refines_boot⟩
  | step a hs hg hd ih =>
    obtain ⟨L, hL, hr⟩ := ih
    obtain ⟨M, hM, hr'⟩ := hr.step (safetyInv_of_reach hs) hg hd
    exact ⟨M, hL.trans hM, hr'⟩

/-- The log has one closed entry. -/
theorem group_decides_tenured_log_last_election : ∃ c L, Refines trioDirect c L ∧
    (∃ o ∈ L.closed, o.cmd = [2]) ∧ TenuredLog.empty.Steps L := by
  obtain ⟨c, hr, -, hchosen⟩ := run_to_last_election
  obtain ⟨L, hL, href⟩ := (group_decides_tenured_log hr).1
  exact ⟨c, L, href, ⟨⟨1, 2, [2]⟩, (href.closed _).mpr (by rw [hchosen]; decide), rfl⟩, hL⟩

end World
end CrowDB.Cluster
