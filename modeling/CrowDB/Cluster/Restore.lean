import CrowDB.Cluster.Apply
import CrowDB.Wal.Replay

/-!
# Restart from the log

The acceptor is rebuilt from the surviving records, accepts before promises.
Then every accepted entry above the engine's resume slot is learned: applied,
and counted as chosen. Nothing in the log says which of them were chosen, so a
restart is right exactly when all of them were.
-/
namespace CrowDB.Cluster
open Paxos Lib Wal List Option PxAcceptor

namespace PxLocalReplica

/-- First half of pass 1: the accepted entries, in replay order. -/
def restoreAccepted (es : List PxLogEntry) : PxAcceptor :=
  es.foldl (fun A e => (A.accept e).1) default

/-- Second half: the promises. -/
def restorePromised (A : PxAcceptor) (rs : List WALRecord) : PxAcceptor :=
  rs.foldl (fun A r => (A.prepare r.slot r.ballot).1) A

def restoreAcceptor (replay : ReplayResult) : PxAcceptor :=
  restorePromised (restoreAccepted (replay.records.filterMap (·.toLogEntry)))
    (replay.records.filter (·.recordType = .promised))

/-- Pass 2: walk the slots and learn what was accepted there. -/
def relearn (A : PxAcceptor) (engineOk : ℕ → Bool) (slots : List ℕ) (L : PxLearner) : PxLearner :=
  slots.foldl (fun L s =>
    match A.acceptedAt s with
    | some e => L.learn e (engineOk s)
    | none => L) L

/-- The slots of the walk: above the resume slot, or from 1 without one. -/
def walkSlots (resume highest : ℕ) : List ℕ := List.range' (resume + 1) (highest - resume)

def restoreLearner (A : PxAcceptor) (resume : ℕ) (engineOk : ℕ → Bool) : PxLearner :=
  relearn A engineOk (walkSlots resume A.highestSeenSlot) (if 0 < resume then
      PxLearner.fresh.seedResumeFrontier resume ((A.acceptedAt resume).elim 0 (·.term))
    else .fresh)

/-- `resume` is what the recovered engine reports, `engineOk` whether it takes
the batch of a slot. -/
def restoreFromReplayWithEngine (id : ℕ) (role : PxLocalReplicaRole) (replay : ReplayResult)
    (resume : ℕ) (engineOk : ℕ → Bool) : PxLocalReplica :=
  { fresh id with
    currentTerm := replay.currentTerm
    votedFor := replay.votedFor
    stateRole := role
    role := role
    leaderId := if role = .leader then some id else none
    acceptor := restoreAcceptor replay
    learner := restoreLearner (restoreAcceptor replay) resume engineOk }

/-! ## Pass 1 -/

/-- Entries of distinct slots all find their slot empty. -/
theorem restoreAccepted_node {es : List PxLogEntry} (h : es.Pairwise (·.slot ≠ ·.slot)) :
    (restoreAccepted es).trimSlot = 0 ∧
      (∀ s, (∀ e ∈ es, e.slot ≠ s) → (restoreAccepted es).node s = default) ∧
      ∀ e ∈ es, ((restoreAccepted es).node e.slot).accepted = some e := by
  induction es using reverseRecOn with
  | nil => exact ⟨rfl, fun _ _ => rfl, by simp⟩
  | append_singleton es x ih =>
    obtain ⟨hes, -, hx⟩ := pairwise_append.mp h
    obtain ⟨h0, h1, h2⟩ := ih hes
    have hempty : (restoreAccepted es).node x.slot = default :=
      h1 x.slot fun e he => hx e he x (by simp)
    have hstep : restoreAccepted (es ++ [x]) = ((restoreAccepted es).accept x).1 := by
      simp [restoreAccepted]
    have haccept : ((restoreAccepted es).accept x).1 =
        (restoreAccepted es).put x.slot (((restoreAccepted es).node x.slot).accept x).1
          ((restoreAccepted es).accept_keyed x) := by
      simp [accept, h0]
    rw [hstep, haccept]
    refine ⟨h0, fun s hs => ?_, fun e he => ?_⟩
    · rw [put_node, if_neg fun hsx => hs x (by simp) hsx.symm]
      exact h1 s fun e he => hs e (mem_append_left _ he)
    · rcases mem_append.mp he with he | he
      · rw [put_node, if_neg (hx e he x (by simp))]
        exact h2 e he
      · obtain rfl := mem_singleton.mp he
        rw [put_node_self, hempty]
        rfl

lemma restorePromised_grows (A : PxAcceptor) (rs : List WALRecord) :
    A.Grows (restorePromised A rs) := by
  induction rs generalizing A with
  | nil => exact .refl A
  | cons r _ ih => exact (A.grows_prepare r.slot r.ballot).trans (ih _)

@[simp] lemma restorePromised_accepted (A : PxAcceptor) (rs : List WALRecord) (s : ℕ) :
    ((restorePromised A rs).node s).accepted = (A.node s).accepted := by
  induction rs generalizing A with
  | nil => rfl
  | cons _ _ ih => exact (ih _).trans (A.prepare_node_accepted _ _ _)

@[simp] lemma restorePromised_trimSlot (A : PxAcceptor) (rs : List WALRecord) :
    (restorePromised A rs).trimSlot = A.trimSlot := by
  induction rs generalizing A with
  | nil => rfl
  | cons _ _ ih => exact (ih _).trans (A.prepare_trimSlot _ _)

variable {r : WALRecord}

lemma le_restorePromised {A : PxAcceptor} (h : A.trimSlot = 0) {rs : List WALRecord}
    (hr : r ∈ rs) : r.ballot ≤ ((restorePromised A rs).node r.slot).floor := by
  induction rs generalizing A with
  | nil => simp at hr
  | cons x rs ih =>
    rcases mem_cons.mp hr with rfl | hr
    · have h1 : r.ballot ≤ ((A.prepare r.slot r.ballot).1.node r.slot).floor :=
        A.le_prepare_floor (by omega) r.ballot
      exact h1.trans ((restorePromised_grows _ rs).floor r.slot)
    · exact ih ((A.prepare_trimSlot x.slot x.ballot).trans h) hr

variable {e : PxLogEntry}

lemma toLogEntry_eq_some :
    r.toLogEntry = some e ↔ r.recordType = .accepted ∧
    e = ⟨r.slot, r.ballot, r.term, r.payload⟩ := by
  unfold WALRecord.toLogEntry
  split
  · next h => simp [h, eq_comm]
  · next h => simp [h]

section Replay
variable (segs : List WalSegment)

lemma mem_replayed_entries : e ∈ (replayGroup segs).records.filterMap (·.toLogEntry) ↔
      ∃ r, (scanGroup segs).slots e.slot .accepted = some r ∧ r.toLogEntry = some e := by
  rw [mem_filterMap]
  constructor
  · rintro ⟨r, hr, he⟩
    obtain ⟨ht, rfl⟩ := toLogEntry_eq_some.mp he
    have h := (ReplayRecords.mem_intoRecords (by simp [ht])).mp hr
    exact ⟨r, ht ▸ h, he⟩
  · rintro ⟨r, hr, he⟩
    obtain ⟨ht, rfl⟩ := toLogEntry_eq_some.mp he
    exact ⟨r, (ReplayRecords.mem_intoRecords (by simp [ht])).mpr (ht ▸ hr), he⟩

/-- The rebuilt acceptor holds the surviving accepts and nothing else. -/
theorem restoreAcceptor_accepted (s : ℕ) : ((restoreAcceptor (replayGroup segs)).node s).accepted =
      ((scanGroup segs).slots s .accepted).bind (·.toLogEntry) := by
  obtain ⟨-, hnone, hsome⟩ := restoreAccepted_node (scanGroup segs).pairwise_entries
  unfold restoreAcceptor
  rw [restorePromised_accepted]
  cases hr : (scanGroup segs).slots s .accepted with
  | none =>
    have h := hnone s fun e he hes => by
      obtain ⟨r, hr', -⟩ := (mem_replayed_entries segs).mp he
      rw [hes, hr] at hr'
      simp at hr'
    exact congrArg PxSlotNode.accepted h
  | some r =>
    obtain ⟨rfl, ht⟩ := (scanGroup segs).keyed s .accepted r hr
    have he : r.toLogEntry = some ⟨r.slot, r.ballot, r.term, r.payload⟩ :=
      toLogEntry_eq_some.mpr ⟨ht, rfl⟩
    rw [bind_some, he]
    exact hsome ⟨r.slot, r.ballot, r.term, r.payload⟩ ((mem_replayed_entries segs).mpr ⟨r, hr, he⟩)

@[simp] lemma restoreAcceptor_trimSlot : (restoreAcceptor (replayGroup segs)).trimSlot = 0 := by
  unfold restoreAcceptor
  rw [restorePromised_trimSlot]
  exact (restoreAccepted_node (scanGroup segs).pairwise_entries).1

lemma acceptedAt_restoreAcceptor (s : ℕ) : (restoreAcceptor (replayGroup segs)).acceptedAt s =
      ((scanGroup segs).slots s .accepted).bind (·.toLogEntry) := by
  simp [acceptedAt, restoreAcceptor_accepted]

/-- A promise of the log binds the rebuilt acceptor. -/
theorem le_restoreAcceptor_of_promised {g : WalSegment} (hg : g ∈ segs) (hr : r ∈ g.records)
    (ht : r.recordType = .promised) :
    r.ballot ≤ ((restoreAcceptor (replayGroup segs)).node r.slot).floor := by
  have hmem : r ∈ scanOrder segs := mem_scanOrder.mpr ⟨g, hg, hr⟩
  obtain ⟨x, hx, hle⟩ := ReplayRecords.le_scan_slots hmem (by simp [ht])
  obtain ⟨hxs, hxt⟩ := (scanGroup segs).keyed _ _ x hx
  rw [ht] at hxt
  have hxr : x ∈ (replayGroup segs).records :=
    (ReplayRecords.mem_intoRecords (by simp [hxt])).mpr (by rw [hxs, hxt, ← ht]; exact hx)
  have hxp : x ∈ (replayGroup segs).records.filter (·.recordType = .promised) :=
    mem_filter.mpr ⟨hxr, by simpa using hxt⟩
  have hfloor := le_restorePromised (restoreAccepted_node (scanGroup segs).pairwise_entries).1 hxp
  exact hle.trans (hxs ▸ hfloor)

/-- An accept of the log is held, or a higher one of its slot is. -/
theorem le_restoreAcceptor_of_accepted {g : WalSegment} (hg : g ∈ segs) (hr : r ∈ g.records)
    (ht : r.recordType = .accepted) :
    ∃ e, ((restoreAcceptor (replayGroup segs)).node r.slot).accepted = some e ∧
      r.ballot ≤ e.ballot := by
  have hmem : r ∈ scanOrder segs := mem_scanOrder.mpr ⟨g, hg, hr⟩
  obtain ⟨x, hx, hle⟩ := ReplayRecords.le_scan_slots hmem (by simp [ht])
  obtain ⟨-, hxt⟩ := (scanGroup segs).keyed _ _ x hx
  rw [ht] at hx hxt
  refine ⟨⟨x.slot, x.ballot, x.term, x.payload⟩, ?_, hle⟩
  rw [restoreAcceptor_accepted, scanGroup, hx]
  exact toLogEntry_eq_some.mpr ⟨hxt, rfl⟩

end Replay

/-! ## Pass 2 -/

/-- The walk learns every accepted entry on its way, and nothing else. -/
theorem relearn_spec (A : PxAcceptor) (ok : ℕ → Bool) (slots : List ℕ) (L : PxLearner) :
    (∀ x, (relearn A ok slots L).chosen.covers x ↔
      L.chosen.covers x ∨ (x ∈ slots ∧ (A.acceptedAt x).isSome)) ∧
    ∀ s p, (s, p) ∈ (relearn A ok slots L).engineLog ↔
      (s, p) ∈ L.engineLog ∨ (s ∈ slots ∧ (A.acceptedAt s).map (·.payload) = some p) := by
  induction slots generalizing L with
  | nil => simp [relearn]
  | cons t slots ih =>
    cases ht : A.acceptedAt t with
    | none =>
      have hstep : relearn A ok (t :: slots) L = relearn A ok slots L := by simp [relearn, ht]
      rw [hstep]
      refine ⟨fun x => ((ih L).1 x).trans ?_, fun s p => ((ih L).2 s p).trans ?_⟩
      · by_cases hx : x = t
        · simp [hx, ht]
        · simp [hx]
      · by_cases hs : s = t
        · simp [hs, ht]
        · simp [hs]
    | some e =>
      have hslot : e.slot = t := slot_of_node_accepted (acceptedAt_some ht)
      have hstep : relearn A ok (t :: slots) L = relearn A ok slots (L.learn e (ok t)) := by
        simp [relearn, ht]
      rw [hstep]
      refine ⟨fun x => ((ih _).1 x).trans ?_, fun s p => ((ih _).2 s p).trans ?_⟩
      · rw [PxLearner.learn_covers, hslot]
        by_cases hx : x = t
        · simp [hx, ht]
        · simp [hx]
      · rw [PxLearner.learn_engineLog, mem_cons, hslot]
        by_cases hs : s = t
        · simp only [hs, ht, Prod.mk.injEq, map_some, some.injEq]
          tauto
        · simp [hs]

variable {s : ℕ}

lemma mem_walkSlots {resume highest : ℕ} :
    s ∈ walkSlots resume highest ↔ resume < s ∧ s ≤ highest := by
  simp [walkSlots]
  omega

section Restored
variable (segs : List WalSegment) (id : ℕ) (role : PxLocalReplicaRole) (resume : ℕ) (ok : ℕ → Bool)

lemma mem_walk_of_accepted (h : (scanGroup segs).slots s .accepted = some r) :
    (restoreAcceptor (replayGroup segs)).acceptedAt s = some ⟨r.slot, r.ballot, r.term, r.payload⟩ ∧
      s ≤ (restoreAcceptor (replayGroup segs)).highestSeenSlot := by
  have ht := ((scanGroup segs).keyed s .accepted r h).2
  have hacc : (restoreAcceptor (replayGroup segs)).acceptedAt s =
      some ⟨r.slot, r.ballot, r.term, r.payload⟩ := by
    rw [acceptedAt_restoreAcceptor, h]
    exact toLogEntry_eq_some.mpr ⟨ht, rfl⟩
  exact ⟨hacc, le_highestSeen_of_accepted (acceptedAt_some hacc)⟩

/-- What the acceptor reports at a slot is the survivor there. -/
theorem accepted_of_acceptedAt (h : (restoreAcceptor (replayGroup segs)).acceptedAt s = some e) :
    ∃ r, (scanGroup segs).slots s .accepted = some r ∧ r.payload = e.payload := by
  rw [acceptedAt_restoreAcceptor] at h
  obtain ⟨r, hr, he⟩ := bind_eq_some_iff.mp h
  obtain ⟨-, rfl⟩ := toLogEntry_eq_some.mp he
  exact ⟨r, hr, rfl⟩

/-- Above the resume slot a restart applies exactly the surviving accepts. -/
theorem restored_engineLog (s : ℕ) (p : Bytes) :
    (s, p) ∈ (restoreFromReplayWithEngine id role (replayGroup segs) resume ok).learner.engineLog ↔
      resume < s ∧ ∃ r, (scanGroup segs).slots s .accepted = some r ∧ r.payload = p := by
  have hseed : ∀ t, (if 0 < resume then PxLearner.fresh.seedResumeFrontier resume t
      else PxLearner.fresh).engineLog = [] := by
    intro t; split <;> rfl
  refine ((relearn_spec _ _ _ _).2 s p).trans ?_
  rw [hseed, mem_walkSlots]
  constructor
  · rintro (h | ⟨⟨hlt, -⟩, h⟩)
    · simp at h
    · obtain ⟨e, he, rfl⟩ := map_eq_some_iff.mp h
      exact ⟨hlt, accepted_of_acceptedAt segs he⟩
  · rintro ⟨hlt, r, hr, rfl⟩
    obtain ⟨hacc, hle⟩ := mem_walk_of_accepted segs hr
    exact .inr ⟨⟨hlt, hle⟩, by rw [hacc]; rfl⟩

/-- And counts exactly those as chosen. -/
theorem restored_covers (hs : resume < s)
    (h : (restoreFromReplayWithEngine id role
      (replayGroup segs) resume ok).learner.chosen.covers s) :
    ∃ r, (scanGroup segs).slots s .accepted = some r := by
  have hnot : ∀ t, ¬ (if 0 < resume then PxLearner.fresh.seedResumeFrontier resume t
      else PxLearner.fresh).chosen.covers s := by
    intro t
    split
    · exact fun h => absurd ((Frontier.seed_covers resume s).mp h) (by omega)
    · exact fun h => absurd ((Frontier.seed_covers 0 s).mp h) (by omega)
  rcases ((relearn_spec _ _ _ _).1 s).mp h with h | ⟨-, h⟩
  · exact absurd h (hnot _)
  · obtain ⟨e, he⟩ := isSome_iff_exists.mp h
    obtain ⟨r, hr, -⟩ := accepted_of_acceptedAt segs he
    exact ⟨r, hr⟩

end Restored
end PxLocalReplica
open PxLocalReplica

/-- Whatever was chosen in the group, a restart applies only chosen payloads above
the resume slot, and counts only slots whose chosen payload it applied, exactly
when the accept that survives the replay at each such slot was a chosen one. -/
theorem restart_learns_only_chosen_iff (segs : List WalSegment) (id : ℕ)
    (role : PxLocalReplicaRole) (resume : ℕ) (engineOk : ℕ → Bool) (Chosen : ℕ → Bytes → Prop) :
    ((∀ s p, resume < s → (s, p) ∈ (restoreFromReplayWithEngine id role (replayGroup segs) resume
          engineOk).learner.engineLog → Chosen s p) ∧
      ∀ s, resume < s → s ≤ (restoreFromReplayWithEngine id role (replayGroup segs) resume
          engineOk).learner.chosen.contiguous →
        ∃ p, Chosen s p ∧ (s, p) ∈ (restoreFromReplayWithEngine id role (replayGroup segs) resume
          engineOk).learner.engineLog) ↔
    ∀ s r, resume < s → (scanGroup segs).slots s .accepted = some r → Chosen s r.payload := by
  simp only [restored_engineLog]
  constructor
  · rintro ⟨happlied, -⟩ s r hs hr
    exact happlied s r.payload hs ⟨hs, r, hr, rfl⟩
  · intro h
    refine ⟨fun s p hs ⟨_, r, hr, hp⟩ => hp ▸ h s r hs hr, fun s hs hle => ?_⟩
    obtain ⟨r, hr⟩ := restored_covers segs id role resume engineOk hs (.inl hle)
    exact ⟨r.payload, h s r hs hr, hs, r, hr, rfl⟩

/-- The log a replica has written for the accepts it answered. -/
def acceptLog (c : Live) (a : ℕ) : List WalSegment :=
  [⟨1, false, (c.accepts.filter (·.1 = a)).map fun x => .fromAccepted 0 x.2⟩]

/-- Replica 3 restarted from that log, with an engine that starts empty. -/
def restarted (c : Live) : PxLocalReplica :=
  restoreFromReplayWithEngine 3 .follower (replayGroup (acceptLog c 3)) 0 fun _ => true

/-- The entry that replica 3 accepted lost against another payload. The replica
restarts and applies its own entry as if it were chosen. -/
theorem restart_applies_unchosen : ∃ c, (live liveTrio).Reach System.Free c ∧
    ∃ s p, (s, p) ∈ (restarted c).learner.engineLog ∧ s ≤ (restarted c).learner.chosen.contiguous ∧
      (∃ x ∈ c.chosen, x.slot = s) ∧ ∀ x ∈ c.chosen, x.slot = s → x.payload ≠ p :=
  ⟨_, System.reach_run (staleApply.take 6) rfl, 1, [1], by decide +kernel⟩

end CrowDB.Cluster
