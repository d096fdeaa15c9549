import CrowDB.Cluster.LocalReplica
import CrowDB.Lib.Transition

/-!
# Linearizable reads through a quorum round

A read without a valid lease either opens a round of heartbeats, with the
contiguous chosen slot as its read slot, or joins the round in flight and takes
over that round's read slot and confirmation. It then waits until the applied
frontier reaches the read slot.

A write returns when its slot is chosen; with `async_engine_apply` its batch
reaches the engine later. So a read misses a write that returned before it when
the slot lies above a gap of the chosen frontier, or above the read slot of a
round that was opened before. A clock counts the steps.
-/
namespace CrowDB.Cluster
open Paxos Lib List Option

/-- The heartbeats of a round: not sent yet, out with the acknowledgements so
far, or without an owner since the read that opened the round was dropped. -/
inductive RoundPhase
  | registered
  | confirming (sentAt sentTime acks : ℕ)
  | orphaned
  deriving DecidableEq, Repr

structure PendingReadBarrier where
  readSlot : ℕ
  phase : RoundPhase
  deriving DecidableEq, Repr

/-- Where a read stands. `sentAt` is when the heartbeats that confirmed it went
out, `none` for a read under the lease. -/
inductive ReadPhase
  | leading
  | joined
  | fencing (readSlot : ℕ) (sentAt : Option ℕ)
  | served (readSlot : ℕ) (sentAt : Option ℕ)
  | refused
  deriving DecidableEq, Repr

structure Read where
  began : ℕ
  /-- Slots of the writes that had returned when the read began. -/
  before : List ℕ
  phase : ReadPhase
  deriving DecidableEq, Repr

structure ReadGroup where
  replica : PxLocalReplica
  leaderReadReady : Bool
  clock : ℕ
  pending : Option PendingReadBarrier
  reads : List Read
  spawned : List PxLogEntry
  returned : List ℕ

inductive ReadAction
  | choose (entry : PxLogEntry) (asyncEngineApply ok own : Bool)
  | runSpawned (entry : PxLogEntry) (ok : Bool)
  | applySlot (slot : ℕ) (payload : Bytes) (ok : Bool)
  | read (now : ℕ)
  | sendHeartbeats (now : ℕ)
  | ack (voting : Bool)
  | higherTerm
  | noQuorum
  | passFence (i : ℕ)
  | drop (i : ℕ)
  | demote (now term : ℕ)
  | promote (now term : ℕ)
  | recovered
  deriving DecidableEq, Repr

structure ReadConfig where
  quorum : ℕ
  leaseDurationMs : ℕ
  maxClockSkewMs : ℕ

namespace ReadGroup

def boot (id : ℕ) : ReadGroup := ⟨.fresh id, false, 0, none, [], [], []⟩

section
variable (c : ReadGroup)

def learner : PxLearner := c.replica.learner

def setLearner (L : PxLearner) : ReadGroup :=
  { c with replica := { c.replica with learner := L } }

/-- `lease_read_valid`. -/
def leaseReadValid (now : ℕ) : Bool :=
  c.replica.role == .leader && now < c.replica.leaseReadUntil

def addRead (phase : ReadPhase) : ReadGroup :=
  { c with reads := c.reads ++ [⟨c.clock, c.returned, phase⟩] }

/-- The first half of `linearizable_read_barrier`, up to its first await. -/
def startRead (now : ℕ) : ReadGroup :=
  if c.replica.role ≠ .leader then c.addRead .refused
  else if c.leaderReadReady = false then c.addRead .refused
  else if c.leaseReadValid now then c.addRead (.fencing c.learner.chosen.contiguous none)
  else match c.pending with
    | some _ => c.addRead .joined
    | none => { c.addRead .leading with pending := some ⟨c.learner.chosen.contiguous, .registered⟩ }

/-- End the round: its owner and everybody who joined take the outcome. -/
def drain (outcome : ReadPhase) : ReadGroup :=
  { c with
    pending := none
    reads := c.reads.map fun r =>
      if r.phase = .leading ∨ r.phase = .joined then { r with phase := outcome } else r }

end

variable (cfg : ReadConfig)

/-- Count acknowledgements; at the quorum the lease is renewed from the send
time and the round ends. -/
def tally (c : ReadGroup) (readSlot sentAt sentTime acks : ℕ) : ReadGroup :=
  if cfg.quorum ≤ acks then
    { c with replica := { c.replica with
        leaseReadUntil := max c.replica.leaseReadUntil
          (sentTime + (cfg.leaseDurationMs - cfg.maxClockSkewMs)) } }.drain
      (.fencing readSlot (some sentAt))
  else { c with pending := some ⟨readSlot, .confirming sentAt sentTime acks⟩ }

def act (c : ReadGroup) : ReadAction → Option ReadGroup
  | .choose entry asyncEngineApply ok own =>
    let c' := { c with returned := if own then entry.slot :: c.returned else c.returned }
    if asyncEngineApply then
      some { c'.setLearner (c.learner.updateChosenFrontier entry.slot entry.term) with
        spawned := entry :: c.spawned }
    else some (c'.setLearner (c.learner.learn entry ok))
  | .runSpawned entry ok =>
    if entry ∈ c.spawned then
      some { c.setLearner (c.learner.applyAndAdvance entry.slot entry.payload ok) with
        spawned := c.spawned.erase entry }
    else none
  | .applySlot slot payload ok => some (c.setLearner (c.learner.applyAndAdvance slot payload ok))
  | .read now => some (c.startRead now)
  | .sendHeartbeats now =>
    match c.pending with
    | some ⟨readSlot, .registered⟩ => some (c.tally cfg readSlot c.clock now 1)
    | _ => none
  | .ack voting =>
    match c.pending with
    | some ⟨readSlot, .confirming sentAt sentTime acks⟩ =>
      some (c.tally cfg readSlot sentAt sentTime (acks + voting.toNat))
    | _ => none
  | .higherTerm | .noQuorum =>
    match c.pending with
    | some ⟨_, .confirming _ _ _⟩ => some (c.drain .refused)
    | _ => none
  | .passFence i =>
    match c.reads[i]? with
    | some r =>
      match r.phase with
      | .fencing readSlot sentAt =>
        if readSlot ≤ c.learner.applied.contiguous then
          some { c with reads := c.reads.set i { r with phase := .served readSlot sentAt } }
        else none
      | _ => none
    | none => none
  | .drop i =>
    match c.reads[i]? with
    | some r =>
      match r.phase with
      | .leading => some { c with
          reads := c.reads.set i { r with phase := .refused }
          pending := c.pending.map fun b => { b with phase := .orphaned } }
      | .joined | .fencing _ _ =>
          some { c with reads := c.reads.set i { r with phase := .refused } }
      | _ => none
    | none => none
  | .demote now term =>
    some { c with replica := c.replica.becomeFollower now term, leaderReadReady := false }
  | .promote now term =>
    some { c with
      replica := { c.replica with currentTerm := max c.replica.currentTerm term }.becomeLeader now
      leaderReadReady := false }
  | .recovered => some { c with leaderReadReady := c.replica.role == .leader }

def step (c : ReadGroup) (a : ReadAction) : Option ReadGroup :=
  (c.act cfg a).map fun d => { d with clock := c.clock + 1 }

end ReadGroup

def readIndex (cfg : ReadConfig) : System ReadGroup ReadAction where
  init c := ∃ id, c = ReadGroup.boot id
  step := ReadGroup.step cfg

namespace ReadGroup

/-- A write is behind the read slot or already in the engine. -/
def Reflected (L : PxLearner) (readSlot w : ℕ) : Prop := w ≤ readSlot ∨ L.applied.covers w

instance (L : PxLearner) (s w : ℕ) : Decidable (Reflected L s w) :=
  inferInstanceAs (Decidable (w ≤ s ∨ L.applied.covers w))

/-- The condition on a read that goes through a round: the slots of all writes
that returned are reflected at the read slot it will use, and the heartbeats of a
round it joins are not out yet. -/
def freshGuard (c : ReadGroup) : ReadAction → Bool
  | .read now => c.leaseReadValid now ||
    match c.pending with
    | none => c.returned.all fun w => Reflected c.learner c.learner.chosen.contiguous w
    | some ⟨readSlot, phase⟩ =>
      (phase == .registered || phase == .orphaned) &&
        c.returned.all fun w => Reflected c.learner readSlot w
  | _ => true

/-- A read waits for the round in flight. -/
def Waiting (r : Read) : Prop := r.phase = .leading ∨ r.phase = .joined

/-- What is known of a read that went through a round. While it waits, the round
will serve it; once confirmed, by heartbeats sent after it began, only the fence
is missing; once served, the writes before it are in the engine. -/
def ReadOk (L : PxLearner) (pending : Option PendingReadBarrier) (r : Read) : Prop :=
  match r.phase with
  | .leading | .joined => ∃ b, pending = some b ∧ (∀ w ∈ r.before, Reflected L b.readSlot w) ∧
      ∀ sentAt sentTime acks, b.phase = .confirming sentAt sentTime acks → r.began < sentAt
  | .fencing readSlot (some sentAt) =>
    (∀ w ∈ r.before, Reflected L readSlot w) ∧ r.began < sentAt
  | .served _ (some sentAt) => (∀ w ∈ r.before, L.applied.covers w) ∧ r.began < sentAt
  | _ => True

section ReadOk
variable {L L' : PxLearner} {pending pending' : Option PendingReadBarrier} {r : Read}

lemma readOk_waiting (hw : Waiting r) : ReadOk L pending r ↔
    ∃ b, pending = some b ∧ (∀ w ∈ r.before, Reflected L b.readSlot w) ∧
      ∀ sentAt sentTime acks, b.phase = .confirming sentAt sentTime acks → r.began < sentAt := by
  rcases hw with hw | hw <;> simp [ReadOk, hw]

/-- A read that waits for nothing does not look at the round. -/
theorem ReadOk.of_not_waiting (hw : ¬ Waiting r) (h : ReadOk L pending r) :
    ReadOk L pending' r := by
  unfold ReadOk at h ⊢
  unfold Waiting at hw
  split <;> simp_all

/-- The applied frontier only grows. -/
theorem ReadOk.applied_mono (hL : ∀ x, L.applied.covers x → L'.applied.covers x)
    (h : ReadOk L pending r) : ReadOk L' pending r := by
  have href : ∀ s, (∀ w ∈ r.before, Reflected L s w) → ∀ w ∈ r.before, Reflected L' s w :=
    fun s hs w hw => (hs w hw).imp_right (hL w)
  unfold ReadOk at h ⊢
  split at h
  · obtain ⟨b, hb, h1, h2⟩ := h
    exact ⟨b, hb, href _ h1, h2⟩
  · obtain ⟨b, hb, h1, h2⟩ := h
    exact ⟨b, hb, href _ h1, h2⟩
  · exact ⟨href _ h.1, h.2⟩
  · exact ⟨fun w hw => hL w (h.1 w hw), h.2⟩
  · trivial

end ReadOk

lemma applyAndAdvance_applied_mono (L : PxLearner) (slot : ℕ) (payload : Bytes) (ok : Bool)
    (x : ℕ) (h : L.applied.covers x) : (L.applyAndAdvance slot payload ok).applied.covers x := by
  unfold PxLearner.applyAndAdvance
  split
  · exact (Frontier.note_covers _ _ _).mpr (.inl h)
  · exact h

lemma learn_applied_mono (L : PxLearner) (e : PxLogEntry) (ok : Bool) (x : ℕ)
    (h : L.applied.covers x) : (L.learn e ok).applied.covers x := by
  unfold PxLearner.learn
  split
  · exact (Frontier.note_covers _ _ _).mpr (.inl h)
  · exact h

/-- Every read is all right, and began in the past. -/
structure ReadInv (c : ReadGroup) : Prop where
  ok : ∀ r ∈ c.reads, ReadOk c.learner c.pending r
  past : ∀ r ∈ c.reads, r.began < c.clock

/-- The same after a step whose clock tick is still to come. -/
structure Stepped (c d : ReadGroup) : Prop where
  ok : ∀ r ∈ d.reads, ReadOk d.learner d.pending r
  past : ∀ r ∈ d.reads, r.began ≤ c.clock

section Step
variable {cfg : ReadConfig} {c d : ReadGroup}

section
variable (h : ReadInv c)
include h

/-- Nothing but the learner and the election state changes. -/
theorem ReadInv.stepped_of_reads (hr : d.reads = c.reads) (hp : d.pending = c.pending)
    (hL : ∀ x, c.learner.applied.covers x → d.learner.applied.covers x) : Stepped c d := by
  refine ⟨fun r hr' => ?_, fun r hr' => (h.past r (hr ▸ hr')).le⟩
  rw [hp]
  exact (h.ok r (hr ▸ hr')).applied_mono hL

lemma ReadInv.addRead (phase : ReadPhase) (pending : Option PendingReadBarrier)
    (hold : ∀ r, ReadOk c.learner c.pending r → ReadOk c.learner pending r)
    (hnew : ReadOk c.learner pending ⟨c.clock, c.returned, phase⟩) :
    Stepped c { c.addRead phase with pending := pending } := by
  exact ⟨forall_mem_concat (fun r hr => hold r (h.ok r hr)) hnew,
    forall_mem_concat (fun r hr => (h.past r hr).le) le_rfl⟩

lemma ReadInv.startRead {now : ℕ} (hg : freshGuard c (.read now) = true) :
    Stepped c (c.startRead now) := by
  unfold ReadGroup.startRead
  split
  · exact h.addRead _ c.pending (fun _ h => h) trivial
  split
  · exact h.addRead _ c.pending (fun _ h => h) trivial
  split
  · exact h.addRead _ c.pending (fun _ h => h) trivial
  · next hlease =>
    simp only [freshGuard, hlease, Bool.false_or] at hg
    cases hp : c.pending with
    | none =>
      rw [hp] at hg
      refine h.addRead _ _ (fun r hr => ?_) ?_
      · -- nobody waits while there is no round
        by_cases hw : Waiting r
        · obtain ⟨b, hb, -⟩ := (readOk_waiting hw).mp hr
          rw [hp] at hb
          simp at hb
        · exact hr.of_not_waiting hw
      · refine (readOk_waiting (.inl rfl)).mpr ⟨_, rfl, ?_, by simp⟩
        simpa using hg
    | some b =>
      rw [hp] at hg
      simp only [Bool.and_eq_true, Bool.or_eq_true, beq_iff_eq] at hg
      have hjoin : ReadOk c.learner c.pending ⟨c.clock, c.returned, .joined⟩ := by
        refine (readOk_waiting (.inr rfl)).mpr ⟨b, hp, ?_, fun t s n hb => ?_⟩
        · simpa using hg.2
        · rcases hg.1 with hb' | hb' <;> simp [hb'] at hb
      exact h.addRead .joined c.pending (fun _ h => h) hjoin

/-- A round ends: who waited takes the outcome. -/
theorem ReadInv.drain (outcome : ReadPhase)
    (ho : ∀ r ∈ c.reads, Waiting r → ReadOk c.learner none { r with phase := outcome }) :
    Stepped c (c.drain outcome) := by
  refine ⟨fun r hr => ?_, fun r hr => ?_⟩
  · obtain ⟨q, hq, rfl⟩ := mem_map.mp hr
    split
    · next hw => exact ho q hq hw
    · next hw => exact (h.ok q hq).of_not_waiting hw
  · obtain ⟨q, hq, rfl⟩ := mem_map.mp hr
    split <;> exact (h.past q hq).le

lemma ReadInv.tally {readSlot sentAt sentTime acks : ℕ}
    (hw : ∀ r ∈ c.reads, Waiting r → (∀ w ∈ r.before, Reflected c.learner readSlot w) ∧
      r.began < sentAt) : Stepped c (c.tally cfg readSlot sentAt sentTime acks) := by
  unfold ReadGroup.tally
  split
  · have hrenew : ReadInv { c with replica := { c.replica with
        leaseReadUntil := max c.replica.leaseReadUntil
          (sentTime + (cfg.leaseDurationMs - cfg.maxClockSkewMs)) } } := ⟨h.ok, h.past⟩
    have hd := hrenew.drain (.fencing readSlot (some sentAt)) hw
    exact ⟨hd.ok, hd.past⟩
  · refine ⟨fun r hr => ?_, fun r hr => (h.past r hr).le⟩
    by_cases hrw : Waiting r
    · refine (readOk_waiting hrw).mpr ⟨_, rfl, (hw r hr hrw).1, fun t s n hb => ?_⟩
      obtain ⟨rfl, -, -⟩ := RoundPhase.confirming.inj hb
      exact (hw r hr hrw).2
    · exact (h.ok r hr).of_not_waiting hrw

/-- One read changes its phase. -/
theorem ReadInv.set {i : ℕ} {r : Read} {phase : ReadPhase} {pending : Option PendingReadBarrier}
    (hr : c.reads[i]? = some r)
    (hold : ∀ q ∈ c.reads, ReadOk c.learner c.pending q → ReadOk c.learner pending q)
    (hnew : ReadOk c.learner pending { r with phase := phase }) :
    Stepped c { c with reads := c.reads.set i { r with phase := phase }, pending := pending } := by
  refine ⟨forall_mem_set (fun q hq => hold q hq (h.ok q hq)) hnew,
    forall_mem_set (fun q hq => (h.past q hq).le) ?_⟩
  exact (h.past r (mem_of_getElem? hr)).le

lemma ReadInv.act {a : ReadAction} (hg : freshGuard c a = true) (hs : c.act cfg a = some d) :
    Stepped c d := by
  cases a with
  | choose entry _ ok =>
    simp only [ReadGroup.act] at hs
    split at hs <;> cases hs
    · exact h.stepped_of_reads rfl rfl fun _ hx => hx
    · exact h.stepped_of_reads rfl rfl fun x => learn_applied_mono _ entry ok x
  | runSpawned _ ok =>
    obtain ⟨-, hs⟩ := ite_none_right_eq_some.mp hs
    cases hs
    exact h.stepped_of_reads rfl rfl fun x => applyAndAdvance_applied_mono _ _ _ ok x
  | applySlot slot payload ok =>
    cases hs
    exact h.stepped_of_reads rfl rfl (applyAndAdvance_applied_mono _ slot payload ok)
  | read =>
    cases hs
    exact h.startRead hg
  | sendHeartbeats =>
    simp only [ReadGroup.act] at hs
    split at hs <;> cases hs
    next readSlot hp =>
    refine h.tally fun r hr hrw => ?_
    obtain ⟨b, hb, hcov, -⟩ := (readOk_waiting hrw).mp (h.ok r hr)
    obtain rfl := some.inj (hp.symm.trans hb)
    exact ⟨hcov, h.past r hr⟩
  | ack =>
    simp only [ReadGroup.act] at hs
    split at hs <;> cases hs
    next readSlot sentAt sentTime acks hp =>
    refine h.tally fun r hr hrw => ?_
    obtain ⟨b, hb, hcov, hsent⟩ := (readOk_waiting hrw).mp (h.ok r hr)
    obtain rfl := some.inj (hp.symm.trans hb)
    exact ⟨hcov, hsent sentAt sentTime acks rfl⟩
  | higherTerm | noQuorum =>
    simp only [ReadGroup.act] at hs
    split at hs <;> cases hs
    exact h.drain .refused fun _ _ _ => trivial
  | passFence =>
    simp only [ReadGroup.act] at hs
    split at hs
    · next r hr =>
      split at hs
      · next readSlot sentAt hph =>
        simp only [ite_none_right_eq_some] at hs
        obtain ⟨hle, hs⟩ := hs
        cases hs
        refine h.set hr (fun _ _ hq => hq) ?_
        have hok := h.ok r (mem_of_getElem? hr)
        cases sentAt with
        | none => trivial
        | some =>
          simp only [ReadOk, hph] at hok
          refine ⟨fun w hw => ?_, hok.2⟩
          rcases hok.1 w hw with hws | hwa
          · exact .inl (hws.trans hle)
          · exact hwa
      · simp at hs
    · simp at hs
  | drop =>
    simp only [ReadGroup.act] at hs
    split at hs
    · next r hr =>
      split at hs <;> cases hs
      · refine h.set hr (fun q _ hq => ?_) trivial
        by_cases hw : Waiting q
        · obtain ⟨b, hb, hcov, -⟩ := (readOk_waiting hw).mp hq
          exact (readOk_waiting hw).mpr ⟨⟨b.readSlot, .orphaned⟩, by rw [hb]; rfl, hcov, by simp⟩
        · exact hq.of_not_waiting hw
      · exact h.set hr (fun _ _ hq => hq) trivial
      · exact h.set hr (fun _ _ hq => hq) trivial
    · simp at hs
  | demote | promote | recovered =>
    cases hs
    exact h.stepped_of_reads rfl rfl fun _ hx => hx

lemma ReadInv.step {a : ReadAction} (hg : freshGuard c a = true)
    (hs : step cfg c a = some d) : ReadInv d := by
  obtain ⟨e, he, rfl⟩ := map_eq_some_iff.mp hs
  have h' := h.act hg he
  exact ⟨h'.ok, fun r hr => Nat.lt_succ_of_le (h'.past r hr)⟩

end

lemma readInv_of_reach (h : (readIndex cfg).Reach (fun c a => freshGuard c a = true) c) :
    ReadInv c := by
  refine System.Reach.invariant (fun s hs => ?_) (fun _ _ _ hI hg => hI.step hg) h
  obtain ⟨id, rfl⟩ := hs
  exact ⟨by simp [boot], by simp [boot]⟩

end Step

end ReadGroup

/-- In every run whose reads meet `freshGuard`: a read that passed the fence
after a round has every write in the engine that returned before it began, and
its confirmation comes from heartbeats sent after it began. -/
theorem read_index_fresh (cfg : ReadConfig) {c : ReadGroup}
    (h : (readIndex cfg).Reach (fun c a => ReadGroup.freshGuard c a = true) c) {r : Read}
    (hr : r ∈ c.reads) {readSlot sentAt : ℕ} (hs : r.phase = .served readSlot (some sentAt)) :
    (∀ w ∈ r.before, c.learner.applied.covers w) ∧ r.began < sentAt := by
  have hok := (ReadGroup.readInv_of_reach h).ok r hr
  simpa [ReadGroup.ReadOk, hs] using hok

def readTrio : ReadConfig := ⟨2, 10, 1⟩

/-- The second read joins a round whose heartbeats are out, after a write at
slot 1 returned that the round's read slot does not cover. -/
def lateJoin : List ReadAction :=
  [.promote 0 1, .recovered, .read 20, .sendHeartbeats 20,
    .choose ⟨1, ⟨0, 1⟩, 1, [1]⟩ true true true, .read 25, .ack true, .passFence 1]

/-- The write at slot 2 returned while slot 1 was still open. -/
def aboveGap : List ReadAction :=
  [.promote 0 1, .recovered, .choose ⟨2, ⟨0, 1⟩, 1, [2]⟩ true true true, .read 20,
    .sendHeartbeats 20, .ack true, .passFence 0]

/-- One read is served past a write that returned before it, on heartbeats sent
before it began; another one, alone in its round, misses a write above a gap. -/
theorem served_read_misses_write :
    (∃ c r w t, (readIndex readTrio).Reach System.Free c ∧ r ∈ c.reads ∧ w ∈ r.before ∧
      r.phase = .served 0 (some t) ∧ ¬ c.learner.applied.covers w ∧ t < r.began) ∧
    ∃ c r w t, (readIndex readTrio).Reach System.Free c ∧ c.reads = [r] ∧ w ∈ r.before ∧
      r.phase = .served 0 (some t) ∧ ¬ c.learner.applied.covers w :=
  ⟨⟨_, ⟨5, [1], .served 0 (some 3)⟩, 1, 3, System.reach_run lateJoin ⟨1, rfl⟩,
    by unfold Frontier.covers; decide +kernel⟩, _, ⟨3, [2], .served 0 (some 4)⟩, 2, 4,
    System.reach_run aboveGap ⟨1, rfl⟩, by unfold Frontier.covers; decide +kernel⟩

/-- The same write is behind the read slot of a round opened after it. -/
theorem read_index_fresh_round : ∃ c r,
    (readIndex readTrio).Reach (fun c a => ReadGroup.freshGuard c a = true) c ∧ r ∈ c.reads ∧
      1 ∈ r.before ∧ r.phase = .served 1 (some 5) ∧ c.learner.applied.covers 1 ∧ r.began < 5 := by
  have hr := System.reach_runGuarded (S := readIndex readTrio) (g := ReadGroup.freshGuard)
    [.promote 0 1, .recovered, .choose ⟨1, ⟨0, 1⟩, 1, [1]⟩ true true true, .read 20, .read 21,
      .sendHeartbeats 22, .ack true, .runSpawned ⟨1, ⟨0, 1⟩, 1, [1]⟩ true, .passFence 1] ⟨1, rfl⟩
  have h := read_index_fresh readTrio hr (r := ⟨4, [1], .served 1 (some 5)⟩) (by decide +kernel) rfl
  exact ⟨_, _, hr, by decide +kernel, by decide, rfl, h.1 1 (by decide), h.2⟩

end CrowDB.Cluster
