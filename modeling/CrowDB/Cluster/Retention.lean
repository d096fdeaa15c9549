import CrowDB.Lib.Transition
import CrowDB.Cluster.LocalReplica
import Mathlib.Order.MinMax

/-!
# Reclamation certificates

A leader certifies that a prefix of the log may be reclaimed: every learner has
applied it, and snapshots of the leader and of a voting peer hold it. The
certificate travels in heartbeats and a maintenance pass takes the minimum of it and
of the local progress. Reads of a computation are separate steps, requests and
replies may be delivered late and repeatedly, and roles, terms and epochs change at
any time; only the membership is fixed.
-/
namespace CrowDB.Cluster
open Lib List Option Function

/-- The fixed membership: node ids with their voting flag. -/
abbrev GroupMembers := List (ℕ × Bool)

namespace GroupMembers
variable (g : GroupMembers)

def quorum : ℕ := (g.filter (·.2)).length / 2 + 1

/-- The remote replicas of `r`. -/
def remotes (r : ℕ) : GroupMembers := g.filter (·.1 ≠ r)

end GroupMembers

structure ReclamationCertificate where
  epoch : ℕ
  term : ℕ
  leader : ℕ
  beforeSlot : ℕ
  deriving DecidableEq, Repr

/-- A heartbeat, without the fields that serve commit progress and leases. -/
structure GcHeartbeat where
  term : ℕ
  leaderId : ℕ
  gcBeforeSlot : ℕ
  gcMembershipEpoch : ℕ
  deriving DecidableEq, Repr

structure GcReply where
  term : ℕ
  success : Bool
  contiguousApplied : ℕ
  durableSnapshotSlot : ℕ
  deriving DecidableEq, Repr

/-- What a group object and its local replica hold for retention. `wal` is the
snapshot slot of the log, if there is a log. -/
structure RetentionReplica where
  role : PxLocalReplicaRole
  term : ℕ
  leaderId : Option ℕ
  epoch : ℕ
  cancelled : Bool
  contiguousApplied : ℕ
  wal : Option ℕ
  peerApplied : ℕ → Option ℕ
  peerDurable : ℕ → Option ℕ
  groupSafeSlot : ℕ
  groupSnapshotSlot : ℕ
  leaderGcCertificate : Option ReclamationCertificate

/-- How far a computation of `reclamation_certificate` has come. -/
inductive Certifying
  | checkRole
  | readLocal
  | readApplied (safe : ℕ)
  | readDurable (safe : ℕ)
  | done (safe : ℕ)
  deriving DecidableEq, Repr

namespace RetentionReplica
variable (g : GroupMembers) (r : ℕ) (n : RetentionReplica)

def durable : ℕ := n.wal.getD 0

/-- The smallest reported applied slot among the peers that `among` selects. -/
def minPeerApplied (among : ℕ × Bool → Bool) (safe : ℕ) : ℕ :=
  ((g.remotes r).filter among).foldl (fun safe p => min safe ((n.peerApplied p.1).getD 0)) safe

/-- The largest reported snapshot slot among the voting peers. -/
def maxPeerDurable : ℕ :=
  (((g.remotes r).filter (·.2)).map fun p => (n.peerDurable p.1).getD 0).max?.getD 0

def reclamationCertificate : Certifying → Certifying
  | .checkRole => if n.cancelled || n.role ≠ .leader then .done 0 else .readLocal
  | .readLocal => .readApplied (min n.contiguousApplied n.durable)
  | .readApplied safe =>
    let safe := n.minPeerApplied g r (fun _ => true) safe
    if 1 < g.quorum then .readDurable safe else .done safe
  | .readDurable safe => .done (min safe (n.maxPeerDurable g r))
  | .done safe => .done safe

/-- The certificate a replica that does not lead uses, with its leader. -/
def storedCertificate : Option (ℕ × ℕ) :=
  n.leaderGcCertificate.bind fun certificate =>
    if certificate.epoch = n.epoch ∧ certificate.term = n.term ∧
        n.leaderId = some certificate.leader ∧ n.cancelled = false then
      some (certificate.leader, certificate.beforeSlot)
    else none

/-- The last line of `local_reclamation_slot`. -/
def localReclamationSlot (certificate : ℕ) : ℕ :=
  min (min certificate n.contiguousApplied) n.durable

def recordReclamationHeartbeat (request : GcHeartbeat) : RetentionReplica :=
  if n.cancelled = false ∧ request.gcMembershipEpoch = n.epoch ∧ n.role = .follower ∧
      n.term = request.term ∧ n.leaderId = some request.leaderId ∧
      (request.leaderId, true) ∈ g.remotes r then
    let beforeSlot := match n.leaderGcCertificate with
      | some previous =>
        if previous.epoch = request.gcMembershipEpoch ∧ previous.term = request.term ∧
            previous.leader = request.leaderId then
          max previous.beforeSlot request.gcBeforeSlot
        else request.gcBeforeSlot
      | none => request.gcBeforeSlot
    { n with
      leaderGcCertificate :=
        some ⟨request.gcMembershipEpoch, request.term, request.leaderId, beforeSlot⟩ }
  else n

/-- The check of `record_heartbeat_progress`. -/
def heedsProgress (term : ℕ) (reply : GcReply) : Bool :=
  reply.success && reply.term == term && n.term == term && n.role == .leader && !n.cancelled

def notePeerApplied (peer applied : ℕ) : RetentionReplica :=
  let n' := { n with peerApplied := Function.update n.peerApplied peer (some applied) }
  { n' with groupSafeSlot := max n.groupSafeSlot (n'.minPeerApplied g r (·.2) n.contiguousApplied) }

def notePeerDurable (peer durable : ℕ) : RetentionReplica :=
  let n' := { n with peerDurable := Function.update n.peerDurable peer (some durable) }
  { n' with groupSnapshotSlot := max n.groupSnapshotSlot (min n.durable (n'.maxPeerDurable g r)) }

def resetSafeSlotTracking : RetentionReplica :=
  { n with
    leaderGcCertificate := none
    peerApplied := fun _ => none
    groupSafeSlot := 0
    peerDurable := fun _ => none
    groupSnapshotSlot := 0 }

/-- `handle_heartbeat`: the replica follows a leader whose term is not below its own. -/
def handleHeartbeat (request : GcHeartbeat) : RetentionReplica × GcReply :=
  if request.term < n.term then (n, ⟨n.term, false, n.contiguousApplied, n.durable⟩)
  else
    ({ n with term := request.term, role := .follower, leaderId := some request.leaderId },
      ⟨request.term, true, n.contiguousApplied, n.durable⟩)

/-- `set_snapshot_slot` as a maintenance pass calls it. -/
def advanceSnapshot (at' : ℕ) : RetentionReplica :=
  { n with wal := n.wal.map fun slot => if 0 < at' ∧ slot < at' then at' else slot }

end RetentionReplica

inductive CertificateUse
  | heartbeat (term : ℕ)
  | pass
  deriving DecidableEq, Repr

structure CertificateCall where
  replica : ℕ
  use : CertificateUse
  phase : Certifying
  deriving DecidableEq, Repr

structure ReplyInFlight where
  leader : ℕ
  term : ℕ
  peer : ℕ
  reply : GcReply
  deriving DecidableEq, Repr

/-- A slot on its way to, or passed to, `acceptor.trim` and `run_gc_with_watermark`,
with the leader whose certificate it rests on. -/
structure Reclaim where
  replica : ℕ
  certifier : ℕ
  slot : ℕ
  deriving DecidableEq, Repr

structure RetentionWorld where
  replicas : ℕ → RetentionReplica
  calls : List CertificateCall
  heartbeats : List GcHeartbeat
  recording : List (ℕ × GcHeartbeat)
  replies : List ReplyInFlight
  noting : List ReplyInFlight
  passes : List Reclaim
  reclaimed : List Reclaim

inductive RetentionAction
  | apply (r slot : ℕ)
  | elect (r : ℕ) (role : PxLocalReplicaRole) (term : ℕ) (leaderId : Option ℕ)
  | setEpoch (r epoch : ℕ)
  | cancel (r : ℕ)
  | resetTracking (r : ℕ)
  | startHeartbeat (r term : ℕ)
  | certify (i : ℕ)
  | send (i : ℕ)
  | deliver (h : GcHeartbeat) (dst : ℕ)
  | record (i : ℕ)
  | receive (i : ℕ)
  | noteApplied (i : ℕ)
  | noteDurable (i : ℕ)
  | snapshot (r at' : ℕ)
  | startPass (r : ℕ)
  | takeCertificate (i : ℕ)
  | finishPass (i : ℕ)
  deriving DecidableEq, Repr

namespace RetentionWorld

def fresh (wal : Bool) : RetentionReplica :=
  ⟨.follower, 0, none, 0, false, 0, if wal then some 0 else none, fun _ => none, fun _ => none,
    0, 0, none⟩

/-- Every replica is fresh; those in `walless` have no log. -/
def boot (walless : List ℕ) : RetentionWorld where
  replicas r := fresh (r ∉ walless)
  calls := []
  heartbeats := []
  recording := []
  replies := []
  noting := []
  passes := []
  reclaimed := []

def setReplica (c : RetentionWorld) (r : ℕ) (n : RetentionReplica) : RetentionWorld :=
  { c with replicas := Function.update c.replicas r n }

def step (g : GroupMembers) (c : RetentionWorld) : RetentionAction → Option RetentionWorld
  | .apply r slot =>
    let n := c.replicas r
    if n.contiguousApplied ≤ slot then some (c.setReplica r { n with contiguousApplied := slot })
    else none
  | .elect r role term leaderId =>
    some (c.setReplica r { c.replicas r with role := role, term := term, leaderId := leaderId })
  | .setEpoch r epoch => some (c.setReplica r { c.replicas r with epoch := epoch })
  | .cancel r => some (c.setReplica r { c.replicas r with cancelled := true })
  | .resetTracking r => some (c.setReplica r (c.replicas r).resetSafeSlotTracking)
  | .startHeartbeat r term => some { c with calls := ⟨r, .heartbeat term, .checkRole⟩ :: c.calls }
  | .certify i => (c.calls[i]?).map fun x =>
    { c with
      calls := c.calls.set i
        { x with phase := (c.replicas x.replica).reclamationCertificate g x.replica x.phase } }
  | .send i => (c.calls[i]?).bind fun x => match x.use, x.phase with
    | .heartbeat term, .done safe => some { c with
        calls := c.calls.eraseIdx i
        heartbeats := ⟨term, x.replica, safe, (c.replicas x.replica).epoch⟩ :: c.heartbeats }
    | _, _ => none
  | .deliver h dst =>
    if h ∈ c.heartbeats then
      let (n, reply) := (c.replicas dst).handleHeartbeat h
      let c' := { c.setReplica dst n with replies := ⟨h.leaderId, h.term, dst, reply⟩ :: c.replies }
      some (if reply.success then { c' with recording := (dst, h) :: c.recording } else c')
    else none
  | .record i => (c.recording[i]?).map fun x =>
    { c.setReplica x.1 ((c.replicas x.1).recordReclamationHeartbeat g x.1 x.2) with
      recording := c.recording.eraseIdx i }
  | .receive i => (c.replies[i]?).map fun x =>
    { c with
      replies := c.replies.eraseIdx i
      noting := if (c.replicas x.leader).heedsProgress x.term x.reply then x :: c.noting
        else c.noting }
  | .noteApplied i => (c.noting[i]?).map fun x =>
    c.setReplica x.leader ((c.replicas x.leader).notePeerApplied g x.leader x.peer
      x.reply.contiguousApplied)
  | .noteDurable i => (c.noting[i]?).map fun x =>
    { c.setReplica x.leader ((c.replicas x.leader).notePeerDurable g x.leader x.peer
        x.reply.durableSnapshotSlot) with
      noting := c.noting.eraseIdx i }
  | .snapshot r at' => some (c.setReplica r ((c.replicas r).advanceSnapshot at'))
  | .startPass r =>
    let n := c.replicas r
    if n.wal = none then none
    else if n.role = .leader then some { c with calls := ⟨r, .pass, .checkRole⟩ :: c.calls }
    else match n.storedCertificate with
      | some (leader, slot) => some { c with passes := ⟨r, leader, slot⟩ :: c.passes }
      | none => some { c with passes := ⟨r, r, 0⟩ :: c.passes }
  | .takeCertificate i => (c.calls[i]?).bind fun x => match x.use, x.phase with
    | .pass, .done safe => some { c with
        calls := c.calls.eraseIdx i
        passes := ⟨x.replica, x.replica, safe⟩ :: c.passes }
    | _, _ => none
  | .finishPass i => (c.passes[i]?).map fun x =>
    let gcSlot := (c.replicas x.replica).localReclamationSlot x.slot
    { c with
      passes := c.passes.eraseIdx i
      reclaimed := if gcSlot = 0 then c.reclaimed
        else ⟨x.replica, x.certifier, gcSlot⟩ :: c.reclaimed }

end RetentionWorld

def retention (g : GroupMembers) : System RetentionWorld RetentionAction where
  init c := ∃ walless, c = .boot walless
  step := RetentionWorld.step g

/-! ## Evidence that stays true -/

/-- How far every replica has applied and has durable snapshots. -/
structure Progress where
  applied : ℕ → ℕ
  durable : ℕ → ℕ

structure Progress.Le (P Q : Progress) : Prop where
  applied : ∀ r, P.applied r ≤ Q.applied r
  durable : ∀ r, P.durable r ≤ Q.durable r

def RetentionWorld.progress (c : RetentionWorld) : Progress where
  applied r := (c.replicas r).contiguousApplied
  durable r := (c.replicas r).durable

/-- What a certificate of leader `l` for `slot` stands for. -/
structure Certified (g : GroupMembers) (P : Progress) (l slot : ℕ) : Prop where
  applied : ∀ m ∈ g, slot ≤ P.applied m.1
  leader : slot ≤ P.durable l
  witness : 1 < g.quorum → 0 < slot → ∃ m ∈ g, m.2 = true ∧ m.1 ≠ l ∧ slot ≤ P.durable m.1

section Certified
variable {g : GroupMembers} {P Q : Progress} {l slot slot' : ℕ}

lemma Certified.zero : Certified g P l 0 :=
  ⟨fun _ _ => Nat.zero_le _, Nat.zero_le _, fun _ h => absurd h (lt_irrefl 0)⟩

section
variable (h : Certified g P l slot)
include h

lemma Certified.mono (hPQ : P.Le Q) : Certified g Q l slot := by
  refine ⟨fun m hm => (h.applied m hm).trans (hPQ.applied _), h.leader.trans (hPQ.durable _),
    fun hq hs => ?_⟩
  obtain ⟨m, hm, hv, hne, hd⟩ := h.witness hq hs
  exact ⟨m, hm, hv, hne, hd.trans (hPQ.durable _)⟩

lemma Certified.anti (hle : slot' ≤ slot) : Certified g P l slot' := by
  refine ⟨fun m hm => hle.trans (h.applied m hm), hle.trans h.leader, fun hq hs => ?_⟩
  obtain ⟨m, hm, hv, hne, hd⟩ := h.witness hq (hs.trans_le hle)
  exact ⟨m, hm, hv, hne, hle.trans hd⟩

lemma Certified.max (h' : Certified g P l slot') : Certified g P l (max slot slot') := by
  rcases le_total slot slot' with hle | hle
  · rwa [max_eq_right hle]
  · rwa [max_eq_left hle]

end

end Certified

/-- Everything replica `r` has been told, and everything it has published, is true. -/
structure ReplicaOk (g : GroupMembers) (P : Progress) (r : ℕ) (n : RetentionReplica) : Prop where
  applied : ∀ p v, n.peerApplied p = some v → v ≤ P.applied p
  durable : ∀ p v, n.peerDurable p = some v → v ≤ P.durable p
  certificate : ∀ x, n.leaderGcCertificate = some x → Certified g P x.leader x.beforeSlot
  safeSlot : ∀ m ∈ g, m.2 = true → n.groupSafeSlot ≤ P.applied m.1
  snapshotLocal : n.groupSnapshotSlot ≤ P.durable r
  snapshotPeer : 0 < n.groupSnapshotSlot →
    ∃ m ∈ g, m.2 = true ∧ m.1 ≠ r ∧ n.groupSnapshotSlot ≤ P.durable m.1

/-- What a computation of replica `r` has established. -/
def PhaseOk (g : GroupMembers) (P : Progress) (r : ℕ) : Certifying → Prop
  | .checkRole | .readLocal => True
  | .readApplied safe => safe ≤ P.applied r ∧ safe ≤ P.durable r
  | .readDurable safe => (∀ m ∈ g, safe ≤ P.applied m.1) ∧ safe ≤ P.durable r
  | .done safe => Certified g P r safe

structure ReplyOk (P : Progress) (x : ReplyInFlight) : Prop where
  applied : x.reply.contiguousApplied ≤ P.applied x.peer
  durable : x.reply.durableSnapshotSlot ≤ P.durable x.peer

structure ReclaimOk (g : GroupMembers) (P : Progress) (x : Reclaim) : Prop where
  certified : Certified g P x.certifier x.slot
  durable : x.slot ≤ P.durable x.replica
  pos : 0 < x.slot

section Mono
variable {g : GroupMembers} {P Q : Progress} {r : ℕ}

lemma ReplicaOk.mono {n : RetentionReplica} (h : ReplicaOk g P r n) (hPQ : P.Le Q) :
    ReplicaOk g Q r n := by
  refine ⟨fun p v hv => (h.applied p v hv).trans (hPQ.applied p),
    fun p v hv => (h.durable p v hv).trans (hPQ.durable p),
    fun x hx => (h.certificate x hx).mono hPQ,
    fun m hm hv => (h.safeSlot m hm hv).trans (hPQ.applied _),
    h.snapshotLocal.trans (hPQ.durable _), fun hs => ?_⟩
  obtain ⟨m, hm, hv, hne, hd⟩ := h.snapshotPeer hs
  exact ⟨m, hm, hv, hne, hd.trans (hPQ.durable _)⟩

lemma PhaseOk.mono {x : Certifying} (h : PhaseOk g P r x) (hPQ : P.Le Q) : PhaseOk g Q r x := by
  cases x with
  | checkRole => trivial
  | readLocal => trivial
  | readApplied => exact ⟨h.1.trans (hPQ.applied _), h.2.trans (hPQ.durable _)⟩
  | readDurable =>
    exact ⟨fun m hm => (h.1 m hm).trans (hPQ.applied _), h.2.trans (hPQ.durable _)⟩
  | done => exact Certified.mono h hPQ

lemma ReplyOk.mono {x : ReplyInFlight} (h : ReplyOk P x) (hPQ : P.Le Q) : ReplyOk Q x :=
  ⟨h.applied.trans (hPQ.applied _), h.durable.trans (hPQ.durable _)⟩

lemma ReclaimOk.mono {x : Reclaim} (h : ReclaimOk g P x) (hPQ : P.Le Q) : ReclaimOk g Q x :=
  ⟨h.certified.mono hPQ, h.durable.trans (hPQ.durable _), h.pos⟩

end Mono

/-! ## What a replica computes from its evidence -/

lemma foldl_min_le {α : Type*} (f : α → ℕ) (l : List α) (s : ℕ) :
    l.foldl (fun s p => min s (f p)) s ≤ s ∧ ∀ p ∈ l, l.foldl (fun s p => min s (f p)) s ≤ f p := by
  induction l generalizing s with
  | nil => simp
  | cons a _ ih =>
    obtain ⟨hs, hl⟩ := ih (min s (f a))
    exact ⟨hs.trans (min_le_left _ _), forall_mem_cons.mpr ⟨hs.trans (min_le_right _ _), hl⟩⟩

namespace RetentionReplica
variable {g : GroupMembers} {P : Progress} {r : ℕ} {n : RetentionReplica}

lemma minPeerApplied_le_init (among : ℕ × Bool → Bool) (safe : ℕ) :
    n.minPeerApplied g r among safe ≤ safe :=
  (foldl_min_le _ _ _).1

/-- The fold is a lower bound of what every selected member has applied. -/
theorem minPeerApplied_le (hn : ∀ p v, n.peerApplied p = some v → v ≤ P.applied p)
    {among : ℕ × Bool → Bool} {safe : ℕ} (hr : safe ≤ P.applied r) {m : ℕ × Bool} (hm : m ∈ g)
    (ha : among m = true) : n.minPeerApplied g r among safe ≤ P.applied m.1 := by
  by_cases hmr : m.1 = r
  · rw [hmr]
    exact (minPeerApplied_le_init among safe).trans hr
  · have hmem : m ∈ (g.remotes r).filter among := by
      simp [GroupMembers.remotes, hm, hmr, ha]
    refine ((foldl_min_le _ _ safe).2 m hmem).trans ?_
    cases hv : n.peerApplied m.1 with
    | none => simp
    | some v => exact hn m.1 v hv

/-- A positive maximum is a voting peer's report. -/
theorem exists_of_maxPeerDurable (hn : ∀ p v, n.peerDurable p = some v → v ≤ P.durable p)
    (h : 0 < n.maxPeerDurable g r) :
    ∃ m ∈ g, m.2 = true ∧ m.1 ≠ r ∧ n.maxPeerDurable g r ≤ P.durable m.1 := by
  unfold maxPeerDurable at h ⊢
  cases hmax : (((g.remotes r).filter (·.2)).map fun p => (n.peerDurable p.1).getD 0).max? with
  | none => simp [hmax] at h
  | some =>
    obtain ⟨m, hm, hv⟩ := mem_map.mp (max?_mem hmax)
    obtain ⟨hrem, hvote⟩ := mem_filter.mp hm
    obtain ⟨hg, hne⟩ := mem_filter.mp hrem
    refine ⟨m, hg, hvote, by simpa using hne, ?_⟩
    rw [← hv]
    cases hd : n.peerDurable m.1 with
    | none => simp
    | some w => exact hn m.1 w hd

lemma reclamationCertificate_ok (hn : ReplicaOk g P r n) (ha : P.applied r = n.contiguousApplied)
    (hd : P.durable r = n.durable) {x : Certifying} (hx : PhaseOk g P r x) :
    PhaseOk g P r (n.reclamationCertificate g r x) := by
  cases x with
  | checkRole =>
    simp only [reclamationCertificate]
    split
    · exact Certified.zero
    · trivial
  | readLocal =>
    exact ⟨(min_le_left _ _).trans_eq ha.symm, (min_le_right _ _).trans_eq hd.symm⟩
  | readApplied safe =>
    have hle := minPeerApplied_le_init (g := g) (r := r) (n := n) (fun _ => true) safe
    have hall : ∀ m ∈ g, n.minPeerApplied g r (fun _ => true) safe ≤ P.applied m.1 :=
      fun m hm => minPeerApplied_le hn.applied hx.1 hm rfl
    simp only [reclamationCertificate]
    split
    · exact ⟨hall, hle.trans hx.2⟩
    · next hq => exact ⟨hall, hle.trans hx.2, fun h => absurd h hq⟩
  | readDurable =>
    refine ⟨fun m hm => (min_le_left _ _).trans (hx.1 m hm), (min_le_left _ _).trans hx.2,
      fun _ hs => ?_⟩
    obtain ⟨m, hm, hv, hne, hle⟩ :=
      exists_of_maxPeerDurable hn.durable (hs.trans_le (min_le_right _ _))
    exact ⟨m, hm, hv, hne, (min_le_right _ _).trans hle⟩
  | done => exact hx

lemma recordReclamationHeartbeat_ok (hn : ReplicaOk g P r n) {h : GcHeartbeat}
    (hh : Certified g P h.leaderId h.gcBeforeSlot) :
    ReplicaOk g P r (n.recordReclamationHeartbeat g r h) := by
  unfold recordReclamationHeartbeat
  split
  · refine { hn with certificate := fun x hx => ?_ }
    cases hx
    cases hc : n.leaderGcCertificate with
    | none => exact hh
    | some previous =>
      simp only
      split
      · next heq => exact (heq.2.2 ▸ hn.certificate previous hc).max hh
      · exact hh
  · exact hn

lemma recordReclamationHeartbeat_progress (h : GcHeartbeat) :
    (n.recordReclamationHeartbeat g r h).contiguousApplied = n.contiguousApplied ∧
    (n.recordReclamationHeartbeat g r h).durable = n.durable := by
  unfold recordReclamationHeartbeat
  split <;> exact ⟨rfl, rfl⟩

lemma reports_update {reports : ℕ → Option ℕ} {known : ℕ → ℕ}
    (h : ∀ p v, reports p = some v → v ≤ known p) {p v : ℕ} (hv : v ≤ known p) :
    ∀ q w, update reports p (some v) q = some w → w ≤ known q :=
  (forall_update_iff _ fun q o => ∀ w, o = some w → w ≤ known q).mpr
    ⟨fun _ hw => some.inj hw ▸ hv, fun q _ => h q⟩

lemma notePeerApplied_ok (hn : ReplicaOk g P r n) (ha : P.applied r = n.contiguousApplied)
    {p v : ℕ} (hv : v ≤ P.applied p) : ReplicaOk g P r (n.notePeerApplied g r p v) := by
  have hpeers := reports_update hn.applied hv
  refine { hn with applied := hpeers, safeSlot := fun m hm hvote => ?_ }
  exact max_le (hn.safeSlot m hm hvote) (minPeerApplied_le hpeers ha.ge hm hvote)

lemma notePeerDurable_ok (hn : ReplicaOk g P r n) (hd : P.durable r = n.durable)
    {p v : ℕ} (hv : v ≤ P.durable p) : ReplicaOk g P r (n.notePeerDurable g r p v) := by
  have hpeers := reports_update hn.durable hv
  refine { hn with
    durable := hpeers
    snapshotLocal := max_le hn.snapshotLocal ((min_le_left _ _).trans_eq hd.symm)
    snapshotPeer := fun hs => ?_ }
  simp only [notePeerDurable] at hs ⊢
  rcases max_choice n.groupSnapshotSlot (min n.durable (maxPeerDurable g r
    { n with peerDurable := update n.peerDurable p (some v) })) with hmax | hmax
  · rw [hmax] at hs ⊢
    exact hn.snapshotPeer hs
  · rw [hmax] at hs ⊢
    obtain ⟨m, hm, hvote, hne, hmax⟩ :=
      exists_of_maxPeerDurable hpeers (hs.trans_le (min_le_right _ _))
    exact ⟨m, hm, hvote, hne, (min_le_right _ _).trans hmax⟩

lemma resetSafeSlotTracking_ok : ReplicaOk g P r n.resetSafeSlotTracking :=
  ⟨nofun, nofun, nofun, fun _ _ _ => Nat.zero_le _, Nat.zero_le _, fun h => absurd h (lt_irrefl 0)⟩

lemma le_advanceSnapshot (slot : ℕ) : n.durable ≤ (n.advanceSnapshot slot).durable := by
  unfold durable advanceSnapshot
  cases n.wal with
  | none => exact le_rfl
  | some =>
    simp only [map_some]
    split
    · next h => exact h.2.le
    · exact le_rfl

lemma handleHeartbeat_progress (h : GcHeartbeat) :
    (n.handleHeartbeat h).1.contiguousApplied = n.contiguousApplied ∧
    (n.handleHeartbeat h).1.durable = n.durable ∧
    (n.handleHeartbeat h).2.contiguousApplied = n.contiguousApplied ∧
    (n.handleHeartbeat h).2.durableSnapshotSlot = n.durable := by
  unfold handleHeartbeat
  split <;> exact ⟨rfl, rfl, rfl, rfl⟩

lemma handleHeartbeat_ok (hn : ReplicaOk g P r n) (h : GcHeartbeat) :
    ReplicaOk g P r (n.handleHeartbeat h).1 := by
  unfold handleHeartbeat
  split
  · exact hn
  · exact { hn with }

lemma storedCertificate_ok (hn : ReplicaOk g P r n) {leader slot : ℕ}
    (h : n.storedCertificate = some (leader, slot)) : Certified g P leader slot := by
  obtain ⟨x, hx, h⟩ := bind_eq_some_iff.mp h
  split at h
  · obtain ⟨rfl, rfl⟩ := Prod.mk.inj (some.inj h)
    exact hn.certificate x hx
  · cases h

end RetentionReplica

namespace RetentionWorld
open RetentionReplica
variable {g : GroupMembers} {P Q : Progress} {c d : RetentionWorld}

/-! ## The invariant of a run -/

structure RetentionInv (g : GroupMembers) (P : Progress) (c : RetentionWorld) : Prop where
  replicas : ∀ r, ReplicaOk g P r (c.replicas r)
  calls : ∀ x ∈ c.calls, PhaseOk g P x.replica x.phase
  heartbeats : ∀ h ∈ c.heartbeats, Certified g P h.leaderId h.gcBeforeSlot
  recording : ∀ x ∈ c.recording, Certified g P x.2.leaderId x.2.gcBeforeSlot
  replies : ∀ x ∈ c.replies, ReplyOk P x
  noting : ∀ x ∈ c.noting, ReplyOk P x
  passes : ∀ x ∈ c.passes, Certified g P x.certifier x.slot
  reclaimed : ∀ x ∈ c.reclaimed, ReclaimOk g P x

lemma RetentionInv.mono (h : RetentionInv g P c) (hPQ : P.Le Q) : RetentionInv g Q c where
  replicas r := (h.replicas r).mono hPQ
  calls x hx := (h.calls x hx).mono hPQ
  heartbeats x hx := (h.heartbeats x hx).mono hPQ
  recording x hx := (h.recording x hx).mono hPQ
  replies x hx := (h.replies x hx).mono hPQ
  noting x hx := (h.noting x hx).mono hPQ
  passes x hx := (h.passes x hx).mono hPQ
  reclaimed x hx := (h.reclaimed x hx).mono hPQ

lemma retentionInv_boot (walless : List ℕ) :
    RetentionInv g (boot walless).progress (boot walless) where
  replicas _ := ⟨nofun, nofun, nofun, fun _ _ _ => Nat.zero_le _, Nat.zero_le _,
    fun h => absurd h (lt_irrefl 0)⟩
  calls := nofun
  heartbeats := nofun
  recording := nofun
  replies := nofun
  noting := nofun
  passes := nofun
  reclaimed := nofun

/-- Replacing a replica by one that has come at least as far. -/
theorem RetentionInv.setReplica (h : RetentionInv g c.progress c) {r : ℕ} {n : RetentionReplica}
    (ha : (c.replicas r).contiguousApplied ≤ n.contiguousApplied)
    (hd : (c.replicas r).durable ≤ n.durable) (hn : ReplicaOk g c.progress r n) :
    RetentionInv g (c.setReplica r n).progress (c.setReplica r n) := by
  have hle : c.progress.Le (c.setReplica r n).progress :=
    ⟨(forall_update_iff c.replicas fun q m => c.progress.applied q ≤ m.contiguousApplied).mpr
        ⟨ha, fun _ _ => le_rfl⟩,
      (forall_update_iff c.replicas fun q m => c.progress.durable q ≤ m.durable).mpr
        ⟨hd, fun _ _ => le_rfl⟩⟩
  have h' := h.mono hle
  exact { h' with
    replicas := (forall_update_iff _ (ReplicaOk g _)).mpr ⟨hn.mono hle, fun q _ => h'.replicas q⟩ }

lemma forall_mem_eraseIdx {α : Type*} {p : α → Prop} {l : List α} (h : ∀ x ∈ l, p x) (i : ℕ) :
    ∀ x ∈ l.eraseIdx i, p x :=
  fun x hx => h x (mem_of_mem_eraseIdx hx)

lemma forall_mem_ite_cons {α : Type*} {p : α → Prop} {l : List α} {a : α} {q : Prop} [Decidable q]
    (h : ∀ x ∈ l, p x) (ha : q → p a) : ∀ x ∈ (if q then a :: l else l), p x := by
  split
  · next hq => exact forall_mem_cons.mpr ⟨ha hq, h⟩
  · exact h

lemma RetentionInv.deliver (h : RetentionInv g c.progress c) {x : GcHeartbeat} {dst : ℕ}
    (hs : c.step g (.deliver x dst) = some d) : RetentionInv g d.progress d := by
  simp only [step, ite_none_right_eq_some] at hs
  obtain ⟨hx, hs⟩ := hs
  cases hs
  obtain ⟨ha, hd, hra, hrd⟩ := (c.replicas dst).handleHeartbeat_progress x
  have h' := h.setReplica ha.ge hd.ge (handleHeartbeat_ok (h.replicas dst) x)
  have hreply : ReplyOk (c.setReplica dst ((c.replicas dst).handleHeartbeat x).1).progress
      ⟨x.leaderId, x.term, dst, ((c.replicas dst).handleHeartbeat x).2⟩ := by
    constructor
    · simp [progress, RetentionWorld.setReplica, ha, hra]
    · simp [progress, RetentionWorld.setReplica, hd, hrd]
  have hreplies := forall_mem_cons.mpr ⟨hreply, h'.replies⟩
  split
  · exact { h' with
      replies := hreplies
      recording := forall_mem_cons.mpr ⟨h'.heartbeats x hx, h'.recording⟩ }
  · exact { h' with replies := hreplies }

lemma RetentionInv.step (h : RetentionInv g c.progress c) {act : RetentionAction}
    (hs : c.step g act = some d) : RetentionInv g d.progress d := by
  cases act with
  | apply r =>
    obtain ⟨hle, hs⟩ := ite_none_right_eq_some.mp hs
    cases hs
    exact h.setReplica hle le_rfl { h.replicas r with }
  | elect r | setEpoch r | cancel r =>
    cases hs
    exact h.setReplica le_rfl le_rfl { h.replicas r with }
  | resetTracking =>
    cases hs
    exact h.setReplica le_rfl le_rfl resetSafeSlotTracking_ok
  | startHeartbeat =>
    cases hs
    exact { h with calls := forall_mem_cons.mpr ⟨trivial, h.calls⟩ }
  | certify =>
    obtain ⟨x, hx, rfl⟩ := map_eq_some_iff.mp hs
    refine { h with calls := forall_mem_set h.calls ?_ }
    exact reclamationCertificate_ok (h.replicas _) rfl rfl
      (h.calls x (mem_of_getElem? hx))
  | send i =>
    obtain ⟨x, hx, hs⟩ := bind_eq_some_iff.mp hs
    have hphase := h.calls x (mem_of_getElem? hx)
    split at hs
    · next term safe _ hdone =>
      cases hs
      rw [hdone] at hphase
      exact { h with
        calls := forall_mem_eraseIdx h.calls i
        heartbeats := forall_mem_cons.mpr ⟨hphase, h.heartbeats⟩ }
    · cases hs
  | deliver => exact h.deliver hs
  | record i =>
    obtain ⟨x, hx, rfl⟩ := map_eq_some_iff.mp hs
    have hok := recordReclamationHeartbeat_ok (h.replicas x.1)
      (h.recording x (mem_of_getElem? hx))
    obtain ⟨ha, hd⟩ := (c.replicas x.1).recordReclamationHeartbeat_progress x.2
    have h' := h.setReplica ha.ge hd.ge hok
    exact { h' with recording := forall_mem_eraseIdx h'.recording i }
  | receive i =>
    obtain ⟨x, hx, rfl⟩ := map_eq_some_iff.mp hs
    exact { h with
      replies := forall_mem_eraseIdx h.replies i
      noting := forall_mem_ite_cons h.noting fun _ => h.replies x (mem_of_getElem? hx) }
  | noteApplied =>
    obtain ⟨x, hx, rfl⟩ := map_eq_some_iff.mp hs
    have hreply := h.noting x (mem_of_getElem? hx)
    exact h.setReplica le_rfl le_rfl
      (notePeerApplied_ok (h.replicas x.leader) rfl hreply.applied)
  | noteDurable i =>
    obtain ⟨x, hx, rfl⟩ := map_eq_some_iff.mp hs
    have hreply := h.noting x (mem_of_getElem? hx)
    have hok := notePeerDurable_ok (h.replicas x.leader) rfl hreply.durable
    have h' := h.setReplica (by exact le_rfl) (by exact le_rfl) hok
    exact { h' with noting := forall_mem_eraseIdx h'.noting i }
  | snapshot r slot =>
    cases hs
    exact h.setReplica le_rfl (le_advanceSnapshot slot) { h.replicas r with }
  | startPass r =>
    simp only [RetentionWorld.step] at hs
    split at hs
    · cases hs
    split at hs
    · cases hs
      exact { h with calls := forall_mem_cons.mpr ⟨trivial, h.calls⟩ }
    split at hs
    · next leader slot hcert =>
      cases hs
      have hok := storedCertificate_ok (h.replicas r) hcert
      exact { h with passes := forall_mem_cons.mpr ⟨hok, h.passes⟩ }
    · cases hs
      exact { h with passes := forall_mem_cons.mpr ⟨.zero, h.passes⟩ }
  | takeCertificate i =>
    obtain ⟨x, hx, hs⟩ := bind_eq_some_iff.mp hs
    have hphase := h.calls x (mem_of_getElem? hx)
    split at hs
    · next safe _ hdone =>
      cases hs
      rw [hdone] at hphase
      exact { h with
        calls := forall_mem_eraseIdx h.calls i
        passes := forall_mem_cons.mpr ⟨hphase, h.passes⟩ }
    · cases hs
  | finishPass i =>
    obtain ⟨x, hx, rfl⟩ := map_eq_some_iff.mp hs
    have hcert := h.passes x (mem_of_getElem? hx)
    refine { h with passes := forall_mem_eraseIdx h.passes i, reclaimed := ?_ }
    simp only
    split
    · exact h.reclaimed
    · next hpos =>
      refine forall_mem_cons.mpr ⟨⟨?_, ?_, Nat.pos_of_ne_zero hpos⟩, h.reclaimed⟩
      · exact hcert.anti ((min_le_left _ _).trans (min_le_left _ _))
      · exact min_le_right _ _

lemma retentionInv_of_reach (h : (retention g).Reach System.Free c) :
    RetentionInv g c.progress c := by
  refine h.invariant (I := fun c => RetentionInv g c.progress c) ?_ fun _ _ _ hI _ => hI.step
  rintro _ ⟨walless, rfl⟩
  exact retentionInv_boot walless

end RetentionWorld

/-- Every slot that is passed to reclamation is applied on every member, covered by
the replica's own durable snapshot and, with a quorum above one, by snapshots of the
certifying leader and of another voting member. -/
theorem reclaimed_prefix_retained {g : GroupMembers} {c : RetentionWorld}
    (h : (retention g).Reach System.Free c) : ∀ x ∈ c.reclaimed,
      (∀ m ∈ g, x.slot ≤ (c.replicas m.1).contiguousApplied) ∧
      x.slot ≤ (c.replicas x.replica).durable ∧
      (1 < g.quorum → x.slot ≤ (c.replicas x.certifier).durable ∧
        ∃ m ∈ g, m.2 = true ∧ m.1 ≠ x.certifier ∧ x.slot ≤ (c.replicas m.1).durable) := by
  intro x hx
  obtain ⟨hcert, hdurable, hpos⟩ := (RetentionWorld.retentionInv_of_reach h).reclaimed x hx
  exact ⟨hcert.applied, hdurable, fun hq => ⟨hcert.leader, hcert.witness hq hpos⟩⟩

/-- Leader 1 certifies slot 3 from the reports of its two peers; follower 2, whose own
snapshot is at 2, reclaims up to 2. -/
theorem reclaimed_prefix_retained_follower : ∃ c,
    (retention [(1, true), (2, true), (3, true)]).Reach System.Free c ∧
      c.reclaimed = [⟨2, 1, 2⟩] ∧ 2 ≤ (c.replicas 3).contiguousApplied ∧
      2 ≤ (c.replicas 2).durable ∧ 2 ≤ (c.replicas 1).durable := by
  have hreach := System.reach_run (S := retention [(1, true), (2, true), (3, true)])
    [.elect 1 .leader 1 (some 1), .apply 1 5, .snapshot 1 4, .apply 2 4, .snapshot 2 2,
      .apply 3 3, .snapshot 3 3, .startHeartbeat 1 1, .certify 0, .certify 0, .certify 0,
      .certify 0, .send 0, .deliver ⟨1, 1, 0, 0⟩ 2, .deliver ⟨1, 1, 0, 0⟩ 3, .receive 0,
      .receive 0, .noteApplied 0, .noteDurable 0, .noteApplied 0, .noteDurable 0,
      .startHeartbeat 1 1, .certify 0, .certify 0, .certify 0, .certify 0, .send 0,
      .deliver ⟨1, 1, 3, 0⟩ 2, .record 0, .startPass 2, .finishPass 0] ⟨[], rfl⟩
  obtain ⟨happlied, hdurable, hquorum⟩ :=
    reclaimed_prefix_retained hreach ⟨2, 1, 2⟩ (by decide +kernel)
  exact ⟨_, hreach, by decide +kernel, happlied (3, true) (by simp), hdurable,
    (hquorum (by decide)).1⟩

end CrowDB.Cluster
