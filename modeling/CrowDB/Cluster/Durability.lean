import CrowDB.Cluster.Restore
import CrowDB.Wal.Gc

/-!
# What a replica owes after a crash

A handler changes the replica in memory, appends a record, and answers when the
append returns. An append that fails is only logged, so the answer goes out
either way. Records become durable one by one, in any segment, before or without
their handler going on; a crash may fall between any two steps, and loses the
replica and the appends under way.
-/
namespace CrowDB.Cluster
open Paxos Lib Wal List Option

/-- An answer that binds the replica. -/
inductive Answer
  | promised (slot : ℕ) (ballot : PxBallot)
  | accepted (entry : PxLogEntry)
  | granted (term candidate : ℕ)
  deriving DecidableEq, Repr

/-- An append under way and the answer its handler will give. -/
structure PendingAppend where
  answer : Answer
  record : WALRecord
  written : Bool
  deriving DecidableEq, Repr

namespace PxLocalReplica

/-- The record that `persist_current_vote` appends: term and vote as they are now. -/
def persistCurrentVote (R : PxLocalReplica) (group : ℕ) : WALRecord :=
  .fromVoteGranted group R.currentTerm (R.votedFor.getD R.id)

end PxLocalReplica

structure Durable where
  replica : PxLocalReplica
  wal : List WalSegment
  pending : List PendingAppend
  answered : List Answer
  trimPoint : ℕ

inductive DurableAction
  | prepare (now slot : ℕ) (ballot : PxBallot) (term : ℕ)
  | accept (now : ℕ) (entry : PxLogEntry)
  | requestVote (lease now : ℕ) (req : VoteRequestPayload)
  | heartbeat (lease now term leader : ℕ)
  | openSegment
  | sealSegment (id : ℕ)
  | write (i id : ℕ)
  | finish (i : ℕ) (ok : Bool)
  | reclaim (slot : ℕ) (unlinkFails : List ℕ)
  | crash (role : PxLocalReplicaRole) (resume : ℕ) (engineFails : List ℕ)
  deriving DecidableEq, Repr

namespace Durable

def boot (id : ℕ) : Durable := ⟨.fresh id, [], [], [], 0⟩

def nextSegmentId (D : Durable) : ℕ := (D.wal.map (·.segmentId)).max?.getD 0 + 1

/-- Append to the active segment `id`. -/
def appendTo (id : ℕ) (r : WALRecord) (segs : List WalSegment) : List WalSegment :=
  segs.map fun g =>
    if g.segmentId = id ∧ g.indexed = false then { g with records := g.records ++ [r] } else g

def markIndexed (p : WalSegment → Bool) (segs : List WalSegment) : List WalSegment :=
  segs.map fun g => if p g then { g with indexed := true } else g

variable (group : ℕ)

def step (D : Durable) : DurableAction → Option Durable
  | .prepare now slot ballot term =>
    some { D with
      replica := (D.replica.onPrepare now slot ballot term).1
      pending := match (D.replica.onPrepare now slot ballot term).2 with
        | .promised _ _ =>
          ⟨.promised slot ballot, .fromPromised group term slot ballot, false⟩ :: D.pending
        | _ => D.pending }
  | .accept now entry =>
    some { D with
      replica := (D.replica.onAccept now entry).1
      pending := match (D.replica.onAccept now entry).2 with
        | .accepted _ _ => ⟨.accepted entry, .fromAccepted group entry, false⟩ :: D.pending
        | _ => D.pending }
  | .requestVote lease now req =>
    -- node ids are 64-bit words
    if req.candidateId < 2 ^ 64 then
      match D.replica.grantVote lease now req with
      | some R => some { D with
          replica := R
          pending := ⟨.granted req.term req.candidateId, R.persistCurrentVote group, false⟩ ::
            D.pending }
      | none => some D
    else none
  | .heartbeat lease now term leader =>
    some { D with replica := (D.replica.handleHeartbeat lease now term leader).getD D.replica }
  | .openSegment => some { D with wal := D.wal ++ [⟨D.nextSegmentId, false, []⟩] }
  | .sealSegment id => some { D with wal := markIndexed (·.segmentId = id) D.wal }
  | .write i id =>
    match D.pending[i]? with
    | some p =>
      if ∃ g ∈ D.wal, g.segmentId = id ∧ g.indexed = false then
        some { D with
          wal := appendTo id p.record D.wal
          pending := D.pending.set i { p with written := true } }
      else none
    | none => none
  | .finish i ok =>
    match D.pending[i]? with
    | some p =>
      -- an append succeeds only once its record is durable
      if ok = true → p.written = true then
        some { D with pending := D.pending.eraseIdx i, answered := p.answer :: D.answered }
      else none
    | none => none
  | .reclaim slot unlinkFails =>
    some { D with
      replica := { D.replica with acceptor := D.replica.acceptor.trim slot }
      wal := runGcWithWatermark slot unlinkFails D.wal
      trimPoint := max D.trimPoint slot }
  | .crash role resume engineFails =>
    some { D with
      replica := .restoreFromReplayWithEngine D.replica.id role (replayGroup D.wal) resume
        fun s => s ∉ engineFails
      wal := markIndexed (fun _ => true) D.wal
      pending := [] }

/-- No append fails under an answer. -/
def appendGuard (_ : Durable) : DurableAction → Bool
  | .finish _ ok => ok
  | _ => true

end Durable

def durable (group id : ℕ) : System Durable DurableAction where
  init D := D = Durable.boot id
  step := Durable.step group

/-! ## What the log keeps of an answer -/

/-- The record is on some disk. -/
def Logged (segs : List WalSegment) (r : WALRecord) : Prop := ∃ g ∈ segs, r ∈ g.records

/-- The record an answer waits for. -/
def Answer.Writes (r : WALRecord) : Answer → Prop
  | .promised slot ballot => r.recordType = .promised ∧ r.slot = slot ∧ r.ballot = ballot
  | .accepted e => r.recordType = .accepted ∧ r.slot = e.slot ∧ r.ballot = e.ballot
  | .granted term candidate =>
    r.recordType = .voteGranted ∧ r.term = term ∧ r.votedForId = some candidate

section
variable (segs : List WalSegment)

/-- A promise or an accept may go once its slot is trimmed, a vote once a later
term is on record. -/
def Answer.Settled (trim : ℕ) : Answer → Prop
  | .promised slot _ => slot < trim
  | .accepted e => e.slot < trim
  | .granted term _ => ∃ r, Logged segs r ∧ term < r.term

def Kept (trim : ℕ) (a : Answer) : Prop :=
  (∃ r, Logged segs r ∧ a.Writes r) ∨ a.Settled segs trim

/-- Votes on record agree within a term. -/
def VotesAgree : Prop :=
  ∀ r r', Logged segs r → Logged segs r' → r.recordType = .voteGranted →
    r'.recordType = .voteGranted → r.term = r'.term → r.votedForId = r'.votedForId

end

variable {segs : List WalSegment}

lemma Kept.mono {segs' : List WalSegment} {t : ℕ} {a : Answer}
    (hs : ∀ r, Logged segs r → Logged segs' r) (h : Kept segs t a) : Kept segs' t a := by
  rcases h with ⟨r, hr, hw⟩ | h
  · exact .inl ⟨r, hs r hr, hw⟩
  · cases a with
    | promised => exact .inr h
    | accepted => exact .inr h
    | granted =>
      obtain ⟨r, hr, hlt⟩ := h
      exact .inr ⟨r, hs r hr, hlt⟩

variable {r : WALRecord}

/-- A record that is gone had a slot below the watermark. -/
theorem Logged.gc_or_slot_lt (h : Logged segs r) (slot : ℕ) (fails : List ℕ) :
    Logged (runGcWithWatermark slot fails segs) r ∨ r.slot < slot := by
  obtain ⟨g, hg, hr⟩ := h
  by_cases hk : g ∈ runGcWithWatermark slot fails segs
  · exact .inl ⟨g, hk, hr⟩
  · exact .inr (slot_lt_of_collected hg hk hr)

variable {slot : ℕ}

lemma Logged.of_gc {fails : List ℕ} (h : Logged (runGcWithWatermark slot fails segs) r) :
    Logged segs r := by
  obtain ⟨g, hg, hr⟩ := h
  exact ⟨g, runGc_sub hg, hr⟩

/-- A collection pass keeps what the answers need. -/
theorem Kept.gc {t : ℕ} {fails : List ℕ} {a : Answer} (hv : VotesAgree segs) (h : Kept segs t a) :
    Kept (runGcWithWatermark slot fails segs) (max t slot) a := by
  rcases h with ⟨r, hr, hw⟩ | h
  · cases a with
    | promised s =>
      rcases hr.gc_or_slot_lt slot fails with hk | hlt
      · exact .inl ⟨r, hk, hw⟩
      · exact .inr (show s < max t slot by have := hw.2.1; omega)
    | accepted e =>
      rcases hr.gc_or_slot_lt slot fails with hk | hlt
      · exact .inl ⟨r, hk, hw⟩
      · exact .inr (show e.slot < max t slot by have := hw.2.1; omega)
    | granted =>
      obtain ⟨hrv, hrt, hrc⟩ := hw
      obtain ⟨g, hg, hrg⟩ := hr
      obtain ⟨k, hk, x, hx, hxv, hle⟩ := vote_kept slot fails hg hrg hrv
      rcases Nat.lt_or_eq_of_le hle with hlt | heq
      · exact .inr ⟨x, ⟨k, hk, hx⟩, hrt ▸ hlt⟩
      · have hxc := hv r x ⟨g, hg, hrg⟩ ⟨k, runGc_sub hk, hx⟩ hrv hxv heq
        exact .inl ⟨x, ⟨k, hk, hx⟩, hxv, heq ▸ hrt, hxc ▸ hrc⟩
  · cases a with
    | promised => exact .inr (lt_max_of_lt_left h)
    | accepted => exact .inr (lt_max_of_lt_left h)
    | granted =>
      obtain ⟨r, ⟨g, hg, hr⟩, hlt⟩ := h
      obtain ⟨k, hk, x, hx, hle⟩ := term_kept slot fails hg hr (by omega)
      exact .inr ⟨x, ⟨k, hk, hx⟩, by omega⟩

/-! ## What a rebuilt replica still knows -/

section Rebuilt
variable {segs : List WalSegment} {t : ℕ}

lemma term_le_scanGroup (h : Logged segs r) : r.term ≤ (scanGroup segs).currentTerm :=
  ReplayRecords.term_le_scan (mem_scanOrder.mpr h)

/-- A granted vote has been passed by a later term, or is the vote of the term. -/
theorem Kept.granted {term candidate : ℕ} (hv : VotesAgree segs)
    (h : Kept segs t (.granted term candidate)) :
    term ≤ (scanGroup segs).currentTerm ∧
      (term = (scanGroup segs).currentTerm → (scanGroup segs).votedFor = some candidate) := by
  rcases h with ⟨r, hr, hrv, rfl, hrc⟩ | ⟨r, hr, hlt⟩
  · refine ⟨term_le_scanGroup hr, fun heq => ?_⟩
    refine ReplayRecords.scan_votedFor ⟨r, mem_scanOrder.mpr hr, hrv, heq⟩ fun x hx hxv hxt => ?_
    exact (hv x r (mem_scanOrder.mp hx) hr hxv hrv (hxt.trans heq.symm)).trans hrc
  · have hle := term_le_scanGroup hr
    exact ⟨by omega, fun heq => by omega⟩

lemma Kept.promised {ballot : PxBallot} (ht : t ≤ slot)
    (h : Kept segs t (.promised slot ballot)) :
    ballot ≤ ((PxLocalReplica.restoreAcceptor (replayGroup segs)).node slot).floor := by
  rcases h with ⟨r, ⟨g, hg, hr⟩, hrt, rfl, rfl⟩ | h
  · exact PxLocalReplica.le_restoreAcceptor_of_promised segs hg hr hrt
  · exact absurd h (Nat.not_lt.mpr ht)

lemma Kept.accepted {e : PxLogEntry} (ht : t ≤ e.slot) (h : Kept segs t (.accepted e)) :
    e.ballot ≤ ((PxLocalReplica.restoreAcceptor (replayGroup segs)).node e.slot).floor ∧
      ∃ x, ((PxLocalReplica.restoreAcceptor (replayGroup segs)).node e.slot).accepted = some x ∧
        e.ballot ≤ x.ballot := by
  rcases h with ⟨r, ⟨g, hg, hr⟩, hrt, hs, hb⟩ | h
  · obtain ⟨x, hx, hle⟩ := PxLocalReplica.le_restoreAcceptor_of_accepted segs hg hr hrt
    rw [hs] at hx
    rw [hb] at hle
    exact ⟨hle.trans (PxSlotNode.accepted_le _ x hx), x, hx, hle⟩
  · exact absurd h (Nat.not_lt.mpr ht)

end Rebuilt

variable {i : ℕ}

namespace Durable
variable {group id : ℕ} {D D' : Durable}

/-- On disk or on its way there. -/
def Around (D : Durable) (r : WALRecord) : Prop :=
  Logged D.wal r ∨ ∃ p ∈ D.pending, p.record = r

/-- The replica has voted for `v` in `term`, as far as anything remembers it. -/
def Cast (D : Durable) (term v : ℕ) : Prop :=
  (∃ r, Around D r ∧ (Answer.granted term v).Writes r) ∨ .granted term v ∈ D.answered

/-- The election state never contradicts a vote cast, votes cast agree within a
term, and every answer given, or waiting behind a durable record, is kept. -/
structure DurableInv (D : Durable) : Prop where
  cast : ∀ term v, Cast D term v → term ≤ D.replica.currentTerm ∧
    (term = D.replica.currentTerm → D.replica.votedFor = some v)
  unique : ∀ term v w, Cast D term v → Cast D term w → v = w
  named : ∀ r, Around D r → r.recordType = .voteGranted → ∃ v, r.votedForId = some v
  writes : ∀ p ∈ D.pending, p.answer.Writes p.record
  written : ∀ p ∈ D.pending, p.written = true → Kept D.wal D.trimPoint p.answer
  answered : ∀ a ∈ D.answered, Kept D.wal D.trimPoint a

lemma durableInv_boot : DurableInv (boot id) := by
  constructor <;> simp [boot, Cast, Around, Logged]

lemma DurableInv.votesAgree (h : DurableInv D) : VotesAgree D.wal := by
  intro r r' hr hr' hv hv' ht
  obtain ⟨v, hrv⟩ := h.named r (.inl hr) hv
  obtain ⟨w, hrw⟩ := h.named r' (.inl hr') hv'
  have hc : Cast D r.term v := .inl ⟨r, .inl hr, hv, rfl, hrv⟩
  have hc' : Cast D r.term w := .inl ⟨r', .inl hr', hv', ht.symm, hrw⟩
  rw [hrv, hrw, h.unique r.term v w hc hc']

/-- Steps that leave the election state alone and bring no new vote. -/
theorem DurableInv.frame (h : DurableInv D) (hT : D'.replica.currentTerm = D.replica.currentTerm)
    (hV : D'.replica.votedFor = D.replica.votedFor)
    (hA : ∀ r, Around D' r → Around D r)
    (hG : ∀ term v, .granted term v ∈ D'.answered → Cast D term v)
    (hw : ∀ p ∈ D'.pending, p.answer.Writes p.record)
    (hk : ∀ p ∈ D'.pending, p.written = true → Kept D'.wal D'.trimPoint p.answer)
    (ha : ∀ a ∈ D'.answered, Kept D'.wal D'.trimPoint a) : DurableInv D' := by
  have hC : ∀ term v, Cast D' term v → Cast D term v := by
    rintro term v (⟨r, hr, hw⟩ | hg)
    · exact .inl ⟨r, hA r hr, hw⟩
    · exact hG term v hg
  refine ⟨fun term v hc => ?_, fun term v w hv hw => h.unique term v w (hC _ _ hv) (hC _ _ hw),
    fun r hr => h.named r (hA r hr), hw, hk, ha⟩
  rw [hT, hV]
  exact h.cast term v (hC term v hc)

variable {S : PxLocalReplica}

/-- The replica moves on in memory. -/
theorem DurableInv.evolve (h : DurableInv D) (hE : PxLocalReplica.Evolves D.replica S) :
    DurableInv { D with replica := S } where
  cast term v hc := by
    obtain ⟨hle, himp⟩ := h.cast term v hc
    have hterm := hE.term
    refine ⟨hle.trans hterm, fun heq => ?_⟩
    simp only at heq
    exact hE.vote (by omega) v (himp (by omega))
  unique := h.unique
  named := h.named
  writes := h.writes
  written := h.written
  answered := h.answered

variable {p : PendingAppend}

/-- An append is queued; a vote among them is the current one. -/
theorem DurableInv.queue (h : DurableInv D) (hp : p.written = false) (hw : p.answer.Writes p.record)
    (hvote : p.record.recordType = .voteGranted → p.record.term = D.replica.currentTerm ∧
      ∃ v, p.record.votedForId = some v ∧ D.replica.votedFor = some v) :
    DurableInv { D with pending := p :: D.pending } := by
  have hA : ∀ r, Around { D with pending := p :: D.pending } r → Around D r ∨ r = p.record := by
    rintro r (hr | ⟨q, hq, rfl⟩)
    · exact .inl (.inl hr)
    · rcases mem_cons.mp hq with rfl | hq
      · exact .inr rfl
      · exact .inl (.inr ⟨q, hq, rfl⟩)
  have hC : ∀ term v, Cast { D with pending := p :: D.pending } term v →
      Cast D term v ∨ (term = D.replica.currentTerm ∧ D.replica.votedFor = some v) := by
    rintro term v (⟨r, hr, hrv, rfl, hrc⟩ | hg)
    · rcases hA r hr with hr | rfl
      · exact .inl (.inl ⟨r, hr, hrv, rfl, hrc⟩)
      · obtain ⟨ht, w, hw, hcur⟩ := hvote hrv
        exact .inr ⟨ht, hcur.trans (hw.symm.trans hrc)⟩
    · exact .inl (.inr hg)
  have hcast : ∀ term v, Cast { D with pending := p :: D.pending } term v →
      term ≤ D.replica.currentTerm ∧
        (term = D.replica.currentTerm → D.replica.votedFor = some v) := by
    intro term v hc
    rcases hC term v hc with hc | ⟨ht, hv⟩
    · exact h.cast term v hc
    · exact ⟨ht.le, fun _ => hv⟩
  refine ⟨hcast, fun term v w hv hw => ?_, fun r hr hrv => ?_,
    forall_mem_cons.mpr ⟨hw, h.writes⟩, forall_mem_cons.mpr ⟨by simp [hp], h.written⟩, h.answered⟩
  · -- two votes of one term: both old, or the term is the current one
    rcases hC term v hv with hv' | ⟨ht, hv'⟩
    · rcases hC term w hw with hw' | ⟨ht, hw'⟩
      · exact h.unique term v w hv' hw'
      · exact some.inj (((hcast term v hv).2 ht).symm.trans hw')
    · exact some.inj (hv'.symm.trans ((hcast term w hw).2 ht))
  · rcases hA r hr with hr | rfl
    · exact h.named r hr hrv
    · obtain ⟨-, v, hv, -⟩ := hvote hrv
      exact ⟨v, hv⟩

lemma logged_appendTo {x : WALRecord} : Logged (appendTo i x segs) r ↔
      Logged segs r ∨ (r = x ∧ ∃ g ∈ segs, g.segmentId = i ∧ g.indexed = false) := by
  constructor
  · rintro ⟨g, hg, hr⟩
    obtain ⟨k, hk, rfl⟩ := mem_map.mp hg
    split at hr
    · next hc =>
      rcases mem_append.mp hr with hr | hr
      · exact .inl ⟨k, hk, hr⟩
      · exact .inr ⟨mem_singleton.mp hr, k, hk, hc⟩
    · exact .inl ⟨k, hk, hr⟩
  · rintro (⟨g, hg, hr⟩ | ⟨rfl, g, hg, hc⟩)
    · refine ⟨_, mem_map_of_mem hg, ?_⟩
      split
      · exact mem_append_left _ hr
      · exact hr
    · refine ⟨_, mem_map_of_mem hg, ?_⟩
      rw [if_pos hc]
      exact mem_append_right _ (by simp)

lemma logged_markIndexed {f : WalSegment → Bool} :
    Logged (markIndexed f segs) r ↔ Logged segs r := by
  constructor
  · rintro ⟨g, hg, hr⟩
    obtain ⟨k, hk, rfl⟩ := mem_map.mp hg
    exact ⟨k, hk, by split at hr <;> exact hr⟩
  · rintro ⟨g, hg, hr⟩
    exact ⟨_, mem_map_of_mem hg, by split <;> exact hr⟩

section
variable (h : DurableInv D)
include h

/-- Segments are opened, sealed, found again: the records stay. -/
theorem DurableInv.relog (hs : ∀ r, Logged segs r ↔ Logged D.wal r) :
    DurableInv { D with wal := segs } := by
  refine h.frame rfl rfl (fun r hr => ?_) (fun _ _ => .inr) h.writes
    (fun p hp hw => (h.written p hp hw).mono fun r => (hs r).mpr)
    (fun a ha => (h.answered a ha).mono fun r => (hs r).mpr)
  exact hr.imp (hs r).mp id

/-- A record becomes durable. -/
theorem DurableInv.write {n : ℕ} (hp : D.pending[i]? = some p)
    (hseg : ∃ g ∈ D.wal, g.segmentId = n ∧ g.indexed = false) : DurableInv { D with
      wal := appendTo n p.record D.wal
      pending := D.pending.set i { p with written := true } } := by
  have hmem : p ∈ D.pending := mem_of_getElem? hp
  have hlog : ∀ r, Logged D.wal r → Logged (appendTo n p.record D.wal) r :=
    fun r hr => logged_appendTo.mpr (.inl hr)
  refine h.frame rfl rfl (fun r hr => ?_) (fun _ _ => .inr)
    (forall_mem_set h.writes ?_) (forall_mem_set ?_ fun _ => ?_) fun a ha =>
    (h.answered a ha).mono hlog
  · rcases hr with hr | ⟨q, hq, rfl⟩
    · rcases logged_appendTo.mp hr with hr | ⟨rfl, -⟩
      · exact .inl hr
      · exact .inr ⟨p, hmem, rfl⟩
    · rcases mem_or_eq_of_mem_set hq with hq | rfl
      · exact .inr ⟨q, hq, rfl⟩
      · exact .inr ⟨p, hmem, rfl⟩
  · exact h.writes p hmem
  · exact fun q hq hw => (h.written q hq hw).mono hlog
  · exact .inl ⟨p.record, logged_appendTo.mpr (.inr ⟨rfl, hseg⟩), h.writes p hmem⟩

/-- An answer goes out behind a durable record. -/
theorem DurableInv.finish (hp : D.pending[i]? = some p) (hw : p.written = true) :
    DurableInv { D with pending := D.pending.eraseIdx i, answered := p.answer :: D.answered } := by
  have hmem : p ∈ D.pending := mem_of_getElem? hp
  have hsub : ∀ q ∈ D.pending.eraseIdx i, q ∈ D.pending := fun q => mem_of_mem_eraseIdx
  refine h.frame rfl rfl (fun r hr => ?_) (fun term v hg => ?_) (fun q hq => h.writes q (hsub q hq))
    (fun q hq => h.written q (hsub q hq))
    (forall_mem_cons.mpr ⟨h.written p hmem hw, h.answered⟩)
  · rcases hr with hr | ⟨q, hq, hqr⟩
    · exact .inl hr
    · exact .inr ⟨q, hsub q hq, hqr⟩
  · rcases mem_cons.mp hg with hg | hg
    · exact .inl ⟨p.record, .inr ⟨p, hmem, rfl⟩, hg ▸ h.writes p hmem⟩
    · exact .inr hg

lemma DurableInv.reclaim (slot : ℕ) (fails : List ℕ) (hT : S.currentTerm = D.replica.currentTerm)
    (hV : S.votedFor = D.replica.votedFor) : DurableInv { D with
      replica := S
      wal := runGcWithWatermark slot fails D.wal
      trimPoint := max D.trimPoint slot } :=
  h.frame hT hV (fun _ hr => hr.imp Logged.of_gc id) (fun _ _ => .inr) h.writes
    (fun p hp hw => (h.written p hp hw).gc h.votesAgree)
    (fun a ha => (h.answered a ha).gc h.votesAgree)

/-- What the log remembers of the votes is what the replica restarts with. -/
theorem DurableInv.crash (hs : ∀ r, Logged segs r ↔ Logged D.wal r)
    (hT : S.currentTerm = (scanGroup D.wal).currentTerm)
    (hV : S.votedFor = (scanGroup D.wal).votedFor) :
    DurableInv { D with replica := S, wal := segs, pending := [] } := by
  have hA : ∀ r, Around { D with replica := S, wal := segs, pending := [] } r → Logged D.wal r := by
    rintro r (hr | ⟨p, hp, -⟩)
    · exact (hs r).mp hr
    · exact absurd hp (by simp)
  have hC : ∀ term v, Cast { D with replica := S, wal := segs, pending := [] } term v →
      Cast D term v ∧ Kept D.wal D.trimPoint (.granted term v) := by
    rintro term v (⟨r, hr, hw⟩ | hg)
    · exact ⟨.inl ⟨r, .inl (hA r hr), hw⟩, .inl ⟨r, hA r hr, hw⟩⟩
    · exact ⟨.inr hg, h.answered _ hg⟩
  refine ⟨fun term v hc => ?_, fun term v w hv hw => h.unique term v w (hC _ _ hv).1 (hC _ _ hw).1,
    fun r hr => h.named r (.inl (hA r hr)), by simp, by simp,
    fun a ha => (h.answered a ha).mono fun r => (hs r).mpr⟩
  simp only [hT, hV]
  exact (hC term v hc).2.granted h.votesAgree

lemma DurableInv.step {a : DurableAction} (hg : appendGuard D a = true)
    (hs : step group D a = some D') : DurableInv D' := by
  cases a with
  | prepare now slot ballot term =>
    cases hs
    have h' := h.evolve (PxLocalReplica.evolves_onPrepare D.replica now slot ballot term)
    split
    · exact h'.queue rfl ⟨rfl, rfl, rfl⟩ fun hv => by simp [WALRecord.fromPromised] at hv
    · exact h'
  | accept now entry =>
    cases hs
    have h' := h.evolve (PxLocalReplica.evolves_onAccept D.replica now entry)
    split
    · exact h'.queue rfl ⟨rfl, rfl, rfl⟩ fun hv => by simp [WALRecord.fromAccepted] at hv
    · exact h'
  | requestVote lease now req =>
    simp only [Durable.step, ite_none_right_eq_some] at hs
    obtain ⟨hid, hs⟩ := hs
    cases hR : D.replica.grantVote lease now req with
    | none =>
      rw [hR] at hs
      exact some.inj hs ▸ h
    | some R =>
      rw [hR] at hs
      cases hs
      obtain ⟨hE, -, hT, hV, -⟩ := PxLocalReplica.grantVote_some hR
      have hrec : R.persistCurrentVote group = .fromVoteGranted group req.term req.candidateId := by
        simp [PxLocalReplica.persistCurrentVote, hT, hV]
      have hid' := WALRecord.votedForId_fromVoteGranted group req.term hid
      refine (h.evolve hE).queue rfl ?_ fun _ => ⟨rfl, req.candidateId, ?_, hV⟩
      · rw [hrec]; exact ⟨rfl, rfl, hid'⟩
      · rw [hrec]; exact hid'
  | heartbeat lease now term leader =>
    cases hs
    refine h.evolve ?_
    cases hR : D.replica.handleHeartbeat lease now term leader with
    | none => exact .refl _
    | some => exact (PxLocalReplica.handleHeartbeat_some hR).1
  | openSegment =>
    cases hs
    exact h.relog fun r => by simp [Logged]
  | sealSegment =>
    cases hs
    exact h.relog fun r => logged_markIndexed
  | write i =>
    cases hp : D.pending[i]? with
    | none => simp [Durable.step, hp] at hs
    | some =>
      simp only [Durable.step, hp, ite_none_right_eq_some] at hs
      obtain ⟨hseg, hs⟩ := hs
      exact some.inj hs ▸ h.write hp hseg
  | finish i ok =>
    obtain rfl : ok = true := hg
    cases hp : D.pending[i]? with
    | none => simp [Durable.step, hp] at hs
    | some =>
      simp only [Durable.step, hp, ite_none_right_eq_some] at hs
      obtain ⟨hw, hs⟩ := hs
      exact some.inj hs ▸ h.finish hp (hw trivial)
  | reclaim slot fails =>
    cases hs
    exact h.reclaim slot fails rfl rfl
  | crash =>
    cases hs
    exact h.crash (fun r => logged_markIndexed) rfl rfl

end

lemma durableInv_of_reach
    (h : (durable group id).Reach (fun D a => appendGuard D a = true) D) : DurableInv D :=
  System.Reach.invariant (fun _ hs => hs ▸ durableInv_boot) (fun _ _ _ hI hg => hI.step hg) h

end Durable

/-- A replica that has passed the term, or given its vote in it to `v`, refuses
everybody else. -/
theorem PxLocalReplica.grantVote_eq_none {R : PxLocalReplica} {term v : ℕ}
    (hle : term ≤ R.currentTerm) (hv : term = R.currentTerm → R.votedFor = some v) {lease now : ℕ}
    {req : VoteRequestPayload} (ht : req.term = term) (hc : req.candidateId ≠ v) :
    R.grantVote lease now req = none := by
  have hno : R.voteTermOk req = false := by
    unfold voteTermOk
    by_cases heq : term = R.currentTerm
    · simp [hv heq, ht, heq, Ne.symm hc]
    · simp only [Bool.or_eq_false_iff, Bool.and_eq_false_iff, decide_eq_false_iff_not,
        beq_eq_false_iff_ne]
      exact ⟨by omega, .inl (by omega)⟩
  simp [grantVote, hno]

/-- In every run in which no append fails under an answer, and at every crash
point: above the trim point the rebuilt acceptor honours every promise and every
accept that was answered, and the rebuilt replica grants nobody a second vote. -/
theorem answers_survive_crash (group id : ℕ) {D : Durable}
    (h : (durable group id).Reach (fun D a => Durable.appendGuard D a = true) D)
    (role : PxLocalReplicaRole) (resume : ℕ) (engineOk : ℕ → Bool) {R : PxLocalReplica}
    (hR : R = .restoreFromReplayWithEngine D.replica.id role (replayGroup D.wal) resume engineOk) :
    (∀ slot ballot, .promised slot ballot ∈ D.answered → D.trimPoint ≤ slot →
      ballot ≤ (R.acceptor.node slot).floor) ∧
    (∀ e, .accepted e ∈ D.answered → D.trimPoint ≤ e.slot →
      e.ballot ≤ (R.acceptor.node e.slot).floor ∧
        ∃ x, (R.acceptor.node e.slot).accepted = some x ∧ e.ballot ≤ x.ballot) ∧
    ∀ term v, .granted term v ∈ D.answered → (∀ w, .granted term w ∈ D.answered → w = v) ∧
        ∀ lease now req, req.term = term → req.candidateId ≠ v →
        R.grantVote lease now req = none := by
  subst hR
  have hI := Durable.durableInv_of_reach h
  refine ⟨fun slot ballot ha => (hI.answered _ ha).promised,
    fun e ha => (hI.answered _ ha).accepted, fun term v ha => ⟨fun w hw => ?_, ?_⟩⟩
  · exact hI.unique term w v (.inr hw) (.inr ha)
  · obtain ⟨hle, hv⟩ := (hI.answered _ ha).granted hI.votesAgree
    intro lease now req ht hc
    exact PxLocalReplica.grantVote_eq_none hle hv ht hc

/-- The disk fails under a promise and under a vote, both are answered, and the
replica crashes. It votes again in the same term. -/
def lostAppends : List DurableAction :=
  [.prepare 0 1 ⟨1, 2⟩ 1, .finish 0 false, .requestVote 10 0 ⟨2, 2, 0, 0⟩, .finish 0 false,
    .crash .follower 0 [], .requestVote 10 50 ⟨2, 3, 0, 0⟩, .finish 0 false]

/-- A promise that was answered is gone after the crash, and two candidates have
been answered the vote of one term. -/
theorem failed_append_forgets_answers : ∃ D, (durable 0 1).Reach System.Free D ∧ D.trimPoint ≤ 1 ∧
    (∃ b, .promised 1 b ∈ D.answered ∧
      ((PxLocalReplica.restoreFromReplayWithEngine 1 .follower (replayGroup D.wal) 0
        fun _ => true).acceptor.node 1).floor < b) ∧
    ∃ v w, .granted 2 v ∈ D.answered ∧ .granted 2 w ∈ D.answered ∧ v ≠ w :=
  ⟨_, System.reach_run lostAppends rfl, by decide +kernel, ⟨⟨1, 2⟩, by decide +kernel⟩,
    2, 3, by decide +kernel⟩

/-- The same requests on a disk that works, spread over two segments. -/
def keptAppends : List DurableAction :=
  [.openSegment, .openSegment, .prepare 0 1 ⟨1, 2⟩ 1, .write 0 2, .finish 0 true,
    .accept 0 ⟨1, ⟨1, 2⟩, 1, [7]⟩, .write 0 1, .finish 0 true,
    .requestVote 10 0 ⟨2, 2, 1, 1⟩, .write 0 1, .finish 0 true]

theorem answers_survive_crash_clean_run : ∃ D,
    (durable 0 1).Reach (fun D a => Durable.appendGuard D a = true) D ∧
      .promised 1 ⟨1, 2⟩ ∈ D.answered ∧
      (⟨1, 2⟩ : PxBallot) ≤ ((PxLocalReplica.restoreFromReplayWithEngine D.replica.id .follower
        (replayGroup D.wal) 0 fun _ => true).acceptor.node 1).floor := by
  have hr := System.reach_runGuarded (S := durable 0 1) (g := Durable.appendGuard) keptAppends rfl
  exact ⟨_, hr, by decide +kernel, (answers_survive_crash 0 1 hr .follower 0 (fun _ => true)
    rfl).1 1 ⟨1, 2⟩ (by decide +kernel) (by decide +kernel)⟩

end CrowDB.Cluster
