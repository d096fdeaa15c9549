import CrowDB.Paxos.Roles
import Mathlib.Data.List.Induction

/-!
# Folding prepare and accept replies

The proposer counts replies in arrival order into a `ReplyFold`. Promises and
accepts of non-voting replicas are not counted, but an accepted entry that any
promise reports takes part in the adoption. `prepareOutcome` and
`acceptOutcome` are the decisions taken once the fold is complete or a quorum
short-circuits it.
-/
namespace CrowDB.Cluster
open Paxos List

structure ReplyFold where
  accepted : ℕ := 0
  highestRejectedRound : Option ℕ := none
  highestSeenTerm : Option ℕ := none
  epochMismatch : Option ℕ := none
  adopted : Option PxLogEntry := none
  localFolded : Bool := false

inductive PxPaxosPhase
  | prepare
  | accept
  deriving DecidableEq, Repr

inductive PxPaxosError
  | prepareRejected (promised : PxBallot)
  | acceptRejected (promised : PxBallot)
  | quorumUnavailable (phase : PxPaxosPhase)
  | membershipEpochMismatch (responderEpoch : ℕ)
  | termStale (currentTerm : ℕ)
  deriving DecidableEq, Repr

inductive PrepareAttempt
  | proceed (entry : PxLogEntry) (foreignValue : Bool)
  | retry (nextMinRound : ℕ) (error : PxPaxosError)
  | fail (error : PxPaxosError)
  deriving DecidableEq, Repr

inductive AcceptAttempt
  | chosen
  | retry (nextMinRound : ℕ) (error : PxPaxosError)
  | fail (error : PxPaxosError)
  deriving DecidableEq, Repr

/-- Keep the entry with the strictly highest ballot. -/
def considerAccepted (adopted : Option PxLogEntry) (candidate : PxLogEntry) : Option PxLogEntry :=
  match adopted with
  | none => some candidate
  | some current => if current.ballot < candidate.ballot then some candidate else some current

namespace ReplyFold

section
variable (f : ReplyFold)

def noteRejected (currentPromised : PxBallot) : ReplyFold :=
  { f with
    highestRejectedRound :=
      some (f.highestRejectedRound.elim currentPromised.round (max · currentPromised.round)) }

def noteTermStale (newTerm : ℕ) : ReplyFold :=
  { f with highestSeenTerm := some (f.highestSeenTerm.elim newTerm (max · newTerm)) }

/-- The common body of `fold_prepare_local` and `fold_prepare_remote`. -/
def foldPrepare (voting : Bool) : PxPrepareReply → ReplyFold
  | .promised _ acc =>
    { f with
      accepted := f.accepted + if voting then 1 else 0
      adopted := acc.elim f.adopted (considerAccepted f.adopted) }
  | .rejected _ currentPromised => f.noteRejected currentPromised
  | .termStale _ newTerm => f.noteTermStale newTerm
  | .epochMismatch responderEpoch => { f with epochMismatch := some responderEpoch }

/-- The common body of `fold_accept_local` and `fold_accept_remote`. -/
def foldAccept (voting : Bool) : PxAcceptReply → ReplyFold
  | .accepted _ _ => { f with accepted := f.accepted + if voting then 1 else 0 }
  | .rejected _ currentPromised => f.noteRejected currentPromised
  | .termStale _ newTerm => f.noteTermStale newTerm
  | .epochMismatch responderEpoch => { f with epochMismatch := some responderEpoch }

/-- Count one reply, and remember that the local one has been counted. -/
def withLocal (isLocal : Bool) : ReplyFold :=
  { f with localFolded := f.localFolded || isLocal }

end

/-- The fold of a proposer `self` over tagged replies in arrival order. -/
def ofPrepare (self : ℕ) (voting : ℕ → Bool) (replies : List (ℕ × PxPrepareReply)) : ReplyFold :=
  replies.foldl (fun f r => (f.foldPrepare (voting r.1) r.2).withLocal (r.1 == self)) {}

def ofAccept (self : ℕ) (voting : ℕ → Bool) (replies : List (ℕ × PxAcceptReply)) : ReplyFold :=
  replies.foldl (fun f r => (f.foldAccept (voting r.1) r.2).withLocal (r.1 == self)) {}

end ReplyFold

/-- The decision at the end of `run_prepare_phase`: a higher term first, then
the quorum, then adoption of the reported value. -/
def prepareOutcome (f : ReplyFold) (quorum : ℕ) (entry : PxLogEntry) : PrepareAttempt :=
  match f.highestSeenTerm with
  | some newTerm => .fail (.termStale newTerm)
  | none =>
    if f.accepted < quorum then
      match f.highestRejectedRound, f.epochMismatch with
      | some round, _ => .retry round (.prepareRejected ⟨round, 0⟩)
      | none, some responderEpoch => .fail (.membershipEpochMismatch responderEpoch)
      | none, none => .fail (.quorumUnavailable .prepare)
    else
      match f.adopted with
      | none => .proceed entry false
      | some prev => .proceed { entry with payload := prev.payload } (prev.payload != entry.payload)

/-- The decision at the end of `run_accept_phase`: the quorum wins over a
higher term. -/
def acceptOutcome (f : ReplyFold) (quorum : ℕ) : AcceptAttempt :=
  if quorum ≤ f.accepted then .chosen
  else
    match f.highestSeenTerm, f.highestRejectedRound, f.epochMismatch with
    | some newTerm, _, _ => .fail (.termStale newTerm)
    | none, some round, _ => .retry (round + 1) (.acceptRejected ⟨round, 0⟩)
    | none, none, some responderEpoch => .fail (.membershipEpochMismatch responderEpoch)
    | none, none, none => .fail (.quorumUnavailable .accept)

/-- The replicas whose promise a list of replies holds. -/
def promisers (replies : List (ℕ × PxPrepareReply)) : List ℕ :=
  (replies.filter fun r => r.2 matches .promised _ _).map Prod.fst

def acceptors (replies : List (ℕ × PxAcceptReply)) : List ℕ :=
  (replies.filter fun r => r.2 matches .accepted _ _).map Prod.fst

/-- The entries that a list of replies reports as accepted. -/
def reported (replies : List (ℕ × PxPrepareReply)) : List PxLogEntry :=
  replies.filterMap fun r => match r.2 with
    | .promised _ acc => acc
    | _ => none

variable {rs : List (ℕ × PxPrepareReply)}

lemma of_mem_promisers {a : ℕ} (h : a ∈ promisers rs) :
    ∃ s acc, (a, PxPrepareReply.promised s acc) ∈ rs := by
  simp only [promisers, mem_map, mem_filter] at h
  obtain ⟨⟨b, r⟩, ⟨hm, hr⟩, rfl⟩ := h
  cases r <;> simp_all
  exact ⟨_, _, hm⟩

lemma of_mem_acceptors {rs : List (ℕ × PxAcceptReply)} {a : ℕ} (h : a ∈ acceptors rs) :
    ∃ s b, (a, PxAcceptReply.accepted s b) ∈ rs := by
  simp only [acceptors, mem_map, mem_filter] at h
  obtain ⟨⟨b, r⟩, ⟨hm, hr⟩, rfl⟩ := h
  cases r <;> simp_all
  exact ⟨_, _, hm⟩

lemma mem_reported {e : PxLogEntry} :
    e ∈ reported rs ↔ ∃ a s, (a, PxPrepareReply.promised s (some e)) ∈ rs := by
  simp only [reported, mem_filterMap]
  constructor
  · rintro ⟨⟨a, r⟩, hm, hr⟩
    cases r <;> simp_all
    exact ⟨_, _, hm⟩
  · rintro ⟨a, s, h⟩
    exact ⟨_, h, rfl⟩

/-- A replica replies at most once, so the promisers repeat nobody. -/
theorem nodup_promisers (h : (rs.map Prod.fst).Nodup) : (promisers rs).Nodup :=
  h.sublist (filter_sublist.map _)

lemma nodup_acceptors {rs : List (ℕ × PxAcceptReply)} (h : (rs.map Prod.fst).Nodup) :
    (acceptors rs).Nodup :=
  h.sublist (filter_sublist.map _)

namespace ReplyFold
variable (self : ℕ) (voting : ℕ → Bool)

/-- The counter of the fold is the number of voting promisers. -/
theorem ofPrepare_accepted (rs : List (ℕ × PxPrepareReply)) :
    (ofPrepare self voting rs).accepted = ((promisers rs).filter voting).length := by
  induction rs using reverseRecOn with
  | nil => rfl
  | append_singleton _ r ih =>
    obtain ⟨a, r⟩ := r
    simp only [ofPrepare] at ih ⊢
    cases r <;> cases hv : voting a <;>
      simp [foldPrepare, withLocal, noteRejected, noteTermStale, promisers, hv] at ih ⊢ <;> omega

lemma ofAccept_accepted (rs : List (ℕ × PxAcceptReply)) :
    (ofAccept self voting rs).accepted = ((acceptors rs).filter voting).length := by
  induction rs using reverseRecOn with
  | nil => rfl
  | append_singleton _ r ih =>
    obtain ⟨a, r⟩ := r
    simp only [ofAccept] at ih ⊢
    cases r <;> cases hv : voting a <;>
      simp [foldAccept, withLocal, noteRejected, noteTermStale, acceptors, hv] at ih ⊢ <;> omega

/-- What is adopted is a reported entry of the highest reported ballot. -/
theorem ofPrepare_adopted (rs : List (ℕ × PxPrepareReply)) :
    ((ofPrepare self voting rs).adopted = none ∧ reported rs = []) ∨
      ∃ e, (ofPrepare self voting rs).adopted = some e ∧ e ∈ reported rs ∧
        ∀ x ∈ reported rs, x.ballot ≤ e.ballot := by
  induction rs using reverseRecOn with
  | nil => exact .inl ⟨rfl, rfl⟩
  | append_singleton rs r ih =>
    obtain ⟨a, r⟩ := r
    have keep : (∀ s e, r ≠ .promised s (some e)) →
        (ofPrepare self voting (rs ++ [(a, r)])).adopted = (ofPrepare self voting rs).adopted ∧
          reported (rs ++ [(a, r)]) = reported rs := by
      rcases r with ⟨s, _ | e⟩ | _ | _ | _ <;>
        simp_all [ofPrepare, foldPrepare, withLocal, noteRejected, noteTermStale, reported]
    by_cases h : ∃ s e, r = .promised s (some e)
    · obtain ⟨s, e, rfl⟩ := h
      have hr : reported (rs ++ [(a, PxPrepareReply.promised s (some e))]) =
        reported rs ++ [e] := by
        simp [reported]
      have ha : (ofPrepare self voting (rs ++ [(a, PxPrepareReply.promised s (some e))])).adopted =
          considerAccepted (ofPrepare self voting rs).adopted e := by
        simp [ofPrepare, foldPrepare, withLocal]
      rw [ha, hr]
      right
      rcases ih with ⟨hn, hrs⟩ | ⟨m, hm, hmem, hmax⟩
      · exact ⟨e, by simp [hn, considerAccepted], by simp, by simp [hrs]⟩
      · by_cases hlt : m.ballot < e.ballot
        · refine ⟨e, by simp [hm, considerAccepted, hlt], by simp, ?_⟩
          exact forall_mem_append.mpr
            ⟨fun x hx => (hmax x hx).trans hlt.le, forall_mem_singleton.mpr le_rfl⟩
        · refine ⟨m, by simp [hm, considerAccepted, hlt], by simp [hmem], ?_⟩
          exact forall_mem_append.mpr ⟨hmax, forall_mem_singleton.mpr (not_lt.mp hlt)⟩
    · obtain ⟨ha, hr⟩ := keep fun s e he => h ⟨s, e, he⟩
      rw [ha, hr]
      exact ih

end ReplyFold

/-- A prepare phase that proceeds has its quorum and keeps slot, ballot and
term; only the payload may come from the adopted entry. -/
theorem prepareOutcome_proceed {f : ReplyFold} {quorum : ℕ} {entry e : PxLogEntry} {fv : Bool}
    (h : prepareOutcome f quorum entry = .proceed e fv) :
    quorum ≤ f.accepted ∧
      e = { entry with payload := (f.adopted.map (·.payload)).getD entry.payload } := by
  unfold prepareOutcome at h
  split at h
  · simp at h
  · split at h
    · split at h <;> simp at h
    · next hq =>
      refine ⟨not_lt.mp hq, ?_⟩
      split at h
      · next ha => simp only [PrepareAttempt.proceed.injEq] at h; simp [ha, ← h.1]
      · next prev ha => simp only [PrepareAttempt.proceed.injEq] at h; simp [ha, ← h.1]

lemma acceptOutcome_chosen {f : ReplyFold} {quorum : ℕ} (h : acceptOutcome f quorum = .chosen) :
    quorum ≤ f.accepted := by
  unfold acceptOutcome at h
  split at h
  · assumption
  · split at h <;> simp at h

end CrowDB.Cluster
