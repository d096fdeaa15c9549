import CrowDB.Wal.Record
import Mathlib.Data.List.Induction
import Mathlib.Data.List.Sort

/-!
# Replaying the log

Segments are scanned in the order of their ids, each in file order. Records of
one slot may sit on several disks, so nothing relates the scan order to the
order in which they were written: for each slot the highest promise and the
highest accept survive, the term is the highest of any record, and the vote is
the last one scanned for that term.
-/
namespace CrowDB.Wal
open Paxos List

/-- What a scan has kept. The ordered map of the source is a partial function
with a bound on its keys; a record sits under its own slot and type. -/
structure ReplayRecords where
  slots : ℕ → RecordType → Option WALRecord
  highest : ℕ
  votes : List WALRecord
  currentTerm : ℕ
  votedFor : Option ℕ
  opened_le : ∀ s t, (slots s t).isSome = true → s ≤ highest
  keyed : ∀ s t, ∀ r ∈ slots s t, r.slot = s ∧ r.recordType = t
  votes_only : ∀ r ∈ votes, r.recordType = .voteGranted

variable {r : WALRecord}

namespace ReplayRecords

instance : Inhabited ReplayRecords :=
  ⟨⟨fun _ _ => none, 0, [], 0, none, by simp, by simp, by simp⟩⟩

/-- A record of a higher term opens that term, with no vote yet. -/
def observeTerm (R : ReplayRecords) (term : ℕ) : ReplayRecords :=
  if R.currentTerm < term then { R with currentTerm := term, votedFor := none } else R

section
variable (R : ReplayRecords) (r : WALRecord)

def insertVote (h : r.recordType = .voteGranted) : ReplayRecords :=
  { R with
    votedFor := if r.term = R.currentTerm then r.votedForId else R.votedFor
    votes := R.votes ++ [r]
    votes_only := by
      intro x hx
      rcases List.mem_append.mp hx with hx | hx
      · exact R.votes_only x hx
      · rw [List.mem_singleton.mp hx]; exact h }

def insertSlot : ReplayRecords :=
  { R with
    slots := fun s t => if s = r.slot ∧ t = r.recordType then some r else R.slots s t
    highest := max R.highest r.slot
    opened_le := by
      intro s t hs
      by_cases h : s = r.slot ∧ t = r.recordType
      · omega
      · have := R.opened_le s t (by simpa [h] using hs)
        omega
    keyed := by
      intro s t x hx
      by_cases h : s = r.slot ∧ t = r.recordType
      · obtain rfl : r = x := by simpa [h] using hx
        exact ⟨h.1.symm, h.2.symm⟩
      · exact R.keyed s t x (by simpa [h] using hx) }

/-- One verified record. A later record of equal ballot replaces an earlier one. -/
def push : ReplayRecords :=
  let S := R.observeTerm r.term
  if h : r.recordType = .voteGranted then S.insertVote r h
  else if (S.slots r.slot r.recordType).all (·.ballot ≤ r.ballot) then S.insertSlot r
  else S

end

def scan (rs : List WALRecord) : ReplayRecords := rs.foldl push default

/-- Votes first, then the surviving records by slot, promise before accept. -/
def intoRecords (R : ReplayRecords) : List WALRecord :=
  R.votes ++ (List.range (R.highest + 1)).flatMap fun s =>
    (R.slots s .promised).toList ++ (R.slots s .accepted).toList

@[simp] lemma observeTerm_slots (R : ReplayRecords) (t : ℕ) :
    (R.observeTerm t).slots = R.slots := by
  unfold observeTerm; split <;> rfl

@[simp] lemma observeTerm_currentTerm (R : ReplayRecords) (t : ℕ) :
    (R.observeTerm t).currentTerm = max R.currentTerm t := by
  unfold observeTerm
  split
  · next h => exact (max_eq_right h.le).symm
  · next h => exact (max_eq_left (not_lt.mp h)).symm

lemma push_currentTerm (R : ReplayRecords) (r : WALRecord) :
    (R.push r).currentTerm = max R.currentTerm r.term := by
  unfold push
  dsimp only
  split
  · exact observeTerm_currentTerm R r.term
  · split <;> exact observeTerm_currentTerm R r.term

variable {R : ReplayRecords}

/-- A vote for the term reached replaces the one noted before. -/
theorem push_votedFor_vote (hv : r.recordType = .voteGranted) (ht : R.currentTerm ≤ r.term) :
    (R.push r).votedFor = r.votedForId := by
  unfold push
  simp [hv, insertVote, ht]

/-- Any other record leaves the vote alone, unless it opens a term. -/
theorem push_votedFor_of_le (ht : r.term ≤ R.currentTerm)
    (hv : r.recordType = .voteGranted → r.term ≠ R.currentTerm) :
    (R.push r).votedFor = R.votedFor := by
  have ho : R.observeTerm r.term = R := by
    unfold observeTerm
    rw [if_neg (by omega)]
  unfold push
  dsimp only
  rw [ho]
  split
  · next h => simp [insertVote, hv h]
  · split <;> rfl

/-- A record that opens a term and is no vote leaves the vote open. -/
theorem push_votedFor_of_lt (ht : R.currentTerm < r.term) (hv : r.recordType ≠ .voteGranted) :
    (R.push r).votedFor = none := by
  unfold push
  simp only [hv, dite_false, observeTerm, ht, if_true]
  split <;> rfl

lemma push_slots (R : ReplayRecords) (r : WALRecord) (s : ℕ) (t : RecordType) :
    (R.push r).slots s t = R.slots s t ∨
      (r.recordType ≠ .voteGranted ∧ s = r.slot ∧ t = r.recordType ∧
        (R.push r).slots s t = some r ∧ ∀ x, R.slots s t = some x → x.ballot ≤ r.ballot) := by
  unfold push
  dsimp only
  split
  · exact .inl (by simp [insertVote])
  · next hv =>
    split
    · next ha =>
      by_cases h : s = r.slot ∧ t = r.recordType
      · obtain ⟨rfl, rfl⟩ := h
        refine .inr ⟨hv, rfl, rfl, by simp [insertSlot], fun x hx => ?_⟩
        simpa [hx] using ha
      · exact .inl (by simp [insertSlot, h])
    · exact .inl (by simp)

/-- After its own push a promise or an accept is matched or beaten. -/
theorem le_push_slots (hv : r.recordType ≠ .voteGranted) :
    ∃ x, (R.push r).slots r.slot r.recordType = some x ∧ r.ballot ≤ x.ballot := by
  unfold push
  simp only [hv, observeTerm_slots]
  cases hx : R.slots r.slot r.recordType with
  | none => exact ⟨r, by simp [insertSlot], le_rfl⟩
  | some x =>
    by_cases hle : x.ballot ≤ r.ballot
    · exact ⟨r, by simp [hle, insertSlot], le_rfl⟩
    · exact ⟨x, by simp [hle, hx], (not_le.mp hle).le⟩

@[simp] lemma scan_concat (rs : List WALRecord) (r : WALRecord) :
    scan (rs ++ [r]) = (scan rs).push r := by
  simp [scan]

/-! ## What a whole scan keeps -/

variable {rs : List WALRecord}

lemma term_le_scan (h : r ∈ rs) : r.term ≤ (scan rs).currentTerm := by
  induction rs using reverseRecOn with
  | nil => simp at h
  | append_singleton _ _ ih =>
    rw [scan_concat, push_currentTerm]
    rcases mem_append.mp h with h | h
    · exact (ih h).trans (le_max_left _ _)
    · rw [mem_singleton.mp h]
      exact le_max_right _ _

/-- Every promise and every accept of the log is matched or beaten by the
survivor of its slot and type. -/
theorem le_scan_slots (h : r ∈ rs) (hv : r.recordType ≠ .voteGranted) :
    ∃ x, (scan rs).slots r.slot r.recordType = some x ∧ r.ballot ≤ x.ballot := by
  induction rs using reverseRecOn with
  | nil => simp at h
  | append_singleton rs y ih =>
    rw [scan_concat]
    rcases mem_append.mp h with h | h
    · obtain ⟨x, hx, hle⟩ := ih h
      rcases push_slots (scan rs) y r.slot r.recordType with hp | ⟨-, -, -, hp, hmax⟩
      · exact ⟨x, hp.trans hx, hle⟩
      · exact ⟨y, hp, hle.trans (hmax x hx)⟩
    · rw [mem_singleton.mp h] at hv ⊢
      exact le_push_slots hv

/-- When all votes of the term reached name one candidate, that is the vote. -/
theorem scan_votedFor {v : Option ℕ}
    (hex : ∃ r ∈ rs, r.recordType = .voteGranted ∧ r.term = (scan rs).currentTerm)
    (hall : ∀ r ∈ rs, r.recordType = .voteGranted → r.term = (scan rs).currentTerm →
      r.votedForId = v) : (scan rs).votedFor = v := by
  induction rs using reverseRecOn with
  | nil => simp at hex
  | append_singleton rs x ih =>
    rw [scan_concat] at hex hall ⊢
    rw [push_currentTerm] at hex hall
    by_cases hx : x.recordType = .voteGranted ∧ (scan rs).currentTerm ≤ x.term
    · rw [push_votedFor_vote hx.1 hx.2]
      exact hall x (by simp) hx.1 (max_eq_right hx.2).symm
    -- the vote of the final term is older than `x`, which therefore opened no term
    · obtain ⟨r, hr, hrv, hrt⟩ := hex
      have hrs : r ∈ rs := by
        rcases mem_append.mp hr with hr | hr
        · exact hr
        · rw [mem_singleton.mp hr] at hrv hrt
          exact absurd ⟨hrv, by omega⟩ hx
      have hle := term_le_scan hrs
      have hxt : x.term ≤ (scan rs).currentTerm := by omega
      rw [push_votedFor_of_le hxt fun hv he => hx ⟨hv, he.ge⟩]
      rw [max_eq_left hxt] at hall hrt
      exact ih ⟨r, hrs, hrv, hrt⟩ fun y hy => hall y (mem_append_left _ hy)

lemma mem_intoRecords (hv : r.recordType ≠ .voteGranted) :
    r ∈ R.intoRecords ↔ R.slots r.slot r.recordType = some r := by
  simp only [intoRecords, mem_append, mem_flatMap, mem_range, Option.mem_toList]
  constructor
  · rintro (h | ⟨s, -, h | h⟩)
    · exact absurd (R.votes_only r h) hv
    · obtain ⟨rfl, ht⟩ := R.keyed s _ r h
      rwa [ht]
    · obtain ⟨rfl, ht⟩ := R.keyed s _ r h
      rwa [ht]
  · intro h
    have hle := R.opened_le r.slot r.recordType (by simp [h])
    refine .inr ⟨r.slot, by omega, ?_⟩
    cases ht : r.recordType with
    | promised => exact .inl (ht ▸ h)
    | accepted => exact .inr (ht ▸ h)
    | voteGranted => exact absurd ht hv

/-- At most one accepted entry of a slot survives. -/
theorem pairwise_entries (R : ReplayRecords) :
    (R.intoRecords.filterMap (·.toLogEntry)).Pairwise (·.slot ≠ ·.slot) := by
  have hkey : ∀ s t, ∀ e ∈ ((R.slots s t).toList).filterMap (·.toLogEntry), e.slot = s := by
    intro s t e he
    obtain ⟨r, hr, hre⟩ := mem_filterMap.mp he
    have hrs := (R.keyed s t r (by simpa using hr)).1
    unfold WALRecord.toLogEntry at hre
    split at hre
    · rw [← Option.some.inj hre]; exact hrs
    · simp at hre
  have hvotes : R.votes.filterMap (·.toLogEntry) = [] := by
    refine filterMap_eq_nil_iff.mpr fun r hr => ?_
    simp [WALRecord.toLogEntry, R.votes_only r hr]
  have hprom : ∀ s, ((R.slots s .promised).toList).filterMap (·.toLogEntry) = [] := by
    refine fun s => filterMap_eq_nil_iff.mpr fun r hr => ?_
    simp [WALRecord.toLogEntry, (R.keyed s .promised r (by simpa using hr)).2]
  simp only [intoRecords, filterMap_append, hvotes, filterMap_flatMap, hprom]
  refine pairwise_flatMap.mpr ⟨fun s _ => ?_, ?_⟩
  · cases R.slots s .accepted with
    | none => simp
    | some r => cases h : r.toLogEntry <;> simp [h]
  · refine pairwise_lt_range.imp fun hlt x hx y hy => ?_
    have h1 := hkey _ _ x hx
    have h2 := hkey _ _ y hy
    omega

end ReplayRecords

/-- A segment file. Garbage collection sees the indexed ones: those sealed, and
those a replay has found. -/
structure WalSegment where
  segmentId : ℕ
  indexed : Bool
  records : List WALRecord
  deriving DecidableEq, Repr

/-- All records on all disks, in scan order. -/
def scanOrder (segs : List WalSegment) : List WALRecord :=
  (segs.insertionSort fun a b => a.segmentId ≤ b.segmentId).flatMap (·.records)

@[simp] lemma mem_scanOrder {segs : List WalSegment} :
    r ∈ scanOrder segs ↔ ∃ g ∈ segs, r ∈ g.records := by
  simp [scanOrder]

/-- The part of `ReplayResult` that recovery reads. -/
structure ReplayResult where
  records : List WALRecord
  currentTerm : ℕ
  votedFor : Option ℕ
  deriving Repr

def scanGroup (segs : List WalSegment) : ReplayRecords := .scan (scanOrder segs)

def replayGroup (segs : List WalSegment) : ReplayResult :=
  ⟨(scanGroup segs).intoRecords, (scanGroup segs).currentTerm, (scanGroup segs).votedFor⟩

end CrowDB.Wal
