import Mathlib.Data.Prod.Lex

/-!
# Ballots, log entries and replies

Ballots are compared by round first and by proposer second. The election term
of an entry is not part of its ballot. The empty payload is the no-op that
recovery proposes for an open slot.
-/
namespace CrowDB.Paxos

abbrev Bytes := List UInt8

structure PxBallot where
  round : ℕ
  leaderId : ℕ
  deriving DecidableEq, Repr

namespace PxBallot

/-- The ballot a missing promise stands for. -/
def zero : PxBallot := ⟨0, 0⟩

instance : LinearOrder PxBallot where
  le a b := a.round < b.round ∨ (a.round = b.round ∧ a.leaderId ≤ b.leaderId)
  le_refl a := .inr ⟨rfl, le_rfl⟩
  le_trans a b c := by rintro (h | h) (h' | h') <;> omega
  le_antisymm a b := by
    obtain ⟨r, l⟩ := a
    obtain ⟨r', l'⟩ := b
    rintro (h | h) (h' | h') <;> simp only [PxBallot.mk.injEq] at * <;> omega
  le_total a b := by
    rcases lt_trichotomy a.round b.round with h | h | h
    · exact .inl (.inl h)
    · rcases le_total a.leaderId b.leaderId with h' | h'
      · exact .inl (.inr ⟨h, h'⟩)
      · exact .inr (.inr ⟨h.symm, h'⟩)
    · exact .inr (.inl h)
  toDecidableLE a b :=
    inferInstanceAs (Decidable (a.round < b.round ∨ (a.round = b.round ∧ a.leaderId ≤ b.leaderId)))

lemma le_def {a b : PxBallot} :
    a ≤ b ↔ a.round < b.round ∨ (a.round = b.round ∧ a.leaderId ≤ b.leaderId) := Iff.rfl

lemma lt_def {a b : PxBallot} :
    a < b ↔ a.round < b.round ∨ (a.round = b.round ∧ a.leaderId < b.leaderId) := by
  rw [← not_le, le_def]; omega

@[simp] lemma zero_le (b : PxBallot) : zero ≤ b := by
  rw [le_def]; simp only [zero]; omega

lemma zero_lt_of_round_pos {b : PxBallot} (h : 0 < b.round) : zero < b := lt_def.mpr (.inl h)

instance : WellFoundedLT PxBallot := by
  refine ⟨Subrelation.wf (r := InvImage (Prod.Lex (· < ·) (· < ·))
    fun b : PxBallot => (b.round, b.leaderId)) ?_ (InvImage.wf _ (WellFounded.prod_lex
      wellFounded_lt wellFounded_lt))⟩
  intro a b h
  rcases lt_def.mp h with h | ⟨h, h'⟩
  · exact Prod.Lex.left _ _ h
  · simp only [InvImage, h]; exact Prod.Lex.right _ h'

end PxBallot

structure PxLogEntry where
  slot : ℕ
  ballot : PxBallot
  term : ℕ
  payload : Bytes
  deriving DecidableEq, Repr

/-- Terms first, then ballots: the order in which entries of a slot are proposed.
No comparison in the source uses it. -/
def PxLogEntry.rank (e : PxLogEntry) : ℕ ×ₗ PxBallot := toLex (e.term, e.ballot)

lemma PxLogEntry.rank_lt {e e' : PxLogEntry} :
    e.rank < e'.rank ↔ e.term < e'.term ∨ (e.term = e'.term ∧ e.ballot < e'.ballot) :=
  Prod.Lex.toLex_lt_toLex

lemma PxLogEntry.rank_le {e e' : PxLogEntry} (ht : e.term ≤ e'.term) (hb : e.ballot ≤ e'.ballot) :
    e.rank ≤ e'.rank := Prod.Lex.toLex_mono ⟨ht, hb⟩

/-- `y`, accepted somewhere, does not contradict the chosen entry `x`: at or above
its rank it carries its payload, and a ballot of a slot names one entry. -/
def PxLogEntry.Consistent (x y : PxLogEntry) : Prop :=
  x.slot = y.slot → (x.rank ≤ y.rank → y.payload = x.payload) ∧ (x.ballot = y.ballot → x = y)

instance (x y : PxLogEntry) : Decidable (x.Consistent y) :=
  inferInstanceAs (Decidable (x.slot = y.slot →
    (x.rank ≤ y.rank → y.payload = x.payload) ∧ (x.ballot = y.ballot → x = y)))

inductive PxPrepareReply
  | promised (slot : ℕ) (accepted : Option PxLogEntry)
  | rejected (slot : ℕ) (currentPromised : PxBallot)
  | termStale (slot : ℕ) (newTerm : ℕ)
  | epochMismatch (responderEpoch : ℕ)
  deriving DecidableEq, Repr

inductive PxAcceptReply
  | accepted (slot : ℕ) (ballot : PxBallot)
  | rejected (slot : ℕ) (currentPromised : PxBallot)
  | termStale (slot : ℕ) (newTerm : ℕ)
  | epochMismatch (responderEpoch : ℕ)
  deriving DecidableEq, Repr

end CrowDB.Paxos
