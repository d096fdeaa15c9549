import CrowDB.Paxos.Acceptor

/-!
# Runs of one acceptor

Any sequence of calls on an acceptor, each of them atomic. At a slot that is not
trimmed the promise only grows, and the accepted entry is the one of the highest
ballot among those the calls have acknowledged. Reclaiming removes nodes below the
trim point only, where no call is answered with a promise or an acceptance again.
-/
namespace CrowDB.Paxos

open PxSlotNode

namespace PxSlotNode
variable {n : PxSlotNode} {e : PxLogEntry}

lemma floor_le_installChosen (n : PxSlotNode) (e : PxLogEntry) :
    n.floor ≤ (n.installChosen e).1.floor := by
  refine (n.floor_le_prepare e.slot e.ballot).trans (le_of_eq ?_)
  simp only [installChosen]
  split
  · split <;> rfl
  · rfl

/-- A refused install leaves the accepted entry alone. -/
theorem installChosen_false (h : (n.installChosen e).2 = false) :
    (n.installChosen e).1.accepted = n.accepted := by
  rcases n.installChosen_accepted e with hn | ⟨-, hlt⟩
  · exact hn
  · simp only [installChosen] at h
    cases ha : n.accepted with
    | none => simp [ha] at h
    | some a => simp [ha, not_le.mpr (hlt a ha)] at h

end PxSlotNode

namespace PxAcceptor
variable {A : PxAcceptor} {e : PxLogEntry} {s : ℕ}

/-- `reclaim`: the nodes of the trimmed slots are removed and counted. -/
def reclaim (A : PxAcceptor) : PxAcceptor × ℕ :=
  ({ slots := fun s => if s < A.trimSlot then none else A.slots s
     trimSlot := A.trimSlot
     highestSeenSlot := A.highestSeenSlot
     opened_le := fun s hs => A.opened_le s (by by_cases h : s < A.trimSlot <;> simp_all)
     keyed := fun s n hn => A.keyed s n (by by_cases h : s < A.trimSlot <;> simp_all) },
    (List.range (A.highestSeenSlot + 1)).countP fun s =>
      decide (s < A.trimSlot) && (A.slots s).isSome)

lemma reclaim_node (A : PxAcceptor) (h : A.trimSlot ≤ s) : A.reclaim.1.node s = A.node s := by
  simp [reclaim, node, Nat.not_lt.mpr h]

end PxAcceptor

inductive AcceptorCall where
  | prepare (slot : ℕ) (ballot : PxBallot)
  | accept (entry : PxLogEntry)
  | installChosen (entry : PxLogEntry)
  | trim (before : ℕ)
  | reclaim

namespace PxAcceptor
variable {A : PxAcceptor} {e : PxLogEntry} {s : ℕ} {c : AcceptorCall} {calls : List AcceptorCall}

section
variable (A : PxAcceptor)

def apply : AcceptorCall → PxAcceptor
  | .prepare slot ballot => (A.prepare slot ballot).1
  | .accept e => (A.accept e).1
  | .installChosen e => (A.installChosen e).1
  | .trim before => A.trim before
  | .reclaim => A.reclaim.1

def run (calls : List AcceptorCall) : PxAcceptor := calls.foldl apply A

/-- The entry that a call answers with `accepted`, or with a successful install. -/
def acknowledged : AcceptorCall → Option PxLogEntry
  | .accept e => if (A.accept e).2 = .accepted e.slot e.ballot then some e else none
  | .installChosen e => if (A.installChosen e).2 then some e else none
  | _ => none

end

/-- All entries that the calls of a run acknowledge. -/
def history (A : PxAcceptor) : List AcceptorCall → List PxLogEntry
  | [] => []
  | c :: calls => (A.acknowledged c).toList ++ (A.apply c).history calls

lemma trimSlot_le_apply (A : PxAcceptor) (c : AcceptorCall) :
    A.trimSlot ≤ (A.apply c).trimSlot := by
  cases c with
  | prepare slot b => exact (A.grows_prepare slot b).trim
  | accept e => exact (A.grows_accept e).trim
  | installChosen =>
    simp only [apply, installChosen]
    split <;> exact le_rfl
  | trim => exact le_max_left _ _
  | reclaim => exact le_rfl

lemma trimSlot_le_run (A : PxAcceptor) (calls : List AcceptorCall) :
    A.trimSlot ≤ (A.run calls).trimSlot := by
  induction calls generalizing A with
  | nil => exact le_rfl
  | cons c _ ih => exact (A.trimSlot_le_apply c).trans (ih (A.apply c))

lemma le_trimSlot_run (A : PxAcceptor) {before : ℕ} (h : .trim before ∈ calls) :
    before ≤ (A.run calls).trimSlot := by
  induction calls generalizing A with
  | nil => cases h
  | cons c calls ih =>
    rcases List.mem_cons.mp h with rfl | h
    · exact (le_max_right A.trimSlot _).trans ((A.trim before).trimSlot_le_run calls)
    · exact ih (A.apply c) h

lemma floor_le_apply (A : PxAcceptor) (c : AcceptorCall) (h : (A.apply c).trimSlot ≤ s) :
    (A.node s).floor ≤ ((A.apply c).node s).floor := by
  cases c with
  | prepare slot b => exact (A.grows_prepare slot b).floor s
  | accept e => exact (A.grows_accept e).floor s
  | installChosen e =>
    simp only [apply, installChosen]
    split
    · exact le_rfl
    · exact (grows_put (A.installChosen_keyed e) (floor_le_installChosen _ e)).floor s
  | trim => exact le_rfl
  | reclaim => exact le_of_eq (congrArg floor (A.reclaim_node h)).symm

lemma floor_le_run (A : PxAcceptor) (h : (A.run calls).trimSlot ≤ s) :
    (A.node s).floor ≤ ((A.run calls).node s).floor := by
  induction calls generalizing A with
  | nil => exact le_rfl
  | cons c calls ih =>
    exact (A.floor_le_apply c ((trimSlot_le_run _ calls).trans h)).trans (ih (A.apply c) h)

lemma installChosen_false (h : (A.installChosen e).2 = false) (s : ℕ) :
    ((A.installChosen e).1.node s).accepted = (A.node s).accepted := by
  unfold installChosen at h ⊢
  split at h
  · next ht => rw [if_pos ht]
  · next ht =>
    rw [if_neg ht, put_node]
    split
    · next hs =>
      subst s
      exact PxSlotNode.installChosen_false h
    · rfl

/-- What a call that acknowledges `new` does to the accepted entry of slot `s`. -/
structure Votes (s : ℕ) (new : Option PxLogEntry) (A B : PxAcceptor) : Prop where
  kept : ∀ y, (A.node s).accepted = some y → ∃ z, (B.node s).accepted = some z ∧ y.ballot ≤ z.ballot
  taken : ∀ e, new = some e → e.slot = s → ∃ z, (B.node s).accepted = some z ∧ e.ballot ≤ z.ballot
  origin : ∀ z, (B.node s).accepted = some z → (A.node s).accepted = some z ∨ new = some z

lemma Votes.of_eq {B : PxAcceptor} (h : (B.node s).accepted = (A.node s).accepted) :
    Votes s none A B :=
  ⟨fun y hy => ⟨y, h.trans hy, le_rfl⟩, nofun, fun _ hz => .inl (h.symm.trans hz)⟩

lemma votes_apply (A : PxAcceptor) (c : AcceptorCall) (h : (A.apply c).trimSlot ≤ s) :
    Votes s (A.acknowledged c) A (A.apply c) := by
  cases c with
  | prepare slot b => exact .of_eq (A.prepare_node_accepted slot s b)
  | accept e =>
    obtain ⟨hkept, horigin⟩ := A.advances_accept e
    refine ⟨hkept s, fun x hx hs => ?_, horigin s⟩
    obtain ⟨hr, hx⟩ := Option.ite_none_right_eq_some.mp hx
    cases hx
    exact ⟨e, hs ▸ (accept_accepted hr).2.1, le_rfl⟩
  | installChosen e =>
    cases hr : (A.installChosen e).2 with
    | false =>
      rw [acknowledged, hr]
      exact .of_eq (installChosen_false hr s)
    | true =>
      obtain ⟨hkept, horigin⟩ := A.advances_installChosen e
      rw [acknowledged, hr]
      refine ⟨hkept s, fun x hx hs => ?_, horigin s⟩
      cases hx
      exact hs ▸ installChosen_true hr
  | trim => exact .of_eq rfl
  | reclaim => exact .of_eq (congrArg accepted (A.reclaim_node h))

/-- After a run, the accepted entry is at or above every entry acknowledged in it. -/
theorem le_accepted_of_mem_history (A : PxAcceptor) (h : (A.run calls).trimSlot ≤ s)
    (he : e.slot = s) (hmem : (A.node s).accepted = some e ∨ e ∈ A.history calls) :
    ∃ z, ((A.run calls).node s).accepted = some z ∧ e.ballot ≤ z.ballot := by
  induction calls generalizing A e with
  | nil => exact ⟨e, hmem.resolve_right (by simp [history]), le_rfl⟩
  | cons c calls ih =>
    have hvotes := A.votes_apply c ((trimSlot_le_run _ calls).trans h)
    have hgo : ∀ z, ((A.apply c).node s).accepted = some z → e.ballot ≤ z.ballot →
        ∃ z, ((A.run (c :: calls)).node s).accepted = some z ∧ e.ballot ≤ z.ballot := by
      intro z hz hle
      obtain ⟨y, hy, hle'⟩ := ih (A.apply c) h (slot_of_node_accepted hz) (.inl hz)
      exact ⟨y, hy, hle.trans hle'⟩
    rcases hmem with hmem | hmem
    · obtain ⟨z, hz, hle⟩ := hvotes.kept e hmem
      exact hgo z hz hle
    · rcases List.mem_append.mp hmem with hmem | hmem
      · obtain ⟨z, hz, hle⟩ := hvotes.taken e (Option.mem_toList.mp hmem) he
        exact hgo z hz hle
      · exact ih (A.apply c) h he (.inr hmem)

lemma mem_history_of_accepted (A : PxAcceptor) (h : (A.run calls).trimSlot ≤ s)
    (he : ((A.run calls).node s).accepted = some e) :
    (A.node s).accepted = some e ∨ e ∈ A.history calls := by
  induction calls generalizing A with
  | nil => exact .inl he
  | cons c calls ih =>
    rcases ih (A.apply c) h he with hold | hmem
    · refine ((A.votes_apply c ((trimSlot_le_run _ calls).trans h)).origin e hold).imp_right
        fun hack => List.mem_append_left _ (Option.mem_toList.mpr hack)
    · exact .inr (List.mem_append_right _ hmem)

lemma accept_eq_accepted_iff (h : A.trimSlot ≤ e.slot) :
    (A.accept e).2 = .accepted e.slot e.ballot ↔ (A.node e.slot).floor ≤ e.ballot := by
  refine ⟨fun hr => (accept_accepted hr).1, fun hle => ?_⟩
  have hno : ¬ (A.node e.slot).refusesAccept e.ballot = true := by
    cases hp : (A.node e.slot).promised with
    | none => simp [refusesAccept, hp]
    | some => simpa [refusesAccept, floor, hp] using hle
  simp [accept, PxSlotNode.accept, Nat.not_lt.mpr h, hno]

/-- Every run of calls, continued by any further calls. A missing promise is read as the
zero ballot, as the calls themselves read it. -/
theorem acceptor_keeps_promises (calls more : List AcceptorCall) :
    let A := (default : PxAcceptor).run calls
    let B := A.run more
    (∀ s, B.trimSlot ≤ s → (A.promisedAt s).getD .zero ≤ (B.promisedAt s).getD .zero ∧
      (∀ e, B.acceptedAt s = some e → e.ballot ≤ (B.promisedAt s).getD .zero) ∧
      (∀ e, e.slot = s → ((B.accept e).2 = .accepted s e.ballot ↔
        (B.promisedAt s).getD .zero ≤ e.ballot)) ∧
      ∀ b acc, (B.prepare s b).2 = .promised s acc →
        (∀ e ∈ (default : PxAcceptor).history (calls ++ more), e.slot = s →
          ∃ a, acc = some a ∧ e.ballot ≤ a.ballot) ∧
        ∀ a, acc = some a → a ∈ (default : PxAcceptor).history (calls ++ more) ∧ a.slot = s) ∧
    (∀ before, .trim before ∈ calls → before ≤ A.trimSlot) ∧
    ∀ s, s < A.trimSlot → (∀ b t acc, (B.prepare s b).2 ≠ .promised t acc) ∧
      ∀ e, e.slot = s → ∀ t b, (B.accept e).2 ≠ .accepted t b := by
  intro A B
  have hB : (default : PxAcceptor).run (calls ++ more) = B := List.foldl_append
  have hAB : A.trimSlot ≤ B.trimSlot := A.trimSlot_le_run more
  refine ⟨fun s hs => ?_, fun _ => le_trimSlot_run default, fun s hs => ?_⟩
  · have hA : A.promisedAt s = (A.node s).promised := if_neg (Nat.not_lt.mpr (hAB.trans hs))
    have hp : B.promisedAt s = (B.node s).promised := if_neg (Nat.not_lt.mpr hs)
    rw [hA, hp]
    refine ⟨A.floor_le_run hs, fun e he => ?_, fun e he => ?_, fun b acc hacc => ?_⟩
    · exact (B.node s).accepted_le e (acceptedAt_some he)
    · subst s
      exact accept_eq_accepted_iff hs
    · obtain ⟨-, rfl, -⟩ := prepare_promised hacc
      refine ⟨fun e he hslot => ?_, fun a ha => ⟨?_, slot_of_node_accepted ha⟩⟩
      · rw [← hB]
        exact le_accepted_of_mem_history default (hB ▸ hs) hslot (.inr he)
      · refine (mem_history_of_accepted default (hB ▸ hs) (hB ▸ ha)).resolve_left ?_
        intro hnone
        cases hnone
  · have hlt : s < B.trimSlot := hs.trans_le hAB
    refine ⟨fun b t acc hr => ?_, fun e he t b hr => ?_⟩
    · simp [prepare, hlt] at hr
    · simp [accept, he, hlt] at hr

end PxAcceptor
end CrowDB.Paxos
