import CrowDB.Lib.Frontier
import CrowDB.Paxos.Roles

/-!
# The learner

Two frontiers, one of slots known to be chosen and one of slots whose batch
reached the engine, and the highest chosen slot anybody told us about, which may
lie above gaps. The engine is seen through the sequence of batches handed to it;
whether it takes one is an input, since a failed apply only keeps the applied
frontier from moving. Concurrent updates of a frontier are one step each: the
drain lock of the source makes the last writer finish what others left.
-/
namespace CrowDB.Paxos
open Lib

structure PxLearner where
  chosen : Frontier
  applied : Frontier
  lastChosenSlot : ℕ
  lastChosenTerm : ℕ
  engineLog : List (ℕ × Bytes)

namespace PxLearner

def fresh : PxLearner := ⟨.seed 0, .seed 0, 0, 0, []⟩

section
variable (L : PxLearner)

/-- `update_last_chosen`: only a higher slot moves the pair. -/
def noteChosen (slot term : ℕ) : PxLearner :=
  { L with
    lastChosenSlot := if L.lastChosenSlot < slot then slot else L.lastChosenSlot
    lastChosenTerm := if L.lastChosenSlot < slot then term else L.lastChosenTerm }

def updateChosenFrontier (slot term : ℕ) : PxLearner :=
  { L.noteChosen slot term with chosen := L.chosen.note slot }

def advanceAppliedFrontier (slot : ℕ) : PxLearner :=
  { L with applied := L.applied.note slot }

/-- In the contiguous prefix or in the out-of-order set. -/
def isChosen (slot : ℕ) : Bool := decide (L.chosen.covers slot)

def applyEntry (slot : ℕ) (payload : Bytes) : PxLearner :=
  { L with engineLog := (slot, payload) :: L.engineLog }

/-- Apply a batch and move the applied frontier if the engine took it. -/
def applyAndAdvance (slot : ℕ) (payload : Bytes) (ok : Bool) : PxLearner :=
  if ok then (L.applyEntry slot payload).advanceAppliedFrontier slot else L.applyEntry slot payload

/-- The synchronous path: apply, then both frontiers. -/
def learn (entry : PxLogEntry) (ok : Bool) : PxLearner :=
  let M := (L.applyEntry entry.slot entry.payload).updateChosenFrontier entry.slot entry.term
  if ok then M.advanceAppliedFrontier entry.slot else M

/-- Start from a prefix the engine already holds. -/
def seedResumeFrontier (slot term : ℕ) : PxLearner :=
  { L with
    chosen := .seed slot
    applied := .seed slot
    lastChosenSlot := slot
    lastChosenTerm := term }

end

@[simp] lemma isChosen_iff (L : PxLearner) (slot : ℕ) :
    L.isChosen slot = true ↔ L.chosen.covers slot := by simp [isChosen]

@[simp] lemma updateChosenFrontier_covers (L : PxLearner) (s t x : ℕ) :
    (L.updateChosenFrontier s t).chosen.covers x ↔ L.chosen.covers x ∨ x = s :=
  Frontier.note_covers _ _ _

@[simp] lemma applyAndAdvance_chosen (L : PxLearner) (s : ℕ) (p : Bytes) (ok : Bool) :
    (L.applyAndAdvance s p ok).chosen = L.chosen := by
  unfold applyAndAdvance; split <;> rfl

@[simp] lemma applyAndAdvance_engineLog (L : PxLearner) (s : ℕ) (p : Bytes) (ok : Bool) :
    (L.applyAndAdvance s p ok).engineLog = (s, p) :: L.engineLog := by
  unfold applyAndAdvance; split <;> rfl

@[simp] lemma learn_covers (L : PxLearner) (e : PxLogEntry) (ok : Bool) (x : ℕ) :
    (L.learn e ok).chosen.covers x ↔ L.chosen.covers x ∨ x = e.slot := by
  unfold learn; dsimp only; split <;> exact Frontier.note_covers _ _ _

@[simp] lemma learn_engineLog (L : PxLearner) (e : PxLogEntry) (ok : Bool) :
    (L.learn e ok).engineLog = (e.slot, e.payload) :: L.engineLog := by
  unfold learn; dsimp only; split <;> rfl

/-- Every applied slot above the first boot has a batch in the engine. -/
def Backed (L : PxLearner) : Prop :=
  ∀ s, 0 < s → L.applied.covers s → ∃ p, (s, p) ∈ L.engineLog

lemma backed_fresh : Backed fresh := by
  intro s hs h
  simp [fresh] at h
  omega

lemma Backed.applyAndAdvance {L : PxLearner} (h : L.Backed) (slot : ℕ) (payload : Bytes)
    (ok : Bool) : (L.applyAndAdvance slot payload ok).Backed := by
  intro s hs hc
  rw [applyAndAdvance_engineLog]
  have hc' : L.applied.covers s ∨ s = slot := by
    unfold PxLearner.applyAndAdvance at hc
    split at hc
    · exact (Frontier.note_covers _ _ _).mp hc
    · exact .inl hc
  rcases hc' with hc' | rfl
  · obtain ⟨p, hp⟩ := h s hs hc'
    exact ⟨p, List.mem_cons_of_mem _ hp⟩
  · exact ⟨payload, List.mem_cons_self⟩

lemma Backed.learn {L : PxLearner} (h : L.Backed) (e : PxLogEntry) (ok : Bool) :
    (L.learn e ok).Backed := by
  cases ok with
  | false => exact h.applyAndAdvance e.slot e.payload false
  | true => exact h.applyAndAdvance e.slot e.payload true

/-! ## Reports in any order -/

def reportChosen (L : PxLearner) (calls : List (ℕ × ℕ)) : PxLearner :=
  calls.foldl (fun L c => L.updateChosenFrontier c.1 c.2) L

def reportApplied (L : PxLearner) (slots : List ℕ) : PxLearner :=
  slots.foldl advanceAppliedFrontier L

def lastChosen (L : PxLearner) : ℕ × ℕ := (L.lastChosenSlot, L.lastChosenTerm)

/-- A pair yields to one of a greater slot. -/
def later (p c : ℕ × ℕ) : ℕ × ℕ := if p.1 < c.1 then c else p

lemma lastChosen_reportChosen (L : PxLearner) (calls : List (ℕ × ℕ)) :
    (L.reportChosen calls).lastChosen = calls.foldl later L.lastChosen := by
  refine (List.foldl_hom lastChosen fun L c => ?_).symm
  by_cases h : L.lastChosenSlot < c.1 <;>
    simp [lastChosen, updateChosenFrontier, noteChosen, later, h]

lemma foldl_later (p : ℕ × ℕ) (calls : List (ℕ × ℕ)) :
    calls.foldl later p ∈ p :: calls ∧ ∀ c ∈ p :: calls, c.1 ≤ (calls.foldl later p).1 := by
  induction calls generalizing p with
  | nil => simp
  | cons c calls ih =>
    have := ih (later p c)
    simp only [later, List.foldl_cons] at this ⊢
    grind

section
variable (L : PxLearner) (f t : ℕ)

lemma isReached_chosen (calls : List (ℕ × ℕ)) :
    ((L.seedResumeFrontier f t).reportChosen calls).chosen.IsReached f (calls.map Prod.fst) := by
  suffices h : ((L.seedResumeFrontier f t).reportChosen calls).chosen =
      (calls.map Prod.fst).foldl .note (.seed f) from h ▸ .of_seed f _
  rw [List.foldl_map]
  exact (List.foldl_hom chosen fun _ _ => rfl).symm

lemma isReached_applied (slots : List ℕ) :
    ((L.seedResumeFrontier f t).reportApplied slots).applied.IsReached f slots := by
  suffices h : ((L.seedResumeFrontier f t).reportApplied slots).applied =
    slots.foldl .note (.seed f)
  from h ▸ .of_seed f slots
  exact (List.foldl_hom applied fun _ _ => rfl).symm

/-- For any reports behind a seeded frontier, repeated and in any order: the frontier is the end of
the longest run of reported slots, exactly the reported slots above it are out of order, and the
last chosen pair is one of the greatest slot, the seed included. A permutation of the reports ends
in the same state. -/
theorem frontiers_order_independent (calls : List (ℕ × ℕ)) (slots : List ℕ) :
    let S := L.seedResumeFrontier f t
    (S.reportChosen calls).chosen.IsReached f (calls.map Prod.fst) ∧
      (S.reportChosen calls).lastChosen ∈ (f, t) :: calls ∧
      (∀ c ∈ (f, t) :: calls, c.1 ≤ (S.reportChosen calls).lastChosen.1) ∧
      (S.reportApplied slots).applied.IsReached f slots ∧
      (∀ calls', calls.Perm calls' → (∀ a ∈ calls, ∀ b ∈ calls, a.1 = b.1 → a.2 = b.2) →
        (S.reportChosen calls).chosen.Same (S.reportChosen calls').chosen ∧
          (S.reportChosen calls).lastChosen = (S.reportChosen calls').lastChosen) ∧
      ∀ slots', slots.Perm slots' →
        (S.reportApplied slots).applied.Same (S.reportApplied slots').applied := by
  have hchosen := L.isReached_chosen f t
  have happlied := L.isReached_applied f t
  simp only [lastChosen_reportChosen]
  obtain ⟨hmem, hmax⟩ := foldl_later (f, t) calls
  refine ⟨hchosen calls, hmem, hmax, happlied slots, fun calls' hp hterm => ⟨?_, ?_⟩,
    fun slots' hp => (happlied slots).same (happlied slots') fun _ => hp.mem_iff⟩
  · exact (hchosen calls).same (hchosen calls') fun _ => (hp.map _).mem_iff
  · refine hp.foldl_eq' (fun a ha b hb p => ?_) _
    unfold later
    grind

end

theorem report_below_seed :
    ((fresh.seedResumeFrontier 5 2).reportChosen [(3, 1)]).lastChosen = (5, 2) := rfl

end PxLearner
end CrowDB.Paxos
