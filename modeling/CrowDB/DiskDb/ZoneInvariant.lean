import CrowDB.DiskDb.Zone
import CrowDB.Lib.Holding

/-!
# What a working zone keeps

A bit of the live bitmap is held by the allocation that set it, until its record is
durable, and by the compaction that is about to clear it. The held bits are exclusive, and
apart from units whose write ended with an unknown outcome they are bits of no record.
-/
namespace CrowDB.DiskDb
open Lib BitWords
open List hiding Disjoint

namespace BusyRecord

def bits (r : BusyRecord) : List ℕ := List.range' r.key.unitOffset r.value.unitCount

lemma mem_bits {r : BusyRecord} {u : ℕ} : u ∈ r.bits ↔ u ∈ r.units := by
  simp [bits, units]

lemma bits_eq_of_segment {r r' : BusyRecord} (h : r.segment = r'.segment) : r.bits = r'.bits := by
  simp only [segment, Segment.mk.injEq] at h
  rw [bits, bits, h.1, h.2.1]

end BusyRecord

section Moves

/-- Clearing ranges gives held bits back one at a time, or leaves them set. -/
theorem Sweep.step_move {verify won : Bool} {bits bits' : Finset ℕ} {s s' : Sweep}
    (h : s.step verify bits won = some (bits', s')) : HoldMove bits s.held bits' s'.held := by
  unfold Sweep.step at h
  split at h
  · split at h
    · cases h
      refine .keep ?_ (List.Subperm.refl _)
      split
      · exact Finset.subset_insert _ _
      · exact subset_rfl
    · cases h
      exact .refl
  · split at h
    · next u us htodo =>
      split at h
      · cases h
        exact .give u (by simp [held, htodo])
      · cases h
        refine .keep subset_rfl (Sublist.subperm ?_)
        simp [held]
    · next htodo =>
      split at h
      · cases h
      · next r rest hrest =>
        have hheld : s.held = r.bits ++ rest.flatMap AllocatedRange.bits := by
          simp [held, htodo, hrest]
        split at h
        · cases h
          rw [hheld]
          exact .keep subset_rfl (sublist_append_right _ _).subperm
        · cases h
          rw [hheld]
          exact .refl

namespace AllocCall

/-- The bits of a call whose write has passed the gate. -/
def admittedBits (c : AllocCall) : List ℕ :=
  match c.phase with
  | .admitted _ => c.claims.flatMap AllocatedRange.bits
  | _ => []

/-- The ranges of a call are inside the zone, and its records are those of its claims. -/
structure Ok (cfg : ZoneConfig) (c : AllocCall) : Prop where
  claims : ∀ r ∈ c.claims, 0 < r.unitCount ∧ r.unitOffset + r.unitCount ≤ cfg.unitCapacity
  phase : match c.phase with
    | .claiming r done => done < r.unitCount ∧ r.unitOffset + r.unitCount ≤ cfg.unitCapacity
    | .ready xs => xs.map (fun x => ⟨x.1, x.2.unitCount⟩) = c.claims
    | .admitted xs => xs.map (fun x => ⟨x.1, x.2.unitCount⟩) = c.claims
    | .rollback _ => c.claims = []
    | _ => True

lemma length_nextAllocationTs (last : ℕ) (clock : List ℕ) :
    (nextAllocationTs last clock).length = clock.length := by
  induction clock generalizing last with
  | nil => rfl
  | cons _ _ ih => simp [nextAllocationTs, ih]

/-- The records of the claims have the ranges of the claims. -/
theorem map_records (cfg : ZoneConfig) (c : AllocCall) {stamps : List ℕ}
    (h : stamps.length = c.claims.length) :
    (c.records cfg stamps).map (fun x => (⟨x.1, x.2.unitCount⟩ : AllocatedRange)) = c.claims := by
  rw [records, map_zipWith, ← map_uncurry_zip_eq_zipWith]
  exact map_fst_zip h.ge

variable {cfg : ZoneConfig} {c c' : AllocCall} {bits bits' : Finset ℕ} {lastTs lastTs' : ℕ}
  {a : AllocAction}

lemma ok_rollBack : c.rollBack.Ok cfg := ⟨by simp [rollBack], rfl⟩

lemma held_rollBack : c.rollBack.held.Subperm c.held := by
  refine Sublist.subperm ?_
  simp [rollBack, held, Sweep.held]

/-- What a step of an allocation in memory can do. -/
inductive Moves (cfg : ZoneConfig) (bits : Finset ℕ) (lastTs : ℕ) (c : AllocCall) :
    AllocAction → Finset ℕ → ℕ → AllocCall → Prop
  | tryRange (range : AllocatedRange) (hphase : c.phase = .idle)
    (hin : 0 < range.unitCount ∧ range.unitOffset + range.unitCount ≤ cfg.unitCapacity) :
    Moves cfg bits lastTs c (.tryRange range) bits lastTs { c with phase := .claiming range 0 }
  | claim {won : Bool} {range : AllocatedRange} {done : ℕ} (hphase : c.phase = .claiming range done)
    (hfree : range.unitOffset + done ∉ bits) (hmore : done + 1 ≠ range.unitCount) :
    Moves cfg bits lastTs c (.casBit won) (insert (range.unitOffset + done) bits) lastTs
      { c with phase := .claiming range (done + 1) }
  | claimLast {won : Bool} {range : AllocatedRange} {done : ℕ}
    (hphase : c.phase = .claiming range done)
    (hfree : range.unitOffset + done ∉ bits) (hlast : done + 1 = range.unitCount) :
    Moves cfg bits lastTs c (.casBit won) (insert (range.unitOffset + done) bits) lastTs
      { c with claims := c.claims ++ [range], phase := .idle }
  | lose {won : Bool} {range : AllocatedRange} {done : ℕ}
    (hphase : c.phase = .claiming range done) :
    Moves cfg bits lastTs c (.casBit won) bits lastTs
      { c with phase := .undoing (List.range' range.unitOffset done) }
  | undo {u : ℕ} {us : List ℕ} (won : Bool) (hphase : c.phase = .undoing (u :: us)) :
    Moves cfg bits lastTs c (.undoBit won) (if won then bits.erase u else bits) lastTs
      { c with phase := .undoing us }
  | undone {won : Bool} (hphase : c.phase = .undoing []) :
    Moves cfg bits lastTs c (.undoBit won) bits lastTs { c with phase := .idle }
  | stamp (clock : List ℕ) (hphase : c.phase = .idle) (hclock : clock.length = c.claims.length) :
    Moves cfg bits lastTs c (.stamp clock) bits
      ((nextAllocationTs lastTs clock).getLast?.getD lastTs)
      { c with phase := .ready (c.records cfg (nextAllocationTs lastTs clock)) }
  | giveUp (hphase : c.phase = .idle) : Moves cfg bits lastTs c .giveUp bits lastTs c.rollBack
  | sweep {sweep sweep' : Sweep} {bits' : Finset ℕ} {won : Bool}
    (hphase : c.phase = .rollback sweep) (hs : sweep.step true bits won = some (bits', sweep')) :
    Moves cfg bits lastTs c (.sweep won) bits' lastTs { c with phase := .rollback sweep' }

lemma moves_of_step (h : c.step cfg bits lastTs a = some (bits', lastTs', c')) :
    Moves cfg bits lastTs c a bits' lastTs' c' := by
  cases a with
  | tryRange range =>
    simp only [step] at h
    split at h
    · next hphase =>
      split at h
      · next hin =>
        cases h
        exact .tryRange range hphase hin
      · cases h
    · cases h
  | casBit =>
    simp only [step] at h
    split at h
    · next range done hphase =>
      split at h
      · next hfree =>
        split at h
        · next hlast =>
          cases h
          exact .claimLast hphase hfree.2 hlast
        · next hmore =>
          cases h
          exact .claim hphase hfree.2 hmore
      · cases h
        exact .lose hphase
    · cases h
  | undoBit won =>
    simp only [step] at h
    split at h
    · next hphase =>
      cases h
      exact .undone hphase
    · next u us hphase =>
      cases h
      exact .undo won hphase
    · cases h
  | stamp clock =>
    simp only [step] at h
    split at h
    · next hphase =>
      split at h
      · next hclock =>
        cases h
        exact .stamp clock hphase hclock.2
      · cases h
    · cases h
  | giveUp =>
    simp only [step] at h
    split at h
    · next hphase =>
      cases h
      exact .giveUp hphase
    · cases h
  | sweep =>
    simp only [step] at h
    split at h
    · next s hphase =>
      obtain ⟨⟨b, s'⟩, hs, hx⟩ := Option.map_eq_some_iff.mp h
      cases hx
      exact .sweep hphase hs
    · cases h

namespace Moves

section
variable (h : Moves cfg bits lastTs c a bits' lastTs' c')
include h

/-- Bits move between the call and the pool. -/
theorem hold (hok : c.Ok cfg) : HoldMove bits c.held bits' c'.held := by
  cases h with
  | tryRange =>
    refine .keep subset_rfl (Sublist.subperm ?_)
    simp [held]
  | claim hphase hfree =>
    refine .take _ hfree ?_
    simp only [held, hphase, range'_concat, one_mul]
    rw [← append_assoc]
    exact perm_append_singleton _ _
  | @claimLast _ range done hphase hfree hlast =>
    refine .take _ hfree ?_
    have hbits : range.bits = range' range.unitOffset done ++ [range.unitOffset + done] := by
      rw [AllocatedRange.bits, ← hlast, range'_concat, one_mul]
    simp only [held, hphase, flatMap_append, flatMap_cons, flatMap_nil,
      append_nil, hbits]
    rw [← append_assoc]
    exact perm_append_singleton _ _
  | lose hphase =>
    refine .keep subset_rfl (Perm.subperm ?_)
    simp [held, hphase]
  | @undo u _ won hphase =>
    cases won with
    | true =>
      refine .give u ?_
      simp only [held, hphase]
      exact perm_middle
    | false =>
      refine .keep subset_rfl (Sublist.subperm ?_)
      simp only [held, hphase]
      exact Sublist.append_left (sublist_cons_self _ _) _
  | undone =>
    refine .keep subset_rfl (Sublist.subperm ?_)
    simp [held]
  | stamp =>
    refine .keep subset_rfl (Sublist.subperm ?_)
    simp [held]
  | giveUp => exact .keep subset_rfl held_rollBack
  | sweep hphase hs =>
    have hclaims : c.claims = [] := by simpa [hphase] using hok.phase
    simpa [held, hphase, hclaims] using Sweep.step_move hs

/-- Steps in memory are those of calls without an admitted write. -/
theorem admittedBits_eq : c'.admittedBits = [] := by
  cases h <;> rfl

lemma ok (hok : c.Ok cfg) : c'.Ok cfg := by
  cases h with
  | tryRange _ _ hin => exact ⟨hok.claims, hin⟩
  | claim hphase =>
    have hrange := hok.phase
    simp only [hphase] at hrange
    exact ⟨hok.claims, by simp only; omega⟩
  | claimLast hphase =>
    have hrange := hok.phase
    simp only [hphase] at hrange
    exact ⟨forall_mem_concat hok.claims ⟨by omega, hrange.2⟩, trivial⟩
  | lose => exact ⟨hok.claims, trivial⟩
  | undo => exact ⟨hok.claims, trivial⟩
  | undone => exact ⟨hok.claims, trivial⟩
  | stamp _ _ hclock =>
    exact ⟨hok.claims, map_records cfg c ((length_nextAllocationTs _ _).trans hclock)⟩
  | giveUp => exact ok_rollBack
  | sweep hphase =>
    have hclaims : c.claims = [] := by simpa [hphase] using hok.phase
    exact ⟨hok.claims, hclaims⟩

end

end Moves

end AllocCall
end Moves

section Invariant

namespace ZoneMemory

/-- The bits that are held in memory: by allocations, and by the compaction. -/
def held (m : ZoneMemory) : List ℕ := m.allocs.flatMap AllocCall.held ++ m.compaction.held

/-- The bits of writes that have passed the gate. -/
def admittedBits (m : ZoneMemory) : List ℕ := m.allocs.flatMap AllocCall.admittedBits

end ZoneMemory

/-- The busy records are inside the zone and disjoint. -/
structure BusyOk (cfg : ZoneConfig) (busy : List BusyRecord) : Prop where
  keyed : ∀ r ∈ busy, r.key = cfg.busyKey r.key.unitOffset
  sized : ∀ r ∈ busy, 0 < r.value.unitCount ∧
    r.key.unitOffset + r.value.unitCount ≤ cfg.unitCapacity
  apart : (busy.flatMap BusyRecord.bits).Nodup

/-- Each busy record is in the journal, and the snapshot covers those that are not newer. -/
structure StoreOk (cfg : ZoneConfig) (st : ZoneStore) : Prop where
  busy : BusyOk cfg st.busy
  slots : ∀ r ∈ st.busy, 0 < r.commitSlot ∧ r.commitSlot ≤ st.slot
  logged : ∀ r ∈ st.busy, .put r ∈ st.journal
  snapshot : (st.snapshot.getD {}).snapshotSlot ≤ st.slot
  covered : ∀ r ∈ st.busy, r.commitSlot ≤ (st.snapshot.getD {}).snapshotSlot →
    r.units ⊆ (st.snapshot.getD {}).bits
  free_keyed : ∀ f ∈ st.free, f.key = cfg.freeKey f.segment
  free_nodup : (st.free.map FreeRecord.key).Nodup

/-- Free facts were requested; a returned segment has its record until its free is
requested, and such segments are disjoint. -/
structure LedgerOk (s : ZoneState) : Prop where
  requested : ∀ f ∈ s.store.free, f.segment ∈ s.freeRequested
  present : ∀ g ∈ s.returned, g ∉ s.freeRequested → ∃ r ∈ s.store.busy, r.segment = g
  apart : (s.returned.filter (· ∉ s.freeRequested)).Pairwise fun a b => Disjoint a.units b.units

/-- A plan is about records that are still there. -/
structure PlanOk (cfg : ZoneConfig) (st : ZoneStore) (requested : List Segment)
    (plan : CompactionPlan) : Prop where
  cutoff : plan.cutoff ≤ st.slot
  keys : plan.busyKeys = plan.matched.map fun f => cfg.busyKey f.key.unitOffset
  present : ∀ f ∈ plan.matched, ∃ r ∈ st.busy, r.segment = f.segment
  nodup : (plan.matched.map fun f => f.key.unitOffset).Nodup
  requested : ∀ f ∈ plan.matched, f.segment ∈ requested

/-- What each phase of a compaction knows; `lost` are the units of writes with an unknown
outcome, which the bitmap may no longer have. -/
def Compaction.Ok (cfg : ZoneConfig) (st : ZoneStore) (requested : List Segment)
    (lost : Finset ℕ) : Compaction → Prop
  | .idle => True
  | .freeScanned free cutoff => cutoff ≤ st.slot ∧ (free.map FreeRecord.key).Nodup ∧
    ∀ f ∈ free, f.key = cfg.freeKey f.segment ∧ f.segment ∈ requested
  | .copying plan word bits => PlanOk cfg st requested plan ∧
    ∀ r ∈ st.busy, r.commitSlot ≤ plan.cutoff → ∀ u ∈ r.bits, u / 64 < word → u ∈ bits ∨ u ∈ lost
  | .prepared plan bits => PlanOk cfg st requested plan ∧
    ∀ r ∈ st.busy, r.commitSlot ≤ plan.cutoff → r.key ∉ plan.busyKeys →
      ∀ u ∈ r.bits, u ∈ bits ∨ u ∈ lost
  | .admitted plan bits => PlanOk cfg st requested plan ∧
    (∀ r ∈ st.busy, r.commitSlot ≤ plan.cutoff → r.key ∉ plan.busyKeys → ∀ u ∈ r.bits, u ∈ bits) ∧
    ∀ r ∈ st.busy, r.key ∈ plan.busyKeys → ∀ u ∈ r.bits, u ∉ lost
  | .publishing .. => True

/-- The value that a mark has read is that of the record with the revision it has read. -/
def MarksOk (st : ZoneStore) (marks : List MarkCall) : Prop :=
  ∀ c ∈ marks, ∀ v revision, c.read = some (v, revision) →
    c.segment.isHeldBy v = true ∧ revision ≤ st.slot ∧
      ∀ r ∈ st.busy, r.key.unitOffset = c.segment.unitOffset → r.commitSlot = revision → r.value = v

def FreesOk (requested : List Segment) (frees : List FreeCall) : Prop :=
  ∀ c ∈ frees, ∀ x ∈ c.records, x.1 ∈ requested

/-- What the memory knows about the records. Only a closed gate allows for lost units. -/
structure MemoryOk (cfg : ZoneConfig) (st : ZoneStore) (requested : List Segment)
    (m : ZoneMemory) (lost : Finset ℕ) : Prop where
  gate : lost = ∅ ∨ m.gateClosed = true
  covers : ∀ r ∈ st.busy, ∀ u ∈ r.bits, u ∈ m.bits ∨ u ∈ lost
  holds : Holds m.bits m.held
  held_free : ∀ u ∈ m.held, ∀ r ∈ st.busy, u ∈ r.bits → u ∈ lost
  admitted_free : ∀ u ∈ m.admittedBits, ∀ r ∈ st.busy, u ∉ r.bits
  allocs : ∀ c ∈ m.allocs, c.Ok cfg
  marks : MarksOk st m.marks
  frees : FreesOk requested m.frees
  compaction : m.compaction.Ok cfg st requested lost

structure ZoneInv (cfg : ZoneConfig) (s : ZoneState) : Prop where
  store : StoreOk cfg s.store
  ledger : LedgerOk s
  memory : ∀ m, s.memory = some m → ∃ lost, MemoryOk cfg s.store s.freeRequested m lost

end Invariant

end CrowDB.DiskDb
