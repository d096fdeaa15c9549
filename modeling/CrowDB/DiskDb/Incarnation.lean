import CrowDB.DiskDb.ZoneInvariant

/-!
# Incarnations of a location

An incarnation is a segment together with the timestamp of its allocation. `ZoneEffect` says
what a step can do to the incarnations that have a record: keep them, issue timestamps for an
allocation, write the records of an allocation, or consolidate a free. None of these destroys
the record of another incarnation, or brings one back whose free was consolidated.
-/
namespace CrowDB.DiskDb
open Lib BitWords List

section Stamps

/-- The timestamps of an allocation that is not written yet. -/
def AllocCall.stamps (c : AllocCall) : List ℕ :=
  match c.phase with
  | .ready xs => xs.map fun x => x.2.allocationTs
  | .admitted xs => xs.map fun x => x.2.allocationTs
  | _ => []

section
variable (last : ℕ) (clock : List ℕ)
include last clock

lemma le_getLast_nextAllocationTs : last ≤ (nextAllocationTs last clock).getLast?.getD last := by
  induction clock generalizing last with
  | nil => exact le_rfl
  | cons now _ ih =>
    have hrest := ih (max now (last + 1))
    rw [nextAllocationTs, getLast?_cons, Option.getD_some]
    omega

lemma nextAllocationTs_le :
    ∀ ts ∈ nextAllocationTs last clock, ts ≤ (nextAllocationTs last clock).getLast?.getD last := by
  induction clock generalizing last with
  | nil => simp [nextAllocationTs]
  | cons _ _ ih =>
    intro ts hts
    rw [nextAllocationTs, getLast?_cons]
    rcases mem_cons.mp hts with rfl | hts
    · exact le_getLast_nextAllocationTs _ _
    · exact ih _ ts hts

lemma lt_nextAllocationTs : ∀ ts ∈ nextAllocationTs last clock, last < ts := by
  induction clock generalizing last with
  | nil => simp [nextAllocationTs]
  | cons _ _ ih =>
    intro ts hts
    rcases mem_cons.mp hts with rfl | hts
    · omega
    · have hlt := ih _ ts hts
      omega

lemma nodup_nextAllocationTs : (nextAllocationTs last clock).Nodup := by
  induction clock generalizing last with
  | nil => exact nodup_nil
  | cons _ _ ih =>
    refine nodup_cons.mpr ⟨fun hmem => ?_, ih _⟩
    exact lt_irrefl _ (lt_nextAllocationTs _ _ _ hmem)

end

/-- The records of the claims carry the timestamps, in order. -/
theorem AllocCall.map_records_ts (cfg : ZoneConfig) (c : AllocCall) {stamps : List ℕ}
    (h : stamps.length = c.claims.length) :
    (c.records cfg stamps).map (fun x => x.2.allocationTs) = stamps := by
  rw [records, map_zipWith, ← map_uncurry_zip_eq_zipWith]
  exact map_snd_zip h.le

end Stamps

section Effect

variable {s : ZoneState}

namespace ZoneState

/-- The incarnations that have a busy record. -/
def incarnations (s : ZoneState) : List Segment := s.store.busy.map BusyRecord.segment

/-- The timestamps of allocations that are not written yet. -/
def inflight (s : ZoneState) : List ℕ :=
  match s.memory with
  | none => []
  | some m => m.allocs.flatMap AllocCall.stamps

lemma inflight_of_memory {m : ZoneMemory} (h : s.memory = some m) :
    s.inflight = m.allocs.flatMap AllocCall.stamps := by
  simp [inflight, h]

lemma mem_incarnations {g : Segment} :
    g ∈ s.incarnations ↔ ∃ r ∈ s.store.busy, r.segment = g := mem_map

end ZoneState

/-- What a step can do to the incarnations with a record; `freed` are those whose free it
consolidates. -/
inductive ZoneEffect (s : ZoneState) (freed : List Segment) (t : ZoneState) : Prop
  | keep (hinc : ∀ g, g ∈ t.incarnations ↔ g ∈ s.incarnations)
    (hcons : t.consolidated = s.consolidated) (hflight : t.inflight.Subperm s.inflight)
    (hissued : s.issuedTs ≤ t.issuedTs)
  | issue (stamps : List ℕ) (hinc : t.incarnations = s.incarnations)
    (hcons : t.consolidated = s.consolidated) (hflight : t.inflight.Perm (stamps ++ s.inflight))
    (hnodup : stamps.Nodup) (hlater : ∀ ts ∈ stamps, s.issuedTs < ts ∧ ts ≤ t.issuedTs)
    (hissued : s.issuedTs ≤ t.issuedTs)
  | write (segments : List Segment) (hinc : t.incarnations = s.incarnations ++ segments)
    (hcons : t.consolidated = s.consolidated)
    (hflight : s.inflight.Perm (segments.map Segment.allocationTs ++ t.inflight))
    (hissued : t.issuedTs = s.issuedTs)
  | consolidate (hsub : freed ⊆ s.incarnations) (hreq : freed ⊆ s.freeRequested)
    (hinc : ∀ g, g ∈ t.incarnations ↔ g ∈ s.incarnations ∧ g ∉ freed)
    (hcons : t.consolidated = s.consolidated ++ freed) (hflight : t.inflight = s.inflight)
    (hissued : t.issuedTs = s.issuedTs)

/-- The timestamps tell the incarnations apart, also from those to come and those that are
gone. -/
structure StampsOk (s : ZoneState) : Prop where
  unique : ∀ g ∈ s.incarnations, ∀ g' ∈ s.incarnations, g.allocationTs = g'.allocationTs → g = g'
  nodup : s.inflight.Nodup
  fresh : ∀ g, g ∈ s.incarnations ∨ g ∈ s.consolidated → g.allocationTs ∉ s.inflight
  gone : ∀ g ∈ s.consolidated, ∀ g' ∈ s.incarnations, g'.allocationTs ≠ g.allocationTs
  issued : ∀ g, g ∈ s.incarnations ∨ g ∈ s.consolidated → g.allocationTs ≤ s.issuedTs
  issued_inflight : ∀ ts ∈ s.inflight, ts ≤ s.issuedTs

section
variable {t : ZoneState} {freed : List Segment} (e : ZoneEffect s freed t)
include e

/-- An incarnation loses its record only when its free is consolidated. -/
theorem ZoneEffect.kept {g : Segment} (hg : g ∈ s.incarnations) : g ∈ t.incarnations ∨
    g ∈ freed ∧ g ∈ s.freeRequested ∧ g ∈ t.consolidated := by
  cases e with
  | keep hinc => exact .inl ((hinc g).mpr hg)
  | issue _ hinc => exact .inl (hinc ▸ hg)
  | write _ hinc => exact .inl (hinc ▸ mem_append_left _ hg)
  | consolidate _ hreq hinc hcons =>
    by_cases hfreed : g ∈ freed
    · exact .inr ⟨hfreed, hreq hfreed, hcons ▸ mem_append_right _ hfreed⟩
    · exact .inl ((hinc g).mpr ⟨hg, hfreed⟩)

lemma ZoneEffect.consolidated_subset : s.consolidated ⊆ t.consolidated := by
  cases e with
  | consolidate _ _ _ hcons => exact hcons ▸ subset_append_left _ _
  | keep _ hcons | issue _ _ hcons | write _ _ hcons => exact hcons ▸ Subset.refl _

lemma ZoneEffect.stampsOk (h : StampsOk s) : StampsOk t := by
  cases e with
  | keep hinc hcons hflight hissued =>
    refine ⟨fun g hg g' hg' => h.unique g ((hinc g).mp hg) g' ((hinc g').mp hg'), ?_,
      fun g hg hts => ?_, fun g hg g' hg' => ?_, fun g hg => ?_, fun ts hts => ?_⟩
    · obtain ⟨l, hl, hsub⟩ := hflight
      exact hl.nodup_iff.mp (h.nodup.sublist hsub)
    · rw [hinc, hcons] at hg
      exact h.fresh g hg (hflight.subset hts)
    · exact h.gone g (hcons ▸ hg) g' ((hinc g').mp hg')
    · rw [hinc, hcons] at hg
      exact (h.issued g hg).trans hissued
    · exact (h.issued_inflight ts (hflight.subset hts)).trans hissued
  | issue _ hinc hcons hflight hnodup hlater hissued =>
    refine ⟨hinc ▸ h.unique, ?_, fun g hg hts => ?_, hinc ▸ hcons ▸ h.gone, fun g hg => ?_,
      fun ts hts => ?_⟩
    · rw [hflight.nodup_iff, nodup_append]
      refine ⟨hnodup, h.nodup, ?_⟩
      rintro ts hts _ hts' rfl
      exact absurd (h.issued_inflight ts hts') (not_le.mpr (hlater ts hts).1)
    · rw [hinc, hcons] at hg
      rcases mem_append.mp (hflight.mem_iff.mp hts) with hts | hts
      · exact absurd (h.issued g hg) (not_le.mpr (hlater _ hts).1)
      · exact h.fresh g hg hts
    · rw [hinc, hcons] at hg
      exact (h.issued g hg).trans hissued
    · rcases mem_append.mp (hflight.mem_iff.mp hts) with hts | hts
      · exact (hlater ts hts).2
      · exact (h.issued_inflight ts hts).trans hissued
  | write segments hinc hcons hflight hissued =>
    have hnodup := hflight.nodup_iff.mp h.nodup
    rw [nodup_append] at hnodup
    have hnew : ∀ g ∈ segments, g.allocationTs ∈ s.inflight := fun g hg =>
      hflight.mem_iff.mpr (mem_append_left _ (mem_map_of_mem hg))
    refine ⟨fun g hg g' hg' heq => ?_, hnodup.2.1, fun g hg hts => ?_, fun g hg g' hg' heq => ?_,
      fun g hg => ?_, fun ts hts => ?_⟩
    · rw [hinc, mem_append] at hg hg'
      rcases hg with hg | hg <;> rcases hg' with hg' | hg'
      · exact h.unique g hg g' hg' heq
      · exact absurd (heq ▸ hnew g' hg') (h.fresh g (.inl hg))
      · exact absurd (heq ▸ hnew g hg) (h.fresh g' (.inl hg'))
      · exact inj_on_of_nodup_map hnodup.1 hg hg' heq
    · rw [hinc, hcons, mem_append] at hg
      rcases hg with (hg | hg) | hg
      · exact h.fresh g (.inl hg) (hflight.mem_iff.mpr (mem_append_right _ hts))
      · exact hnodup.2.2 _ (mem_map_of_mem hg) _ hts rfl
      · exact h.fresh g (.inr hg) (hflight.mem_iff.mpr (mem_append_right _ hts))
    · rw [hcons] at hg
      rw [hinc, mem_append] at hg'
      rcases hg' with hg' | hg'
      · exact h.gone g hg g' hg' heq
      · exact h.fresh g (.inr hg) (heq ▸ hnew g' hg')
    · rw [hinc, hcons, mem_append] at hg
      rw [hissued]
      rcases hg with (hg | hg) | hg
      · exact h.issued g (.inl hg)
      · exact h.issued_inflight _ (hnew g hg)
      · exact h.issued g (.inr hg)
    · rw [hissued]
      exact h.issued_inflight ts (hflight.mem_iff.mpr (mem_append_right _ hts))
  | consolidate hsub _ hinc hcons hflight hissued =>
    have hold : ∀ g, g ∈ t.incarnations ∨ g ∈ t.consolidated →
        g ∈ s.incarnations ∨ g ∈ s.consolidated := by
      intro g hg
      rw [hinc, hcons, mem_append] at hg
      rcases hg with hg | hg | hg
      · exact .inl hg.1
      · exact .inr hg
      · exact .inl (hsub hg)
    refine ⟨fun g hg g' hg' => h.unique g ((hinc g).mp hg).1 g' ((hinc g').mp hg').1,
      hflight ▸ h.nodup, fun g hg => hflight ▸ h.fresh g (hold g hg), fun g hg g' hg' heq => ?_,
      fun g hg => hissued ▸ h.issued g (hold g hg), hflight ▸ hissued ▸ h.issued_inflight⟩
    obtain ⟨hg', hkept⟩ := (hinc g').mp hg'
    rw [hcons, mem_append] at hg
    rcases hg with hg | hg
    · exact h.gone g hg g' hg' heq
    · exact hkept (h.unique g' hg' g (hsub hg) heq ▸ hg)

end

end Effect

section Steps
variable {cfg : ZoneConfig} {s t : ZoneState} {m : ZoneMemory} {k : ℕ} {freed : List Segment}

/-- The frees that the batch of a compaction consolidates. -/
def ZoneState.consolidates (s : ZoneState) : ZoneAction → List Segment
  | .writeCompaction o => match s.memory.map ZoneMemory.compaction with
    | some (.admitted plan _) => if o.applied then plan.matched.map FreeRecord.segment else []
    | _ => []
  | _ => []

/-- The timestamps of an allocation are later than all that were issued before. -/
def ZoneState.stampsLater (s : ZoneState) : ZoneAction → Bool
  | .alloc _ (.stamp clock) => s.memory.all fun m =>
      (nextAllocationTs m.lastTs clock).all fun ts => s.issuedTs < ts
  | _ => true

namespace ZoneEffect

/-- A step that leaves the busy records alone and starts no allocation. -/
theorem of_busy (hbusy : t.store.busy = s.store.busy) (hcons : t.consolidated = s.consolidated)
    (hissued : t.issuedTs = s.issuedTs) (hflight : t.inflight.Subperm s.inflight) :
    ZoneEffect s freed t :=
  .keep (fun g => by rw [ZoneState.incarnations, ZoneState.incarnations, hbusy]) hcons hflight
    hissued.ge

/-- A step that leaves the records and the allocations alone. -/
theorem frame (hm : s.memory = some m) {m' : ZoneMemory} (hallocs : m'.allocs = m.allocs) :
    ZoneEffect s freed (s.setMemory m') := by
  refine of_busy rfl rfl rfl ?_
  rw [ZoneState.inflight_of_memory hm, ← hallocs]
  exact Subperm.refl _

end ZoneEffect

/-- Only the stamp of a call issues timestamps, and a call has none before. -/
theorem AllocCall.Moves.stamps {c c' : AllocCall} {bits bits' : Finset ℕ} {lastTs lastTs' : ℕ}
    {a : AllocAction} (h : Moves cfg bits lastTs c a bits' lastTs' c') : c.stamps = [] ∧
      (c'.stamps = [] ∨ ∃ clock, a = .stamp clock ∧ c'.stamps = nextAllocationTs lastTs clock ∧
        lastTs' = (nextAllocationTs lastTs clock).getLast?.getD lastTs) := by
  cases h with
  | stamp clock hphase hclock =>
    refine ⟨by simp [AllocCall.stamps, hphase], .inr ⟨clock, rfl, ?_, rfl⟩⟩
    exact map_records_ts cfg c ((length_nextAllocationTs _ _).trans hclock)
  | _ => exact ⟨by simp only [AllocCall.stamps, *], .inl rfl⟩

lemma ZoneState.perm_inflight {c : AllocCall} (hm : s.memory = some m)
    (hk : m.allocs[k]? = some c) :
    s.inflight.Perm (c.stamps ++ (m.allocs.eraseIdx k).flatMap AllocCall.stamps) := by
  rw [inflight_of_memory hm]
  exact perm_flatMap_eraseIdx AllocCall.stamps hk

end Steps

end CrowDB.DiskDb
