import CrowDB.Wal.Replay
import Mathlib.Data.List.MinMax

/-!
# Garbage collection of segments

A segment goes when all its slots are below the watermark, except for the one
that proves the highest term and the one that holds the latest vote. So what is
collected loses no slot at or above the watermark, and for every record that
goes one of no lower term stays.
-/
namespace CrowDB.Wal
open Paxos List

namespace WalSegment

/-- Slot 0 stands for "no slot", so a segment of votes has maximum 0. -/
def maxSlot (g : WalSegment) : ℕ := (g.records.map (·.slot)).max?.getD 0

def maxTerm (g : WalSegment) : ℕ := (g.records.map (·.term)).max?.getD 0

def voteTerm (g : WalSegment) : Option ℕ :=
  ((g.records.filter (·.recordType = .voteGranted)).map (·.term)).max?

end WalSegment

/-- The segment that proves the highest term, and the one with the latest vote. -/
def termSegment (indexed : List WalSegment) : Option WalSegment :=
  indexed.argmax fun g => toLex (g.maxTerm, g.segmentId)

def voteSegment (indexed : List WalSegment) : Option WalSegment :=
  (indexed.filter (·.voteTerm.isSome)).argmax fun g => toLex (g.voteTerm.getD 0, g.segmentId)

/-- Whether a pass with this watermark tries to unlink the segment. -/
def eligible (gcSlot : ℕ) (segs : List WalSegment) (g : WalSegment) : Bool :=
  g.indexed && 0 < g.maxSlot && g.maxSlot < gcSlot &&
    (termSegment (segs.filter (·.indexed))).all (·.segmentId != g.segmentId) &&
    (voteSegment (segs.filter (·.indexed))).all (·.segmentId != g.segmentId)

/-- One pass; `unlinkFails` lists the ids whose file could not be removed. -/
def runGcWithWatermark (gcSlot : ℕ) (unlinkFails : List ℕ) (segs : List WalSegment) :
    List WalSegment :=
  if gcSlot = 0 then segs
  else segs.filter fun g => !eligible gcSlot segs g || decide (g.segmentId ∈ unlinkFails)

section Kept
variable {gcSlot : ℕ} {fails : List ℕ} {segs : List WalSegment} {g : WalSegment}

lemma runGc_sub (h : g ∈ runGcWithWatermark gcSlot fails segs) : g ∈ segs := by
  unfold runGcWithWatermark at h
  split at h
  · exact h
  · exact (mem_filter.mp h).1

section
variable (hg : g ∈ segs) (h : g ∉ runGcWithWatermark gcSlot fails segs)
include hg h

/-- What a pass removes was eligible. -/
theorem eligible_of_collected : eligible gcSlot segs g = true := by
  unfold runGcWithWatermark at h
  split at h
  · exact absurd hg h
  · simp only [mem_filter, hg, true_and, Bool.or_eq_true, not_or] at h
    simpa using h.1

variable {r : WALRecord}

lemma slot_lt_of_collected (hr : r ∈ g.records) : r.slot < gcSlot := by
  have he := eligible_of_collected hg h
  simp only [eligible, Bool.and_eq_true, decide_eq_true_eq] at he
  have hle : r.slot ≤ g.maxSlot := le_max?_getD_of_mem (mem_map_of_mem hr)
  omega

/-- Only indexed segments are collected. -/
theorem indexed_of_collected : g ∈ segs.filter (·.indexed) := by
  have he := eligible_of_collected hg h
  simp only [eligible, Bool.and_eq_true] at he
  exact mem_filter.mpr ⟨hg, he.1.1.1.1⟩

end

lemma termSegment_kept {k : WalSegment} (hk : termSegment (segs.filter (·.indexed)) = some k) :
    k ∈ runGcWithWatermark gcSlot fails segs := by
  have hks : k ∈ segs := (mem_filter.mp (argmax_mem hk)).1
  by_contra h
  have he := eligible_of_collected hks h
  simp [eligible, hk] at he

lemma voteSegment_kept {k : WalSegment} (hk : voteSegment (segs.filter (·.indexed)) = some k) :
    k ∈ runGcWithWatermark gcSlot fails segs := by
  have hki : k ∈ segs.filter (·.indexed) := (mem_filter.mp (argmax_mem hk)).1
  have hks : k ∈ segs := (mem_filter.mp hki).1
  by_contra h
  have he := eligible_of_collected hks h
  simp [eligible, hk] at he

/-- Of some segments, the one with the greatest key; among equals, the latest. -/
theorem exists_argmax {f : WalSegment → ℕ} (hg : g ∈ segs) : ∃ k ∈ segs,
    segs.argmax (fun g => toLex (f g, g.segmentId)) = some k ∧
      (f g < f k ∨ f g = f k ∧ g.segmentId ≤ k.segmentId) := by
  cases hk : segs.argmax (fun g => toLex (f g, g.segmentId)) with
  | none =>
    rw [argmax_eq_none.mp hk] at hg
    exact absurd hg not_mem_nil
  | some k => exact ⟨k, argmax_mem hk, rfl, Prod.Lex.toLex_le_toLex.mp (le_of_mem_argmax hg hk)⟩

lemma exists_vote {t : ℕ} (h : g.voteTerm = some t) :
    ∃ x ∈ g.records, x.recordType = .voteGranted ∧ x.term = t := by
  obtain ⟨x, hx, ht⟩ := mem_map.mp (max?_mem h)
  obtain ⟨hxg, hxv⟩ := mem_filter.mp hx
  exact ⟨x, hxg, by simpa using hxv, ht⟩

lemma exists_voteTerm (hr : r ∈ g.records) (hv : r.recordType = .voteGranted) :
    ∃ t, g.voteTerm = some t ∧ r.term ≤ t := by
  have hmem : r.term ∈ (g.records.filter (·.recordType = .voteGranted)).map (·.term) :=
    mem_map_of_mem (mem_filter.mpr ⟨hr, by simpa using hv⟩)
  cases h : g.voteTerm with
  | none =>
    rw [max?_eq_none_iff.mp h] at hmem
    exact absurd hmem not_mem_nil
  | some t => exact ⟨t, rfl, (max?_eq_some_iff.mp h).2 _ hmem⟩

variable (gcSlot fails)

/-- For a record of positive term that goes, one of no lower term stays. -/
theorem term_kept (hg : g ∈ segs) (hr : r ∈ g.records) (ht : 0 < r.term) :
    ∃ k ∈ runGcWithWatermark gcSlot fails segs, ∃ x ∈ k.records, r.term ≤ x.term := by
  by_cases h : g ∈ runGcWithWatermark gcSlot fails segs
  · exact ⟨g, h, r, hr, le_rfl⟩
  obtain ⟨k, -, hk, hmax⟩ := exists_argmax (f := WalSegment.maxTerm) (indexed_of_collected hg h)
  have hrt : r.term ≤ g.maxTerm := le_max?_getD_of_mem (mem_map_of_mem hr)
  refine ⟨k, termSegment_kept hk, ?_⟩
  cases hm : (k.records.map (·.term)).max? with
  | none =>
    have hz : k.maxTerm = 0 := by simp [WalSegment.maxTerm, hm]
    omega
  | some =>
    obtain ⟨x, hx, rfl⟩ := mem_map.mp (max?_mem hm)
    have hz : k.maxTerm = x.term := by simp [WalSegment.maxTerm, hm]
    exact ⟨x, hx, by omega⟩

/-- For a vote that goes, one of no lower term stays. -/
theorem vote_kept (hg : g ∈ segs) (hr : r ∈ g.records) (hv : r.recordType = .voteGranted) :
    ∃ k ∈ runGcWithWatermark gcSlot fails segs, ∃ x ∈ k.records,
      x.recordType = .voteGranted ∧ r.term ≤ x.term := by
  by_cases h : g ∈ runGcWithWatermark gcSlot fails segs
  · exact ⟨g, h, r, hr, hv, le_rfl⟩
  obtain ⟨t, hgt, hrt⟩ := exists_voteTerm hr hv
  have hgv : g ∈ (segs.filter (·.indexed)).filter (·.voteTerm.isSome) :=
    mem_filter.mpr ⟨indexed_of_collected hg h, by simp [hgt]⟩
  obtain ⟨k, hks, hk, hmax⟩ := exists_argmax (f := fun g => g.voteTerm.getD 0) hgv
  obtain ⟨m, hm⟩ := Option.isSome_iff_exists.mp (mem_filter.mp hks).2
  obtain ⟨x, hx, hxv, rfl⟩ := exists_vote hm
  refine ⟨k, voteSegment_kept hk, x, hx, hxv, ?_⟩
  rw [hgt, hm, Option.getD_some, Option.getD_some] at hmax
  omega

end Kept

end CrowDB.Wal
