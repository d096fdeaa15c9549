import CrowDB.Lib.Scan
import CrowDB.Wal.Gc

/-!
# Replay after garbage collection

What a replay reconstructs depends on three views of the scanned records: the
highest term, the last vote of that term, and for each slot and type the records
filed there. A collection pass keeps the first by the term segment, the second by the
vote segment, and the third for every slot at or above its watermark.
-/
namespace CrowDB.Wal
open Paxos Lib List ReplayRecords

variable {s : ℕ}

namespace ReplayRecords

/-! ## The views a scan depends on -/

lemma scan_currentTerm_attained (rs : List WALRecord) :
    (scan rs).currentTerm = 0 ∨ ∃ r ∈ rs, r.term = (scan rs).currentTerm := by
  induction rs using reverseRecOn with
  | nil => exact .inl rfl
  | append_singleton rs x ih =>
    rw [scan_concat, push_currentTerm]
    rcases le_total (scan rs).currentTerm x.term with hle | hle
    · exact .inr ⟨x, by simp, (max_eq_right hle).symm⟩
    · rw [max_eq_left hle]
      rcases ih with h0 | ⟨r, hr, hrt⟩
      · exact .inl h0
      · exact .inr ⟨r, mem_append_left _ hr, hrt⟩

/-- A vote cast in this term. -/
def isVoteOf (term : ℕ) (r : WALRecord) : Bool := r.recordType = .voteGranted ∧ r.term = term

/-- The vote of a scan is the last one of the term reached. -/
theorem scan_votedFor_eq (rs : List WALRecord) : (scan rs).votedFor =
    ((rs.filter (isVoteOf (scan rs).currentTerm)).getLast?).bind (·.votedForId) := by
  induction rs using reverseRecOn with
  | nil => rfl
  | append_singleton rs x ih =>
    rw [scan_concat, push_currentTerm]
    by_cases hx : x.recordType = .voteGranted ∧ (scan rs).currentTerm ≤ x.term
    · rw [push_votedFor_vote hx.1 hx.2, max_eq_right hx.2]
      simp [isVoteOf, hx.1]
    · by_cases hlt : (scan rs).currentTerm < x.term
      · -- a record that is no vote opens the term, in which nobody has voted
        have hv : x.recordType ≠ .voteGranted := fun hv => hx ⟨hv, hlt.le⟩
        have hnone : rs.filter (isVoteOf x.term) = [] := by
          refine filter_eq_nil_iff.mpr fun r hr hvote => ?_
          have hle := term_le_scan hr
          have ht : r.term = x.term := (of_decide_eq_true hvote).2
          omega
        rw [push_votedFor_of_lt hlt hv, max_eq_right hlt.le]
        simp [hnone, isVoteOf, hv]
      · have hle := not_lt.mp hlt
        rw [push_votedFor_of_le hle fun hv he => hx ⟨hv, he.ge⟩, max_eq_left hle, ih]
        have hno : isVoteOf (scan rs).currentTerm x = false := by
          simp only [isVoteOf, decide_eq_false_iff_not]
          exact fun h => hx ⟨h.1, h.2.ge⟩
        simp [hno]

/-- The records filed under a slot and type. -/
def isFiled (s : ℕ) (t : RecordType) (r : WALRecord) : Bool := r.slot = s ∧ r.recordType = t

lemma push_slots_of_not_filed (R : ReplayRecords) {r : WALRecord} {t : RecordType}
    (h : isFiled s t r = false) : (R.push r).slots s t = R.slots s t := by
  rcases R.push_slots r s t with hp | ⟨-, hs, ht, -, -⟩
  · exact hp
  · simp [isFiled, hs, ht] at h

lemma push_slots_congr {R S : ReplayRecords} (r : WALRecord) {t : RecordType}
    (h : R.slots s t = S.slots s t) : (R.push r).slots s t = (S.push r).slots s t := by
  by_cases hf : isFiled s t r = true
  · obtain ⟨rfl, rfl⟩ := of_decide_eq_true hf
    by_cases hv : r.recordType = .voteGranted
    · simpa [push, hv, insertVote] using h
    · simp only [push, hv, dite_false, observeTerm_slots, h]
      split
      · simp [insertSlot]
      · simp [h]
  · have hf' := Bool.eq_false_iff.mpr hf
    rw [push_slots_of_not_filed R hf', push_slots_of_not_filed S hf', h]

/-- A survivor depends only on what is filed under its slot and type. -/
theorem scan_slots_filter (rs : List WALRecord) (s : ℕ) (t : RecordType) :
    (scan rs).slots s t = (scan (rs.filter (isFiled s t))).slots s t := by
  induction rs using reverseRecOn with
  | nil => rfl
  | append_singleton _ x ih =>
    cases hf : isFiled s t x with
    | false =>
      rw [scan_concat, push_slots_of_not_filed _ hf, ih]
      simp [hf]
    | true =>
      rw [filter_append, filter_singleton, hf, cond_true, scan_concat, scan_concat]
      exact push_slots_congr x ih

end ReplayRecords

/-! ## What a pass leaves of them -/

section Pass
variable {gcSlot : ℕ} {fails : List ℕ} {segs : List WalSegment}

/-- Whether a pass keeps the segment. -/
def keeps (gcSlot : ℕ) (fails : List ℕ) (segs : List WalSegment) (g : WalSegment) : Bool :=
  gcSlot = 0 || !eligible gcSlot segs g || decide (g.segmentId ∈ fails)

lemma runGc_eq_filter :
    runGcWithWatermark gcSlot fails segs = segs.filter (keeps gcSlot fails segs) := by
  unfold runGcWithWatermark keeps
  split
  · next h => simp [h]
  · next h => simp [h]

lemma scanOrder_runGc : scanOrder (runGcWithWatermark gcSlot fails segs) =
    ((segs.insertionSort fun a b => a.segmentId ≤ b.segmentId).filter
      (keeps gcSlot fails segs)).flatMap (·.records) := by
  rw [scanOrder, runGc_eq_filter, filter_insertionSort WalSegment.segmentId]

lemma currentTerm_runGc : (scanGroup (runGcWithWatermark gcSlot fails segs)).currentTerm =
    (scanGroup segs).currentTerm := by
  apply le_antisymm
  · rcases scan_currentTerm_attained
      (scanOrder (runGcWithWatermark gcSlot fails segs)) with h0 | ⟨r, hr, hrt⟩
    · exact h0.trans_le (Nat.zero_le _)
    · obtain ⟨g, hg, hr⟩ := mem_scanOrder.mp hr
      exact hrt ▸ term_le_scan (mem_scanOrder.mpr ⟨g, runGc_sub hg, hr⟩)
  · rcases scan_currentTerm_attained (scanOrder segs) with h0 | ⟨r, hr, hrt⟩
    · exact h0.trans_le (Nat.zero_le _)
    · rcases Nat.eq_zero_or_pos r.term with hz | hpos
      · exact (hrt.symm.trans hz).trans_le (Nat.zero_le _)
      · obtain ⟨g, hg, hr⟩ := mem_scanOrder.mp hr
        obtain ⟨k, hk, x, hx, hle⟩ := term_kept gcSlot fails hg hr hpos
        exact hrt ▸ hle.trans (term_le_scan (mem_scanOrder.mpr ⟨k, hk, hx⟩))

/-- A segment with votes of the highest term that goes is followed by another one. -/
theorem later_votes {g : WalSegment} {term : ℕ}
    (hmax : ∀ k ∈ segs, ∀ r ∈ k.records, r.term ≤ term) (hg : g ∈ segs)
    (hv : g.records.filter (isVoteOf term) ≠ [])
    (hk : keeps gcSlot fails segs g = false) :
    ∃ k ∈ segs, k.records.filter (isVoteOf term) ≠ [] ∧
      g.segmentId < k.segmentId := by
  have hterm : ∀ k ∈ segs, ∀ t, k.voteTerm = some t → t ≤ term := by
    intro k hks t ht
    obtain ⟨x, hx, -, rfl⟩ := exists_vote ht
    exact hmax k hks x hx
  obtain ⟨r, hr⟩ := exists_mem_of_ne_nil _ hv
  obtain ⟨hrg, hvote⟩ := mem_filter.mp hr
  obtain ⟨hrv, hrt⟩ := of_decide_eq_true hvote
  obtain ⟨t, hgt, hle⟩ := exists_voteTerm hrg hrv
  simp only [keeps, eligible, Bool.or_eq_false_iff, Bool.not_eq_false', Bool.and_eq_true] at hk
  obtain ⟨⟨-, ⟨⟨⟨hidx, -⟩, -⟩, -⟩, hid⟩, -⟩ := hk
  obtain ⟨k, hki, hkv, hkey⟩ := exists_argmax (f := fun g => g.voteTerm.getD 0)
    (show g ∈ (segs.filter (·.indexed)).filter (·.voteTerm.isSome) by simp [hg, hidx, hgt])
  obtain ⟨hkidx, hksome⟩ := mem_filter.mp hki
  have hks := (mem_filter.mp hkidx).1
  obtain ⟨u, hku⟩ := Option.isSome_iff_exists.mp hksome
  rw [voteSegment, hkv] at hid
  have hne : k.segmentId ≠ g.segmentId := by simpa using hid
  have hu : u ≤ term := hterm k hks u hku
  simp only [hku, hgt, Option.getD_some] at hkey
  obtain ⟨x, hxk, hxv, hxt⟩ := exists_vote hku
  refine ⟨k, hks, ne_nil_of_mem (mem_filter.mpr ⟨hxk, ?_⟩), by omega⟩
  simp only [isVoteOf, hxv, decide_eq_true_eq, true_and]
  omega

lemma votedFor_runGc : (scanGroup (runGcWithWatermark gcSlot fails segs)).votedFor =
    (scanGroup segs).votedFor := by
  have hterm : (scanGroup (runGcWithWatermark gcSlot fails segs)).currentTerm =
      (scanGroup segs).currentTerm := currentTerm_runGc
  unfold scanGroup at hterm ⊢
  rw [scan_votedFor_eq, scan_votedFor_eq, hterm, scanOrder_runGc,
    scanOrder, filter_flatMap, filter_flatMap,
    getLast?_flatMap_filter WalSegment.segmentId]
  · exact pairwise_insertionSort _ segs
  · intro g hg hv hk
    have hmax : ∀ k ∈ segs, ∀ r ∈ k.records, r.term ≤ (scanGroup segs).currentTerm :=
      fun k hks r hr => term_le_scan (mem_scanOrder.mpr ⟨k, hks, hr⟩)
    obtain ⟨k, hks, hkv, hlt⟩ := later_votes hmax ((mem_insertionSort _).mp hg) hv hk
    exact ⟨k, (mem_insertionSort _).mpr hks, hkv, hlt⟩

lemma slots_runGc (hs : gcSlot ≤ s) (t : RecordType) :
    (scanGroup (runGcWithWatermark gcSlot fails segs)).slots s t = (scanGroup segs).slots s t := by
  have hfiled : (scanOrder (runGcWithWatermark gcSlot fails segs)).filter
      (isFiled s t) = (scanOrder segs).filter (isFiled s t) := by
    rw [scanOrder_runGc, scanOrder, filter_flatMap, filter_flatMap]
    refine flatMap_filter_eq fun g hg hk => ?_
    have hgs : g ∈ segs := (mem_insertionSort _).mp hg
    have hgone : g ∉ runGcWithWatermark gcSlot fails segs := by
      rw [runGc_eq_filter, mem_filter, hk]
      simp
    refine filter_eq_nil_iff.mpr fun r hr hf => ?_
    have hlt := slot_lt_of_collected hgs hgone hr
    have hrs : r.slot = s := (of_decide_eq_true hf).1
    omega
  unfold scanGroup
  rw [scan_slots_filter, hfiled, ← scan_slots_filter]

end Pass

/-- A replay of what any pass leaves, with any unlinks failing, finds the term and the
vote of a replay of all segments and, at or above the watermark, the same promises and
accepts, each of the highest ballot in the log and one for every slot that the log has. -/
theorem replay_after_gc (gcSlot : ℕ) (fails : List ℕ) (segs : List WalSegment) :
    (replayGroup (runGcWithWatermark gcSlot fails segs)).currentTerm =
      (replayGroup segs).currentTerm ∧
    (replayGroup (runGcWithWatermark gcSlot fails segs)).votedFor = (replayGroup segs).votedFor ∧
    (∀ r, r.recordType ≠ .voteGranted → gcSlot ≤ r.slot →
      (r ∈ (replayGroup (runGcWithWatermark gcSlot fails segs)).records ↔
        r ∈ (replayGroup segs).records) ∧
      (r ∈ (replayGroup segs).records → ∀ g ∈ segs, ∀ x ∈ g.records, x.slot = r.slot →
        x.recordType = r.recordType → x.ballot ≤ r.ballot)) ∧
    ∀ g ∈ segs, ∀ x ∈ g.records, x.recordType ≠ .voteGranted → gcSlot ≤ x.slot →
      ∃ r ∈ (replayGroup (runGcWithWatermark gcSlot fails segs)).records,
        r.slot = x.slot ∧ r.recordType = x.recordType := by
  refine ⟨currentTerm_runGc, votedFor_runGc,
    fun r hv hs => ⟨?_, fun hr g hg x hx hxs hxt => ?_⟩, fun g hg x hx hv hs => ?_⟩
  · rw [replayGroup, replayGroup, mem_intoRecords hv, mem_intoRecords hv,
      slots_runGc hs]
  · have hr' := (mem_intoRecords hv).mp hr
    obtain ⟨y, hy, hle⟩ := le_scan_slots (mem_scanOrder.mpr ⟨g, hg, hx⟩) (hxt ▸ hv)
    rw [hxs, hxt] at hy
    obtain rfl : r = y := Option.some.inj (hr'.symm.trans hy)
    exact hle
  · obtain ⟨r, hr, -⟩ := le_scan_slots (mem_scanOrder.mpr ⟨g, hg, hx⟩) hv
    obtain ⟨hslot, htype⟩ := (scanGroup segs).keyed _ _ r hr
    refine ⟨r, (mem_intoRecords (htype ▸ hv)).mpr ?_, hslot, htype⟩
    rw [hslot, htype]
    exact (slots_runGc hs _).trans hr

end CrowDB.Wal
