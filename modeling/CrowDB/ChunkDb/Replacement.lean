import CrowDB.ChunkDb.Record
import CrowDB.Lib.Check

/-!
# Validation of a strip replacement

A replacement keeps the first offset, the first sequence and the capacity of the
range it replaces, covers that range without gaps, and gives its later strips fresh
sequences. The copies of each strip lie on disjoint physical ranges.
-/
namespace CrowDB.ChunkDb
open Lib Lib.Tiling Option ChunkStrip
open List hiding Disjoint
open DiskDb (ChunkId DiskId)

structure PhysicalRange where
  high : ℕ
  low : ℕ
  zoneIndex : ℕ
  start : ℕ
  stop : ℕ
  deriving DecidableEq, Repr

/-- The lexicographic order of the range tuples. -/
def PhysicalRange.le (a b : PhysicalRange) : Prop :=
  a.high < b.high ∨ a.high = b.high ∧ (a.low < b.low ∨ a.low = b.low ∧
    (a.zoneIndex < b.zoneIndex ∨ a.zoneIndex = b.zoneIndex ∧
      (a.start < b.start ∨ a.start = b.start ∧ a.stop ≤ b.stop)))

instance : DecidableRel PhysicalRange.le := fun a b => by
  unfold PhysicalRange.le
  infer_instance

def PhysicalRange.sameZone (a b : PhysicalRange) : Prop :=
  a.high = b.high ∧ a.low = b.low ∧ a.zoneIndex = b.zoneIndex

instance : DecidableRel PhysicalRange.sameZone := fun a b => by
  unfold PhysicalRange.sameZone
  infer_instance

def physicalRange (s : Segment) : Except LifecycleError PhysicalRange := do
  let disk ← orFail s.diskId (.invalidRequest "replacement segment has no disk identity")
  ensure (s.unitOffset + s.unitCount ≤ u64Max)
    (.invalidRequest "replacement segment range overflows")
  pure ⟨disk.high, disk.low, s.zoneIndex, s.unitOffset, s.unitOffset + s.unitCount⟩

def physicalRanges : List Segment → Except LifecycleError (List PhysicalRange)
  | [] => pure []
  | s :: segments => do
    let range ← physicalRange s
    let ranges ← physicalRanges segments
    pure (range :: ranges)

/-- Two neighbours of the sorted ranges overlap. -/
def adjacentOverlap : List PhysicalRange → Bool
  | a :: b :: ranges => (decide (a.sameZone b) && decide (b.start < a.stop)) ||
      adjacentOverlap (b :: ranges)
  | _ => false

def validatePhysicalRanges (segments : List Segment) : Except LifecycleError Unit := do
  let ranges ← physicalRanges segments
  ensure (adjacentOverlap (ranges.insertionSort PhysicalRange.le) = false)
    (.invalidRequest "replacement copies overlap the same physical allocation")

/-- Two segments share a unit of the same zone. -/
def Segment.Overlap (s t : Segment) : Prop :=
  s.diskId = t.diskId ∧ s.zoneIndex = t.zoneIndex ∧
    s.unitOffset < t.unitOffset + t.unitCount ∧ t.unitOffset < s.unitOffset + s.unitCount

instance : DecidableRel Segment.Overlap := fun s t => by
  unfold Segment.Overlap
  infer_instance

/-- No physical unit is listed twice. -/
def DisjointCopies (segments : List Segment) : Prop :=
  segments.Pairwise fun s t => ¬ s.Overlap t

instance (segments : List Segment) : Decidable (DisjointCopies segments) := by
  unfold DisjointCopies
  infer_instance

def shapeIsValid (s : ChunkStrip) : Bool :=
  match s.strip with
  | some (.mirrorStrip segments) =>
    !segments.isEmpty && segments.all fun x => satMul32 x.unitCount s.unitKb = s.capacity
  | some (.ecStrip dataNum codeNum _ segments) =>
    0 < dataNum && 0 < codeNum && segments.length == satAdd32 dataNum codeNum &&
      segments.all fun x => satMul32 (satMul32 x.unitCount s.unitKb) dataNum = s.capacity
  | none => false

/-- The loop over the replacement strips; `expected` is the offset the next one must have. -/
def validateStrips (expected : ℕ) : List ChunkStrip → Except LifecycleError Unit
  | [] => pure ()
  | s :: strips => do
    ensure (s.capacity ≠ 0 ∧ s.unitKb ≠ 0 ∧ s.chunkOffset = expected)
      (.invalidRequest "replacement strips must be non-empty and contiguous")
    let next ← orFail (checkedAdd32 expected s.capacity)
      (.invalidRequest "replacement strip range overflows u32")
    validatePhysicalRanges (extractSegments s)
    ensure (shapeIsValid s) (.invalidRequest "replacement strip has invalid mirror or EC geometry")
    ensure (∀ x ∈ s.unavailableSegments, x ∈ extractSegments s)
      (.invalidRequest "unavailable replicas must belong to the replacement strip")
    validateStrips next strips

def validateReplacementGeometry (old replacement : List ChunkStrip) (chunkId : ChunkId) :
    Except LifecycleError Unit := do
  ensure (sumCapacity old = sumCapacity replacement ∧
      old.head?.map ChunkStrip.chunkOffset = replacement.head?.map ChunkStrip.chunkOffset ∧
      old.head?.map ChunkStrip.stripSequence = replacement.head?.map ChunkStrip.stripSequence)
    (.invalidRequest "replacement must preserve first offset, first sequence, and total capacity")
  ensure (∀ x ∈ replacement.flatMap extractSegments, x.ownerChunk = some chunkId ∧ x.unitCount ≠ 0)
    (.invalidRequest "replacement segments must be non-empty and owned by the chunk")
  validateStrips ((replacement.head?.map ChunkStrip.chunkOffset).getD 0) replacement

/-- The later strips of a replacement carry increasing sequences from `next` on. -/
def sequencesIncrease (next previous : ℕ) : List ChunkStrip → Bool
  | [] => true
  | s :: strips => decide (next ≤ s.stripSequence) && decide (previous < s.stripSequence) &&
      sequencesIncrease next s.stripSequence strips

def nextSequenceAfter (next : ℕ) : List ChunkStrip → Option ℕ
  | [] => some next
  | s :: strips => (checkedAdd32 s.stripSequence 1).bind fun candidate =>
      nextSequenceAfter (max next candidate) strips

def validateReplacementSequences (chunk : Chunk) (start stop : ℕ) (replacement : List ChunkStrip) :
    Except LifecycleError ℕ := do
  let retained := (splice chunk.strips start stop []).map ChunkStrip.stripSequence
  let first := replacement.head?.map ChunkStrip.stripSequence
  ensure ((replacement.map ChunkStrip.stripSequence).Nodup ∧
      (∀ s ∈ replacement, s.stripSequence ∉ retained) ∧
      sequencesIncrease chunk.nextStripSequence (first.getD 0) replacement.tail)
    (.invalidRequest
      "replacement strip sequences must be unique and newly allocated after the first")
  orFail (nextSequenceAfter chunk.nextStripSequence replacement.tail)
    (.invalidRequest "replacement strip sequence space exhausted")

/-! ## What an accepted replacement satisfies -/

lemma physicalRange_eq_ok {s : Segment} {r : PhysicalRange} (h : physicalRange s = .ok r) :
    ∃ disk, s.diskId = some disk ∧
      r = ⟨disk.high, disk.low, s.zoneIndex, s.unitOffset, s.unitOffset + s.unitCount⟩ := by
  simp only [physicalRange, bind_eq_ok, orFail_eq_ok, pure_eq_ok] at h
  obtain ⟨disk, hdisk, -, -, rfl⟩ := h
  exact ⟨disk, hdisk, rfl⟩

/-- Disjoint as ranges: one ends before the other starts. -/
def PhysicalRange.Apart (a b : PhysicalRange) : Prop :=
  a.sameZone b → a.stop ≤ b.start ∨ b.stop ≤ a.start

variable {a b : PhysicalRange}

lemma PhysicalRange.Apart.symm (h : a.Apart b) : b.Apart a := by
  intro hz
  have := h ⟨hz.1.symm, hz.2.1.symm, hz.2.2.symm⟩
  omega

instance : Std.Total PhysicalRange.le where
  total a b := by
    unfold PhysicalRange.le
    omega

instance : IsTrans PhysicalRange PhysicalRange.le where
  trans a b c hab hbc := by
    unfold PhysicalRange.le at *
    omega

variable {l : List PhysicalRange}

/-- In a sorted list without overlapping neighbours every range of the zone of the
first one starts behind its end. -/
theorem apart_head_of_adjacent (hsorted : (a :: l).Pairwise PhysicalRange.le)
    (h : adjacentOverlap (a :: l) = false) (hle : ∀ r ∈ a :: l, r.start ≤ r.stop) (hb : b ∈ l)
    (hz : a.sameZone b) : a.stop ≤ b.start := by
  induction l generalizing a with
  | nil => simp at hb
  | cons c l ih =>
    have hc : c ∈ c :: l := mem_cons_self
    simp only [adjacentOverlap, Bool.or_eq_false_iff, Bool.and_eq_false_iff,
      decide_eq_false_iff_not] at h
    have hac := rel_of_pairwise_cons hsorted hc
    rcases mem_cons.mp hb with rfl | hbl
    · rcases h.1 with hne | hlt
      · exact absurd hz hne
      · omega
    · -- the neighbour lies between the two in the order, so it is in their zone
      have hcb := rel_of_pairwise_cons (Pairwise.of_cons hsorted) hbl
      have hacz : a.sameZone c := by
        unfold PhysicalRange.le PhysicalRange.sameZone at *
        omega
      have hcbz : c.sameZone b := by
        unfold PhysicalRange.sameZone at *
        omega
      have hacs : a.stop ≤ c.start := by
        rcases h.1 with hne | hlt
        · exact absurd hacz hne
        · omega
      have hcs := hle c (mem_cons_of_mem _ hc)
      have := ih (Pairwise.of_cons hsorted) h.2
        (fun r hr => hle r (mem_cons_of_mem _ hr)) hbl hcbz
      omega

lemma pairwise_apart_of_adjacent (hsorted : l.Pairwise PhysicalRange.le)
    (h : adjacentOverlap l = false) (hle : ∀ r ∈ l, r.start ≤ r.stop) :
    l.Pairwise PhysicalRange.Apart := by
  induction l with
  | nil => exact .nil
  | cons _ l ih =>
    have htail : adjacentOverlap l = false := by
      cases l with
      | nil => rfl
      | cons =>
        simp only [adjacentOverlap, Bool.or_eq_false_iff] at h
        exact h.2
    refine .cons (fun b hb hz => .inl ?_)
      (ih (Pairwise.of_cons hsorted) htail fun r hr => hle r (mem_cons_of_mem _ hr))
    exact apart_head_of_adjacent hsorted h hle hb hz

variable {segments : List Segment}

lemma physicalRanges_forall₂ {ranges : List PhysicalRange}
    (h : physicalRanges segments = .ok ranges) :
    Forall₂ (fun s r => physicalRange s = .ok r) segments ranges := by
  induction segments generalizing ranges with
  | nil =>
    simp only [physicalRanges, pure_eq_ok] at h
    exact h ▸ .nil
  | cons _ _ ih =>
    simp only [physicalRanges, bind_eq_ok, pure_eq_ok] at h
    obtain ⟨r, hr, rs, hrs, rfl⟩ := h
    exact .cons hr (ih hrs)

lemma not_overlap_of_apart {s t : Segment} (ha : physicalRange s = .ok a)
    (hb : physicalRange t = .ok b) (h : a.Apart b) : ¬ s.Overlap t := by
  obtain ⟨d, hd, rfl⟩ := physicalRange_eq_ok ha
  obtain ⟨e, he, rfl⟩ := physicalRange_eq_ok hb
  rintro ⟨hdisk, hzone, hst, hts⟩
  rw [hd, he, some.injEq] at hdisk
  subst hdisk
  have := h ⟨rfl, rfl, hzone⟩
  simp only at this
  omega

lemma exists_of_forall₂ {α β : Type*} {R : α → β → Prop} {l : List α} {m : List β}
    (h : Forall₂ R l m) {a : α} (ha : a ∈ l) : ∃ b ∈ m, R a b := by
  induction h with
  | nil => simp at ha
  | @cons _ d _ _ hcd _ ih =>
    rcases mem_cons.mp ha with rfl | ha
    · exact ⟨d, mem_cons_self, hcd⟩
    · obtain ⟨b, hb, hab⟩ := ih ha
      exact ⟨b, mem_cons_of_mem _ hb, hab⟩

/-- Pairs of two lists related entry by entry take over a pairwise relation. -/
theorem pairwise_of_forall₂ {α β : Type*} {R : α → β → Prop} {P : α → α → Prop} {Q : β → β → Prop}
    (hPQ : ∀ a b c d, R a c → R b d → Q c d → P a b) {l : List α} {m : List β}
    (h : Forall₂ R l m) (hm : m.Pairwise Q) : l.Pairwise P := by
  induction h with
  | nil => exact .nil
  | cons hac hlm ih =>
    obtain ⟨hhead, htail⟩ := pairwise_cons.mp hm
    refine .cons (fun b hb => ?_) (ih htail)
    obtain ⟨d, hd, hbd⟩ := exists_of_forall₂ hlm hb
    exact hPQ _ _ _ _ hac hbd (hhead d hd)

/-- Accepted physical ranges hold every unit once. -/
theorem validatePhysicalRanges_sound (h : validatePhysicalRanges segments = .ok ()) :
    DisjointCopies segments := by
  simp only [validatePhysicalRanges, bind_eq_ok, ensure_eq_ok] at h
  obtain ⟨ranges, hranges, hadj⟩ := h
  have hpairs := physicalRanges_forall₂ hranges
  have hperm := perm_insertionSort PhysicalRange.le ranges
  have hle : ∀ r ∈ ranges.insertionSort PhysicalRange.le, r.start ≤ r.stop := by
    intro r hr
    obtain ⟨s, -, hs⟩ := exists_of_forall₂ hpairs.flip (hperm.mem_iff.mp hr)
    obtain ⟨-, -, rfl⟩ := physicalRange_eq_ok hs
    simp
  have hsorted := pairwise_apart_of_adjacent (pairwise_insertionSort _ ranges) hadj hle
  have hapart : ranges.Pairwise PhysicalRange.Apart :=
    (hperm.pairwise_iff fun h => h.symm).mp hsorted
  refine pairwise_of_forall₂ ?_ hpairs hapart
  intro s t a b hs ht hab
  exact not_overlap_of_apart hs ht hab

variable {strips : List ChunkStrip}

/-- Accepted strips tile the range from the expected offset, below `2 ^ 32`, and each
holds every unit once. -/
theorem validateStrips_sound {expected : ℕ} (h : validateStrips expected strips = .ok ()) :
    Tiles chunkOffset capacity expected strips ∧
      (strips ≠ [] → expected + total capacity strips < 2 ^ 32) ∧
      ∀ s ∈ strips, DisjointCopies (extractSegments s) := by
  induction strips generalizing expected with
  | nil => simp
  | cons _ strips ih =>
    simp only [validateStrips, bind_eq_ok, ensure_eq_ok, orFail_eq_ok] at h
    obtain ⟨-, ⟨-, -, hoff⟩, next, hnext, u, hphys, -, -, -, -, hrest⟩ := h
    obtain ⟨hlt, rfl⟩ := checkedAdd32_eq_some.mp hnext
    obtain ⟨htiles, hbound, hcopies⟩ := ih hrest
    refine ⟨⟨hoff, htiles⟩, fun _ => ?_,
      forall_mem_cons.mpr ⟨validatePhysicalRanges_sound hphys, hcopies⟩⟩
    rw [total_cons]
    by_cases hnil : strips = []
    · simpa [hnil] using hlt
    · have := hbound hnil
      omega

variable {replacement old : List ChunkStrip} {chunkId : ChunkId}

/-- What an accepted geometry says about a replacement of a non-empty range whose
capacity is below `2 ^ 32`. -/
theorem validateReplacementGeometry_sound {o : ChunkStrip}
    (h : validateReplacementGeometry (o :: old) replacement chunkId = .ok ())
    (hold : total capacity (o :: old) < 2 ^ 32) :
    Tiles chunkOffset capacity o.chunkOffset replacement ∧
      total capacity replacement = total capacity (o :: old) ∧
      replacement.head?.map stripSequence = some o.stripSequence := by
  simp only [validateReplacementGeometry, bind_eq_ok, ensure_eq_ok] at h
  obtain ⟨-, ⟨hsum, hoff, hseq⟩, -, -, hstrips⟩ := h
  cases replacement with
  | nil => simp at hoff
  | cons =>
    simp only [head?_cons, map_some] at hoff hseq
    simp only [head?_cons, map_some, ← hoff] at hstrips
    obtain ⟨htiles, hbound, -⟩ := validateStrips_sound hstrips
    have hlt := hbound (cons_ne_nil _ _)
    rw [sumCapacity_eq hold, sumCapacity_eq (by omega)] at hsum
    exact ⟨htiles, hsum.symm, by simp [hseq]⟩

/-- Accepted replacement strips hold every unit once. -/
theorem validateReplacementGeometry_copies
    (h : validateReplacementGeometry old replacement chunkId = .ok ()) :
    ∀ s ∈ replacement, DisjointCopies (extractSegments s) := by
  simp only [validateReplacementGeometry, bind_eq_ok] at h
  obtain ⟨-, -, -, -, hstrips⟩ := h
  exact (validateStrips_sound hstrips).2.2

lemma sequencesIncrease_ge {next previous : ℕ} (h : sequencesIncrease next previous strips = true)
    {s : ChunkStrip} (hs : s ∈ strips) : next ≤ s.stripSequence := by
  induction strips generalizing previous with
  | nil => simp at hs
  | cons _ _ ih =>
    simp only [sequencesIncrease, Bool.and_eq_true, decide_eq_true_eq] at h
    rcases mem_cons.mp hs with rfl | hs
    · exact h.1.1
    · exact ih h.2 hs

/-- The new next sequence lies above the old one and above every later strip. -/
theorem nextSequenceAfter_sound {next n : ℕ} (h : nextSequenceAfter next strips = some n) :
    next ≤ n ∧ ∀ s ∈ strips, s.stripSequence < n := by
  induction strips generalizing next with
  | nil =>
    simp only [nextSequenceAfter, some.injEq] at h
    simp [h]
  | cons _ _ ih =>
    obtain ⟨c, hc, h⟩ := bind_eq_some_iff.mp h
    obtain ⟨-, rfl⟩ := checkedAdd32_eq_some.mp hc
    obtain ⟨hle, hlt⟩ := ih h
    exact ⟨by omega, forall_mem_cons.mpr ⟨by omega, hlt⟩⟩

/-- What accepted sequences say: they are distinct among themselves and from the
retained strips, the later ones are fresh, and the returned next sequence is above all. -/
theorem validateReplacementSequences_sound {chunk : Chunk} {start stop n : ℕ} {r : ChunkStrip}
    (h : validateReplacementSequences chunk start stop (r :: replacement) = .ok n) :
    ((r :: replacement).map stripSequence).Nodup ∧
      (∀ s ∈ replacement, chunk.nextStripSequence ≤ s.stripSequence ∧ s.stripSequence < n) ∧
      chunk.nextStripSequence ≤ n := by
  simp only [validateReplacementSequences, bind_eq_ok, ensure_eq_ok, orFail_eq_ok] at h
  obtain ⟨-, ⟨hnodup, -, hincrease⟩, hnext⟩ := h
  obtain ⟨hle, hlt⟩ := nextSequenceAfter_sound hnext
  exact ⟨hnodup, fun s hs => ⟨sequencesIncrease_ge hincrease hs, hlt s hs⟩, hle⟩

end CrowDB.ChunkDb
