import CrowDB.Lib.Check
import CrowDB.Lib.SortedRow
import Mathlib.Algebra.Ring.Nat

/-!
# Stream chunk records

A stream is a chain of chunks. One record per chunk says which logical interval the chunk holds
and how long its appends are; the last record also carries the control state of the stream. A
chunk that is prepared as a successor has a candidate record without an interval. The transition
checks decide which new tail may follow a captured one.
-/
namespace CrowDB.ChunkStream
open Lib

inductive StreamError
  | corruption (reason : String)
  | invalidRequest (reason : String)
  | readUnavailable (reason : String)
  | staleWriter
  | writeStalled
  | backpressure
  deriving DecidableEq

inductive StreamPurpose
  | wal
  | stream
  deriving DecidableEq

structure ChunkId where
  chunkType : ℕ
  number : ℕ
  deriving DecidableEq

def StreamPurpose.chunkType : StreamPurpose → ℕ
  | .wal => 1
  | .stream => 4

/-- `StreamPurpose::matches`. -/
def StreamPurpose.suits (p : StreamPurpose) (id : ChunkId) : Bool := id.chunkType == p.chunkType

inductive StreamChunkState
  | candidate
  | active
  | sealed
  | deleting
  deriving DecidableEq

/-- The mappings are the lengths of the appends in the chunk. -/
structure StreamChunkRecord where
  purpose : StreamPurpose
  chunkId : ChunkId
  state : StreamChunkState
  logicalStart : Option ℕ
  logicalEnd : Option ℕ
  sequence : ℕ
  writerEpoch : ℕ
  generation : ℕ
  ownerSession : ℕ
  trimOffset : ℕ
  closed : Bool
  mappings : List ℕ
  deriving DecidableEq

def maxStreamChunkBytes : ℕ := 256 * 1024 * 1024

def maxEntries : ℕ := maxStreamChunkBytes / 48

/-- `FrameLayout::StreamGroupV2.physical_length`: each frame has 47 bytes of header and footer. -/
def physicalLength (logicalLength : ℕ) : ℕ := logicalLength + (logicalLength + 65488) / 65489 * 47

def corrupt (reason : String) : StreamError := .corruption reason

/-- One step of `StreamMappings::index`: the logical and the physical end behind one append. -/
def advance (ends : ℕ × ℕ) (length : ℕ) : Except StreamError (ℕ × ℕ) := do
  ensure (ends.1 + length < 2 ^ 64) (corrupt "logical overflow")
  ensure (length ≠ 0) (corrupt "empty append")
  ensure (ends.2 + physicalLength length ≤ maxStreamChunkBytes) (corrupt "physical chunk overflow")
  return (ends.1 + length, ends.2 + physicalLength length)

/-- `StreamMappings::index`: the appends cover the interval. The result is the physical end. -/
def index (mappings : List ℕ) (start stop : ℕ) : Except StreamError ℕ := do
  ensure (mappings.length ≤ maxEntries) (corrupt "mapping budget")
  let ends ← mappings.foldlM advance (start, 0)
  ensure (ends.1 = stop) (corrupt "mapping coverage or trailing bytes")
  return ends.2

namespace StreamChunkRecord

def start (r : StreamChunkRecord) : ℕ := r.logicalStart.getD 0

def stop (r : StreamChunkRecord) : ℕ := r.logicalEnd.getD 0

def validate (r : StreamChunkRecord) : Except StreamError ℕ := do
  ensure (r.purpose.suits r.chunkId = true ∧ r.writerEpoch ≠ 0 ∧ r.ownerSession ≠ 0)
    (corrupt "identity or purpose")
  if r.state = .candidate then
    ensure (r.logicalStart = none ∧ r.logicalEnd = none ∧ r.closed = false ∧ r.generation = 0 ∧
      r.mappings = [] ∧ r.trimOffset = 0) (corrupt "candidate has attached progress")
    index r.mappings 0 0
  else
    let start ← orFail r.logicalStart (corrupt "missing logical start")
    let stop ← orFail r.logicalEnd (corrupt "missing logical end")
    ensure (start ≤ stop ∧ r.generation ≠ 0 ∧ r.trimOffset ≤ stop ∧
      ¬ (r.closed = true ∧ r.state = .active)) (corrupt "logical bounds or state")
    index r.mappings start stop

end StreamChunkRecord

/-! ## Transitions -/

/-- `validate_prefix`. -/
def validatePrefix (base next : StreamChunkRecord) : Except StreamError Unit :=
  ensure (base.mappings <+: next.mappings)
    (corrupt "checkpoint changes acknowledged append boundaries")

/-- `validate_transition`. -/
def validateTransition (expected : Option StreamChunkRecord) (tail : StreamChunkRecord)
    (previous : Option StreamChunkRecord) : Except StreamError Unit := do
  let _ ← tail.validate
  ensure (tail.state ≠ .candidate ∧ tail.state ≠ .deleting) (corrupt "invalid tail state")
  match expected with
  | none =>
    ensure (tail.generation = 1 ∧ tail.sequence = 0 ∧ tail.logicalStart = some 0 ∧
      tail.logicalEnd = some 0) (corrupt "initial tail bounds")
  | some base =>
    ensure (base.purpose = tail.purpose ∧ base.writerEpoch ≤ tail.writerEpoch ∧
      base.generation + 1 = tail.generation ∧ base.trimOffset ≤ tail.trimOffset ∧
      base.stop ≤ tail.stop ∧ (base.closed = true → tail.closed = true))
      (corrupt "tail transition regresses or changes scope")
    if base.chunkId = tail.chunkId then
      ensure (previous = none ∧ tail.sequence = base.sequence ∧
        tail.logicalStart = base.logicalStart) (corrupt "same-chunk transition changes attachment")
      validatePrefix base tail
    else
      let previous ← orFail previous (corrupt "missing finalized predecessor")
      let _ ← previous.validate
      ensure (previous.chunkId = base.chunkId ∧ previous.logicalStart = base.logicalStart ∧
        previous.purpose = base.purpose ∧ previous.sequence = base.sequence ∧
        previous.writerEpoch = tail.writerEpoch ∧ previous.ownerSession = tail.ownerSession ∧
        previous.generation = tail.generation ∧ previous.state = .sealed ∧
        previous.logicalEnd = tail.logicalStart ∧ base.stop ≤ previous.stop ∧
        base.sequence + 1 = tail.sequence ∧ base.closed = false ∧ tail.state = .active)
        (corrupt "predecessor/successor continuity")
      validatePrefix base previous

/-! ## What the checks mean -/

/-- An attached record that passed its check. -/
structure Attached (r : StreamChunkRecord) : Prop where
  state : r.state ≠ .candidate
  bounds : ∃ start stop, r.logicalStart = some start ∧ r.logicalEnd = some stop ∧ start ≤ stop
  trim : r.trimOffset ≤ r.stop
  cover : r.start + r.mappings.sum = r.stop
  appends : ∀ length ∈ r.mappings, length ≠ 0

lemma foldlM_advance {mappings : List ℕ} {ends ends' : ℕ × ℕ}
    (h : mappings.foldlM advance ends = .ok ends') :
    ends.1 + mappings.sum = ends'.1 ∧ ∀ length ∈ mappings, length ≠ 0 := by
  induction mappings generalizing ends with
  | nil =>
    rw [List.foldlM_nil, pure_eq_ok] at h
    exact ⟨by rw [h]; simp, by simp⟩
  | cons _ _ ih =>
    rw [List.foldlM_cons, bind_eq_ok] at h
    obtain ⟨next, hnext, hrest⟩ := h
    simp only [advance, bind_eq_ok, ensure_eq_ok, pure_eq_ok] at hnext
    obtain ⟨-, -, -, hne, -, -, rfl⟩ := hnext
    obtain ⟨hsum, hall⟩ := ih hrest
    refine ⟨by rw [List.sum_cons, ← hsum]; simp only; omega, ?_⟩
    simpa using ⟨hne, hall⟩

variable {r : StreamChunkRecord}

lemma attached_of_validate {physicalEnd : ℕ} (h : r.validate = .ok physicalEnd)
    (hstate : r.state ≠ .candidate) : Attached r := by
  simp only [StreamChunkRecord.validate, if_neg hstate, bind_eq_ok, ensure_eq_ok, orFail_eq_ok,
    index] at h
  obtain ⟨-, -, start, hstart, stop, hstop, -, ⟨hle, -, htrim, -⟩, -, -, ends, hfold,
    -, hends, -⟩ :=
    h
  obtain ⟨hsum, hall⟩ := foldlM_advance hfold
  refine ⟨hstate, ⟨start, stop, hstart, hstop, hle⟩, ?_, ?_, hall⟩
  · rw [StreamChunkRecord.stop, hstop]
    exact htrim
  · rw [StreamChunkRecord.start, StreamChunkRecord.stop, hstart, hstop]
    exact hsum.trans hends

lemma Attached.start_le_stop (h : Attached r) : r.start ≤ r.stop := by
  have := h.cover
  omega

/-- Control state and coverage that a new tail takes over. -/
structure Advances (base tail : StreamChunkRecord) : Prop where
  epoch : base.writerEpoch ≤ tail.writerEpoch
  generation : base.generation < tail.generation
  trim : base.trimOffset ≤ tail.trimOffset
  stop : base.stop ≤ tail.stop

/-- A record that stands for the same chunk later on. -/
structure Extends (base next : StreamChunkRecord) : Prop where
  chunkId : next.chunkId = base.chunkId
  start : next.start = base.start
  sequence : next.sequence = base.sequence
  mappings : base.mappings <+: next.mappings

lemma Extends.refl (r : StreamChunkRecord) : Extends r r := ⟨rfl, rfl, rfl, List.prefix_rfl⟩

lemma Extends.trans {a b c : StreamChunkRecord} (hab : Extends a b) (hbc : Extends b c) :
    Extends a c :=
  ⟨hbc.chunkId.trans hab.chunkId, hbc.start.trans hab.start, hbc.sequence.trans hab.sequence,
    hab.mappings.trans hbc.mappings⟩

variable {previous : Option StreamChunkRecord} {tail : StreamChunkRecord}

/-- The two ways in which a tail follows a captured one. -/
theorem validateTransition_some {base : StreamChunkRecord}
    (h : validateTransition (some base) tail previous = .ok ()) :
    Attached tail ∧ tail.state ≠ .deleting ∧ Advances base tail ∧
      (previous = none ∧ Extends base tail ∨
        ∃ sealed, previous = some sealed ∧ Attached sealed ∧ sealed.state = .sealed ∧
          Extends base sealed ∧ base.chunkId ≠ tail.chunkId ∧ sealed.stop = tail.start ∧
          tail.sequence = base.sequence + 1) := by
  simp only [validateTransition, bind_eq_ok, ensure_eq_ok] at h
  obtain ⟨physicalEnd, hvalid, -, ⟨hcand, hdel⟩, -, ⟨-, hepoch, hgen, htrim, hstop, -⟩, h⟩ := h
  refine ⟨attached_of_validate hvalid hcand, hdel, ⟨hepoch, by omega, htrim, hstop⟩, ?_⟩
  split at h
  next hchunk =>
    simp only [bind_eq_ok, ensure_eq_ok, validatePrefix] at h
    obtain ⟨-, ⟨hprev, hseq, hstart⟩, hpre⟩ := h
    refine .inl ⟨hprev, hchunk.symm, ?_, hseq, hpre⟩
    rw [StreamChunkRecord.start, StreamChunkRecord.start, hstart]
  next hchunk =>
    simp only [bind_eq_ok, ensure_eq_ok, orFail_eq_ok, validatePrefix] at h
    obtain ⟨sealed, hprev, sealedEnd, hsealed, -, hcont, hpre⟩ := h
    obtain ⟨hid, hstart, -, hseq, -, -, -, hstate, hjoin, -, hnext, -, -⟩ := hcont
    have hne : sealed.state ≠ .candidate := by rw [hstate]; decide
    refine .inr ⟨sealed, hprev, attached_of_validate hsealed hne, hstate,
      ⟨hid, ?_, hseq, hpre⟩, hchunk, ?_, hnext.symm⟩
    · rw [StreamChunkRecord.start, StreamChunkRecord.start, hstart]
    · rw [StreamChunkRecord.stop, StreamChunkRecord.start, hjoin]

lemma validateTransition_none (h : validateTransition none tail previous = .ok ()) :
    Attached tail ∧ tail.state ≠ .deleting ∧ tail.sequence = 0 ∧ tail.stop = 0 := by
  simp only [validateTransition, bind_eq_ok, ensure_eq_ok] at h
  obtain ⟨physicalEnd, hvalid, -, ⟨hcand, hdel⟩, -, hseq, -, hstop⟩ := h
  refine ⟨attached_of_validate hvalid hcand, hdel, hseq, ?_⟩
  rw [StreamChunkRecord.stop, hstop]
  rfl

end CrowDB.ChunkStream
