import CrowDB.ChunkKv.Worker
import CrowDB.Lib.Check

/-!
# WAL replay

Recovery replays the journal from an offset over a checkpointed tree. Records up to the
checkpoint only refill the retained results; later ones are applied. A record whose
identity is retained or expired at its turn is taken for corruption. Under the conditions
that every journal of a worker meets, that is the only way replay can fail:
`replayFrames_eq`.
-/
namespace CrowDB.ChunkKv
open Lib List RetryWindow

structure RecoverySeed where
  appliedSeq : ℕ
  appliedPosition : ℕ
  retryReplayOffset : ℕ
  retry : Retry

/-- The tree is part of the state. A record stands for its fingerprint. -/
structure ReplayState where
  seed : RecoverySeed
  tree : Tree
  checkpointAppliedSeq : ℕ
  streamName : StreamName
  retainedResults : ℕ
  replayed : ℕ → Option WalRecord := fun _ => none
  lastNewSequence : Option ℕ := none

def ReplayState.new (c : Checkpoint) (streamName : StreamName) (retainedResults : ℕ) :
    ReplayState where
  seed := ⟨c.appliedSeq, c.replayOffset, c.replayOffset, RetryWindow.empty⟩
  tree := c.tree
  checkpointAppliedSeq := c.appliedSeq
  streamName := streamName
  retainedResults := retainedResults

def validateReplayRecord (f : WireFormat) (partitionId : PartitionId) (ownershipEpoch : ℕ)
    (r : WalRecord) : Except ChunkKvError Unit := do
  ensure (r.partitionId = partitionId ∧ r.ownershipEpoch ≤ ownershipEpoch)
    (.journalCorruption "WAL record partition or epoch is invalid")
  ensure (r.operationDigest = f.digest r.operation)
    (.journalCorruption "WAL operation digest mismatch")
  ensure (r.result.revisionIs r.mutationSeq = true)
    (.journalCorruption "applied revision differs from mutation sequence")

def reusedIdentity : ChunkKvError :=
  .journalCorruption "request identifier is reused by multiple mutations"

/-- The offset of the oldest retained result, on whichever stream it lies. -/
def oldestOffset (w : Retry) : Option ℕ :=
  (w.resultOrder.head?.bind w.results).map (·.response.journalPosition.offset)

section
variable (limit : ℕ) (seed : RecoverySeed) (entry : RequestId × RetainedResult)

def RecoverySeed.retain : RecoverySeed :=
  let retry := seed.retry.retain limit entry.1 entry.2
  { seed with
    retry := retry
    retryReplayOffset := (oldestOffset retry).getD seed.retryReplayOffset }

def retainRecovered : Except ChunkKvError RecoverySeed :=
  if seed.retry.admits entry.1 then .ok (seed.retain limit entry) else .error reusedIdentity

end

/-- Only records of the partition are retained. -/
def retainBelonging (belongs : Bool) (limit : ℕ) (seed : RecoverySeed)
    (entry : RequestId × RetainedResult) : Except ChunkKvError RecoverySeed :=
  if belongs then retainRecovered limit seed entry else .ok seed

namespace ReplayState

section
variable (st : ReplayState) (frameOffset : ℕ) (r : WalRecord) (belongs : Bool)

/-- The state with the position and the sequences of one more record. -/
def advance : ReplayState :=
  { st with
    seed := { st.seed with
      appliedSeq := if st.checkpointAppliedSeq < r.mutationSeq then r.mutationSeq
        else st.seed.appliedSeq
      appliedPosition := frameOffset }
    tree := if st.checkpointAppliedSeq < r.mutationSeq
      then st.tree.replayRecord r belongs else st.tree
    replayed := Function.update st.replayed r.mutationSeq (some r)
    lastNewSequence := some r.mutationSeq }

def process : Except ChunkKvError ReplayState :=
  match st.replayed r.mutationSeq with
  | some previous =>
    if previous = r then .ok st
    else .error (.journalCorruption "conflicting duplicate mutation sequence")
  | none => do
    ensure (∀ last ∈ st.lastNewSequence, last + 1 = r.mutationSeq)
      (.journalCorruption "journal mutation sequence has a gap")
    ensure (st.checkpointAppliedSeq < r.mutationSeq → r.mutationSeq = st.seed.appliedSeq + 1)
      (.journalCorruption "journal mutation sequence has a gap after checkpoint")
    let next := st.advance frameOffset r belongs
    let seed ← retainBelonging belongs st.retainedResults next.seed
      (retainedEntry st.streamName frameOffset r)
    pure { next with seed := seed }

end

end ReplayState

/-- The frames of a journal from an offset on; an offset inside a frame does not decode. -/
def framesFrom (f : WireFormat) (offset : ℕ) : ℕ → List WalRecord → Option (List (ℕ × WalRecord))
  | start, [] => if start = offset then some [] else none
  | start, r :: rest =>
    if start = offset then some (framesAt f start (r :: rest))
    else framesFrom f offset (start + f.frameBytes r) rest

def replayFrames (f : WireFormat) (partitionId : PartitionId) (ownershipEpoch : ℕ)
    (range : PartitionRange) (st : ReplayState) :
    List (ℕ × WalRecord) → Except ChunkKvError ReplayState
  | [] => .ok st
  | (offset, r) :: rest => do
    validateReplayRecord f partitionId ownershipEpoch r
    let st ← st.process offset r (range.contains r.operation.key)
    replayFrames f partitionId ownershipEpoch range st rest

def magicMismatch : ChunkKvError := .journalCorruption "WAL frame magic mismatch"

def replaySuffix (f : WireFormat) (p : PartitionSpec) (ownershipEpoch : ℕ) (c : Checkpoint)
    (journal : List WalRecord) : Except ChunkKvError ReplayState := do
  ensure (c.replayOffset ≤ journalTail f journal)
    (.journalCorruption "checkpoint replay offset exceeds journal tail")
  let frames ← orFail (framesFrom f c.replayOffset 0 journal) magicMismatch
  replayFrames f p.id ownershipEpoch p.range (.new c p.streamName p.retainedResults) frames

/-- The worker of a replayed partition. -/
def startWorker (seed : RecoverySeed) (tree : Tree) (journal : List WalRecord)
    (checkpoints : List Checkpoint) : Except ChunkKvError WorkerState := do
  ensure (seed.appliedSeq + 1 < 2 ^ 64) (.faulted "mutation sequence exhausted")
  pure {
    nextSeq := seed.appliedSeq + 1
    appliedSeq := seed.appliedSeq
    journalDurableSeq := seed.appliedSeq
    retryReplayOffset := seed.retryReplayOffset
    retry := seed.retry
    tree := tree
    journal := journal
    checkpoints := checkpoints }

def recover (f : WireFormat) (p : PartitionSpec) (ownershipEpoch : ℕ) (c : Checkpoint)
    (journal : List WalRecord) : Except ChunkKvError WorkerState := do
  let st ← replaySuffix f p ownershipEpoch c journal
  startWorker st.seed st.tree journal [c]

/-! ## Records in sequence -/

/-- Sequences are consecutive, from `n` on. -/
def ConsecutiveFrom : ℕ → List WalRecord → Prop
  | _, [] => True
  | n, r :: rest => r.mutationSeq = n ∧ ConsecutiveFrom (n + 1) rest

variable {l m : List WalRecord}

lemma ConsecutiveFrom.append {n : ℕ} :
    ConsecutiveFrom n (l ++ m) ↔ ConsecutiveFrom n l ∧ ConsecutiveFrom (n + l.length) m := by
  induction l generalizing n with
  | nil => simp [ConsecutiveFrom]
  | cons _ _ ih =>
    rw [cons_append, ConsecutiveFrom, ConsecutiveFrom, ih, and_assoc, length_cons,
      Nat.add_assoc, Nat.add_comm 1]

lemma framesAt_append (f : WireFormat) (offset : ℕ) (l m : List WalRecord) :
    framesAt f offset (l ++ m) = framesAt f offset l ++
      framesAt f (offset + journalTail f l) m := by
  induction l generalizing offset with
  | nil => simp [framesAt, journalTail]
  | cons _ _ ih => simp [framesAt, journalTail, ih, Nat.add_assoc]

lemma consecutive_drop {n k : ℕ} (h : ConsecutiveFrom (n + 1) l) (hk : k ≤ l.length) :
    ConsecutiveFrom (n + k + 1) (l.drop k) := by
  rw [← take_append_drop k l, ConsecutiveFrom.append, length_take_of_le hk, Nat.add_right_comm] at h
  exact h.2

@[simp] lemma framesAt_map_snd (f : WireFormat) (offset : ℕ) (l : List WalRecord) :
    (framesAt f offset l).map Prod.snd = l := by
  induction l generalizing offset with
  | nil => rfl
  | cons _ _ ih => simp [framesAt, ih]

/-- The frames behind a prefix start at the prefix's tail. -/
theorem framesFrom_append (f : WireFormat) (start : ℕ) (l m : List WalRecord) :
    framesFrom f (start + journalTail f l) start (l ++ m)
      = some (framesAt f (start + journalTail f l) m) := by
  induction l generalizing start with
  | nil => cases m <;> simp [framesFrom, journalTail, framesAt]
  | cons r l ih =>
    have htail : journalTail f (r :: l) = f.frameBytes r + journalTail f l := by simp [journalTail]
    have hne : start ≠ start + journalTail f (r :: l) := by
      have := f.frameBytes_pos r
      omega
    rw [cons_append, framesFrom, if_neg hne, htail, ← Nat.add_assoc]
    exact ih _

namespace ReplayState

/-- The next record carries sequence `n`, and everything before it has been absorbed. -/
structure InSequence (st : ReplayState) (n : ℕ) : Prop where
  pos : 0 < n
  fresh : ∀ m, n ≤ m → st.replayed m = none
  last : ∀ last ∈ st.lastNewSequence, last + 1 = n
  applied : st.seed.appliedSeq = max st.checkpointAppliedSeq (n - 1)

/-- The state after one accepted record. -/
def absorb (range : PartitionRange) (st : ReplayState) (frame : ℕ × WalRecord) : ReplayState :=
  let next := st.advance frame.1 frame.2 (range.contains frame.2.operation.key)
  { next with
    seed := if range.contains frame.2.operation.key then
        next.seed.retain st.retainedResults (retainedEntry st.streamName frame.1 frame.2)
      else next.seed }

variable {st : ReplayState} {range : PartitionRange} {offset n : ℕ} {r : WalRecord}

lemma process_eq (h : st.InSequence r.mutationSeq) :
    st.process offset r (range.contains r.operation.key) =
      if range.contains r.operation.key = true ∧ st.seed.retry.admits r.requestId = false
      then .error reusedIdentity else .ok (st.absorb range (offset, r)) := by
  have hgap : st.checkpointAppliedSeq < r.mutationSeq → r.mutationSeq = st.seed.appliedSeq + 1 := by
    have := h.applied
    omega
  have hlast : ∀ last ∈ st.lastNewSequence, last + 1 = r.mutationSeq := h.last
  simp only [process, h.fresh _ le_rfl, ensure, if_pos hlast, if_pos hgap]
  cases hb : range.contains r.operation.key with
  | false => simp [retainBelonging, absorb, hb, bind, Except.bind]
  | true =>
    cases ha : st.seed.retry.admits r.requestId with
    | false =>
      simp [retainBelonging, retainRecovered, advance, retainedEntry, ha, bind, Except.bind]
    | true =>
      simp [retainBelonging, retainRecovered, advance, absorb, retainedEntry, ha, hb, bind,
        Except.bind]

lemma InSequence.absorb (h : st.InSequence r.mutationSeq) :
    (st.absorb range (offset, r)).InSequence (r.mutationSeq + 1) := by
  have happlied := h.applied
  have hadvance : (st.advance offset r (range.contains r.operation.key)).InSequence
      (r.mutationSeq + 1) := by
    refine ⟨Nat.succ_pos _, fun m hm => ?_, fun last hl => ?_, ?_⟩
    · have hne : m ≠ r.mutationSeq := by omega
      simpa [advance, Function.update_of_ne hne] using h.fresh m (by omega)
    · simp only [advance, Option.mem_def, Option.some.injEq] at hl
      omega
    · simp only [advance]
      split <;> omega
  refine ⟨hadvance.pos, hadvance.fresh, hadvance.last, ?_⟩
  simp only [ReplayState.absorb]
  split
  · exact hadvance.applied
  · exact hadvance.applied

section
variable (frame : ℕ × WalRecord)
include frame

@[simp] lemma absorb_retainedResults :
    (st.absorb range frame).retainedResults = st.retainedResults := rfl

@[simp] lemma absorb_streamName : (st.absorb range frame).streamName = st.streamName := rfl

@[simp] lemma absorb_checkpointAppliedSeq :
    (st.absorb range frame).checkpointAppliedSeq = st.checkpointAppliedSeq := rfl

lemma absorb_tree : (st.absorb range frame).tree =
      if st.checkpointAppliedSeq < frame.2.mutationSeq
      then st.tree.replayRecord frame.2 (range.contains frame.2.operation.key) else st.tree := rfl

lemma absorb_retry : (st.absorb range frame).seed.retry =
      if range.contains frame.2.operation.key
      then st.seed.retry.retain st.retainedResults frame.2.requestId
        (retainedEntry st.streamName frame.1 frame.2).2
      else st.seed.retry := by
  simp only [absorb]
  split <;> rfl

end

/-- The state after all frames were accepted. -/
def absorbAll (range : PartitionRange) (st : ReplayState) (frames : List (ℕ × WalRecord)) :
    ReplayState :=
  frames.foldl (absorb range) st

end ReplayState

/-- What replay retains: the entries of the records in the range. -/
def belongingEntries (range : PartitionRange) (streamName : StreamName)
    (frames : List (ℕ × WalRecord)) : List (RequestId × RetainedResult) :=
  (frames.filter fun frame => range.contains frame.2.operation.key).map fun frame =>
    retainedEntry streamName frame.1 frame.2

/-- A record that `validate_replay_record` lets pass. -/
structure ValidRecord (f : WireFormat) (partitionId : PartitionId) (ownershipEpoch : ℕ)
    (r : WalRecord) : Prop where
  partition : r.partitionId = partitionId
  epoch : r.ownershipEpoch ≤ ownershipEpoch
  digest : r.operationDigest = f.digest r.operation
  revision : r.result.revisionIs r.mutationSeq = true

lemma ValidRecord.mono {f : WireFormat} {partitionId : PartitionId} {epoch epoch' : ℕ}
    {r : WalRecord} (h : ValidRecord f partitionId epoch r) (hle : epoch ≤ epoch') :
    ValidRecord f partitionId epoch' r :=
  { h with epoch := h.epoch.trans hle }

lemma validateReplayRecord_ok {f : WireFormat} {partitionId : PartitionId} {ownershipEpoch : ℕ}
    {r : WalRecord} (h : ValidRecord f partitionId ownershipEpoch r) :
    validateReplayRecord f partitionId ownershipEpoch r = .ok () := by
  have hid : r.partitionId = partitionId ∧ r.ownershipEpoch ≤ ownershipEpoch :=
    ⟨h.partition, h.epoch⟩
  simp [validateReplayRecord, ensure, hid, h.digest, h.revision, bind, Except.bind]

variable {p : PartitionSpec}

section Frames
variable {f : WireFormat} {partitionId : PartitionId} {ownershipEpoch : ℕ} {range : PartitionRange}

/-- Over valid records in sequence, replay accepts exactly the journals whose identities
are admitted in turn. -/
theorem replayFrames_eq {frames : List (ℕ × WalRecord)} {st : ReplayState} {n : ℕ}
    (hseq : ConsecutiveFrom n (frames.map Prod.snd)) (hst : st.InSequence n)
    (hvalid : ∀ frame ∈ frames, ValidRecord f partitionId ownershipEpoch frame.2) :
    replayFrames f partitionId ownershipEpoch range st frames =
      if st.seed.retry.admitsAll st.retainedResults (belongingEntries range st.streamName frames)
      then .ok (st.absorbAll range frames) else .error reusedIdentity := by
  induction frames generalizing st n with
  | nil => rfl
  | cons frame frames ih =>
    obtain ⟨offset, r⟩ := frame
    obtain ⟨hn, hseq⟩ := hseq
    obtain rfl : r.mutationSeq = n := hn
    have hnext : (st.absorb range (offset, r)).InSequence (r.mutationSeq + 1) := hst.absorb
    have hrest := ih hseq hnext fun x hx => hvalid x (.tail _ hx)
    simp only [replayFrames, validateReplayRecord_ok (hvalid _ (.head _)),
      ReplayState.process_eq hst]
    cases hb : range.contains r.operation.key with
    | false =>
      have hretry : (st.absorb range (offset, r)).seed.retry = st.seed.retry := by
        simp [ReplayState.absorb_retry, hb]
      have hentries : belongingEntries range st.streamName ((offset, r) :: frames)
          = belongingEntries range st.streamName frames := by
        simp [belongingEntries, hb]
      rw [hentries]
      simpa [hretry, ReplayState.absorbAll, bind, Except.bind] using hrest
    | true =>
      have hretry : (st.absorb range (offset, r)).seed.retry =
        st.seed.retry.retain st.retainedResults
          r.requestId (retainedEntry st.streamName offset r).2 := by
        simp [ReplayState.absorb_retry, hb]
      have hentries : belongingEntries range st.streamName ((offset, r) :: frames)
          = retainedEntry st.streamName offset r ::
            belongingEntries range st.streamName frames := by
        simp [belongingEntries, hb]
      rw [hentries]
      cases ha : st.seed.retry.admits r.requestId with
      | false => simp [admitsAll, retainedEntry, ha, bind, Except.bind]
      | true =>
        simpa [hretry, admitsAll, retainedEntry, ha, ReplayState.absorbAll, bind,
          Except.bind] using hrest

namespace ReplayState
variable {st : ReplayState} {frames : List (ℕ × WalRecord)} {n : ℕ}

lemma InSequence.absorbAll (h : st.InSequence n)
    (hseq : ConsecutiveFrom n (frames.map Prod.snd)) :
    (st.absorbAll range frames).InSequence (n + frames.length) := by
  induction frames generalizing st n with
  | nil => exact h
  | cons frame _ ih =>
    obtain ⟨hn, hseq⟩ := hseq
    subst hn
    have hnext : (st.absorb range frame).InSequence (frame.2.mutationSeq + 1) := h.absorb
    have hrest := ih hnext hseq
    rwa [Nat.add_assoc, Nat.add_comm 1] at hrest

@[simp] lemma absorbAll_checkpointAppliedSeq :
    (st.absorbAll range frames).checkpointAppliedSeq = st.checkpointAppliedSeq := by
  induction frames generalizing st with
  | nil => rfl
  | cons _ _ ih => exact ih

lemma absorbAll_retry : (st.absorbAll range frames).seed.retry =
    st.seed.retry.retainAll st.retainedResults (belongingEntries range st.streamName frames) := by
  induction frames generalizing st with
  | nil => rfl
  | cons frame _ ih =>
    refine ih.trans ?_
    rw [absorb_retry]
    cases hb : range.contains frame.2.operation.key with
    | false => simp [belongingEntries, hb]
    | true => simp [belongingEntries, hb, retainedEntry]

/-- The replay offset is the one replay has started with, or that of a retained entry. -/
theorem absorbAll_offset {o : ℕ} (entries : List (RequestId × RetainedResult))
    (hresults : ∀ id r, st.seed.retry.results id = some r → (id, r) ∈ entries)
    (hoffset : st.seed.retryReplayOffset = o ∨
      ∃ e ∈ entries, e.2.response.journalPosition.offset = st.seed.retryReplayOffset) :
    (st.absorbAll range frames).seed.retryReplayOffset = o ∨
      ∃ e ∈ entries ++ belongingEntries range st.streamName frames,
        e.2.response.journalPosition.offset =
        (st.absorbAll range frames).seed.retryReplayOffset := by
  induction frames generalizing st entries with
  | nil => simpa [belongingEntries, absorbAll] using hoffset
  | cons frame frames ih =>
    cases hb : range.contains frame.2.operation.key with
    | false =>
      have hseed : (st.absorb range frame).seed.retry = st.seed.retry ∧
          (st.absorb range frame).seed.retryReplayOffset = st.seed.retryReplayOffset := by
        simp [absorb, hb, advance]
      have hrest :
          (absorbAll range (st.absorb range frame) frames).seed.retryReplayOffset = o ∨ _ :=
        ih _ (hseed.1 ▸ hresults) (hseed.2 ▸ hoffset)
      simpa [belongingEntries, hb, absorbAll] using hrest
    | true =>
      have hretry : (st.absorb range frame).seed.retry = _ := absorb_retry frame
      rw [if_pos hb] at hretry
      have hresults' : ∀ id r, (st.absorb range frame).seed.retry.results id = some r →
          (id, r) ∈ entries ++ [retainedEntry st.streamName frame.1 frame.2] := by
        intro id r hr
        rw [hretry] at hr
        rcases mem_of_retain hr with hr | hr
        · exact mem_append_left _ (hresults id r hr)
        · exact mem_append_right _ (hr ▸ .head _)
      have hoffset' : (st.absorb range frame).seed.retryReplayOffset = o ∨
          ∃ e ∈ entries ++ [retainedEntry st.streamName frame.1 frame.2],
            e.2.response.journalPosition.offset
              = (st.absorb range frame).seed.retryReplayOffset := by
        have hseed : (st.absorb range frame).seed.retryReplayOffset
            = (oldestOffset (st.absorb range frame).seed.retry).getD st.seed.retryReplayOffset := by
          simp only [absorb, hb]
          rfl
        cases hold : oldestOffset (st.absorb range frame).seed.retry with
        | none =>
          rw [hseed, hold]
          exact hoffset.imp id fun ⟨e, he, heq⟩ => ⟨e, mem_append_left _ he, heq⟩
        | some =>
          obtain ⟨r, hr, hx⟩ := Option.map_eq_some_iff.mp hold
          obtain ⟨id, -, hid⟩ := Option.bind_eq_some_iff.mp hr
          exact .inr ⟨(id, r), hresults' id r hid, by rw [hseed, hold, ← hx]; rfl⟩
      have hrest :
          (absorbAll range (st.absorb range frame) frames).seed.retryReplayOffset = o ∨ _ :=
        ih _ hresults' hoffset'
      simpa [belongingEntries, hb, absorbAll] using hrest

/-- Replay applies the records behind the checkpoint. -/
theorem absorbAll_tree (hseq : ConsecutiveFrom n (frames.map Prod.snd)) :
    (st.absorbAll range frames).tree
      = ((frames.map Prod.snd).drop (st.checkpointAppliedSeq + 1 - n)).foldl
        (fun t r => t.replayRecord r (range.contains r.operation.key)) st.tree := by
  induction frames generalizing st n with
  | nil => simp [absorbAll]
  | cons frame _ ih =>
    obtain ⟨hn, hseq⟩ := hseq
    subst hn
    refine (ih hseq).trans ?_
    rw [absorb_tree, absorb_checkpointAppliedSeq]
    by_cases hlt : st.checkpointAppliedSeq < frame.2.mutationSeq
    · rw [if_pos hlt, show st.checkpointAppliedSeq + 1 - frame.2.mutationSeq = 0 by omega,
        show st.checkpointAppliedSeq + 1 - (frame.2.mutationSeq + 1) = 0 by omega]
      rfl
    · rw [if_neg hlt, show st.checkpointAppliedSeq + 1 - frame.2.mutationSeq
          = st.checkpointAppliedSeq + 1 - (frame.2.mutationSeq + 1) + 1 by omega]
      rfl

end ReplayState
lemma replaySuffix_append {c : Checkpoint} (hoffset : c.replayOffset = journalTail f l) :
    replaySuffix f p ownershipEpoch c (l ++ m) =
      replayFrames f p.id ownershipEpoch p.range (.new c p.streamName p.retainedResults)
        (framesAt f (journalTail f l) m) := by
  have hframes := framesFrom_append f 0 l m
  rw [Nat.zero_add] at hframes
  have htail : journalTail f l ≤ journalTail f (l ++ m) := by
    rw [journalTail, journalTail, map_append, sum_append]
    exact Nat.le_add_right _ _
  simp only [replaySuffix, hoffset, ensure, orFail, if_pos htail, hframes, bind, Except.bind]

/-- Recovery from a checkpoint whose replay offset is the end of `l`, over a journal that
goes on with the records `m`. -/
theorem recover_eq {c : Checkpoint} {n : ℕ} (hoffset : c.replayOffset = journalTail f l)
    (hseq : ConsecutiveFrom (n + 1) m) (hbase : n ≤ c.appliedSeq)
    (hvalid : ∀ r ∈ m, ValidRecord f p.id ownershipEpoch r)
    (hbound : max c.appliedSeq (n + m.length) + 1 < 2 ^ 64) : ∃ offset, (offset = c.replayOffset ∨
        ∃ e ∈ belongingEntries p.range p.streamName (framesAt f (journalTail f l) m),
          e.2.response.journalPosition.offset = offset) ∧
      recover f p ownershipEpoch c (l ++ m) =
      if Retry.admitsAll p.retainedResults empty
          (belongingEntries p.range p.streamName (framesAt f (journalTail f l) m))
      then .ok {
        nextSeq := max c.appliedSeq (n + m.length) + 1
        appliedSeq := max c.appliedSeq (n + m.length)
        journalDurableSeq := max c.appliedSeq (n + m.length)
        retryReplayOffset := offset
        retry := Retry.retainAll p.retainedResults empty
          (belongingEntries p.range p.streamName (framesAt f (journalTail f l) m))
        tree := (m.drop (c.appliedSeq - n)).foldl
          (fun t r => t.replayRecord r (p.range.contains r.operation.key)) c.tree
        journal := l ++ m
        checkpoints := [c] }
      else .error reusedIdentity := by
  have hnew : (ReplayState.new c p.streamName p.retainedResults).InSequence (n + 1) :=
    ⟨Nat.succ_pos _, fun _ _ => rfl, nofun, (max_eq_left hbase).symm⟩
  simp only [recover, replaySuffix_append hoffset]
  have hsnd := framesAt_map_snd f (journalTail f l) m
  generalize framesAt f (journalTail f l) m = frames at hsnd ⊢
  have hmap : ConsecutiveFrom (n + 1) (frames.map Prod.snd) := hsnd ▸ hseq
  have hframes : ∀ frame ∈ frames, ValidRecord f p.id ownershipEpoch frame.2 :=
    fun frame hframe => hvalid _ (hsnd ▸ mem_map_of_mem hframe)
  have hretry : ((ReplayState.new c p.streamName p.retainedResults).absorbAll p.range
      frames).seed.retry = Retry.retainAll p.retainedResults empty
        (belongingEntries p.range p.streamName frames) := ReplayState.absorbAll_retry
  have htree : ((ReplayState.new c p.streamName p.retainedResults).absorbAll p.range frames).tree
      = _ := ReplayState.absorbAll_tree hmap
  have happlied : ((ReplayState.new c p.streamName p.retainedResults).absorbAll p.range
      frames).seed.appliedSeq = max c.appliedSeq _ :=
    (hnew.absorbAll hmap).applied.trans (by rw [ReplayState.absorbAll_checkpointAppliedSeq]; rfl)
  rw [← length_map Prod.snd, hsnd, Nat.add_right_comm, Nat.add_sub_cancel] at happlied
  rw [hsnd] at htree
  have hstart : ((ReplayState.new c p.streamName p.retainedResults).absorbAll p.range
      frames).seed.retryReplayOffset = c.replayOffset ∨ _ :=
    ReplayState.absorbAll_offset [] nofun (.inl rfl)
  refine ⟨_, hstart, ?_⟩
  have hreplay : replayFrames f p.id ownershipEpoch p.range
      (.new c p.streamName p.retainedResults) frames = if Retry.admitsAll p.retainedResults empty
        (belongingEntries p.range p.streamName frames) then _ else _ :=
    replayFrames_eq hmap hnew hframes
  rw [hreplay]
  split
  · have hdrop : (ReplayState.new c p.streamName p.retainedResults).checkpointAppliedSeq + 1
        - (n + 1) = c.appliedSeq - n := Nat.add_sub_add_right _ _ _
    simp only [bind, Except.bind, startWorker, happlied, hretry, htree, hdrop, ensure,
      if_pos hbound]
    rfl
  · rfl

end Frames
end CrowDB.ChunkKv
