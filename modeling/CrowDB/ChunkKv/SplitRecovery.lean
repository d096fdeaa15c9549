import CrowDB.ChunkKv.SplitInvariant

/-!
# Recovery of a committed split

The cutover is not stored. `recoverSplitHandoff` takes it from the first record of the child
or, if there is none, from the end of the parent's stream. It then replays the parent's
stream up to there over the committed base, for the child's range, and the child's own
stream behind it.
-/
namespace CrowDB.ChunkKv
open Lib List RetryWindow

/-! ## The code -/

/-- An opened stream. -/
structure JournalHandle where
  streamName : StreamName
  recordGeneration : ℕ
  records : List WalRecord

/-- An opened tree and its last checkpoint. -/
structure TreeHandle where
  treeId : ℕ
  checkpointManifest : ℕ
  checkpointSeq : ℕ
  tree : Tree

section Recover
variable (f : WireFormat) (a : PreparedSplitWriterArtifact) (retainedResults : ℕ)

/-- The sequence before the first child record, which is checked like every other one. -/
def inheritedEnd : Option WalRecord → Except ChunkKvError (Option ℕ)
  | none => .ok none
  | some first => do
    ensure (first.mutationSeq ≠ 0) (.journalCorruption "zero child WAL sequence")
    validateReplayRecord f a.partitionId a.ownershipEpoch first
    pure (some (first.mutationSeq - 1))

def advanceFrontier (sequence : ℕ) (r : WalRecord) : Except ChunkKvError ℕ :=
  if sequence < r.mutationSeq then do
    ensure (r.mutationSeq = sequence + 1) (.journalCorruption "parent handoff WAL sequence gap")
    pure r.mutationSeq
  else .ok sequence

def scanFrontier (target : Option ℕ) :
    ℕ → ℕ → List (ℕ × WalRecord) → Except ChunkKvError (ℕ × ℕ)
  | sequence, frameOffset, [] => do
    ensure (a.appliedSeq ≤ sequence ∧ ∀ stop ∈ target, stop = sequence)
      (.journalCorruption "parent WAL does not cover child inheritance")
    pure (sequence, frameOffset)
  | sequence, frameOffset, (_, r) :: rest => do
    validateReplayRecord f a.parentId a.parentEpoch r
    let sequence ← advanceFrontier sequence r
    if target = some sequence ∧ a.parentCutoverOffset ≤ frameOffset + f.frameBytes r then
      pure (sequence, frameOffset + f.frameBytes r)
    else scanFrontier target sequence (frameOffset + f.frameBytes r) rest

def inheritedFrontier (journal : List WalRecord) (target : Option ℕ) :
    Except ChunkKvError (ℕ × ℕ) := do
  ensure (∀ stop ∈ target, a.appliedSeq ≤ stop)
    (.journalCorruption "child WAL precedes committed handoff")
  let frames ← readFrames f a.parentReplayOffset journal
  scanFrontier f a target a.baseAppliedSeq a.parentReplayOffset frames

/-- The checks of `validate_prepared_overlay` that the checkpoint, made from the artifact
itself, does not meet by construction. -/
def validatePreparedOverlay (tree : TreeHandle) (journal parentJournal : JournalHandle) :
    Except ChunkKvError Unit := do
  ensure (a.ownershipEpoch ≠ 0 ∧ a.treeId ≠ 0 ∧ a.treeId = tree.treeId
      ∧ a.rootManifestGeneration ≠ 0 ∧ a.baseAppliedSeq ≤ a.appliedSeq
      ∧ a.childStreamStartSeq = a.appliedSeq + 1 ∧ a.parentId ≠ ⟨0, 0⟩ ∧ a.parentEpoch ≠ 0
      ∧ a.streamName = journal.streamName ∧ journal.recordGeneration ≠ 0
      ∧ a.parentStreamName = parentJournal.streamName ∧ a.parentStreamName ≠ a.streamName
      ∧ a.parentStreamGeneration ≠ 0
      ∧ a.parentStreamGeneration ≤ parentJournal.recordGeneration
      ∧ a.parentReplayOffset ≤ a.parentCutoverOffset
      ∧ a.parentCutoverOffset ≤ journalTail f parentJournal.records)
    (.invalidRequest "prepared overlay identities or frontiers are invalid")
  ensure ((tree.checkpointManifest, tree.checkpointSeq) = (a.treeManifest, a.baseAppliedSeq))
    (.treeCorruption "prepared overlay base differs from the tree checkpoint")

/-- Nothing behind the cutover offset is read. -/
def replayParentOverlay (tree : Tree) (journal : List WalRecord) (warmed : Bool) :
    Except ChunkKvError ReplayState := do
  let checkpointSeq := if warmed then a.appliedSeq else a.baseAppliedSeq
  let frames ← readFrames f a.parentReplayOffset journal
  let frames := frames.takeWhile fun frame =>
    decide (frame.1 + f.frameBytes frame.2 ≤ a.parentCutoverOffset)
  let st ← replayFrames f a.parentId a.parentEpoch a.range {
    seed := ⟨checkpointSeq, a.parentReplayOffset, a.parentReplayOffset, RetryWindow.empty⟩
    tree := tree
    checkpointAppliedSeq := checkpointSeq
    streamName := a.parentStreamName
    retainedResults := retainedResults } frames
  ensure (a.parentReplayOffset + journalTail f (frames.map Prod.snd) = a.parentCutoverOffset
      ∧ st.seed.appliedSeq = a.appliedSeq
      ∧ (a.baseAppliedSeq ≠ a.appliedSeq → st.lastNewSequence = some a.appliedSeq))
    (.journalCorruption "parent overlay does not reach the exact cutover")
  pure { st with seed := { st.seed with appliedPosition := 0 } }

/-- Every record of the child's own stream belongs to it. -/
def replayChildOverlay (journal : JournalHandle) (parent : ReplayState) :
    Except ChunkKvError ReplayState :=
  replayFrames f a.partitionId a.ownershipEpoch ⟨none, none⟩ {
    seed := parent.seed
    tree := parent.tree
    checkpointAppliedSeq := a.appliedSeq
    streamName := journal.streamName
    retainedResults := retainedResults } (framesAt f 0 journal.records)

def recoverPreparedOverlay (tree : TreeHandle) (journal parentJournal : JournalHandle) :
    Except ChunkKvError WorkerState := do
  validatePreparedOverlay f a tree journal parentJournal
  ensure (a.range.validate = true) (.invalidRequest "partition range must be nonempty")
  let warmed := decide (tree.tree.contiguousSlot = a.appliedSeq)
  ensure (warmed = true ∨ tree.tree.contiguousSlot = a.baseAppliedSeq)
    (.treeCorruption "prepared child tree is neither at base nor cutover")
  let parent ← replayParentOverlay f a retainedResults tree.tree parentJournal.records warmed
  let st ← replayChildOverlay f a retainedResults journal parent
  let w ← startWorker { st.seed with retryReplayOffset := 0 } st.tree journal.records []
  pure { w with lifecycle := .prepared }

/-- The artifact with the cutover that was found. -/
def PreparedSplitWriterArtifact.cutAt (sequence offset : ℕ) : PreparedSplitWriterArtifact :=
  { a with
    appliedSeq := sequence
    parentCutoverOffset := offset
    childStreamStartSeq := sequence + 1 }

def recoverSplitHandoff (tree : TreeHandle) (journal parentJournal : JournalHandle) :
    Except ChunkKvError (WorkerState × PreparedSplitWriterArtifact) := do
  let target ← inheritedEnd f a journal.records.head?
  let (sequence, offset) ← inheritedFrontier f a parentJournal.records target
  ensure (sequence + 1 < 2 ^ 64) (.journalCorruption "child WAL sequence overflow")
  let w ← recoverPreparedOverlay f (a.cutAt sequence offset) retainedResults tree journal
    parentJournal
  pure (w, a.cutAt sequence offset)

end Recover

/-! ## Where the child starts -/

variable {l : List WalRecord} {k : ℕ} {st : ReplayState} {target : Option ℕ} {n : ℕ}

section Frontier
variable {f : WireFormat} {a : PreparedSplitWriterArtifact}

variable {offset : ℕ}

/-- The scan stops behind the target, or in front of it if the base reaches that far. -/
theorem scanFrontier_ok {q sequence : ℕ} (hseq : ConsecutiveFrom q l) (hpos : 0 < q)
    (hq : q ≤ sequence + 1) (hvalid : ∀ r ∈ l, ValidRecord f a.parentId a.parentEpoch r)
    (happlied : a.appliedSeq ≤ sequence)
    (htarget : ∀ stop ∈ target, sequence ≤ stop ∧ q ≤ stop ∧ stop < q + l.length ∧
      a.parentCutoverOffset ≤ offset + journalTail f (l.take (stop + 1 - q))) :
    ∃ k found, scanFrontier f a target sequence offset (framesAt f offset l)
        = .ok (found, offset + journalTail f (l.take k)) ∧
      found = target.getD (max sequence (q + l.length - 1)) ∧
      (q + k = found + 1 ∨ q + k ≤ sequence + 1 ∧ found = sequence) := by
  induction l generalizing q sequence offset with
  | nil =>
    have hnone : target = none := by
      cases target with
      | none => rfl
      | some stop =>
        obtain ⟨-, hle, hlt, -⟩ := htarget stop rfl
        rw [length_nil] at hlt
        omega
    subst hnone
    refine ⟨0, sequence, ?_, ?_, by omega⟩
    · have hcover : a.appliedSeq ≤ sequence ∧ ∀ stop ∈ none, stop = sequence := ⟨happlied, nofun⟩
      rw [framesAt, scanFrontier, ensure, if_pos hcover]
      rfl
    · simp only [Option.getD_none, length_nil]
      omega
  | cons r l ih =>
    obtain ⟨hr, hseq⟩ := hseq
    obtain rfl : r.mutationSeq = q := hr
    have hadvance : advanceFrontier sequence r = .ok (max sequence r.mutationSeq) := by
      rw [advanceFrontier]
      split
      · rw [ensure, if_pos (by omega), Nat.max_eq_right (by omega)]
        rfl
      · rw [Nat.max_eq_left (by omega)]
    have hlen : (r :: l).length = l.length + 1 := length_cons
    rw [framesAt, scanFrontier]
    simp only [validateReplayRecord_ok (hvalid r (.head _)), hadvance, bind, Except.bind]
    split
    · next hstop =>
      refine ⟨1, max sequence r.mutationSeq, ?_, ?_, by omega⟩
      · simp [journalTail]
      · rw [hstop.1]
        rfl
    · next hgo =>
      have hrest : ∀ stop ∈ target, max sequence r.mutationSeq ≤ stop ∧ r.mutationSeq + 1 ≤ stop ∧
          stop < r.mutationSeq + 1 + l.length ∧ a.parentCutoverOffset ≤
            offset + f.frameBytes r + journalTail f (l.take (stop + 1 - (r.mutationSeq + 1))) := by
        intro stop hstop
        obtain ⟨hle, hqle, hlt, hcut⟩ := htarget stop hstop
        have htake : (r :: l).take (stop + 1 - r.mutationSeq)
            = r :: l.take (stop + 1 - (r.mutationSeq + 1)) := by
          rw [show stop + 1 - r.mutationSeq = stop + 1 - (r.mutationSeq + 1) + 1 by omega,
            take_succ_cons]
        rw [htake, journalTail_cons, ← Nat.add_assoc] at hcut
        -- the scan goes on, so this is not the last record up to the target
        have hne : r.mutationSeq ≠ stop := by
          rintro rfl
          refine hgo ⟨?_, ?_⟩
          · rw [hstop, Nat.max_eq_right hle]
          · simpa [journalTail] using hcut
        exact ⟨by omega, by omega, by omega, hcut⟩
      have hnext : r.mutationSeq + 1 ≤ max sequence r.mutationSeq + 1 := by omega
      obtain ⟨k, found, hscan, hfound, hend⟩ := ih hseq (Nat.succ_pos _) hnext
        (fun x hx => hvalid x (.tail r hx)) (by omega) hrest
      refine ⟨k + 1, found, ?_, ?_, by omega⟩
      · rw [hscan, take_succ_cons, journalTail_cons, Nat.add_assoc]
      · rw [hfound]
        congr 1
        omega

lemma framesAt_takeWhile {stop : ℕ} (hstop : stop = offset + journalTail f (l.take k)) :
    (framesAt f offset l).takeWhile (fun frame => decide (frame.1 + f.frameBytes frame.2 ≤ stop))
      = framesAt f offset (l.take k) := by
  induction l generalizing offset k with
  | nil => simp [framesAt]
  | cons r _ ih =>
    cases k with
    | zero =>
      have hpos := f.frameBytes_pos r
      have hout : ¬ offset + f.frameBytes r ≤ stop := by
        have hnil : journalTail f [] = 0 := rfl
        rw [hstop, take_zero]
        omega
      simp [framesAt, hout]
    | succ =>
      rw [take_succ_cons, journalTail_cons, ← Nat.add_assoc] at hstop
      have hin : offset + f.frameBytes r ≤ stop := hstop ▸ Nat.le_add_right _ _
      simp [framesAt, hin, ih hstop]

/-- A replay of records in sequence whose identities are admitted in turn. -/
theorem replayFrames_records {partitionId : PartitionId} {epoch : ℕ} {range : PartitionRange}
    (hst : st.InSequence (n + 1)) (hseq : ConsecutiveFrom (n + 1) l)
    (hvalid : ∀ r ∈ l, ValidRecord f partitionId epoch r)
    (hadmitted : st.seed.retry.admitsAll st.retainedResults
      (belongingEntries range st.streamName (framesAt f offset l)) = true) :
    ∃ st', replayFrames f partitionId epoch range st (framesAt f offset l) = .ok st' ∧
      st'.tree = (l.drop (st.checkpointAppliedSeq - n)).foldl
        (fun t r => t.replayRecord r (range.contains r.operation.key)) st.tree ∧
      st'.seed.retry = st.seed.retry.retainAll st.retainedResults
        (belongingEntries range st.streamName (framesAt f offset l)) ∧
      st'.seed.appliedSeq = max st.checkpointAppliedSeq (n + l.length) ∧
      (l ≠ [] → st'.lastNewSequence = some (n + l.length)) := by
  have hmap : ConsecutiveFrom (n + 1) ((framesAt f offset l).map Prod.snd) := by
    rwa [framesAt_map_snd]
  have hframes : ∀ frame ∈ framesAt f offset l, ValidRecord f partitionId epoch frame.2 := by
    intro frame hframe
    refine hvalid _ ?_
    rw [← framesAt_map_snd f offset l]
    exact mem_map_of_mem hframe
  have hlen : (framesAt f offset l).length = l.length := by
    rw [← length_map Prod.snd, framesAt_map_snd]
  have hrun : replayFrames f partitionId epoch range st (framesAt f offset l)
      = .ok (st.absorbAll range (framesAt f offset l)) :=
    (replayFrames_eq hmap hst hframes).trans (if_pos hadmitted)
  have htree : (st.absorbAll range (framesAt f offset l)).tree = _ :=
    ReplayState.absorbAll_tree hmap
  have hafter : (st.absorbAll range (framesAt f offset l)).InSequence _ := hst.absorbAll hmap
  rw [framesAt_map_snd, Nat.add_sub_add_right] at htree
  refine ⟨_, hrun, htree, ReplayState.absorbAll_retry, ?_, fun hne => ?_⟩
  · rw [hafter.applied, ReplayState.absorbAll_checkpointAppliedSeq]
    omega
  · obtain ⟨last, hlast⟩ : ∃ last, (st.absorbAll range (framesAt f offset l)).lastNewSequence
        = some last := by
      rcases eq_nil_or_concat l with rfl | ⟨front, r, rfl⟩
      · exact absurd rfl hne
      · rw [concat_eq_append, framesAt_append, ReplayState.absorbAll, foldl_append]
        exact ⟨_, rfl⟩
    have hsucc := hafter.last last hlast
    rw [hlast]
    congr 1
    omega

end Frontier

variable {parentJournal : JournalHandle}

namespace CursorOk
variable {f : WireFormat} {su : SplitSetup} {t₀ : Tree} {front log : List WalRecord}
  {o i b m : ℕ} {c : DeltaCursor} {base : Retry}

/-- Without a child record the child starts behind the parent's tail, with one in front of it. -/
def Cutover (t₀ : Tree) (log : List WalRecord) (i b m : ℕ) (target : Option ℕ) : Prop :=
  target = none ∧ m = log.length ∨
    target = some (t₀.contiguousSlot + m) ∧ i < m ∧ b ≤ m ∧ m ≤ log.length

lemma readFrames (h : CursorOk f su t₀ front log o c i b) :
    readFrames f (su.artifact o c).parentReplayOffset (front ++ log)
      = .ok (framesAt f (su.artifact o c).parentReplayOffset (log.drop i)) := by
  have hsplit : front ++ log = (front ++ log.take i) ++ log.drop i := by
    rw [append_assoc, take_append_drop]
  rw [h.replay, hsplit]
  exact readFrames_append _ _

lemma inheritedFrontier (h : CursorOk f su t₀ front log o c i b)
    (hlog : JournalOk f su.parent base t₀.contiguousSlot log) (hm : Cutover t₀ log i b m target) :
    ∃ k, i ≤ k ∧ k ≤ m ∧ (k = m ∨ m = b) ∧
      inheritedFrontier f (su.artifact o c) (front ++ log) target
        = .ok (t₀.contiguousSlot + m, journalTail f (front ++ log.take k)) := by
  have hi : i ≤ log.length := h.start.trans h.held
  have hafter : ∀ k, (su.artifact o c).parentReplayOffset + journalTail f ((log.drop i).take k)
      = journalTail f (front ++ log.take (i + k)) := by
    intro k
    rw [take_add, ← append_assoc, journalTail_append, ← h.replay]
    rfl
  have hvalid : ∀ r ∈ log.drop i, ValidRecord f (su.artifact o c).parentId
      (su.artifact o c).parentEpoch r := by
    intro r hr
    have := hlog.valid r (mem_of_mem_drop hr)
    rwa [su.parentId, su.parentEpoch] at this
  have htarget : ∀ stop ∈ target, (su.artifact o c).baseAppliedSeq ≤ stop ∧
      t₀.contiguousSlot + i + 1 ≤ stop ∧
      stop < t₀.contiguousSlot + i + 1 + (log.drop i).length ∧
      (su.artifact o c).parentCutoverOffset ≤ (su.artifact o c).parentReplayOffset
        + journalTail f ((log.drop i).take (stop + 1 - (t₀.contiguousSlot + i + 1))) := by
    rintro stop hstop
    rcases hm with ⟨rfl, -⟩ | ⟨rfl, him, hbm, hle⟩
    · cases hstop
    · cases hstop
      have hbase : (su.artifact o c).baseAppliedSeq = t₀.contiguousSlot + b := h.seq
      refine ⟨by omega, by omega, by rw [length_drop]; omega, ?_⟩
      rw [hafter]
      obtain ⟨j, hj, hoffset⟩ := h.offset_eq
      refine le_of_eq_of_le hoffset ?_
      rw [journalTail_append, journalTail_append]
      exact Nat.add_le_add_left (journalTail_take_le log (by omega)) _
  have hbase : (su.artifact o c).baseAppliedSeq = t₀.contiguousSlot + b := h.seq
  have hbehind := h.start
  have hq : t₀.contiguousSlot + i + 1 ≤ (su.artifact o c).baseAppliedSeq + 1 := by omega
  obtain ⟨k, found, hscan, hfound, hend⟩ := scanFrontier_ok
    (consecutive_drop hlog.consecutive hi) (Nat.succ_pos _) hq hvalid le_rfl htarget
  have hm' : found = t₀.contiguousSlot + m ∧ b ≤ m := by
    rw [length_drop] at hfound
    rcases hm with ⟨rfl, hlen⟩ | ⟨rfl, -, hbm, -⟩
    · have hheld := h.held
      rw [Option.getD_none] at hfound
      omega
    · exact ⟨hfound, hbm⟩
  refine ⟨i + k, Nat.le_add_right _ _, by omega, by omega, ?_⟩
  have hprecedes : ∀ stop ∈ target, (su.artifact o c).appliedSeq ≤ stop :=
    fun stop hstop => (htarget stop hstop).1
  rw [ChunkKv.inheritedFrontier, ensure, if_pos hprecedes, h.readFrames, ← hafter, ← hm'.1]
  exact hscan

lemma replayParentOverlay_ok {a : PreparedSplitWriterArtifact} {retainedResults seq : ℕ}
    {tree : Tree} {journal : List WalRecord} {warmed : Bool} {all frames : List (ℕ × WalRecord)}
    (hread : ChunkKv.readFrames f a.parentReplayOffset journal = .ok all)
    (htake : (all.takeWhile fun frame =>
      decide (frame.1 + f.frameBytes frame.2 ≤ a.parentCutoverOffset)) = frames)
    (hseq : (if warmed then a.appliedSeq else a.baseAppliedSeq) = seq)
    (hrun : replayFrames f a.parentId a.parentEpoch a.range {
      seed := ⟨seq, a.parentReplayOffset, a.parentReplayOffset, empty⟩
      tree := tree
      checkpointAppliedSeq := seq
      streamName := a.parentStreamName
      retainedResults := retainedResults } frames = .ok st)
    (hend : a.parentReplayOffset + journalTail f (frames.map Prod.snd) = a.parentCutoverOffset
      ∧ st.seed.appliedSeq = a.appliedSeq
      ∧ (a.baseAppliedSeq ≠ a.appliedSeq → st.lastNewSequence = some a.appliedSeq)) :
    replayParentOverlay f a retainedResults tree journal warmed
      = .ok { st with seed := { st.seed with appliedPosition := 0 } } := by
  simp only [replayParentOverlay, hread, hseq, htake, hrun, ensure, if_pos hend, bind,
    Except.bind, pure, Except.pure]

/-- The entries of the parent's records that replay retains for the child. -/
def inheritedEntries (f : WireFormat) (su : SplitSetup) (front log : List WalRecord) (i k : ℕ) :
    List (RequestId × RetainedResult) :=
  belongingEntries su.plan.child.range su.parent.streamName
    (framesAt f (journalTail f (front ++ log.take i)) ((log.take k).drop i))

/-- The parent's stream is replayed up to the cutover, over the committed base. -/
theorem replayParentOverlay {warmed : Bool} (h : CursorOk f su t₀ front log o c i b)
    (hlog : JournalOk f su.parent base t₀.contiguousSlot log) (hik : i ≤ k) (hkm : k ≤ m)
    (hreach : k = m ∨ m = b) (hbm : b ≤ m) (hm : m ≤ log.length)
    (hwarm : warmed = decide (c.tree.contiguousSlot = t₀.contiguousSlot + m))
    (hadmitted : Retry.admitsAll su.parent.retainedResults empty
      (inheritedEntries f su front log i k) = true) :
    ∃ st, replayParentOverlay f ((su.artifact o c).cutAt (t₀.contiguousSlot + m)
          (journalTail f (front ++ log.take k))) su.parent.retainedResults c.tree (front ++ log)
          warmed = .ok st ∧
      st.tree = childTree su t₀ (log.take m) ∧ st.seed.appliedSeq = t₀.contiguousSlot + m ∧
      st.seed.retry = Retry.retainAll su.parent.retainedResults empty
        (inheritedEntries f su front log i k) := by
  have hslot : c.tree.contiguousSlot = t₀.contiguousSlot + b := by
    rw [h.tree, childTree_slot su (hlog.front b).consecutive,
      length_take_of_le h.held]
  have hstart := h.start
  have hseq : (if warmed then t₀.contiguousSlot + m else c.appliedSeq) = t₀.contiguousSlot + b := by
    rw [h.seq, hwarm]
    split
    · next hw =>
      have := of_decide_eq_true hw
      omega
    · rfl
  have hframes : ((framesAt f o (log.drop i)).takeWhile fun frame =>
      decide (frame.1 + f.frameBytes frame.2 ≤ journalTail f (front ++ log.take k)))
        = framesAt f o ((log.take k).drop i) := by
    rw [drop_take]
    refine framesAt_takeWhile ?_
    rw [h.replay, ← journalTail_append, append_assoc, ← take_add, Nat.add_sub_cancel' hik]
  have hlen : ((log.take k).drop i).length = k - i := by
    rw [length_drop, length_take_of_le (hkm.trans hm)]
  have hcons : ConsecutiveFrom (t₀.contiguousSlot + i + 1) ((log.take k).drop i) :=
    consecutive_drop (hlog.front k).consecutive
      (by rwa [length_take_of_le (hkm.trans hm)])
  have hvalid : ∀ r ∈ (log.take k).drop i,
      ValidRecord f su.plan.parentId su.plan.parentEpoch r := by
    intro r hr
    have := hlog.valid r (mem_of_mem_take (mem_of_mem_drop hr))
    rwa [su.parentId, su.parentEpoch] at this
  have hbehind : t₀.contiguousSlot + i + 1 - 1 ≤ t₀.contiguousSlot + b := by omega
  have hst : ReplayState.InSequence {
      seed := ⟨t₀.contiguousSlot + b, o, o, empty⟩
      tree := c.tree
      checkpointAppliedSeq := t₀.contiguousSlot + b
      streamName := su.parent.streamName
      retainedResults := su.parent.retainedResults } (t₀.contiguousSlot + i + 1) :=
    ⟨Nat.succ_pos _, fun _ _ => rfl, nofun, (max_eq_left hbehind).symm⟩
  rw [inheritedEntries, ← h.replay] at hadmitted ⊢
  obtain ⟨st, hrun, htree, hretry, happlied, hlast⟩ :=
    replayFrames_records hst hcons hvalid hadmitted
  have happlied' : st.seed.appliedSeq = t₀.contiguousSlot + m := by
    rw [happlied]
    change max (t₀.contiguousSlot + b) _ = _
    omega
  refine ⟨_, replayParentOverlay_ok h.readFrames hframes hseq hrun ⟨?_, happlied', fun hne => ?_⟩,
    htree.trans ?_, happlied', hretry⟩
  · rw [framesAt_map_snd]
    change o + _ = journalTail f _
    rw [h.replay, ← journalTail_append, append_assoc, drop_take, ← take_add,
      Nat.add_sub_cancel' hik]
  · -- there are records behind the base, so the last one is at the cutover
    have hne' : t₀.contiguousSlot + b ≠ t₀.contiguousSlot + m := h.seq ▸ hne
    rw [hlast (ne_nil_of_length_pos (by omega))]
    change some _ = some (t₀.contiguousSlot + m)
    congr 1
    omega
  · have hdrop : ((log.take k).drop i).drop (t₀.contiguousSlot + b - (t₀.contiguousSlot + i))
        = (log.take m).drop b := by
      rw [drop_drop, show i + (t₀.contiguousSlot + b - (t₀.contiguousSlot + i)) = b by omega]
      rcases hreach with rfl | rfl
      · rfl
      · rw [drop_eq_nil_of_le (by rw [length_take]; omega),
          drop_eq_nil_of_le (by rw [length_take]; omega)]
    have hjoin := take_append_drop b (log.take m)
    rw [take_take, Nat.min_eq_left hbm] at hjoin
    rw [hdrop, h.tree, ← childTree_append, hjoin]

/-! ## Results that the child takes over -/

lemma inheritedEntries_sublist (f : WireFormat) (su : SplitSetup) (front log : List WalRecord)
    (i k : ℕ) : (inheritedEntries f su front log i k).Sublist
      (entriesFrom f su.parent.streamName (journalTail f (front ++ log.take i))
        ((log.take k).drop i)) := by
  exact filter_sublist.map _

/-- Replay admits what the parent has admitted, and forgets no more than the parent has. -/
theorem inherited_admitted (hik : i ≤ k) (hkm : k ≤ m) (hm : m ≤ log.length)
    (hlog : JournalOk f su.parent base t₀.contiguousSlot log)
    (hbase : base.Coherent su.parent.retainedResults)
    (hadmitted : base.admitsAll su.parent.retainedResults
      (entriesFrom f su.parent.streamName (journalTail f front) log) = true) :
    Retry.admitsAll su.parent.retainedResults empty
        (inheritedEntries f su front log i k) = true ∧
      Covers RequestId.client RequestId.clientSequence
        (base.retainAll su.parent.retainedResults
          (entriesFrom f su.parent.streamName (journalTail f front) (log.take m)))
        (Retry.retainAll su.parent.retainedResults empty
          (inheritedEntries f su front log i k)) := by
  have hpos := su.parent.retainedResults_pos
  have hfirst : ∀ j, i ≤ j → entriesFrom f su.parent.streamName (journalTail f front) (log.take j)
      = entriesFrom f su.parent.streamName (journalTail f front) (log.take i)
        ++ entriesFrom f su.parent.streamName (journalTail f (front ++ log.take i))
          ((log.take j).drop i) := by
    intro j hij
    have hjoin := take_append_drop i (log.take j)
    rw [take_take, Nat.min_eq_left hij] at hjoin
    rw [journalTail_append, ← entriesFrom_append, hjoin]
  have hcoherent : Coherent su.parent.retainedResults (base.retainAll
      su.parent.retainedResults
      (entriesFrom f su.parent.streamName (journalTail f front) (log.take i))) :=
    (hlog.front i).coherent hbase _
  have hsub : (inheritedEntries f su front log i k).Sublist
      (entriesFrom f su.parent.streamName (journalTail f (front ++ log.take i))
        ((log.take m).drop i)) := by
    have hjoin := take_append_drop k (log.take m)
    rw [take_take, Nat.min_eq_left hkm] at hjoin
    refine (inheritedEntries_sublist f su front log i k).trans ?_
    rw [← hjoin, drop_append_of_le_length
      (by rwa [length_take_of_le (hkm.trans hm)]), entriesFrom_append]
    exact sublist_append_left _ _
  have htaken : base.admitsAll su.parent.retainedResults
      (entriesFrom f su.parent.streamName (journalTail f front) (log.take m)) = true := by
    rw [← take_append_drop m log, entriesFrom_append] at hadmitted
    exact (admitsAll_append.mp hadmitted).1
  rw [hfirst m (hik.trans hkm)] at htaken ⊢
  refine ⟨(Covers.empty _).admitsAll hpos hcoherent .empty hsub
    (admitsAll_append.mp htaken).2, ?_⟩
  have hsplit (l r : List (RequestId × RetainedResult)) :
      base.retainAll su.parent.retainedResults (l ++ r) = Retry.retainAll su.parent.retainedResults
        (base.retainAll su.parent.retainedResults l) r := retainAll_append l r
  rw [hsplit]
  exact (Covers.empty _).retainAll hpos hsub hcoherent.bounded (Nat.zero_le _)

variable {journal : JournalHandle}

/-- The child's own records go on behind the cutover. -/
theorem replayChildOverlay {a : PreparedSplitWriterArtifact} (ha : a.partitionId = su.child.id)
    (hepoch : a.ownershipEpoch = su.child.ownershipEpoch)
    (hseq : a.appliedSeq = t₀.contiguousSlot + m) (hname : journal.streamName = su.child.streamName)
    (hcons : ConsecutiveFrom (t₀.contiguousSlot + m + 1) journal.records)
    (hvalid : ∀ r ∈ journal.records, ValidRecord f su.child.id su.child.ownershipEpoch r)
    (happlied : st.seed.appliedSeq = t₀.contiguousSlot + m) (hadmitted : st.seed.retry.admitsAll k
      (entriesFrom f su.child.streamName 0 journal.records) = true) :
    ∃ st', replayChildOverlay f a k journal st = .ok st' ∧
      st'.tree = journal.records.foldl Tree.applyRecord st.tree ∧
      st'.seed.appliedSeq = t₀.contiguousSlot + m + journal.records.length := by
  have hall : ∀ r ∈ journal.records,
      (⟨none, none⟩ : PartitionRange).contains r.operation.key = true := fun _ _ => rfl
  have hst : ReplayState.InSequence {
      seed := st.seed
      tree := st.tree
      checkpointAppliedSeq := a.appliedSeq
      streamName := journal.streamName
      retainedResults := k } (t₀.contiguousSlot + m + 1) := by
    refine ⟨Nat.succ_pos _, fun _ _ => rfl, nofun, ?_⟩
    rw [happlied, hseq]
    exact (max_self _).symm
  have hbelong : belongingEntries ⟨none, none⟩ journal.streamName (framesAt f 0 journal.records)
      = entriesFrom f su.child.streamName 0 journal.records := by
    rw [hname]
    exact belongingEntries_eq hall
  rw [← hbelong] at hadmitted
  obtain ⟨st', hrun, htree, -, hend, -⟩ := replayFrames_records hst hcons hvalid hadmitted
  rw [← ha, ← hepoch] at hrun
  refine ⟨st', hrun, htree.trans ?_, ?_⟩
  · rw [hseq, Nat.sub_self, drop_zero, foldl_replayRecord hall]
  · rw [hend]
    change max a.appliedSeq _ = _
    omega

section
variable (h : CursorOk f su t₀ front log o c i b)
  (hlog : JournalOk f su.parent base t₀.contiguousSlot log)
include h hlog

lemma slot_eq : c.tree.contiguousSlot = t₀.contiguousSlot + b := by
  rw [h.tree, childTree_slot su (hlog.front b).consecutive,
    length_take_of_le h.held]

variable (hname : journal.streamName = su.child.streamName) (hgen : journal.recordGeneration ≠ 0)
  (hparent : parentJournal.streamName = su.parent.streamName)
  (hparentGen : su.parentStreamGeneration ≤ parentJournal.recordGeneration)
  (hrecords : parentJournal.records = front ++ log)
include hname hgen hparent hparentGen hrecords

/-- The artifact passes with every cutover behind the base. -/
theorem validatePreparedOverlay (hik : i ≤ k) (hkm : k ≤ m) (hbm : b ≤ m) (hm : m ≤ log.length) :
    validatePreparedOverlay f ((su.artifact o c).cutAt (t₀.contiguousSlot + m)
        (journalTail f (front ++ log.take k)))
      ⟨su.target.treeId, su.target.treeManifest, c.tree.contiguousSlot, c.tree⟩ journal
      parentJournal = .ok () := by
  have hseq := h.seq
  have hfront : o ≤ journalTail f (front ++ log.take k) := by
    rw [h.replay, journalTail_append, journalTail_append]
    exact Nat.add_le_add_left (journalTail_take_le log hik) _
  have htail : journalTail f (front ++ log.take k) ≤ journalTail f parentJournal.records := by
    have hle : journalTail f (log.take k) ≤ journalTail f (log.take log.length) :=
      journalTail_take_le log (hkm.trans hm)
    rw [take_length] at hle
    rw [hrecords, journalTail_append, journalTail_append]
    exact Nat.add_le_add_left hle _
  have hbase : c.appliedSeq ≤ t₀.contiguousSlot + m := by omega
  have hcheckpoint : (su.target.treeManifest, c.tree.contiguousSlot)
      = (su.target.treeManifest, c.appliedSeq) := by
    rw [h.slot_eq hlog, hseq]
  refine bind_eq_ok.mpr ⟨(), ensure_eq_ok.mpr ?_, ensure_eq_ok.mpr hcheckpoint⟩
  exact ⟨su.epoch_ne_zero.2, su.treeId, rfl, su.rootGeneration, hbase, rfl, su.parentNamed,
    su.epoch_ne_zero.1, hname.symm, hgen, hparent.symm, su.streams, su.parentGeneration, hparentGen,
    hfront, htail⟩

/-- Recovery, over any records of the child behind the cutover. -/
theorem recover (hbase : base.Coherent su.parent.retainedResults)
    (hadmitted : base.admitsAll su.parent.retainedResults
      (entriesFrom f su.parent.streamName (journalTail f front) log) = true)
    (hm : journal.records = [] ∧ m = log.length ∨ journal.records ≠ [] ∧ i < m ∧ b ≤ m ∧
      m ≤ log.length)
    (hchild : JournalOk f su.child
      (base.retainAll su.parent.retainedResults
      (entriesFrom f su.parent.streamName (journalTail f front) (log.take m)))
      (t₀.contiguousSlot + m) journal.records)
    (hturn : Retry.admitsAll su.parent.retainedResults
      (base.retainAll su.parent.retainedResults
      (entriesFrom f su.parent.streamName (journalTail f front) (log.take m)))
      (entriesFrom f su.child.streamName 0 journal.records) = true) :
    ∃ w a, recoverSplitHandoff f (su.artifact o c) su.parent.retainedResults
        ⟨su.target.treeId, su.target.treeManifest, c.tree.contiguousSlot, c.tree⟩ journal
        parentJournal = .ok (w, a) ∧
      w.tree = journal.records.foldl Tree.applyRecord (childTree su t₀ (log.take m)) ∧
      w.nextSeq = t₀.contiguousSlot + m + journal.records.length + 1 ∧
      w.journal = journal.records ∧ a.appliedSeq = t₀.contiguousSlot + m := by
  have hle : b ≤ m ∧ m ≤ log.length := by
    have hheld := h.held
    rcases hm with ⟨-, hlen⟩ | ⟨-, -, hbm, hlen⟩
    · omega
    · exact ⟨hbm, hlen⟩
  obtain ⟨target, htarget, hcut⟩ : ∃ target,
      inheritedEnd f (su.artifact o c) journal.records.head? = .ok target ∧
        Cutover t₀ log i b m target := by
    rcases hm with ⟨hnil, hlen⟩ | ⟨hne, him, hbm, hlen⟩
    · exact ⟨none, by rw [hnil]; rfl, .inl ⟨rfl, hlen⟩⟩
    · obtain ⟨r, rest, hr⟩ := exists_cons_of_ne_nil hne
      have hseq : r.mutationSeq = t₀.contiguousSlot + m + 1 := by
        have := hchild.consecutive
        rw [hr] at this
        exact this.1
      have hvalid : ValidRecord f (su.artifact o c).partitionId
        (su.artifact o c).ownershipEpoch r :=
        hchild.valid r (by rw [hr]; exact .head _)
      refine ⟨some (t₀.contiguousSlot + m), ?_, .inr ⟨rfl, him, hbm, hlen⟩⟩
      rw [hr, head?_cons, inheritedEnd,
        validateReplayRecord_ok hvalid, hseq]
      rfl
  obtain ⟨k, hik, hkm, hreach, hfrontier⟩ := h.inheritedFrontier hlog hcut
  obtain ⟨hreplayed, hcovers⟩ := inherited_admitted hik hkm hle.2 hlog hbase hadmitted
  obtain ⟨st, hst, htree, happlied, hretry⟩ := h.replayParentOverlay hlog hik hkm hreach hle.1 hle.2
    rfl hreplayed
  have hbound := hchild.bounded
  have hwindow : st.seed.retry.admitsAll su.parent.retainedResults
      (entriesFrom f su.child.streamName 0 journal.records) = true := by
    have hpos := su.parent.retainedResults_pos
    rw [hretry]
    exact hcovers.admitsAll hpos ((hlog.front m).coherent hbase _)
      (Coherent.empty.retainAll hpos (.of_admitsAll hpos .empty hreplayed))
      (Sublist.refl _) hturn
  have hoverlay : ∃ st', ChunkKv.replayChildOverlay f ((su.artifact o c).cutAt
      (t₀.contiguousSlot + m) (journalTail f (front ++ log.take k))) su.parent.retainedResults
      journal st = .ok st' ∧ _ ∧ _ :=
    replayChildOverlay rfl rfl rfl hname hchild.consecutive hchild.valid happlied hwindow
  obtain ⟨st', hst', htree', happlied'⟩ := hoverlay
  have hpassed := h.validatePreparedOverlay hlog hname hgen hparent hparentGen hrecords hik hkm
    hle.1 hle.2
  have hover : t₀.contiguousSlot + m + 1 < 2 ^ 64 := by omega
  have hstart : st'.seed.appliedSeq + 1 < 2 ^ 64 := by
    rw [happlied']
    exact hbound
  have hslot := h.slot_eq hlog
  have hat : decide (c.tree.contiguousSlot = t₀.contiguousSlot + m) = true ∨
      c.tree.contiguousSlot = c.appliedSeq := .inr (hslot.trans h.seq.symm)
  rw [← hrecords] at hfrontier hst
  have hw : ∃ w, recoverPreparedOverlay f ((su.artifact o c).cutAt (t₀.contiguousSlot + m)
      (journalTail f (front ++ log.take k))) su.parent.retainedResults
      ⟨su.target.treeId, su.target.treeManifest, c.tree.contiguousSlot, c.tree⟩ journal
      parentJournal = .ok w ∧ w.tree = st'.tree ∧ w.nextSeq = st'.seed.appliedSeq + 1 ∧
      w.journal = journal.records := by
    obtain ⟨v, hv, hvtree, hvnext, hvjournal⟩ : ∃ v, startWorker
        { st'.seed with retryReplayOffset := 0 } st'.tree journal.records [] = .ok v ∧
        v.tree = st'.tree ∧ v.nextSeq = st'.seed.appliedSeq + 1 ∧ v.journal = journal.records :=
      ⟨_, bind_eq_ok.mpr ⟨(), ensure_eq_ok.mpr hstart, rfl⟩, rfl, rfl, rfl⟩
    exact ⟨{ v with lifecycle := .prepared }, bind_eq_ok.mpr ⟨(), hpassed, bind_eq_ok.mpr ⟨(),
      ensure_eq_ok.mpr su.child_range_validate, bind_eq_ok.mpr ⟨(), ensure_eq_ok.mpr hat,
        bind_eq_ok.mpr ⟨st, hst, bind_eq_ok.mpr ⟨st', hst', bind_eq_ok.mpr ⟨v, hv, rfl⟩⟩⟩⟩⟩⟩,
      hvtree, hvnext, hvjournal⟩
  obtain ⟨w, hw, hwtree, hwnext, hwjournal⟩ := hw
  refine ⟨w, _, bind_eq_ok.mpr ⟨target, htarget, bind_eq_ok.mpr ⟨_, hfrontier, bind_eq_ok.mpr
    ⟨(), ensure_eq_ok.mpr hover, bind_eq_ok.mpr ⟨w, hw, rfl⟩⟩⟩⟩, ?_, ?_, hwjournal, rfl⟩
  · rw [hwtree, htree', htree]
  · rw [hwnext, happlied']

end

end CursorOk

/-! ## Runs -/

/-- What is on the child's own stream. -/
def SplitRun.childJournal (s : SplitRun) : List WalRecord := s.child.elim [] (·.worker.journal)

/-- The sequence before the first child record or, without one, the parent's last; the
parent has started behind the records `front`, over the tree `t₀`. -/
def SplitRun.inheritedSeq (t₀ : Tree) (front : List WalRecord) (s : SplitRun) : ℕ :=
  match s.childJournal with
  | [] => t₀.contiguousSlot + (s.parent.journal.length - front.length)
  | first :: _ => first.mutationSeq - 1

lemma filter_le_take {m : ℕ} (h : ConsecutiveFrom (n + 1) l) :
    l.filter (fun r => decide (r.mutationSeq ≤ n + m)) = l.take m := by
  induction l generalizing n m with
  | nil => simp
  | cons r _ ih =>
    obtain ⟨hr, hl⟩ := h
    cases m with
    | zero =>
      have hrest := ih (m := 0) hl
      rw [take_zero, filter_eq_nil_iff] at hrest
      rw [take_zero, filter_eq_nil_iff]
      intro x hx
      rcases mem_cons.mp hx with rfl | hx
      · simp only [decide_eq_true_eq]
        omega
      · have := hrest x hx
        simp only [decide_eq_true_eq] at this ⊢
        omega
    | succ m =>
      have hle : r.mutationSeq ≤ n + (m + 1) := by omega
      have hrest := ih (m := m) hl
      rw [Nat.add_right_comm, Nat.add_assoc] at hrest
      rw [filter_cons, if_pos (decide_eq_true hle), take_succ_cons, hrest]

section Theorem
variable {f : WireFormat} {su : SplitSetup} {t₀ : Tree} {front : List WalRecord} {s : SplitRun}

/-- In every run whose batches are admitted in turn, whose failed writers stay stopped and whose
handoff has a record to replay at the cutover, recovery succeeds from every state behind the
handoff commit. The child gets the parent's records of its range up to the cutover and then its
own. -/
theorem split_handoff_recovers
    (h : (splitSystem True f su t₀ front).Reach (fun s a => s.orderly f su a = true) s)
    {a : PreparedSplitWriterArtifact} {base : Tree} (hs : s.stage = .committed a base)
    {generation parentGeneration : ℕ} (hgen : generation ≠ 0)
    (hparent : su.parentStreamGeneration ≤ parentGeneration) :
    ∃ w a', recoverSplitHandoff f a su.parent.retainedResults
        ⟨su.target.treeId, su.target.treeManifest, base.contiguousSlot, base⟩
        ⟨su.target.streamName, generation, s.childJournal⟩
        ⟨su.parent.streamName, parentGeneration, s.parent.journal⟩ = .ok (w, a') ∧
      w.tree = s.childJournal.foldl Tree.applyRecord
        (childTree su t₀ ((s.parent.journal.drop front.length).filter fun r =>
          decide (r.mutationSeq ≤ s.inheritedSeq t₀ front))) ∧
      w.nextSeq = s.inheritedSeq t₀ front + s.childJournal.length + 1 ∧
      w.journal = s.childJournal ∧ a'.appliedSeq = s.inheritedSeq t₀ front := by
  obtain ⟨retry, done, hinv⟩ := SplitInv.of_reach h fun s a hg =>
    ⟨(Bool.and_eq_true_iff.mp hg).1, fun _ => hg⟩
  have hlog : s.parent.journal.drop front.length = done ++ s.parent.waiting := by
    rw [hinv.parent.journal, drop_left]
  have hlen : s.parent.journal.length - front.length = (done ++ s.parent.waiting).length := by
    rw [hinv.parent.journal, length_append, Nat.add_sub_cancel_left]
  have hstage := hinv.stage
  rw [hs] at hstage
  -- the records of the child, and where they begin
  obtain ⟨i, b, o, c, m, ha, htree, hc, hm, hrecords, hturn⟩ : ∃ i b o c m,
      a = su.artifact o c ∧ base = c.tree ∧
      CursorOk f su t₀ front (done ++ s.parent.waiting) o c i b ∧
      (s.childJournal = [] ∧ m = (done ++ s.parent.waiting).length ∨
        s.childJournal ≠ [] ∧ i < m ∧ b ≤ m ∧ m ≤ (done ++ s.parent.waiting).length) ∧
      JournalOk f su.child (retry.retainAll su.parent.retainedResults
        (entriesFrom f su.parent.streamName (journalTail f front)
          ((done ++ s.parent.waiting).take m))) (t₀.contiguousSlot + m) s.childJournal ∧
      Retry.admitsAll su.parent.retainedResults (retry.retainAll su.parent.retainedResults
        (entriesFrom f su.parent.streamName (journalTail f front)
          ((done ++ s.parent.waiting).take m)))
        (entriesFrom f su.child.streamName 0 s.childJournal) = true := by
    by_cases hnil : s.childJournal = []
    · rw [hnil]
      obtain ⟨i, b, o, c, ha, htree, hc⟩ : ∃ i b o c, a = su.artifact o c ∧ base = c.tree ∧
          CursorOk f su t₀ front (done ++ s.parent.waiting) o c i b := by
        generalize s.child = child at hstage
        cases hstage with
        | committed hc => exact ⟨_, _, _, _, rfl, rfl, hc⟩
        | dispatched hc => exact ⟨_, _, _, _, rfl, rfl, hc⟩
      exact ⟨i, b, o, c, _, ha, htree, hc, .inl ⟨rfl, rfl⟩, ⟨trivial, nofun, nofun,
        hinv.parent.records.bounded, nodup_nil, nofun⟩, rfl⟩
    · generalize hchild : s.child = child at hstage
      cases hstage with
      | committed =>
        exact absurd (by rw [SplitRun.childJournal, hchild]; rfl) hnil
      | @dispatched _ _ _ _ _ ch hc hch =>
        obtain ⟨own, hown⟩ := hch.writer
        have hjournal : s.childJournal = own ++ ch.worker.waiting := by
          rw [SplitRun.childJournal, hchild]
          exact hown.journal
        refine ⟨_, _, _, _, _, rfl, rfl, hc,
          .inr ⟨hnil, hch.start trivial, hch.covered, hch.within⟩, ?_, ?_⟩
        · rw [hjournal]
          exact hown.records
        · rw [hjournal]
          exact hown.admitted trivial
  have hend : s.inheritedSeq t₀ front = t₀.contiguousSlot + m := by
    rw [SplitRun.inheritedSeq]
    split
    · next hnil =>
      rw [hlen]
      rcases hm with ⟨-, rfl⟩ | ⟨hne, -⟩
      · rfl
      · exact absurd hnil hne
    · next first rest hcons =>
      have := hrecords.consecutive
      rw [hcons] at this
      rw [this.1]
      rfl
  subst ha htree
  rw [hend, hlog, filter_le_take hinv.parent.records.consecutive]
  exact hc.recover hinv.parent.records rfl hgen rfl hparent hinv.parent.journal
    hinv.parent.coherentBase (hinv.parent.admitted trivial) hm hrecords hturn

lemma splitKey_le_of_child {key : Key} (h : su.child.range.contains key = true) :
    su.plan.splitKey ≤ key := by
  have hrange : su.child.range.start = some su.plan.splitKey :=
    congrArg (fun halves => halves.2.start) (PartitionRange.split_eq su.split_range)
  rw [PartitionRange.contains, hrange] at h
  simpa using (Bool.and_eq_true_iff.mp h).1

/-- In every run in which a failed parent stays stopped the writers part at the cutover: behind it
the parent only has records to the left of the split key and the child only records from the key
on. -/
theorem split_divides_keys
    (h : (splitSystem False f su t₀ front).Reach (fun s a => s.staysStopped a = true) s)
    {ch : ChildRun} (hs : s.child = some ch) :
    (∀ r ∈ s.parent.journal.drop front.length, ch.cutoverSeq < r.mutationSeq →
      r.operation.key < su.plan.splitKey) ∧
    ∀ r ∈ ch.worker.journal, ch.cutoverSeq < r.mutationSeq ∧
    su.plan.splitKey ≤ r.operation.key := by
  obtain ⟨retry, done, hinv⟩ := SplitInv.of_reach h fun _ _ hg => ⟨hg, False.elim⟩
  have hstage := hinv.stage
  rw [hs] at hstage
  generalize s.stage = stage at hstage
  cases hstage with
  | @dispatched _ _ _ m _ _ hc hch =>
    rw [hch.cutoverSeq]
    constructor
    · intro r hr hlt
      -- the first `m` records are those up to the cutover
      rw [hinv.parent.journal, drop_left, ← take_append_drop m (done ++ _),
        ← filter_le_take hinv.parent.records.consecutive] at hr
      rcases mem_append.mp hr with hr | hr
      · exact absurd (of_decide_eq_true (mem_filter.mp hr).2) (not_le.mpr hlt)
      · exact of_decide_eq_true (Bool.and_eq_true_iff.mp (hch.left r hr)).2
    · intro r hr
      obtain ⟨own, hown⟩ := hch.writer
      rw [hown.journal] at hr
      refine ⟨?_, splitKey_le_of_child (hown.records.ranged r hr)⟩
      have hnone := filter_le_take (m := 0) hown.records.consecutive
      rw [take_zero, filter_eq_nil_iff] at hnone
      simpa using hnone r hr

end Theorem

/-! ## Fixed runs -/

/-- The right half of all keys goes to partition `2`. -/
def exampleSplit : SplitSetup where
  plan := {
    transitionId := 1
    parentId := ⟨0, 1⟩
    parentRange := ⟨none, none⟩
    parentEpoch := 1
    parentNextEpoch := 2
    splitKey := [5]
    child := ⟨⟨0, 2⟩, ⟨some [5], none⟩, 1⟩ }
  parent := exampleSpec
  parentStreamGeneration := 1
  target := ⟨2, 1, 1, 8, 1⟩
  planValid := by decide
  parentId := rfl
  parentRange := rfl
  parentEpoch := rfl
  parentNamed := by decide
  parentGeneration := by decide
  treeId := by decide
  rootGeneration := by decide
  streamGeneration := by decide
  streams := by decide

/-- Request `sequence` of client `1`: a put. -/
def putAt (key : Key) (sequence : ℕ) : List (MutationRequest × Bool) :=
  [(⟨⟨0, 1, sequence⟩, .put key [2]⟩, true)]

lemma exampleSplit_init : (splitSystem True exampleFormat exampleSplit exampleTree []).init
    { parent := .opened exampleTree } :=
  ⟨⟨_, _, .opened (by decide)⟩, nofun, rfl, rfl, rfl⟩

/-- What recovery finds in a state behind the handoff commit. -/
def recoverRun (s : SplitRun) : Option (Except ChunkKvError (ℕ × ℕ)) :=
  match s.stage with
  | .committed a base => some ((recoverSplitHandoff exampleFormat a 1
      ⟨2, 1, base.contiguousSlot, base⟩ ⟨8, 1, s.childJournal⟩ ⟨7, 1, s.parent.journal⟩).map
        fun r => (r.1.nextSeq, r.2.appliedSeq))
  | _ => none

lemma recoverRun_some {s : SplitRun} {out : Except ChunkKvError (ℕ × ℕ)}
    (h : recoverRun s = some out) : ∃ a base, s.stage = .committed a base ∧
      (recoverSplitHandoff exampleFormat a 1 ⟨2, 1, base.contiguousSlot, base⟩
        ⟨8, 1, s.childJournal⟩ ⟨7, 1, s.parent.journal⟩).map
          (fun r => (r.1.nextSeq, r.2.appliedSeq)) = out := by
  unfold recoverRun at h
  split at h
  · next a base hstage => exact ⟨a, base, hstage, Option.some.inj h⟩
  · cases h

/-- A partition is split before its first mutation; then both halves take one. -/
def emptySplit : List SplitAction :=
  [.loadBase, .snapshot, .catchUp, .commit, .cutover, .parent (.batch (putAt [1] 1) none),
    .child (.batch (putAt [6] 2) none)]

theorem split_of_empty_journal_lost : ∃ s,
    (splitSystem True exampleFormat exampleSplit exampleTree []).Reach System.Free s ∧
      ∃ a base, s.stage = .committed a base ∧ recoverSplitHandoff exampleFormat a 1
        ⟨2, 1, base.contiguousSlot, base⟩ ⟨8, 1, s.childJournal⟩ ⟨7, 1, s.parent.journal⟩
        = .error (.journalCorruption "parent WAL does not cover child inheritance") := by
  obtain ⟨s, hr, hout⟩ : ∃ s, (splitSystem True exampleFormat exampleSplit exampleTree []).Reach
      System.Free s ∧ recoverRun s = some (.error
        (.journalCorruption "parent WAL does not cover child inheritance")) :=
    ⟨_, System.reach_run emptySplit exampleSplit_init, by decide +kernel⟩
  obtain ⟨a, base, hstage, hfail⟩ := recoverRun_some hout
  exact ⟨s, hr, a, base, hstage, map_eq_error hfail⟩

/-- The parent has one record before the split, one in the child's range that the base has not
caught up with, and one in the left half behind the cutover; the child has one. -/
def servingSplit : List SplitAction :=
  [.parent (.batch (putAt [1] 1) none), .parent (.apply true true), .parent .acknowledge,
    .loadBase, .snapshot, .catchUp, .commit,
    .parent (.batch (putAt [7] 2) none), .parent (.apply true true), .parent .acknowledge,
    .cutover, .parent (.batch (putAt [2] 3) none), .child (.batch (putAt [6] 4) none)]

theorem split_handoff_recovers_serving : ∃ s,
    (splitSystem True exampleFormat exampleSplit exampleTree []).Reach
      (fun s a => s.orderly exampleFormat exampleSplit a = true) s ∧
      s.parent.journal.length = 3 ∧ s.childJournal.length = 1 ∧
      ∃ a base w a', s.stage = .committed a base ∧ recoverSplitHandoff exampleFormat a 1
        ⟨2, 1, base.contiguousSlot, base⟩ ⟨8, 1, s.childJournal⟩ ⟨7, 1, s.parent.journal⟩
        = .ok (w, a') ∧ w.nextSeq = s.inheritedSeq exampleTree [] + 2 := by
  obtain ⟨s, hr, hjournal, hchild, hrun⟩ : ∃ s, (splitSystem True exampleFormat exampleSplit
      exampleTree []).Reach (fun s a => s.orderly exampleFormat exampleSplit a = true) s ∧
      s.parent.journal.length = 3 ∧ s.childJournal.length = 1 ∧ (recoverRun s).isSome = true :=
    ⟨_, System.reach_runGuarded servingSplit exampleSplit_init, by decide +kernel⟩
  obtain ⟨_, hout⟩ := Option.isSome_iff_exists.mp hrun
  obtain ⟨a, base, hcommitted, -⟩ := recoverRun_some hout
  obtain ⟨w, a', hw, -, hnext, -⟩ :=
    split_handoff_recovers hr hcommitted Nat.one_ne_zero (le_refl 1)
  rw [hchild] at hnext
  exact ⟨s, hr, hjournal, hchild, a, base, w, a', hcommitted, hw, hnext⟩

theorem split_divides_keys_serving : ∃ s ch,
    (splitSystem False exampleFormat exampleSplit exampleTree []).Reach
      (fun s a => s.staysStopped a = true) s ∧ s.child = some ch ∧
      (ch.cutoverSeq, s.parent.journal.length, ch.worker.journal.length) = (2, 3, 1) ∧
      (∀ r ∈ s.parent.journal, ch.cutoverSeq < r.mutationSeq → r.operation.key < [5]) ∧
      ∀ r ∈ ch.worker.journal, ch.cutoverSeq < r.mutationSeq ∧ [5] ≤ r.operation.key := by
  have hinit : (splitSystem False exampleFormat exampleSplit exampleTree []).init
      { parent := .opened exampleTree } := ⟨⟨_, _, .opened (by decide)⟩, nofun, rfl, rfl, rfl⟩
  have hr := System.reach_runGuarded (g := SplitRun.staysStopped) servingSplit hinit
  refine ⟨_, _, hr, (Option.some_get ?_).symm, ?_, split_divides_keys hr (Option.some_get _).symm⟩
  all_goals decide +kernel

end CrowDB.ChunkKv
