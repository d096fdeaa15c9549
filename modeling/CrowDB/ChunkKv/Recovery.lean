import CrowDB.ChunkKv.WorkerJournal

/-!
# Recovery of what the worker wrote

`prepareBatch` compares the identities of a batch with the results retained when the batch
starts, while replay compares each record with the results retained behind the record
before it. The two agree as long as each identity of a batch is still admitted once the
results of its predecessors in the batch are retained (`admitsInTurn`). Then recovery from
every checkpoint restores the worker, at whichever record the journal ends.
-/
namespace CrowDB.ChunkKv
open Lib List RetryWindow

/-- The worker of a partition that was opened over the tree `t₀`. -/
def workerSystem (f : WireFormat) (p : PartitionSpec) (t₀ : Tree) :
    System WorkerState WorkerStep where
  init s := s = .opened t₀ ∧ t₀.contiguousSlot + 1 < 2 ^ 64
  step := WorkerState.step f p

/-- The identities of a batch are admitted one behind the other. The window looks at nothing
else of the records, and a request that is answered at once leaves none. -/
def admitsInTurn (f : WireFormat) (p : PartitionSpec) (s : WorkerState) : WorkerStep → Bool
  | .batch requests _ =>
    s.retry.admitsAll p.retainedResults (entriesFrom f p.streamName (journalTail f s.journal)
      ((prepareBatch f p s.retry s.tree s.nextSeq requests).prepared.map (·.record)))
  | _ => true

/-- The next pending mutation is applied, unless it is in the tree already, and acknowledged. -/
def WorkerState.settleHead (p : PartitionSpec) (s : WorkerState) : WorkerState :=
  match s.pending with
  | [] => s
  | (offset, m) :: rest =>
    acknowledgeHead p
      { s with tree := if s.treeAhead then s.tree else s.tree.applyRecord m.record } offset m rest

/-- The worker once `j` more of its journaled mutations are acknowledged. -/
def WorkerState.settle (p : PartitionSpec) (j : ℕ) (s : WorkerState) : WorkerState :=
  (settleHead p)^[j] s

/-! ## Recovery over a journal of the worker -/

variable {c : Checkpoint} {l : List WalRecord} {base : Retry} {epoch : ℕ}

section
variable {f : WireFormat} {p : PartitionSpec} {t₀ : Tree} {i b : ℕ}
  (h : JournalOk f p base t₀.contiguousSlot l) (hib : i ≤ b) (hb : b ≤ l.length)
  (htree : c.tree = (l.take b).foldl Tree.applyRecord t₀)
  (hoffset : c.replayOffset = journalTail f (l.take i)) (hepoch : p.ownershipEpoch ≤ epoch)
include h hib hb htree hoffset hepoch

/-- Recovery from a checkpoint that holds the first `b` records and replays all but the
first `i`. -/
theorem JournalOk.recover : ∃ offset, (offset = c.replayOffset ∨
      ∃ e ∈ entriesFrom f p.streamName (journalTail f (l.take i)) (l.drop i),
        e.2.response.journalPosition.offset = offset) ∧
      recover f p epoch c l =
      if Retry.admitsAll p.retainedResults empty
          (entriesFrom f p.streamName (journalTail f (l.take i)) (l.drop i))
      then .ok {
        nextSeq := t₀.contiguousSlot + l.length + 1
        appliedSeq := t₀.contiguousSlot + l.length
        journalDurableSeq := t₀.contiguousSlot + l.length
        retryReplayOffset := offset
        retry := Retry.retainAll p.retainedResults empty
          (entriesFrom f p.streamName (journalTail f (l.take i)) (l.drop i))
        tree := l.foldl Tree.applyRecord t₀
        journal := l
        checkpoints := [c] }
      else .error reusedIdentity := by
  have hslot : c.appliedSeq = t₀.contiguousSlot + b := by
    rw [Checkpoint.appliedSeq, htree,
      contiguousSlot_foldl (h.front b).consecutive,
      length_take_of_le hb]
  have hmem : ∀ r ∈ l.drop i, r ∈ l := fun r => mem_of_mem_drop
  have hmax : max c.appliedSeq (t₀.contiguousSlot + i + (l.drop i).length)
      = t₀.contiguousSlot + l.length := by
    rw [length_drop]
    omega
  have hentries : belongingEntries p.range p.streamName
      (framesAt f (journalTail f (l.take i)) (l.drop i))
        = entriesFrom f p.streamName (journalTail f (l.take i)) (l.drop i) :=
    belongingEntries_eq fun r hr => h.ranged r (hmem r hr)
  have hfold : ((l.drop i).drop (c.appliedSeq - (t₀.contiguousSlot + i))).foldl
      (fun t r => t.replayRecord r (p.range.contains r.operation.key)) c.tree
        = l.foldl Tree.applyRecord t₀ := by
    rw [drop_drop, show i + (c.appliedSeq - (t₀.contiguousSlot + i)) = b by omega,
      foldl_replayRecord fun r hr => h.ranged r (mem_of_mem_drop hr), htree,
      ← foldl_append, take_append_drop]
  have hrecover := recover_eq hoffset (consecutive_drop h.consecutive (hib.trans hb)) (by omega)
    (fun r hr => (h.valid r (hmem r hr)).mono hepoch) (by rw [hmax]; exact h.bounded)
  rwa [hmax, hentries, hfold, take_append_drop] at hrecover

/-- The recovered worker has started with an empty window in front of what was replayed. -/
theorem JournalOk.recovered {w : WorkerState} (hw : ChunkKv.recover f p epoch c l = .ok w) :
    JournalInv f { p with ownershipEpoch := epoch } empty
      ((l.take i).foldl Tree.applyRecord t₀) (l.take i) w (l.drop i) ∧ w.pending = [] := by
  obtain ⟨offset, -, hrecover⟩ := h.recover hib hb htree hoffset hepoch
  rw [hw] at hrecover
  split at hrecover <;> cases hrecover
  have hslot : ((l.take i).foldl Tree.applyRecord t₀).contiguousSlot = t₀.contiguousSlot + i := by
    rw [contiguousSlot_foldl (h.front i).consecutive,
      length_take_of_le (hib.trans hb)]
  have hlen : (l.drop i).length + i = l.length := by
    rw [length_drop]
    omega
  have hmem : ∀ r ∈ l.drop i, r ∈ l := fun r => mem_of_mem_drop
  have hrecords : JournalOk f { p with ownershipEpoch := epoch } empty
      ((l.take i).foldl Tree.applyRecord t₀).contiguousSlot (l.drop i) := by
    rw [hslot]
    refine ⟨consecutive_drop h.consecutive (hib.trans hb),
      fun r hr => (h.valid r (hmem r hr)).mono hepoch, fun r hr => h.ranged r (hmem r hr), ?_,
      h.distinct.sublist ((drop_sublist i l).map _), fun _ _ => rfl⟩
    have := h.bounded
    omega
  refine ⟨⟨⟨?_, rfl, ?_, ?_, fun _ => ?_, rfl⟩, nofun, ?_, fun c' hc' => ?_⟩, rfl⟩
  · change l = l.take i ++ (l.drop i ++ [])
    rw [append_nil, take_append_drop]
  · exact (append_nil (l.drop i)).symm ▸ hrecords
  · change t₀.contiguousSlot + l.length = _
    omega
  · change t₀.contiguousSlot + l.length + 1 = _ + (l.drop i ++ []).length + 1
    rw [append_nil]
    omega
  · change l.foldl _ _ = ((l.drop i ++ []).take ((l.drop i).length + 0)).foldl _ _
    rw [Nat.add_zero, take_left, ← foldl_append, take_append_drop]
  · obtain rfl := mem_singleton.mp hc'
    refine ⟨b - i, ?_, ?_⟩
    · omega
    · change _ = ((l.drop i ++ []).take (b - i)).foldl _ _
      rw [append_nil, ← foldl_append, htree, ← take_add, Nat.add_sub_cancel' hib]

end

/-! ## The offset of the oldest retained result -/

section Offset
variable {f : WireFormat} {p : PartitionSpec}

/-- A record whose identity is still in the order has its own result. -/
theorem results_of_order {n : ℕ} {older younger : List WalRecord} {r : WalRecord}
    (hbase : base.Coherent p.retainedResults) (h : JournalOk f p base n (older ++ r :: younger))
    (horder : r.requestId ∈ (base.retainAll p.retainedResults
      (entriesFrom f p.streamName 0 (older ++ r :: younger))).resultOrder) :
    (base.retainAll p.retainedResults
        (entriesFrom f p.streamName 0 (older ++ r :: younger))).results r.requestId
      = some (retainedEntry p.streamName (journalTail f older) r).2 := by
  have hmem : retainedEntry p.streamName (journalTail f older) r
      ∈ entriesFrom f p.streamName 0 (older ++ r :: younger) := by
    rw [entriesFrom_append, Nat.zero_add]
    exact mem_append_right _ (.head _)
  obtain ⟨u, hu⟩ := Option.isSome_iff_exists.mp (((h.coherent hbase 0).mem_iff _).mpr horder)
  have hknown := (admits_iff.mp (h.fresh r (by simp))).1
  rcases mem_of_retainAll hu with hold | hnew
  · cases hknown.symm.trans hold
  · have heq := inj_on_of_nodup_map (h.fresh_entries 0).distinct hnew hmem rfl
    exact hu.trans (congrArg some (congrArg Prod.snd heq))

/-- The oldest result that is retained lies where the last `retainedResults` records begin. -/
theorem oldestOwnOffset_eq {n : ℕ} {older younger : List WalRecord} {r : WalRecord}
    (h : JournalOk f p empty n l) (hl : l = older ++ r :: younger)
    (hlen : older.length = l.length - p.retainedResults) :
    oldestOwnOffset p.streamName
        (Retry.retainAll p.retainedResults empty (entriesFrom f p.streamName 0 l))
      = some (journalTail f older) := by
  have horder : (Retry.retainAll p.retainedResults empty
      (entriesFrom f p.streamName 0 l)).resultOrder = r.requestId :: younger.map (·.requestId) := by
    have hrun : (Retry.retainAll p.retainedResults empty
        (entriesFrom f p.streamName 0 l)).resultOrder = _ :=
      retainAll_order p.retainedResults_pos (Nat.zero_le _)
    rw [hrun, entriesFrom_ids, entriesFrom_length]
    simp only [empty, nil_append, length_nil, Nat.zero_add, ← hlen]
    rw [hl, map_append, map_cons, drop_left' (by rw [length_map])]
  have hown : (Retry.retainAll p.retainedResults empty
      (entriesFrom f p.streamName 0 l)).results r.requestId
        = some (retainedEntry p.streamName (journalTail f older) r).2 := by
    subst hl
    exact results_of_order .empty h (by rw [horder]; exact .head _)
  simp [oldestOwnOffset, horder, hown, retainedEntry]

end Offset

/-! ## Runs -/

/-- `a` acknowledged records are behind a replay offset: replay starts `retainedResults`
records before the `a`-th. -/
structure ResumeInv (f : WireFormat) (p : PartitionSpec) (t₀ : Tree) (s : WorkerState)
    (done : List WalRecord) : Prop extends JournalInv f p RetryWindow.empty t₀ [] s done where
  admitted : Retry.admitsAll p.retainedResults RetryWindow.empty
    (entriesFrom f p.streamName 0 s.journal) = true
  offset : s.retryReplayOffset = journalTail f (s.journal.take (done.length - p.retainedResults))
  loaded : ∀ o ∈ s.loadedOffset,
    ∃ a ≤ done.length, o = journalTail f (s.journal.take (a - p.retainedResults))
  resumable : ∀ c ∈ s.checkpoints, ∃ a ≤ done.length,
    c.replayOffset = journalTail f (s.journal.take (a - p.retainedResults)) ∧
      t₀.contiguousSlot + a ≤ c.appliedSeq

variable {offset : ℕ} {rest : List (ℕ × PreparedMutation)} {m : PreparedMutation}

namespace LogInv
variable {f : WireFormat} {p : PartitionSpec} {base : Retry} {n : ℕ} {s : WorkerState}
  {front done : List WalRecord}

/-- What a batch that is admitted in turn adds to the journal. -/
theorem admitted_batch {requests : List (MutationRequest × Bool)} {durable : Option ℕ}
    (h : LogInv f p base n front s done) (hpending : s.pending = [])
    (hadmitted : base.admitsAll p.retainedResults
      (entriesFrom f p.streamName (journalTail f front) (done ++ s.waiting)) = true)
    (hg : admitsInTurn f p s (.batch requests durable) = true) :
    base.admitsAll p.retainedResults (entriesFrom f p.streamName (journalTail f front)
      (done ++ (appendBatch f s (prepareBatch f p s.retry s.tree s.nextSeq requests)
        durable).waiting)) = true := by
  simp only [admitsInTurn] at hg
  rw [appendBatch_waiting]
  generalize prepareBatch f p s.retry s.tree s.nextSeq requests = b at hg
  obtain ⟨rest, hrest⟩ := kept_sub b durable
  rw [waiting_nil hpending, append_nil] at hadmitted
  rw [← hrest, map_append, entriesFrom_append, h.retry, h.settled hpending,
    journalTail_append] at hg
  rw [entriesFrom_append]
  exact admitsAll_append.mpr ⟨hadmitted, (admitsAll_append.mp hg).1⟩

end LogInv

namespace JournalInv
variable {f : WireFormat} {p : PartitionSpec} {base : Retry} {t₀ : Tree} {s : WorkerState}
  {front done : List WalRecord}

lemma settleHead (h : JournalInv f p base t₀ front s done)
    (hpending : s.pending = (offset, m) :: rest) :
    JournalInv f p base t₀ front (s.settleHead p) (done ++ [m.record]) := by
  simp only [WorkerState.settleHead, hpending]
  cases ha : s.treeAhead with
  | true => exact h.acknowledge hpending ha
  | false => exact (h.applyHead hpending ha (.inl rfl)).acknowledge hpending rfl

/-- The worker that has acknowledged the first `j` pending mutations. -/
theorem settle {j : ℕ} (h : JournalInv f p base t₀ front s done) (hj : j ≤ s.pending.length)
    (hahead : s.treeAhead = true → 0 < j) :
    JournalInv f p base t₀ front (s.settle p j) (done ++ s.waiting.take j) ∧
      (s.settle p j).treeAhead = false := by
  induction j generalizing s done with
  | zero =>
    refine ⟨?_, Bool.eq_false_iff.mpr fun ha => absurd (hahead ha) (Nat.lt_irrefl 0)⟩
    rw [take_zero, append_nil]
    exact h
  | succ j ih =>
    obtain ⟨⟨offset, m⟩, rest, hpending⟩ := exists_cons_of_length_pos (Nat.zero_lt_of_lt hj)
    have hsame : (s.settleHead p).pending = rest ∧ (s.settleHead p).treeAhead = false := by
      simp [WorkerState.settleHead, hpending, acknowledgeHead]
    have hwaiting : s.waiting = m.record :: (s.settleHead p).waiting := by
      rw [LogInv.waiting_cons hpending, WorkerState.waiting, hsame.1]
    have hlen : j ≤ (s.settleHead p).pending.length := by
      rw [hpending, length_cons] at hj
      rw [hsame.1]
      omega
    have hrest := ih (h.settleHead hpending) hlen (by simp [hsame.2])
    rw [hwaiting]
    rwa [append_assoc] at hrest

end JournalInv

namespace ResumeInv
variable {f : WireFormat} {p : PartitionSpec} {t₀ : Tree} {s t : WorkerState}
  {done : List WalRecord}

lemma opened (h : t₀.contiguousSlot + 1 < 2 ^ 64) : ResumeInv f p t₀ (.opened t₀) [] :=
  ⟨.started h [], rfl, by simp [WorkerState.opened, journalTail], nofun, nofun⟩

section
variable (h : ResumeInv f p t₀ s done)
include h

lemma whole : s.journal = done ++ s.waiting := h.journal

/-- The journal has grown; what lies before its old end is the same. -/
theorem take_append {a : ℕ} (ha : a ≤ done.length) (l : List WalRecord) :
    (s.journal ++ l).take (a - p.retainedResults) = s.journal.take (a - p.retainedResults) := by
  have hlen := congrArg length h.whole
  rw [length_append] at hlen
  exact take_append_of_le_length (by omega)

lemma batch {requests : List (MutationRequest × Bool)} (ht : s.Takes p requests)
    (durable : Option ℕ) (hg : admitsInTurn f p s (.batch requests durable) = true) :
    ResumeInv f p t₀
      (appendBatch f s (prepareBatch f p s.retry s.tree s.nextSeq requests) durable) done := by
  have hinv := h.toJournalInv.batch .empty ht durable
  refine ⟨hinv, ?_, ?_, fun o ho => ?_, fun c hc => ?_⟩
  · rw [hinv.journal]
    exact h.admitted_batch ht.pending (h.whole ▸ h.admitted) hg
  · exact h.offset.trans (congrArg _ (h.take_append le_rfl _).symm)
  · obtain ⟨a, ha, hoff⟩ := h.loaded o ho
    exact ⟨a, ha, hoff.trans (congrArg _ (h.take_append ha _).symm)⟩
  · obtain ⟨a, ha, hoff, hle⟩ := h.resumable c hc
    exact ⟨a, ha, hoff.trans (congrArg _ (h.take_append ha _).symm), hle⟩

lemma acknowledge (hpending : s.pending = (offset, m) :: rest) (hahead : s.treeAhead = true) :
    ResumeInv f p t₀ (acknowledgeHead p s offset m rest) (done ++ [m.record]) := by
  have hinv := h.toJournalInv.acknowledge hpending hahead
  have hgrow : done.length ≤ (done ++ [m.record]).length := by simp
  refine ⟨hinv, h.admitted, ?_, fun o ho => ?_, fun c hc => ?_⟩
  · have hpos := p.retainedResults_pos
    have hlt : (done ++ [m.record]).length - p.retainedResults < (done ++ [m.record]).length := by
      rw [length_append, length_singleton]
      omega
    have hsplit := (take_append_drop ((done ++ [m.record]).length - p.retainedResults)
      (done ++ [m.record])).symm
    rw [drop_eq_getElem_cons hlt] at hsplit
    have holdest := oldestOwnOffset_eq hinv.acknowledged hsplit (length_take_of_le hlt.le)
    have hretry : (acknowledgeHead p s offset m rest).retry = Retry.retainAll p.retainedResults
        empty (entriesFrom f p.streamName 0 (done ++ [m.record])) := hinv.retry
    rw [← hretry] at holdest
    have htake : s.journal.take ((done ++ [m.record]).length - p.retainedResults)
        = (done ++ [m.record]).take ((done ++ [m.record]).length - p.retainedResults) := by
      have hjournal : s.journal = (done ++ [m.record]) ++ _ := hinv.journal
      rw [hjournal, take_append_of_le_length hlt.le]
    change (oldestOwnOffset p.streamName (acknowledgeHead p s offset m rest).retry).getD _ = _
    rw [holdest]
    exact congrArg (journalTail f) htake.symm
  · obtain ⟨a, ha, hoff⟩ := h.loaded o ho
    exact ⟨a, ha.trans hgrow, hoff⟩
  · obtain ⟨a, ha, hoff, hle⟩ := h.resumable c hc
    exact ⟨a, ha.trans hgrow, hoff, hle⟩

lemma capture (hloaded : s.loadedOffset = some offset) : ResumeInv f p t₀
      { s with loadedOffset := none, checkpoints := ⟨s.tree, offset⟩ :: s.checkpoints } done := by
  obtain ⟨a, ha, hoff⟩ := h.loaded offset hloaded
  exact ⟨h.toJournalInv.checkpoint, h.admitted, h.offset, nofun, forall_mem_cons.mpr
    ⟨⟨a, ha, hoff, (Nat.add_le_add_left ha _).trans h.applied_le_slot⟩, h.resumable⟩⟩

lemma move {a : WorkerStep} (hg : admitsInTurn f p s a = true) (hm : WorkerMove f p s a t) :
    ∃ done', ResumeInv f p t₀ t done' := by
  cases hm with
  | batch _ durable hserving hpending hrange =>
    exact ⟨done, h.batch ⟨hserving, hpending, hrange⟩ durable hg⟩
  | applied _ _ offset _ _ _ hpending hahead hlife =>
    exact ⟨done, { h.toJournalInv.applyHead hpending hahead hlife, h with }⟩
  | stopped => exact ⟨done, { h.toJournalInv.stop, h with }⟩
  | acknowledged _ _ _ hpending hahead => exact ⟨_, h.acknowledge hpending hahead⟩
  | loaded =>
    refine ⟨done, { h.toJournalInv.load, h with loaded := fun o ho => ?_ }⟩
    exact ⟨done.length, le_rfl, (Option.some.inj ho).symm.trans h.offset⟩
  | captured _ hloaded => exact ⟨done, h.capture hloaded⟩
  | dropped => exact ⟨done, { h.toJournalInv.load, h with loaded := nofun }⟩

/-- The tree of a checkpoint and the part of the journal behind it. -/
theorem checkpoint_tree (hc : c ∈ s.checkpoints) : ∃ b ≤ done.length + s.treeAhead.toNat,
      c.tree = (s.journal.take b).foldl Tree.applyRecord t₀ ∧
        c.appliedSeq = t₀.contiguousSlot + b := by
  obtain ⟨b, hb, htree⟩ := h.checkpoints c hc
  refine ⟨b, hb, ?_, by rw [Checkpoint.appliedSeq, htree, h.slot_take (hb.trans h.held_le)]⟩
  rw [h.whole]
  exact htree

end

/-- What is admitted in turn behind other entries is admitted by the empty window. -/
theorem admitsAll_suffix {l m : List (RequestId × RetainedResult)}
    (h : Retry.admitsAll p.retainedResults empty (l ++ m) = true) :
    Retry.admitsAll p.retainedResults empty m = true := by
  obtain ⟨hfirst, hrest⟩ := admitsAll_append.mp h
  exact (Covers.empty _).admitsAll p.retainedResults_pos
    (Coherent.empty.retainAll p.retainedResults_pos
      (.of_admitsAll p.retainedResults_pos .empty hfirst)) .empty (Sublist.refl _) hrest

/-- Recovery over the first `k` records, if these include the acknowledged ones and those
that the checkpoint holds. -/
theorem recover_take (h : ResumeInv f p t₀ s done) (hc : c ∈ s.checkpoints) {k : ℕ}
    (hdone : done.length ≤ k) (hk : k ≤ s.journal.length)
    (hheld : c.appliedSeq ≤ t₀.contiguousSlot + k) (hepoch : p.ownershipEpoch ≤ epoch) :
    ∃ w, recover f p epoch c (s.journal.take k) = .ok w ∧
      w.tree = (s.journal.take k).foldl Tree.applyRecord t₀ ∧
      w.appliedSeq = t₀.contiguousSlot + k ∧ w.nextSeq = t₀.contiguousSlot + k + 1 ∧
      w.retry.results = (Retry.retainAll p.retainedResults empty
        (entriesFrom f p.streamName 0 (s.journal.take k))).results := by
  obtain ⟨a, ha, hoffset, hbehind⟩ := h.resumable c hc
  obtain ⟨b, hb, htree, hseq⟩ := h.checkpoint_tree hc
  have hcut : (s.journal.take k).take (a - p.retainedResults)
      = s.journal.take (a - p.retainedResults) := by
    rw [take_take, Nat.min_eq_left (by omega)]
  have hheld' : (s.journal.take k).take b = s.journal.take b := by
    rw [take_take, Nat.min_eq_left (by omega)]
  have hrecords : JournalOk f p empty t₀.contiguousSlot (s.journal.take k) :=
    h.records.of_front (h.whole ▸ take_prefix k _)
  have hadmitted : Retry.admitsAll p.retainedResults empty
      (entriesFrom f p.streamName 0 (s.journal.take k)) = true := by
    have := h.admitted
    rw [← take_append_drop k s.journal, entriesFrom_append] at this
    exact (admitsAll_append.mp this).1
  have hlen : (s.journal.take k).length = k := length_take_of_le hk
  rw [← hcut] at hoffset
  rw [← hheld'] at htree
  obtain ⟨offset, -, hrecover⟩ := hrecords.recover (by omega) (by omega) htree hoffset hepoch
  rw [entriesFrom_split (a - p.retainedResults)] at hadmitted ⊢
  rw [if_pos (admitsAll_suffix hadmitted), hlen] at hrecover
  refine ⟨_, hrecover, rfl, rfl, rfl, ?_⟩
  refine (results_retainAll_drop p.retainedResults_pos hadmitted ?_).symm
  -- either nothing is skipped, or the records behind the offset fill the window
  rcases Nat.eq_zero_or_pos (a - p.retainedResults) with hzero | hpos
  · left
    rw [hzero]
    rfl
  · rw [entriesFrom_length, length_drop]
    omega

end ResumeInv

section Theorem
variable {f : WireFormat} {p : PartitionSpec} {t₀ : Tree} {s : WorkerState}

/-- In every run whose batches are admitted in turn, recovery from any checkpoint of the run
accepts the journal cut behind `j` of the pending mutations, and ends with the tree, the
sequences and the results that the worker has once these are acknowledged. The cut keeps a
record that is in the tree already. -/
theorem recovery_restores_worker
    (h : (workerSystem f p t₀).Reach (fun s a => admitsInTurn f p s a = true) s)
    {c : Checkpoint} (hc : c ∈ s.checkpoints) {j epoch : ℕ} (hj : j ≤ s.pending.length)
    (hahead : s.treeAhead = true → 0 < j) (hepoch : p.ownershipEpoch ≤ epoch) :
    ∃ w, recover f p epoch c (s.journal.take (s.journal.length - s.pending.length + j)) = .ok w ∧
      w.tree = (s.settle p j).tree ∧ w.appliedSeq = (s.settle p j).appliedSeq ∧
      w.nextSeq = (s.settle p j).appliedSeq + 1 ∧
      (j = s.pending.length → s.lifecycle ≠ .recovering → w.nextSeq = s.nextSeq) ∧
      w.retry.results = (s.settle p j).retry.results := by
  have hinv : ∃ done, ResumeInv f p t₀ s done := by
    refine h.invariant (I := fun s => ∃ done, ResumeInv f p t₀ s done) ?_ ?_
    · rintro s ⟨rfl, hbound⟩
      exact ⟨[], .opened hbound⟩
    · rintro s a t ⟨done, hs⟩ hg ht
      exact hs.move hg (step_move ht)
  obtain ⟨done, hinv⟩ := hinv
  have hwaiting : s.waiting.length = s.pending.length := length_map _
  have hlen : s.journal.length = done.length + s.pending.length := by
    rw [hinv.whole, length_append, hwaiting]
  have hcut : s.journal.length - s.pending.length + j = done.length + j := by omega
  have htake : s.journal.take (done.length + j) = done ++ s.waiting.take j := by
    rw [hinv.whole, take_length_add_append]
  obtain ⟨hsettled, hflag⟩ := hinv.toJournalInv.settle hj hahead
  have hheld : c.appliedSeq ≤ t₀.contiguousSlot + (done.length + j) := by
    obtain ⟨b, hb, -, hseq⟩ := hinv.checkpoint_tree hc
    have : s.treeAhead.toNat ≤ j := by
      cases ha : s.treeAhead with
      | false => exact Nat.zero_le _
      | true => exact hahead ha
    omega
  have htree := hsettled.tree
  have happlied := hsettled.applied
  rw [hflag, Bool.toNat_false, Nat.add_zero, take_left] at htree
  rw [length_append, length_take_of_le (hwaiting ▸ hj)] at happlied
  obtain ⟨w, hw, hwtree, hwapplied, hwnext, hwresults⟩ :=
    hinv.recover_take hc (Nat.le_add_right _ _) (by omega) hheld hepoch
  rw [htake] at hwtree hwresults
  refine ⟨w, hcut ▸ hw, hwtree.trans htree.symm, hwapplied.trans happlied.symm, ?_, ?_, ?_⟩
  · rw [hwnext, happlied]
  · rintro rfl hserving
    rw [hwnext, hinv.next hserving, length_append, hwaiting]
  · rw [hwresults, hsettled.retry]
    rfl

end Theorem

/-! ## Runs on fixed requests -/

/-- Every frame is one byte long. -/
def exampleFormat : WireFormat where
  digest _ := []
  frameBytes _ := 1
  frameBytes_pos _ := Nat.one_pos

/-- A partition of all keys that retains a single result. -/
def exampleSpec : PartitionSpec where
  id := ⟨0, 1⟩
  range := ⟨none, none⟩
  ownershipEpoch := 1
  streamName := 7
  retainedResults := 1
  retainedResults_pos := Nat.one_pos

def exampleTree : Tree := ⟨fun _ => none, 0⟩

lemma exampleTree_init :
    (workerSystem exampleFormat exampleSpec exampleTree).init (.opened exampleTree) :=
  ⟨rfl, by decide⟩

/-- Request `sequence` of a client: a put. -/
def putOf (client sequence : ℕ) : MutationRequest × Bool :=
  (⟨⟨0, client, sequence⟩, .put [1] [2]⟩, true)

/-- Client `1` sends request `5` and, behind request `1` of client `2`, its request `3`; all
three are taken in one batch. -/
def overtakenBatch : List WorkerStep :=
  [.loadOffset, .treeCheckpoint, .batch [putOf 1 5, putOf 2 1, putOf 1 3] none,
    .apply true true, .acknowledge, .apply true true, .acknowledge, .apply true true, .acknowledge]

theorem recovery_rejects_batch : ∃ s, (workerSystem exampleFormat exampleSpec exampleTree).Reach
    System.Free s ∧ s.pending = [] ∧ ∃ c ∈ s.checkpoints,
      recover exampleFormat exampleSpec 1 c s.journal = .error reusedIdentity := by
  refine ⟨_, System.reach_run overtakenBatch exampleTree_init, ?_, _, getLast_mem ?_,
    map_eq_error (f := WorkerState.appliedSeq) ?_⟩
  all_goals decide +kernel

/-- The checkpoint holds the first record; two more are journaled, and one of them is applied. -/
def checkpointedRun : List WorkerStep :=
  [.batch [putOf 1 5] none, .apply true true, .acknowledge, .loadOffset, .treeCheckpoint,
    .batch [putOf 2 1, putOf 1 7] none, .apply true true]

theorem recovery_restores_worker_pending :
    ∃ s, (workerSystem exampleFormat exampleSpec exampleTree).Reach
      (fun s a => admitsInTurn exampleFormat exampleSpec s a = true) s ∧
      s.pending.length = 2 ∧ ∃ c ∈ s.checkpoints, ∃ w,
        recover exampleFormat exampleSpec 1 c (s.journal.take 2) = .ok w ∧
        w.tree = (s.settle exampleSpec 1).tree := by
  obtain ⟨s, hr, hpending, hjournal, hne⟩ : ∃ s, (workerSystem exampleFormat exampleSpec
      exampleTree).Reach (fun s a => admitsInTurn exampleFormat exampleSpec s a = true) s ∧
      s.pending.length = 2 ∧ s.journal.length = 3 ∧ s.checkpoints ≠ [] :=
    ⟨_, System.reach_runGuarded checkpointedRun exampleTree_init, by decide +kernel⟩
  have hmem := getLast_mem hne
  obtain ⟨w, hw, htree, -⟩ := recovery_restores_worker hr hmem (by omega)
    (fun _ => Nat.one_pos) (le_refl 1)
  rw [hpending, hjournal] at hw
  exact ⟨s, hr, hpending, _, hmem, w, hw, htree⟩

end CrowDB.ChunkKv
