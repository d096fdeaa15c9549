import CrowDB.ChunkKv.Recovery

/-!
# A worker that serves

The worker of a new, a recovered or a split partition: it has started with some results and
with some records on its stream, and its batches are admitted in turn. Its journal only
grows, and its replay offset is the start of one of its own records, or the end of what it
started with.
-/
namespace CrowDB.ChunkKv
open Lib List

/-- The results that the worker has started with lie on other streams. `orderly` says that
its batches have been admitted in turn. -/
structure ServingInv (orderly : Prop) (f : WireFormat) (p : PartitionSpec)
    (base : Retry) (t₀ : Tree)
    (front : List WalRecord) (s : WorkerState) (done : List WalRecord) : Prop
    extends JournalInv f p base t₀ front s done where
  coherentBase : base.Coherent p.retainedResults
  foreign : ∀ id r, base.results id = some r → r.response.journalPosition.streamName ≠ p.streamName
  admitted : orderly → base.admitsAll p.retainedResults
    (entriesFrom f p.streamName (journalTail f front) (done ++ s.waiting)) = true
  offset : ∃ i ≤ done.length, s.retryReplayOffset = journalTail f (front ++ done.take i)

/-- The journal has grown, and so has what is acknowledged and what is in the tree. -/
structure Grows (s t : WorkerState) (done done' : List WalRecord) : Prop where
  log : done ++ s.waiting <+: done' ++ t.waiting
  acknowledged : done.length ≤ done'.length
  held : done.length + s.treeAhead.toNat ≤ done'.length + t.treeAhead.toNat

variable {offset : ℕ}

section Entries
variable {f : WireFormat} {streamName : StreamName}

/-- The offset of an entry is the end of the records in front of it. -/
theorem entriesFrom_offset {l : List WalRecord} {e : RequestId × RetainedResult}
    (he : e ∈ entriesFrom f streamName offset l) :
    ∃ i ≤ l.length, e.2.response.journalPosition.offset = offset + journalTail f (l.take i) := by
  induction l generalizing offset with
  | nil => cases he
  | cons _ _ ih =>
    rcases mem_cons.mp he with rfl | he
    · exact ⟨0, Nat.zero_le _, by simp [retainedEntry, journalTail]⟩
    · obtain ⟨i, hi, heq⟩ := ih he
      exact ⟨i + 1, Nat.succ_le_succ hi, by simp [heq, journalTail, Nat.add_assoc]⟩

end Entries

variable {requests : List (MutationRequest × Bool)} {rest : List (ℕ × PreparedMutation)}
  {m : PreparedMutation}

section Log
variable {orderly : Prop} {f : WireFormat} {p : PartitionSpec} {base : Retry} {n : ℕ}
    {s t : WorkerState}
  {front done : List WalRecord}

/-- The journal of a worker whose tree others may write to. -/
structure WriterInv (orderly : Prop) (f : WireFormat) (p : PartitionSpec) (base : Retry) (n : ℕ)
    (front : List WalRecord) (s : WorkerState) (done : List WalRecord) : Prop
    extends LogInv f p base n front s done where
  coherentBase : base.Coherent p.retainedResults
  admitted : orderly → base.admitsAll p.retainedResults
    (entriesFrom f p.streamName (journalTail f front) (done ++ s.waiting)) = true

/-- A worker that opens over a tree with the results of another one. -/
theorem WriterInv.started {t₀ : Tree} (h : t₀.contiguousSlot + 1 < 2 ^ 64)
    (hbase : base.Coherent p.retainedResults) :
    WriterInv orderly f p base t₀.contiguousSlot []
      { WorkerState.opened t₀ with retry := base } [] :=
  ⟨(JournalInv.started h []).toLogInv, hbase, fun _ => rfl⟩

lemma WriterInv.move {a : WorkerStep} (h : WriterInv orderly f p base n front s done)
    (hg : orderly → admitsInTurn f p s a = true) (hm : WorkerMove f p s a t) :
    ∃ done', WriterInv orderly f p base n front t done' := by
  cases hm with
  | batch _ durable hserving hpending hrange =>
    exact ⟨done, h.toLogInv.batch h.coherentBase ⟨hserving, hpending, hrange⟩ durable,
      h.coherentBase, fun ho => h.toLogInv.admitted_batch hpending (h.admitted ho) (hg ho)⟩
  | acknowledged _ _ _ hpending =>
    exact ⟨_, h.toLogInv.acknowledge hpending, h.coherentBase,
      LogInv.acknowledge_log _ _ hpending ▸ h.admitted⟩
  | applied _ _ _ _ _ _ _ _ hlife =>
    exact ⟨done, h.toLogInv.frame rfl rfl rfl rfl rfl hlife, h.coherentBase, h.admitted⟩
  | stopped =>
    exact ⟨done, h.toLogInv.frame rfl rfl rfl rfl rfl (.inr rfl), h.coherentBase, h.admitted⟩
  | loaded | captured | dropped =>
    exact ⟨done, h.toLogInv.frame rfl rfl rfl rfl rfl (.inl rfl), h.coherentBase, h.admitted⟩

end Log

namespace ServingInv
variable {orderly : Prop} {f : WireFormat} {p : PartitionSpec} {base : Retry} {t₀ : Tree}
    {s t : WorkerState}
  {front done : List WalRecord}

section
variable (h : ServingInv orderly f p base t₀ front s done)
include h

lemma batch (ht : s.Takes p requests) (durable : Option ℕ)
    (hg : orderly → admitsInTurn f p s (.batch requests durable) = true) :
    ServingInv orderly f p base t₀ front
      (appendBatch f s (prepareBatch f p s.retry s.tree s.nextSeq requests) durable) done :=
  ⟨h.toJournalInv.batch h.coherentBase ht durable, h.coherentBase,
    h.foreign, fun ho => h.toLogInv.admitted_batch ht.pending (h.admitted ho) (hg ho), h.offset⟩

lemma acknowledge (hpending : s.pending = (offset, m) :: rest) (hahead : s.treeAhead = true) :
    ServingInv orderly f p base t₀ front (acknowledgeHead p s offset m rest)
      (done ++ [m.record]) := by
  have hinv := h.toJournalInv.acknowledge hpending hahead
  refine ⟨hinv, h.coherentBase, h.foreign, LogInv.acknowledge_log _ _ hpending ▸ h.admitted, ?_⟩
  change ∃ i ≤ _, (oldestOwnOffset p.streamName (acknowledgeHead p s offset m rest).retry).getD
    s.retryReplayOffset = _
  cases hold : oldestOwnOffset p.streamName (acknowledgeHead p s offset m rest).retry with
  | none =>
    obtain ⟨i, hi, heq⟩ := h.offset
    refine ⟨i, hi.trans (by simp), ?_⟩
    rw [take_append_of_le_length hi]
    exact heq
  | some =>
    obtain ⟨r, hfound, rfl⟩ := Option.map_eq_some_iff.mp hold
    obtain ⟨id, -, hid⟩ := mem_filterMap.mp (mem_of_find?_eq_some hfound)
    have hown : r.response.journalPosition.streamName = p.streamName := by
      simpa using find?_some hfound
    rw [hinv.retry] at hid
    rcases RetryWindow.mem_of_retainAll hid with hbase | hentry
    · exact absurd hown (h.foreign id r hbase)
    · obtain ⟨i, hi, heq⟩ := entriesFrom_offset hentry
      exact ⟨i, hi, heq.trans (journalTail_append _ _).symm⟩

lemma resume (hrun : s.lifecycle ≠ .recovering) :
    ServingInv orderly f p base t₀ front s.resume done := by
  rw [WorkerState.resume_eq hrun]
  exact { h with next := fun _ => h.next hrun }

lemma move {a : WorkerStep} (hg : orderly → admitsInTurn f p s a = true)
    (hm : WorkerMove f p s a t) :
    ∃ done', ServingInv orderly f p base t₀ front t done' ∧ Grows s t done done' := by
  cases hm with
  | batch _ durable hserving hpending hrange =>
    refine ⟨done, h.batch ⟨hserving, hpending, hrange⟩ durable hg, ?_, le_rfl, le_rfl⟩
    rw [LogInv.waiting_nil hpending, append_nil]
    exact prefix_append _ _
  | applied _ _ offset _ _ _ hpending hahead hlife =>
    refine ⟨done, { h.toJournalInv.applyHead hpending hahead hlife, h with },
      prefix_rfl, le_rfl, ?_⟩
    rw [hahead]
    exact Nat.le_succ _
  | stopped =>
    exact ⟨done, { h.toJournalInv.stop, h with }, prefix_rfl, le_rfl, le_rfl⟩
  | acknowledged _ _ _ hpending hahead =>
    refine ⟨_, h.acknowledge hpending hahead, ?_, by simp, ?_⟩
    · exact ⟨[], (append_nil _).trans (LogInv.acknowledge_log _ _ hpending)⟩
    · rw [hahead, length_append]
      exact le_rfl
  | loaded | dropped =>
    exact ⟨done, { h.toJournalInv.load, h with }, prefix_rfl, le_rfl, le_rfl⟩
  | captured offset =>
    exact ⟨done, { h.toJournalInv.checkpoint, h with }, prefix_rfl, le_rfl, le_rfl⟩

end

/-! ## How workers start -/

lemma opened (h : t₀.contiguousSlot + 1 < 2 ^ 64) :
    ServingInv orderly f p RetryWindow.empty t₀ [] (.opened t₀) [] :=
  ⟨.started h [], .empty, nofun, fun _ => rfl, 0, le_rfl, rfl⟩

/-- A split child starts with the results of its parent. -/
theorem inherited (h : t₀.contiguousSlot + 1 < 2 ^ 64) (hbase : base.Coherent p.retainedResults)
    (hforeign : ∀ id r, base.results id = some r →
      r.response.journalPosition.streamName ≠ p.streamName) :
    ServingInv orderly f p base t₀ [] { WorkerState.opened t₀ with retry := base } [] :=
  ⟨.started h [], hbase, hforeign, fun _ => rfl, 0, le_rfl, rfl⟩

/-- A recovered worker has started in front of the records it has replayed. -/
theorem recovered {l : List WalRecord} {c : Checkpoint} {i b epoch : ℕ}
    (h : JournalOk f p base t₀.contiguousSlot l) (hib : i ≤ b) (hb : b ≤ l.length)
    (htree : c.tree = (l.take b).foldl Tree.applyRecord t₀)
    (hoffset : c.replayOffset = journalTail f (l.take i)) (hepoch : p.ownershipEpoch ≤ epoch)
    (hs : recover f p epoch c l = .ok s) :
    ServingInv True f { p with ownershipEpoch := epoch } RetryWindow.empty
      ((l.take i).foldl Tree.applyRecord t₀) (l.take i) s (l.drop i) := by
  obtain ⟨hinv, hpending⟩ := h.recovered hib hb htree hoffset hepoch hs
  obtain ⟨offset, hfrom, hrecover⟩ := h.recover hib hb htree hoffset hepoch
  rw [hs] at hrecover
  split at hrecover
  · next hadmitted =>
    cases hrecover
    refine ⟨hinv, .empty, nofun, fun _ => ?_, ?_⟩
    · rw [LogInv.waiting_nil hpending, append_nil]
      exact hadmitted
    · rcases hfrom with rfl | ⟨e, he, rfl⟩
      · exact ⟨0, Nat.zero_le _, hoffset.trans (by simp)⟩
      · obtain ⟨k, hk, heq⟩ := entriesFrom_offset he
        exact ⟨k, hk, heq.trans (journalTail_append _ _).symm⟩
  · cases hrecover

end ServingInv
end CrowDB.ChunkKv
