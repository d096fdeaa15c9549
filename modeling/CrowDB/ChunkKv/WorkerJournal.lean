import CrowDB.ChunkKv.Prepare

/-!
# The worker and its journal

In every state of a worker its tree, its sequences and its retained results are those of
the acknowledged records of the journal, taken one by one from where the worker started.
The records that are journaled and not yet acknowledged wait in `pending` with their
offsets; the first of them may be in the tree already.
-/
namespace CrowDB.ChunkKv
open Lib List WorkerState ConsecutiveFrom

/-- What is retained for records that lie on a stream from an offset on. -/
def entriesFrom (f : WireFormat) (streamName : StreamName) (offset : ℕ) (l : List WalRecord) :
    List (RequestId × RetainedResult) :=
  (framesAt f offset l).map fun frame => retainedEntry streamName frame.1 frame.2

variable {range : PartitionRange}

section Entries
variable {f : WireFormat} {p : PartitionSpec} {streamName : StreamName} {offset : ℕ}

@[simp] lemma entriesFrom_nil : entriesFrom f streamName offset [] = [] := rfl

@[simp] lemma entriesFrom_cons (r : WalRecord) (l : List WalRecord) :
    entriesFrom f streamName offset (r :: l) = retainedEntry streamName offset r
      :: entriesFrom f streamName (offset + f.frameBytes r) l := rfl

lemma entriesFrom_append (f : WireFormat) (streamName : StreamName) (offset : ℕ)
    (l m : List WalRecord) : entriesFrom f streamName offset (l ++ m)
    = entriesFrom f streamName offset l
      ++ entriesFrom f streamName (offset + journalTail f l) m := by
  rw [entriesFrom, framesAt_append, map_append]
  rfl

lemma entriesFrom_split (i : ℕ) (l : List WalRecord) : entriesFrom f streamName 0 l
    = entriesFrom f streamName 0 (l.take i)
      ++ entriesFrom f streamName (journalTail f (l.take i)) (l.drop i) := by
  have := entriesFrom_append f streamName 0 (l.take i) (l.drop i)
  rwa [take_append_drop, Nat.zero_add] at this

@[simp] lemma entriesFrom_ids (l : List WalRecord) :
    (entriesFrom f streamName offset l).map Prod.fst = l.map (·.requestId) := by
  induction l generalizing offset with
  | nil => rfl
  | cons _ _ ih => simp [ih, retainedEntry]

@[simp] lemma entriesFrom_length (l : List WalRecord) :
    (entriesFrom f streamName offset l).length = l.length := by
  rw [← length_map Prod.fst, entriesFrom_ids, length_map]

variable {l : List WalRecord}

lemma belongingEntries_eq (h : ∀ r ∈ l, range.contains r.operation.key = true) :
    belongingEntries range streamName (framesAt f offset l) =
      entriesFrom f streamName offset l := by
  rw [belongingEntries, filter_eq_self.mpr fun frame hframe => h _ ?_, entriesFrom]
  rw [← framesAt_map_snd f offset l]
  exact mem_map_of_mem hframe

@[simp] lemma journaled_frames (ms : List PreparedMutation) :
    (journaled f offset ms).map (fun m => (m.1, m.2.record))
      = framesAt f offset (ms.map (·.record)) := by
  induction ms generalizing offset with
  | nil => rfl
  | cons _ _ ih => simp [journaled, framesAt, ih]

lemma journalTail_append (l m : List WalRecord) :
    journalTail f (l ++ m) = journalTail f l + journalTail f m := by
  simp [journalTail]

/-- Replay over records of the partition. -/
theorem foldl_replayRecord {t : Tree} (h : ∀ r ∈ l, range.contains r.operation.key = true) :
    l.foldl (fun t r => t.replayRecord r (range.contains r.operation.key)) t
      = l.foldl Tree.applyRecord t := by
  refine foldl_ext _ _ _ fun t r hr => ?_
  rw [h r hr, Tree.replayRecord, Bool.true_and, Tree.applyRecord]

/-- Records in sequence move the frontier by their number. -/
theorem contiguousSlot_foldl {t : Tree} (h : ConsecutiveFrom (t.contiguousSlot + 1) l) :
    (l.foldl Tree.applyRecord t).contiguousSlot = t.contiguousSlot + l.length := by
  induction l generalizing t with
  | nil => rfl
  | cons r _ ih =>
    obtain ⟨hr, hl⟩ := h
    have hslot : (t.applyRecord r).contiguousSlot = t.contiguousSlot + 1 := by
      simp only [Tree.applyRecord]
      split
      · simp [Tree.apply, hr]
      · simp [Tree.advanceNoop, hr]
    rw [foldl_cons, ih (by rwa [hslot]), length_cons]
    omega

end Entries

/-! ## Journals of a worker -/

/-- The records of a worker that has started with the results `base` behind sequence `n`. -/
structure JournalOk (f : WireFormat) (p : PartitionSpec) (base : Retry) (n : ℕ)
    (l : List WalRecord) : Prop where
  consecutive : ConsecutiveFrom (n + 1) l
  valid : ∀ r ∈ l, ValidRecord f p.id p.ownershipEpoch r
  ranged : ∀ r ∈ l, p.range.contains r.operation.key = true
  bounded : n + l.length + 1 < 2 ^ 64
  distinct : (l.map (·.requestId)).Nodup
  fresh : ∀ r ∈ l, base.admits r.requestId = true

variable {offset : ℕ}

namespace JournalOk
variable {f : WireFormat} {p : PartitionSpec} {base : Retry} {n : ℕ} {l m : List WalRecord}

section
variable (h : JournalOk f p base n l)
include h

lemma of_front (hm : m <+: l) : JournalOk f p base n m := by
  obtain ⟨rest, rfl⟩ := hm
  refine ⟨(append.mp h.consecutive).1, fun r hr => h.valid r (mem_append_left _ hr),
    fun r hr => h.ranged r (mem_append_left _ hr), ?_,
    h.distinct.sublist ((sublist_append_left _ _).map _),
    fun r hr => h.fresh r (mem_append_left _ hr)⟩
  have := h.bounded
  rw [length_append] at this
  omega

lemma front (k : ℕ) : JournalOk f p base n (l.take k) := h.of_front <| take_prefix k l

/-- The window has seen none of the records. -/
theorem fresh_entries (offset : ℕ) : base.Fresh (entriesFrom f p.streamName offset l) := by
  have hids : (entriesFrom f p.streamName offset l).map Prod.fst = l.map (·.requestId) :=
    entriesFrom_ids l
  refine ⟨hids ▸ h.distinct, fun e he => ?_⟩
  obtain ⟨r, hr, hid⟩ := mem_map.mp (hids ▸ mem_map_of_mem he)
  rw [← hid]
  exact (RetryWindow.admits_iff.mp (h.fresh r hr)).1

section
variable (hbase : base.Coherent p.retainedResults)
include hbase

lemma coherent (offset : ℕ) : RetryWindow.Coherent p.retainedResults
      (base.retainAll p.retainedResults (entriesFrom f p.streamName offset l)) :=
  hbase.retainAll p.retainedResults_pos (h.fresh_entries offset)

/-- An identity that the window admits is on none of the records. -/
theorem notMem_of_admits {id : RequestId}
    (hid : (base.retainAll p.retainedResults
      (entriesFrom f p.streamName offset l)).admits id = true) :
    id ∉ l.map (·.requestId) := by
  intro hmem
  have hids : (entriesFrom f p.streamName offset l).map Prod.fst = l.map (·.requestId) :=
    entriesFrom_ids l
  obtain ⟨e, he, rfl⟩ := mem_map.mp (hids ▸ hmem)
  obtain ⟨hnone, hlive⟩ := RetryWindow.admits_iff.mp hid
  rcases RetryWindow.recalled_retainAll p.retainedResults_pos hbase (h.fresh_entries offset)
    (.inr he) with hrec | hrec
  · cases hnone.symm.trans hrec
  · cases hlive.symm.trans hrec

/-- A batch that was prepared behind the journal goes on with it. -/
theorem append_batch {b : Batch} {kept : List PreparedMutation}
    (hb : BatchOk f p (base.retainAll p.retainedResults (entriesFrom f p.streamName offset l))
      (n + l.length + 1) b)
    (hkept : kept <+: b.prepared) : JournalOk f p base n (l ++ kept.map (·.record)) := by
  have hmem {r : WalRecord} (hr : r ∈ kept.map (·.record)) : ∃ m ∈ b.prepared, m.record = r := by
    obtain ⟨m, hm, hmr⟩ := mem_map.mp hr
    exact ⟨m, hkept.subset hm, hmr⟩
  have hcons : ConsecutiveFrom (n + l.length + 1) (kept.map (·.record)) := by
    obtain ⟨rest, hrest⟩ := hkept
    have := hb.consecutive
    rw [← hrest, map_append, append] at this
    exact this.1
  refine ⟨?_, fun r hr => ?_, fun r hr => ?_, ?_, ?_, fun r hr => ?_⟩
  · rw [append, Nat.add_right_comm]
    exact ⟨h.consecutive, hcons⟩
  · rcases mem_append.mp hr with hr | hr
    · exact h.valid r hr
    · obtain ⟨m, hm, rfl⟩ := hmem hr
      exact hb.valid m hm
  · rcases mem_append.mp hr with hr | hr
    · exact h.ranged r hr
    · obtain ⟨m, hm, rfl⟩ := hmem hr
      exact hb.ranged m hm
  · -- the last record of the batch has been numbered below the bound
    rcases eq_nil_or_concat (kept.map (·.record)) with hnil | ⟨front, last, hlast⟩
    · rw [hnil, append_nil]
      exact h.bounded
    · have hseq : last.mutationSeq = n + l.length + 1 + front.length := by
        rw [hlast, concat_eq_append, append] at hcons
        exact hcons.2.1
      obtain ⟨m, hm, hmr⟩ := hmem (r := last) (by rw [hlast]; simp)
      have := hb.bounded m hm
      rw [hlast, concat_eq_append, length_append, length_append, length_singleton]
      rw [hmr] at this
      omega
  · rw [map_append, map_map]
    refine nodup_append.mpr ⟨h.distinct, hb.distinct.sublist (hkept.sublist.map _), ?_⟩
    rintro id hl _ hk rfl
    obtain ⟨m, hm, rfl⟩ := mem_map.mp hk
    exact h.notMem_of_admits hbase (hb.fresh m (hkept.subset hm)) hl
  · rcases mem_append.mp hr with hr | hr
    · exact h.fresh r hr
    · obtain ⟨m, hm, rfl⟩ := hmem hr
      exact RetryWindow.admits_of_retainAll p.retainedResults_pos hbase (h.fresh_entries offset)
        (hb.fresh m hm)

end

end

end JournalOk

/-! ## The worker -/

/-- What one step of the worker may do. -/
inductive WorkerMove (f : WireFormat) (p : PartitionSpec) (s : WorkerState) :
    WorkerStep → WorkerState → Prop
  | batch (requests : List (MutationRequest × Bool)) (durable : Option ℕ)
      (hserving : s.lifecycle = .serving) (hpending : s.pending = [])
      (hrange : (requests.all fun r => p.range.contains r.1.operation.key) = true) :
      WorkerMove f p s (.batch requests durable)
        (appendBatch f s (prepareBatch f p s.retry s.tree s.nextSeq requests) durable)
  | applied (ok applied : Bool) (offset : ℕ) (m : PreparedMutation)
      (rest : List (ℕ × PreparedMutation)) (lifecycle : PartitionLifecycle)
      (hpending : s.pending = (offset, m) :: rest) (hahead : s.treeAhead = false)
      (hlife : lifecycle = s.lifecycle ∨ lifecycle = .recovering) :
      WorkerMove f p s (.apply ok applied)
        { s with lifecycle := lifecycle, tree := s.tree.applyRecord m.record, treeAhead := true }
  | stopped (ok applied : Bool) :
      WorkerMove f p s (.apply ok applied) { s with lifecycle := .recovering }
  | acknowledged (offset : ℕ) (m : PreparedMutation) (rest : List (ℕ × PreparedMutation))
      (hpending : s.pending = (offset, m) :: rest) (hahead : s.treeAhead = true) :
      WorkerMove f p s .acknowledge (acknowledgeHead p s offset m rest)
  | loaded : WorkerMove f p s .loadOffset { s with loadedOffset := some s.retryReplayOffset }
  | captured (offset : ℕ) (hloaded : s.loadedOffset = some offset) :
      WorkerMove f p s .treeCheckpoint
        { s with loadedOffset := none, checkpoints := ⟨s.tree, offset⟩ :: s.checkpoints }
  | dropped : WorkerMove f p s .treeCheckpoint { s with loadedOffset := none }

lemma step_move {f : WireFormat} {p : PartitionSpec} {s t : WorkerState} {a : WorkerStep}
    (h : step f p s a = some t) : WorkerMove f p s a t := by
  cases a with
  | batch requests durable =>
    simp only [step] at h
    split at h <;> cases h
    next hcond => exact .batch requests durable hcond.1 hcond.2.1 hcond.2.2
  | apply ok applied =>
    simp only [step] at h
    split at h
    · next offset m rest hpending =>
      split at h <;> cases h
      next hcond =>
      rw [not_or] at hcond
      have hahead := Bool.eq_false_iff.mpr hcond.2
      cases ok with
      | true => exact .applied true applied offset m rest _ hpending hahead (.inl rfl)
      | false =>
        cases applied with
        | true => exact .applied false true offset m rest _ hpending hahead (.inr rfl)
        | false =>
          have hs : { s with treeAhead := false } = s := by rw [← hahead]
          rw [← hs]
          exact .stopped false false
    · cases h
  | acknowledge =>
    simp only [step] at h
    split at h
    · next offset m rest hpending =>
      split at h <;> cases h
      next hcond => exact .acknowledged offset m rest hpending hcond.2
    · cases h
  | loadOffset =>
    simp only [step] at h
    split at h <;> cases h
    exact .loaded
  | treeCheckpoint =>
    simp only [step] at h
    split at h <;> cases h
    next offset hloaded =>
    split
    · exact .captured offset hloaded
    · exact .dropped

/-- A worker of a part of the range moves like one of the whole range. -/
theorem WorkerMove.widen {f : WireFormat} {p : PartitionSpec} {s t : WorkerState}
    {a : WorkerStep} {range : PartitionRange} (h : WorkerMove f { p with range := range } s a t)
    (hin : ∀ key, range.contains key = true → p.range.contains key = true) :
    WorkerMove f p s a t := by
  cases h with
  | batch requests durable hserving hpending hrange =>
    refine .batch requests durable hserving hpending (all_eq_true.mpr fun r hr => ?_)
    exact hin _ (all_eq_true.mp hrange r hr)
  | applied ok applied offset m rest lifecycle hpending hahead hlife =>
    exact .applied ok applied offset m rest lifecycle hpending hahead hlife
  | stopped ok applied => exact .stopped ok applied
  | acknowledged offset m rest hpending hahead => exact .acknowledged offset m rest hpending hahead
  | loaded => exact .loaded
  | captured offset hloaded => exact .captured offset hloaded
  | dropped => exact .dropped

/-- The records of the pending mutations. -/
def WorkerState.waiting (s : WorkerState) : List WalRecord := s.pending.map (·.2.record)

/-- `done` are the acknowledged records. The worker has started with the results `base`
behind sequence `n`, and with the records `front` on its stream. -/
structure LogInv (f : WireFormat) (p : PartitionSpec) (base : Retry) (n : ℕ)
    (front : List WalRecord) (s : WorkerState) (done : List WalRecord) : Prop where
  journal : s.journal = front ++ (done ++ s.waiting)
  offsets : s.pending.map (fun m => (m.1, m.2.record))
    = framesAt f (journalTail f (front ++ done)) s.waiting
  records : JournalOk f p base n (done ++ s.waiting)
  applied : s.appliedSeq = n + done.length
  next : s.lifecycle ≠ .recovering → s.nextSeq = n + (done ++ s.waiting).length + 1
  retry : s.retry
    = base.retainAll p.retainedResults (entriesFrom f p.streamName (journalTail f front) done)

/-- The tree of the worker has grown from `t₀`. -/
structure JournalInv (f : WireFormat) (p : PartitionSpec) (base : Retry) (t₀ : Tree)
    (front : List WalRecord) (s : WorkerState) (done : List WalRecord) : Prop
    extends LogInv f p base t₀.contiguousSlot front s done where
  ahead : s.treeAhead = true → s.pending ≠ []
  tree : s.tree
    = ((done ++ s.waiting).take (done.length + s.treeAhead.toNat)).foldl Tree.applyRecord t₀
  checkpoints : ∀ c ∈ s.checkpoints, ∃ b ≤ done.length + s.treeAhead.toNat,
    c.tree = ((done ++ s.waiting).take b).foldl Tree.applyRecord t₀

lemma kept_sub (b : Batch) (durable : Option ℕ) : b.kept durable <+: b.prepared := by
  cases durable with
  | none => exact prefix_rfl
  | some n => exact take_prefix n _

lemma journaled_records (f : WireFormat) (offset : ℕ) (ms : List PreparedMutation) :
    (journaled f offset ms).map (·.2.record) = ms.map (·.record) := by
  induction ms generalizing offset with
  | nil => rfl
  | cons _ _ ih => simp [journaled, ih]

@[simp] lemma appendBatch_waiting (f : WireFormat) (s : WorkerState) (b : Batch)
    (durable : Option ℕ) :
    (appendBatch f s b durable).waiting = (b.kept durable).map (·.record) :=
  journaled_records f _ _

/-- The number of prepared records is what `nextSeq` has moved by, unless the append failed. -/
theorem appendBatch_kept {f : WireFormat} {s : WorkerState} (b : Batch) (durable : Option ℕ)
    (h : (appendBatch f s b durable).lifecycle ≠ .recovering) :
    (b.kept durable).length = b.prepared.length := by
  cases durable with
  | none => rfl
  | some =>
    have hnil : b.prepared = [] := by
      by_contra hne
      simp [appendBatch, hne] at h
    simp [Batch.kept, hnil]

variable {rest : List (ℕ × PreparedMutation)} {m : PreparedMutation}
  {requests : List (MutationRequest × Bool)}

/-- A store that finds the worker running changes the lifecycle only. -/
theorem WorkerState.resume_eq {s : WorkerState} (h : s.lifecycle ≠ .recovering) :
    s.resume = { s with lifecycle := .serving } := by simp [resume, h]

/-- What a worker needs to take a batch. -/
structure WorkerState.Takes (s : WorkerState) (p : PartitionSpec)
    (requests : List (MutationRequest × Bool)) : Prop where
  serving : s.lifecycle = .serving
  pending : s.pending = []
  inRange : (requests.all fun r => p.range.contains r.1.operation.key) = true

namespace LogInv
variable {f : WireFormat} {p : PartitionSpec} {base : Retry} {n : ℕ} {s t : WorkerState}
  {front done : List WalRecord}

lemma acknowledged (h : LogInv f p base n front s done) : JournalOk f p base n done :=
  h.records.of_front (prefix_append _ _)

lemma coherent (h : LogInv f p base n front s done)
    (hbase : base.Coherent p.retainedResults) : s.retry.Coherent p.retainedResults := by
  rw [h.retry]
  exact h.acknowledged.coherent hbase _

lemma waiting_nil (hpending : s.pending = []) : s.waiting = [] := by
  rw [waiting, hpending, map_nil]

section
variable (h : LogInv f p base n front s done)
include h

lemma settled (hpending : s.pending = []) : s.journal = front ++ done := by
  rw [h.journal, waiting_nil hpending, append_nil]

lemma batch (hbase : base.Coherent p.retainedResults) (ht : s.Takes p requests)
    (durable : Option ℕ) : LogInv f p base n front
      (appendBatch f s (prepareBatch f p s.retry s.tree s.nextSeq requests) durable) done := by
  have hjournal := h.settled ht.pending
  have hnext := h.next (by simp [ht.serving])
  rw [waiting_nil ht.pending, append_nil] at hnext
  have hok : BatchOk f p s.retry s.nextSeq (prepareBatch f p s.retry s.tree s.nextSeq requests) :=
    prepareBatch_ok _ ht.inRange
  generalize prepareBatch f p s.retry s.tree s.nextSeq requests = b at hok
  refine ⟨?_, ?_, ?_, h.applied, fun hl => ?_, h.retry⟩
  · rw [appendBatch_waiting, ← append_assoc, ← hjournal]
    rfl
  · rw [appendBatch_waiting, ← hjournal]
    exact journaled_frames _
  · rw [hnext, h.retry] at hok
    rw [appendBatch_waiting]
    exact h.acknowledged.append_batch hbase hok (kept_sub b durable)
  · rw [appendBatch_waiting, length_append, length_map, appendBatch_kept b durable hl]
    simp only [appendBatch, hok.next]
    omega

/-- Steps that change neither the journal nor the retained results. -/
theorem frame (hjournal : t.journal = s.journal) (hpending : t.pending = s.pending)
    (happlied : t.appliedSeq = s.appliedSeq) (hnext : t.nextSeq = s.nextSeq)
    (hretry : t.retry = s.retry) (hlife : t.lifecycle = s.lifecycle ∨ t.lifecycle = .recovering) :
    LogInv f p base n front t done := by
  have hwaiting : t.waiting = s.waiting := by rw [waiting, hpending, waiting]
  refine ⟨?_, ?_, ?_, happlied.trans h.applied, fun hl => ?_, hretry.trans h.retry⟩
  · rw [hjournal, hwaiting, h.journal]
  · rw [hpending, hwaiting, h.offsets]
  · rw [hwaiting]
    exact h.records
  · rw [hwaiting, hnext]
    exact h.next (hlife.resolve_right hl ▸ hl)

lemma head_offset (hpending : s.pending = (offset, m) :: rest) :
    offset = journalTail f (front ++ done) := by
  have hoffsets := h.offsets
  rw [waiting, hpending] at hoffsets
  exact congrArg Prod.fst (cons.inj hoffsets).1

end

lemma waiting_cons (hpending : s.pending = (offset, m) :: rest) :
    s.waiting = m.record :: rest.map (·.2.record) := by
  rw [waiting, hpending, map_cons]

lemma acknowledge_log (p : PartitionSpec) (done : List WalRecord)
    (hpending : s.pending = (offset, m) :: rest) : done ++ s.waiting
      = (done ++ [m.record]) ++ (acknowledgeHead p s offset m rest).waiting := by
  rw [waiting_cons hpending, append_assoc]
  rfl

lemma acknowledge (h : LogInv f p base n front s done)
    (hpending : s.pending = (offset, m) :: rest) :
    LogInv f p base n front (acknowledgeHead p s offset m rest) (done ++ [m.record]) := by
  have hoffset := h.head_offset hpending
  have hlog := acknowledge_log p done hpending
  have hseq : m.record.mutationSeq = n + done.length + 1 := by
    have hcons := h.records.consecutive
    rw [hlog, append_assoc, append] at hcons
    exact hcons.2.1.trans (Nat.add_right_comm _ _ _)
  refine ⟨?_, ?_, hlog ▸ h.records, ?_, fun hl => ?_, ?_⟩
  · exact hlog ▸ h.journal
  · have hrest := h.offsets
    rw [waiting_cons hpending, hpending, map_cons, framesAt, cons.injEq] at hrest
    rw [← append_assoc, journalTail_append]
    exact hrest.2
  · simp only [acknowledgeHead, length_append]
    omega
  · rw [← hlog]
    exact h.next hl
  · simp only [acknowledgeHead, h.retry, hoffset]
    rw [entriesFrom_append, ← journalTail_append]
    refine Eq.trans ?_ (RetryWindow.retainAll_append _ _).symm
    rfl

end LogInv

namespace JournalInv
variable {f : WireFormat} {p : PartitionSpec} {base : Retry} {t₀ : Tree} {s t : WorkerState}
  {front done : List WalRecord}

/-- A worker that starts over a tree, with results it got from elsewhere. -/
theorem started (h : t₀.contiguousSlot + 1 < 2 ^ 64)
    (answered : List (RequestId × MutationResponse)) :
    JournalInv f p base t₀ []
      { opened t₀ with retry := base, answered := answered } [] :=
  ⟨⟨rfl, rfl, ⟨trivial, nofun, nofun, h, nodup_nil, nofun⟩, rfl, fun _ => rfl, rfl⟩, nofun,
    rfl, nofun⟩

section
variable (h : JournalInv f p base t₀ front s done)
include h

lemma not_ahead (hpending : s.pending = []) : s.treeAhead = false :=
  Bool.eq_false_iff.mpr fun ha => h.ahead ha hpending

lemma batch (hbase : base.Coherent p.retainedResults) (ht : s.Takes p requests)
    (durable : Option ℕ) : JournalInv f p base t₀ front
      (appendBatch f s (prepareBatch f p s.retry s.tree s.nextSeq requests) durable) done := by
  have hahead := h.not_ahead ht.pending
  have htree := h.tree
  rw [hahead, Bool.toNat_false, Nat.add_zero, take_left] at htree
  refine ⟨h.toLogInv.batch hbase ht durable, fun ha => ?_, ?_, fun c hc => ?_⟩
  · exact absurd ha (by simp [appendBatch, hahead])
  · change s.tree = foldl _ _ (take (_ + s.treeAhead.toNat) _)
    rw [hahead, Bool.toNat_false, Nat.add_zero, take_left]
    exact htree
  · obtain ⟨k, hk, hctree⟩ := h.checkpoints c hc
    refine ⟨k, hk, ?_⟩
    rw [hahead] at hk
    rw [take_append_of_le_length hk] at hctree ⊢
    exact hctree

/-- The head of the pending mutations reaches the tree. -/
theorem applyHead {lifecycle : PartitionLifecycle} (hpending : s.pending = (offset, m) :: rest)
    (hahead : s.treeAhead = false) (hlife : lifecycle = s.lifecycle ∨ lifecycle = .recovering) :
    JournalInv f p base t₀ front
      { s with
        lifecycle := lifecycle
        tree := s.tree.applyRecord m.record
        treeAhead := true } done := by
  refine ⟨h.toLogInv.frame rfl rfl rfl rfl rfl hlife, fun _ => ?_, ?_, fun c hc => ?_⟩
  · simp [hpending]
  · have htree := h.tree
    have htake : (done ++ s.waiting).take (done.length + 1) = done ++ [m.record] := by
      rw [LogInv.waiting_cons hpending, take_length_add_append]
      rfl
    rw [hahead, Bool.toNat_false, Nat.add_zero, take_left] at htree
    refine Eq.trans ?_ (congrArg (foldl Tree.applyRecord t₀) htake.symm)
    rw [foldl_append, ← htree]
    rfl
  · obtain ⟨k, hk, htree⟩ := h.checkpoints c hc
    rw [hahead] at hk
    exact ⟨k, hk.trans (Nat.le_succ _), htree⟩

/-- A lifecycle that only stops the worker changes nothing else. -/
theorem stop : JournalInv f p base t₀ front { s with lifecycle := .recovering } done :=
  ⟨h.toLogInv.frame rfl rfl rfl rfl rfl (.inr rfl), h.ahead, h.tree, h.checkpoints⟩

lemma resume (hrun : s.lifecycle ≠ .recovering) :
    JournalInv f p base t₀ front s.resume done := by
  rw [resume_eq hrun]
  exact { h with next := fun _ => h.next hrun }

lemma acknowledge (hpending : s.pending = (offset, m) :: rest) (hahead : s.treeAhead = true) :
    JournalInv f p base t₀ front (acknowledgeHead p s offset m rest) (done ++ [m.record]) := by
  have hlog := LogInv.acknowledge_log p done hpending
  have hlen : done.length + s.treeAhead.toNat = (done ++ [m.record]).length := by
    rw [hahead, length_append]
    rfl
  refine ⟨h.toLogInv.acknowledge hpending, fun ha => absurd ha Bool.false_ne_true, ?_,
    fun c hc => ?_⟩
  · rw [← hlog]
    exact hlen ▸ h.tree
  · obtain ⟨k, hk, htree⟩ := h.checkpoints c hc
    exact ⟨k, hlen ▸ hk, hlog ▸ htree⟩

lemma checkpoint : JournalInv f p base t₀ front
      { s with loadedOffset := none, checkpoints := ⟨s.tree, offset⟩ :: s.checkpoints } done :=
  ⟨h.toLogInv.frame rfl rfl rfl rfl rfl (.inl rfl), h.ahead, h.tree,
    forall_mem_cons.mpr ⟨⟨_, le_rfl, h.tree⟩, h.checkpoints⟩⟩

lemma load {offset : Option ℕ} :
    JournalInv f p base t₀ front { s with loadedOffset := offset } done :=
  { h.toLogInv.frame rfl rfl rfl rfl rfl (.inl rfl), h with }

lemma answer (answered : List (RequestId × MutationResponse)) :
    JournalInv f p base t₀ front { s with answered := answered } done :=
  { h.toLogInv.frame rfl rfl rfl rfl rfl (.inl rfl), h with }

/-- What the tree holds is on the journal. -/
theorem held_le : done.length + s.treeAhead.toNat ≤ (done ++ s.waiting).length := by
  rw [length_append, waiting, length_map]
  cases ha : s.treeAhead with
  | false => exact Nat.le_add_right _ _
  | true => exact Nat.add_le_add_left (length_pos_iff.mpr (h.ahead ha)) _

lemma slot_take {k : ℕ} (hk : k ≤ (done ++ s.waiting).length) :
    (((done ++ s.waiting).take k).foldl Tree.applyRecord t₀).contiguousSlot
      = t₀.contiguousSlot + k := by
  rw [contiguousSlot_foldl (h.records.front k).consecutive, length_take_of_le hk]

/-- The tree holds every acknowledged record. -/
theorem applied_le_slot : t₀.contiguousSlot + done.length ≤ s.tree.contiguousSlot := by
  rw [h.tree, h.slot_take h.held_le]
  omega

end

end JournalInv
end CrowDB.ChunkKv
