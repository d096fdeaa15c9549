import CrowDB.ChunkKv.Recovery

/-!
# Batches against single requests

The conditions of a batch are resolved against an overlay before anything is applied.
`Executed` ties the overlay to the worker that has executed the batch so far.
-/
namespace CrowDB.ChunkKv
open Lib List RetryWindow WorkerState

section Batches
variable (f : WireFormat) (p : PartitionSpec)

/-- `process_batch` with readable trees, a durable append and no fault. -/
def processBatch (s : WorkerState) (requests : List MutationRequest) : WorkerState :=
  let b := prepareBatch f p s.retry s.tree s.nextSeq (requests.map (·, true))
  (appendBatch f s b none).settle p b.prepared.length

/-- Executed one at a time, each request is admitted in its turn and finds a sequence left. -/
def admittedInTurn (s : WorkerState) : List MutationRequest → Prop
  | [] => True
  | r :: rest => s.retry.admits r.requestId = true ∧ s.nextSeq + 1 < 2 ^ 64 ∧
      admittedInTurn (processBatch f p s [r]) rest

/-- The worker with one more mutation on its journal. -/
def WorkerState.appended (s : WorkerState) (x : ℕ × PreparedMutation) : WorkerState :=
  { s with
    nextSeq := x.2.record.mutationSeq + 1
    journal := s.journal ++ [x.2.record]
    journalDurableSeq := x.2.record.mutationSeq
    pending := s.pending ++ [x] }

/-- A worker between two batches. -/
structure Idle (s : WorkerState) : Prop where
  pending : s.pending = []
  applied : s.treeAhead = false
  slots : ∀ key cell, s.tree.cells key = some cell → cell.1 < s.nextSeq
  coherent : s.retry.Coherent p.retainedResults

/-- The worker `t` is `s` with the batch `b` executed. -/
structure Executed (s : WorkerState) (b : Batch) (t : WorkerState) : Prop where
  settled : (appendBatch f s b none).settle p b.prepared.length = t
  idle : Idle p t
  next : t.nextSeq = b.nextSeq
  tail : journalTail f t.journal
    = journalTail f s.journal + journalTail f (b.prepared.map (·.record))
  current : ∀ key, (b.overlay key).getD (s.tree.get key) = t.tree.get key
  admits : ∀ id, t.retry.admits id = true →
    s.retry.admits id = true ∧ ∀ m ∈ b.prepared, m.request.requestId ≠ id

end Batches

variable {f : WireFormat} {p : PartitionSpec} {s t : WorkerState} {b : Batch}
  {r : MutationRequest} {record : WalRecord}

lemma WorkerState.settle_appended {n : ℕ} (x : ℕ × PreparedMutation)
    (h : n ≤ s.pending.length) : (s.appended x).settle p n = (s.settle p n).appended x := by
  induction n generalizing s with
  | zero => rfl
  | succ n ih =>
    obtain ⟨y, rest, hpending⟩ := exists_cons_of_length_pos (Nat.zero_lt_of_lt h)
    have hhead : (s.appended x).settleHead p = (s.settleHead p).appended x := by
      simp [settleHead, appended, hpending, acknowledgeHead]
    have hlen : n ≤ (s.settleHead p).pending.length := by
      simp_all [settleHead, acknowledgeHead]
    rw [settle, Function.iterate_succ_apply, hhead]
    exact ih hlen

lemma journaled_concat (offset : ℕ) (ms : List PreparedMutation) (m : PreparedMutation) :
    journaled f offset (ms ++ [m]) = journaled f offset ms
      ++ [(offset + journalTail f (ms.map (·.record)), m)] := by
  induction ms generalizing offset with
  | nil => rfl
  | cons _ _ ih => simp [journaled, ih, journalTail, Nat.add_assoc]

lemma Tree.newest_of_lt {old : Option (ℕ × Option Paxos.Bytes)} {new : ℕ × Option Paxos.Bytes}
    (h : ∀ cell ∈ old, cell.1 < new.1) : newest old new = new := by
  cases old with
  | none => rfl
  | some cell => exact if_neg (h cell rfl).not_gt

namespace Executed

lemma start (h : Idle p s) : Executed f p s { nextSeq := s.nextSeq } s where
  settled := by
    have := h.pending
    cases s
    simp_all [appendBatch, settle, Batch.kept, journaled, okAnswers]
  idle := h
  next := rfl
  tail := rfl
  current _ := rfl
  admits _ h := ⟨h, by simp⟩

lemma answer (h : Executed f p s b t) (e : ChunkKvError) :
    Executed f p s (b.answer r (.error e)) t where
  __ := h
  settled := by
    have hok : okAnswers (b.answers ++ [(r.requestId, .error e)]) = okAnswers b.answers := by
      simp [okAnswers, Except.toOption]
    change settle p _ { appendBatch f s b none with answered := s.answered ++ okAnswers _ } = t
    rw [← h.settled, Batch.answer, hok]
    rfl

lemma push (h : Executed f p s b t) (hid : t.retry.admits r.requestId = true)
    (hseq : record.mutationSeq = b.nextSeq) (hrecord : record.requestId = r.requestId)
    (hop : record.operation = r.operation) : Executed f p s (b.push r record)
      ((t.appended (journalTail f t.journal, ⟨r, record, []⟩)).settleHead p) := by
  obtain ⟨hpending, happlied, hslots, hcoherent⟩ := h.idle
  have hnone := (admits_iff.mp hid).1
  have hcells key : (t.tree.applyRecord record).cells key =
      if record.result.isApplied = true ∧ key = r.operation.key then
        some (b.nextSeq, r.operation.successfulValue)
      else t.tree.cells key := by
    by_cases ha : record.result.isApplied = true
    · have hnewest : Tree.newest (t.tree.cells r.operation.key)
          (b.nextSeq, r.operation.successfulValue) = _ :=
        Tree.newest_of_lt fun cell hcell => h.next ▸ hslots r.operation.key cell hcell
      simp [Tree.applyRecord, ha, Tree.apply, Function.update_apply, hseq, hop, hnewest]
    · simp [Tree.applyRecord, ha, Tree.advanceNoop]
  constructor
  case settled =>
    have happend : appendBatch f s (b.push r record) none = (appendBatch f s b none).appended
        (journalTail f t.journal, ⟨r, record, []⟩) := by
      simp [appendBatch, appended, Batch.push, Batch.kept, journaled_concat, hseq, h.tail]
      rfl
    have hlen := congrArg length (journaled_records f (journalTail f s.journal) b.prepared)
    rw [length_map, length_map] at hlen
    rw [happend, Batch.push, length_append, length_singleton, settle, Function.iterate_succ_apply',
      ← settle, settle_appended _ hlen.ge, h.settled]
  all_goals simp only [settleHead, appended, hpending, acknowledgeHead, nil_append,
    retainedEntry, hrecord, hseq, Batch.push]
  case idle =>
    refine ⟨rfl, rfl, fun key cell hcell => ?_, hcoherent.retain p.retainedResults_pos hnone⟩
    grind [h.next]
  case current =>
    intro key
    have hcur := h.current key
    simp only [Tree.get] at hcur ⊢
    by_cases ha : record.result.isApplied = true <;> by_cases hkey : key = r.operation.key <;>
      cases hv : r.operation.successfulValue <;> simp_all
  case admits =>
    intro id h'
    obtain ⟨hadmits, hnew⟩ := h.admits id
      (admits_of_retain p.retainedResults_pos hcoherent hnone h')
    refine ⟨hadmits, forall_mem_concat hnew ?_⟩
    rintro rfl
    simp [admits_iff, retain_results_self p.retainedResults_pos hcoherent hnone] at h'
  all_goals simp [journalTail_append, h.tail, Nat.add_assoc]

/-- What becomes of a request depends on the worker that has executed the earlier ones. -/
theorem prepareRequest (hid : t.retry.admits r.requestId = true) (hseq : t.nextSeq + 1 < 2 ^ 64) :
    ∃ t', ∀ {s b}, Executed f p s b t →
      Executed f p s (prepareRequest f p s.retry s.tree b r true) t' := by
  obtain ⟨record, hdef⟩ : ∃ record,
    recordOf f p t.nextSeq r (t.tree.get r.operation.key) = record :=
    ⟨_, rfl⟩
  have hprepare {s b} (h : Executed f p s b t) :
      ChunkKv.prepareRequest f p s.retry s.tree b r true
        = if f.frameBytes record ≤ maxFrameBytes then b.push r record
          else b.answer r (.error (.invalidRequest "WAL frame exceeds maximum size")) := by
    obtain ⟨hadmits, hnew⟩ := h.admits _ hid
    obtain ⟨hnone, hlive⟩ := admits_iff.mp hadmits
    have hfind : b.prepared.find? (·.request.requestId == r.requestId) = none := by
      simpa using hnew
    obtain ⟨c, hc, hrecord⟩ : ∃ c, currentValue s.tree b r.operation true = .ok c ∧
        recordOf f p t.nextSeq r c = record := by
      rw [← hdef, ← h.current, currentValue]
      cases b.overlay r.operation.key with
      | some value => exact ⟨_, rfl, rfl⟩
      | none => cases hop : r.operation <;>
          exact ⟨_, rfl, by simp [recordOf, resolveCondition, hop, conditionHolds]⟩
    simp only [ChunkKv.prepareRequest, hnone, hlive, hfind, prepareNew, ← h.next, hseq, hc, hrecord]
    rfl
  by_cases hfit : f.frameBytes record ≤ maxFrameBytes
  · refine ⟨(t.appended (journalTail f t.journal, ⟨r, record, []⟩)).settleHead p, fun h => ?_⟩
    rw [hprepare h, if_pos hfit]
    exact h.push hid (hdef ▸ h.next) (hdef ▸ rfl) (hdef ▸ rfl)
  · refine ⟨t, fun h => ?_⟩
    rw [hprepare h, if_neg hfit]
    exact h.answer _

lemma prepareBatch {requests rest : List MutationRequest} (h : Executed f p s b t)
    (hturn : admittedInTurn f p t (requests ++ rest)) :
    let t' := requests.foldl (fun s r => processBatch f p s [r]) t
    admittedInTurn f p t' rest ∧ Executed f p s ((requests.map (·, true)).foldl
      (fun b r => ChunkKv.prepareRequest f p s.retry s.tree b r.1 r.2) b) t' := by
  induction requests generalizing b t with
  | nil => exact ⟨hturn, h⟩
  | cons r requests ih =>
    obtain ⟨hid, hseq, hturn⟩ := hturn
    obtain ⟨t', hnext⟩ := prepareRequest hid hseq
    obtain rfl : processBatch f p t [r] = t' := (hnext (.start h.idle)).settled
    exact ih (hnext h) hturn

end Executed

/-- However the requests are cut into batches, the worker ends as if each had come alone: with
the same journal, sequences, answers, retained results and tree. -/
theorem batching_transparent {batches : List (List MutationRequest)} (h : Idle p s)
    (hturn : admittedInTurn f p s batches.flatten) : batches.foldl (processBatch f p) s
      = batches.flatten.foldl (fun s r => processBatch f p s [r]) s := by
  induction batches generalizing s with
  | nil => rfl
  | cons batch batches ih =>
    obtain ⟨hturn, ht⟩ := (Executed.start h).prepareBatch hturn
    rw [flatten_cons, foldl_append, ← ih ht.idle hturn, ← ht.settled]
    rfl

/-- A put, an exchange that expects it and a delete that no longer finds its value. -/
def chainedRequests : List MutationRequest :=
  [(putOf 1 1).1, ⟨⟨0, 2, 1⟩, .compareExchange [1] (.revision 1) [3]⟩,
    ⟨⟨0, 3, 1⟩, .conditionalDelete [1] (.value [2])⟩]

theorem batching_transparent_chained :
    processBatch exampleFormat exampleSpec (.opened exampleTree) chainedRequests =
      chainedRequests.foldl (fun s r => processBatch exampleFormat exampleSpec s [r])
        (.opened exampleTree) ∧
    (processBatch exampleFormat exampleSpec (.opened exampleTree) chainedRequests).journal.map
      (·.result) = [.applied 1, .applied 2, .conditionFailed (some ⟨2, [3]⟩)] := by
  have hturn : admittedInTurn exampleFormat exampleSpec (.opened exampleTree)
      [chainedRequests].flatten := ⟨rfl, by decide, rfl, by decide, rfl, by decide, trivial⟩
  have hidle : Idle exampleSpec (.opened exampleTree) := ⟨rfl, rfl, nofun, Coherent.empty⟩
  exact ⟨batching_transparent hidle hturn, by decide +kernel⟩

/-- The floor of client `1` rises to `5` before its request `3` has its turn. -/
theorem batch_admits_expired :
    (processBatch exampleFormat exampleSpec (.opened exampleTree)
      [(putOf 1 5).1, (putOf 2 1).1, (putOf 1 3).1]).journal.length = 3 ∧
    ([(putOf 1 5).1, (putOf 2 1).1, (putOf 1 3).1].foldl (fun s r => processBatch exampleFormat
      exampleSpec s [r]) (.opened exampleTree)).journal.length = 2 := by
  decide +kernel

end CrowDB.ChunkKv
