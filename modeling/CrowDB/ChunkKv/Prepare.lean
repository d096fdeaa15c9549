import CrowDB.ChunkKv.Replay

/-!
# What a prepared batch contains

A request is answered at once, follows one of the batch with its identity, or becomes a
record. The records of a batch are consecutive, valid and new: their identities are
neither retained nor expired when the batch starts, and no two of them are the same.
-/
namespace CrowDB.ChunkKv
open Lib List

variable {result : Except ChunkKvError MutationResponse}

section Prepare
variable {f : WireFormat} {p : PartitionSpec} {retry : Retry} {t : Tree}

/-- What one request may do to the batch. -/
inductive RequestMove (f : WireFormat) (p : PartitionSpec) (retry : Retry) (r : MutationRequest)
    (b : Batch) : Batch → Prop
  | answered (result : Except ChunkKvError MutationResponse)
      (hok : ∀ response, result = .ok response →
        ∃ retained, retry.results r.requestId = some retained ∧ retained.response = response) :
      RequestMove f p retry r b (b.answer r result)
  | faulted : RequestMove f p retry r b
      ({ b with faulted := true }.answer r (.error (.faulted "mutation sequence exhausted")))
  | followed (m : PreparedMutation) (hm : m ∈ b.prepared)
      (hid : m.request.requestId = r.requestId) : RequestMove f p retry r b (b.follow r)
  | pushed (current : Option ValueRevision) (hbound : b.nextSeq + 1 < 2 ^ 64)
      (hnew : ∀ m ∈ b.prepared, m.request.requestId ≠ r.requestId)
      (hadmits : retry.admits r.requestId = true) :
      RequestMove f p retry r b (b.push r (recordOf f p b.nextSeq r current))

lemma prepareRequest_move (b : Batch) (r : MutationRequest) (readable : Bool) :
    RequestMove f p retry r b (prepareRequest f p retry t b r readable) := by
  unfold prepareRequest
  split
  · next retained hretained =>
    refine .answered _ fun response hok => ⟨retained, hretained, ?_⟩
    split at hok
    · exact Except.ok.inj hok
    · cases hok
  · next hnone =>
    split
    · exact .answered _ nofun
    · next hlive =>
      split
      · next first hfirst =>
        split
        · exact .followed first (mem_of_find?_eq_some hfirst) (by simpa using find?_some hfirst)
        · exact .answered _ nofun
      · next hfind =>
        have hnew : ∀ m ∈ b.prepared, m.request.requestId ≠ r.requestId := fun m hm => by
          simpa using find?_eq_none.mp hfind m hm
        unfold prepareNew
        split
        · next hbound =>
          split
          · exact .answered _ nofun
          · next current _ =>
            split
            · exact .pushed current hbound hnew
                (RetryWindow.admits_iff.mpr ⟨hnone, Bool.eq_false_iff.mpr hlive⟩)
            · exact .answered _ nofun
        · exact .faulted

/-- The records that a batch has prepared, from sequence `start` on. -/
structure BatchOk (f : WireFormat) (p : PartitionSpec) (retry : Retry) (start : ℕ) (b : Batch) :
    Prop where
  consecutive : ConsecutiveFrom start (b.prepared.map (·.record))
  next : b.nextSeq = start + b.prepared.length
  valid : ∀ m ∈ b.prepared, ValidRecord f p.id p.ownershipEpoch m.record
  bounded : ∀ m ∈ b.prepared, m.record.mutationSeq + 1 < 2 ^ 64
  ranged : ∀ m ∈ b.prepared, p.range.contains m.record.operation.key = true
  sameId : ∀ m ∈ b.prepared, ∀ r ∈ m.request :: m.followers, r.requestId = m.record.requestId
  fresh : ∀ m ∈ b.prepared, retry.admits m.record.requestId = true
  distinct : (b.prepared.map (·.record.requestId)).Nodup
  answers : ∀ id response, (id, .ok response) ∈ b.answers →
    ∃ retained, retry.results id = some retained ∧ retained.response = response

lemma BatchOk.empty (start : ℕ) : BatchOk f p retry start { nextSeq := start } := by
  constructor <;> simp [ConsecutiveFrom]

lemma resolveCondition_revisionIs (seq : ℕ) (operation : MutationOperation)
    (current : Option ValueRevision) :
    (resolveCondition seq operation current).revisionIs seq = true := by
  simp only [resolveCondition]
  split <;> simp [MutationResult.revisionIs]

lemma recordOf_valid (seq : ℕ) (r : MutationRequest) (current : Option ValueRevision) :
    ValidRecord f p.id p.ownershipEpoch (recordOf f p seq r current) :=
  ⟨rfl, le_rfl, rfl, resolveCondition_revisionIs _ _ _⟩

variable {r : MutationRequest} {b : Batch}

lemma mem_answer {x : Except ChunkKvError MutationResponse} {id : RequestId}
    (h : (id, x) ∈ (b.answer r result).answers) :
    (id, x) ∈ b.answers ∨ (id = r.requestId ∧ x = result) := by
  simpa [Batch.answer] using h

/-- Following a prepared mutation changes no record. -/
theorem follow_records (b : Batch) (r : MutationRequest) :
    (b.follow r).prepared.map (·.record) = b.prepared.map (·.record) := by
  simp only [Batch.follow, map_map]
  refine map_congr_left fun m _ => ?_
  simp only [Function.comp]
  split <;> rfl

lemma forall_follow {P : PreparedMutation → Prop} (h : ∀ m ∈ b.prepared, P m)
    (hr : ∀ m, m.request.requestId = r.requestId → P m →
      P { m with followers := m.followers ++ [r] }) :
    ∀ m ∈ (b.follow r).prepared, P m := by
  refine forall_mem_map.mpr fun m hm => ?_
  split
  · next hid => exact hr m hid (h m hm)
  · exact h m hm

variable {start : ℕ}

section
variable (h : BatchOk f p retry start b)
include h

lemma BatchOk.answer
    (hok : ∀ response, result = .ok response → ∃ retained, retry.results r.requestId =
      some retained ∧ retained.response = response) :
    BatchOk f p retry start (b.answer r result) := by
  refine { h with answers := fun id response hmem => ?_ }
  rcases mem_answer hmem with hmem | ⟨rfl, hres⟩
  · exact h.answers id response hmem
  · exact hok response hres.symm

lemma BatchOk.follow : BatchOk f p retry start (b.follow r) := by
  refine ⟨?_, ?_, forall_follow h.valid fun _ _ => id, forall_follow h.bounded fun _ _ => id,
    forall_follow h.ranged fun _ _ => id, forall_follow h.sameId fun m hid hm q hq => ?_,
    forall_follow h.fresh fun _ _ => id, ?_, h.answers⟩
  · rw [follow_records]
    exact h.consecutive
  · simpa [Batch.follow] using h.next
  · rcases mem_append.mp (cons_append ▸ hq : q ∈ (m.request :: m.followers) ++ [r]) with hq | hq
    · exact hm q hq
    · rw [mem_singleton.mp hq, ← hid]
      exact hm _ (.head _)
  · have hids : (b.follow r).prepared.map (·.record.requestId)
        = b.prepared.map (·.record.requestId) := by
      have := congrArg (map WalRecord.requestId) (follow_records b r)
      rwa [map_map, map_map] at this
    rw [hids]
    exact h.distinct

lemma BatchOk.push {current : Option ValueRevision} (hbound : b.nextSeq + 1 < 2 ^ 64)
    (hnew : ∀ m ∈ b.prepared, m.request.requestId ≠ r.requestId)
    (hadmits : retry.admits r.requestId = true) (hrange : p.range.contains r.operation.key = true) :
    BatchOk f p retry start (b.push r (recordOf f p b.nextSeq r current)) := by
  refine ⟨?_, ?_, forall_mem_concat h.valid (recordOf_valid _ _ _),
    forall_mem_concat h.bounded hbound, forall_mem_concat h.ranged hrange,
    forall_mem_concat h.sameId (forall_mem_singleton.mpr rfl), forall_mem_concat h.fresh hadmits,
    ?_, h.answers⟩
  · rw [Batch.push, map_append, ConsecutiveFrom.append, length_map]
    exact ⟨h.consecutive, h.next, trivial⟩
  · simp only [Batch.push, length_append, length_singleton, h.next]
    omega
  · rw [Batch.push, map_append]
    refine nodup_append.mpr ⟨h.distinct, nodup_singleton _, ?_⟩
    rintro a ha c hc rfl
    obtain ⟨m, hm, hid⟩ := mem_map.mp ha
    refine hnew m hm ?_
    rw [h.sameId m hm _ (.head _), hid]
    exact mem_singleton.mp hc

lemma BatchOk.request {readable : Bool} (hrange : p.range.contains r.operation.key = true) :
    BatchOk f p retry start (prepareRequest f p retry t b r readable) := by
  have hmove : RequestMove f p retry r b (prepareRequest f p retry t b r readable) :=
    prepareRequest_move b r readable
  generalize prepareRequest f p retry t b r readable = b' at hmove
  cases hmove with
  | answered _ hok => exact h.answer hok
  | faulted =>
    have hf : BatchOk f p retry start { b with faulted := true } := { h with }
    exact hf.answer nofun
  | followed => exact h.follow
  | pushed _ hbound hnew hadmits => exact h.push hbound hnew hadmits hrange

end

lemma prepareBatch_ok (start : ℕ) {requests : List (MutationRequest × Bool)}
    (hrange : (requests.all fun r => p.range.contains r.1.operation.key) = true) :
    BatchOk f p retry start (prepareBatch f p retry t start requests) := by
  suffices hfold : ∀ b, BatchOk f p retry start b → BatchOk f p retry start
      (requests.foldl (fun b r => prepareRequest f p retry t b r.1 r.2) b) from
    hfold _ (.empty start)
  induction requests with
  | nil => exact fun b h => h
  | cons _ _ ih =>
    simp only [all_cons, Bool.and_eq_true] at hrange
    exact fun b h => ih hrange.2 _ (h.request hrange.1)

end Prepare
end CrowDB.ChunkKv
