import CrowDB.ChunkStream.ChainRun

/-!
# The records of a chunk

Every chunk is attached once. All that is later found under its name goes on with the record from
before, so that a reader who has seen a record knows where the chunk is.
-/
namespace CrowDB.ChunkStream
open Lib List

variable {l l' : Ledger}

/-! ## One record per chunk -/

/-- A publication has attached the chunk. -/
def Ledger.Knows (l : Ledger) (c : ChunkId) : Prop :=
  ∃ q ∈ l.committed, q.attaches = true ∧ q.tail.chunkId = c

/-- The records that stand, and those that were marked. -/
def Ledger.records (l : Ledger) : List StreamChunkRecord :=
  l.store.attached.map Snapshot.record ++ l.condemned

lemma mem_records {x : StreamChunkRecord} :
    x ∈ l.records ↔ (∃ sn ∈ l.store.attached, sn.record = x) ∨ x ∈ l.condemned := by
  rw [Ledger.records, mem_append, mem_map]

structure Distinct (l : Ledger) : Prop where
  known : ∀ x ∈ l.records, l.Knows x.chunkId
  same : ∀ x ∈ l.records, ∀ y ∈ l.records, x.chunkId = y.chunkId → x.start = y.start

/-- At most one chunk is attached, and the other records go on with those from before. -/
structure Grows (l l' : Ledger) : Prop where
  committed : l.committed ⊆ l'.committed
  records : ∃ fresh : Option StreamChunkRecord,
    (∀ f ∈ fresh, ¬ l.Knows f.chunkId ∧ l'.Knows f.chunkId) ∧
      ∀ y ∈ l'.records, fresh = some y ∨ ∃ x ∈ l.records, Continues x y

lemma Ledger.Knows.mono {c : ChunkId} (h : l.Knows c) (hsub : l.committed ⊆ l'.committed) :
    l'.Knows c := by
  obtain ⟨q, hq, hattach, hc⟩ := h
  exact ⟨q, hsub hq, hattach, hc⟩

lemma Distinct.grows (h : Distinct l) (hg : Grows l l') : Distinct l' := by
  obtain ⟨fresh, hfresh, hrec⟩ := hg.records
  -- a fresh chunk is no chunk of a record from before
  have hnew : ∀ f ∈ fresh, ∀ x ∈ l.records, x.chunkId ≠ f.chunkId :=
    fun f hf x hx heq => (hfresh f hf).1 (heq ▸ h.known x hx)
  refine ⟨fun y hy => ?_, fun y hy z hz heq => ?_⟩
  · rcases hrec y hy with hf | ⟨x, hx, hc⟩
    · exact (hfresh y hf).2
    · exact hc.chunkId ▸ (h.known x hx).mono hg.committed
  · rcases hrec y hy with hf | ⟨x, hx, hc⟩
    · rcases hrec z hz with hf' | ⟨x', hx', hc'⟩
      · rw [Option.some.inj (hf.symm.trans hf')]
      · exact absurd (hc'.chunkId.symm.trans heq.symm) (hnew y hf x' hx')
    · rcases hrec z hz with hf' | ⟨x', hx', hc'⟩
      · exact absurd (hc.chunkId.symm.trans heq) (hnew z hf' x hx)
      · rw [hc.start, hc'.start]
        exact h.same x hx x' hx' (hc.chunkId.symm.trans (heq.trans hc'.chunkId))

/-- A batch that attaches nothing. -/
theorem Rewrite.grows {t : Snapshot} (h : Rewrite l.store l'.store t t.record)
    (hst : ChainOk l.store) (hcommitted : l'.committed = l.committed)
    (hcondemned : ∀ r ∈ l'.condemned, ∃ x ∈ l.records, Continues x r) : Grows l l' := by
  refine ⟨hcommitted ▸ Subset.refl _, none, by simp, fun y hy => .inr ?_⟩
  rcases mem_records.mp hy with ⟨sn, hsn, rfl⟩ | hy
  · rcases h.continues hst hsn with heq | ⟨o, ho, hc⟩
    · exact ⟨t.record, mem_records.mpr (.inl ⟨t, (hst.loadTail_last h.old).1, rfl⟩),
        heq ▸ .refl _⟩
    · exact ⟨o.record, mem_records.mpr (.inl ⟨o, ho, rfl⟩), hc⟩
  · exact hcondemned y hy

variable {request : Option PublishRequest}

lemma Change.grows (h : Change l request l') (hcore : Core l)
    (hfresh : ∀ q, request = some q → q.attaches = true → l.Knows q.tail.chunkId →
      q ∈ l.committed) :
    Grows l l' := by
  have hcond : ∀ r ∈ l.condemned, ∃ x ∈ l.records, Continues x r :=
    fun r hr => ⟨r, mem_records.mpr (.inr hr), .refl _⟩
  cases h with
  | still _ quiet committed condemned =>
    refine ⟨committed ▸ Subset.refl _, none, by simp, fun y hy => .inr ⟨y, ?_, .refl _⟩⟩
    rwa [Ledger.records, quiet.attached, condemned] at hy
  | fenced _ rewrite _ _ committed condemned =>
    refine rewrite.grows hcore.chain committed fun r hr => ?_
    rcases condemned with heq | ⟨o, ho, heq, -⟩
    · exact hcond r (heq ▸ hr)
    · rw [heq] at hr
      rcases mem_cons.mp hr with rfl | hr
      · exact ⟨o.record, mem_records.mpr (.inl ⟨o, ho, rfl⟩), continues_marked _⟩
      · exact hcond r hr
  | published q publishing new chain bumped kept keeps condemns tail deleting rows
      continues committed
      condemned =>
    have hold : ∀ {y}, y ∈ l'.records → y = q.tail ∨ ∃ x ∈ l.records, Continues x y := by
      intro y hy
      rcases mem_records.mp hy with ⟨sn, hsn, rfl⟩ | hy
      · rcases rows sn hsn with heq | ⟨o, ho, hc⟩
        · exact .inl heq
        · exact .inr ⟨o.record, mem_records.mpr (.inl ⟨o, ho, rfl⟩), hc⟩
      · exact .inr (hcond y (condemned ▸ hy))
    refine ⟨committed ▸ subset_cons_self _ _, ?_⟩
    cases hattach : q.attaches with
    | true =>
      refine ⟨some q.tail, fun f hf => ?_, fun y hy => (hold hy).imp_left (congrArg some ·.symm)⟩
      cases hf
      exact ⟨fun hknows => new (hfresh q publishing hattach hknows),
        q, committed ▸ mem_cons_self, hattach, rfl⟩
    | false =>
      refine ⟨none, by simp, fun y hy => .inr ?_⟩
      rcases hold hy with rfl | hx
      · obtain ⟨o, ho, hc⟩ := continues hattach
        exact ⟨o.record, mem_records.mpr (.inl ⟨o, ho, rfl⟩), hc⟩
      · exact hx

/-! ## Over whole runs -/

section Run
variable {s s' : StreamState} {a : Action}

structure ChunkInv (s : StreamState) : Prop where
  distinct : Distinct s.toLedger
  allocated : ∀ q, s.Asked q → q.attaches = true → q.tail.chunkId ∈ s.allocated
  unique : ∀ q q', s.Asked q → s.Asked q' → q.attaches = true → q'.attaches = true →
    q.tail.chunkId = q'.tail.chunkId → q = q'

lemma ChunkInv.init : ChunkInv {} := by
  refine ⟨⟨?_, ?_⟩, ?_, ?_⟩ <;> simp [Ledger.records, StreamState.Asked]

/-- A step that asks for nothing new. -/
theorem ChunkInv.asked (h : ChunkInv s) (hg : Grows s.toLedger s'.toLedger)
    (hasked : ∀ q, s'.Asked q → s.Asked q) (halloc : s'.allocated = s.allocated) :
    ChunkInv s' ∧ Grows s.toLedger s'.toLedger :=
  ⟨⟨h.distinct.grows hg, fun q hq hattach => halloc ▸ h.allocated q (hasked q hq) hattach,
    fun q q' hq hq' => h.unique q q' (hasked q hq) (hasked q' hq')⟩, hg⟩

/-- A publication that begins attaches a chunk that no other one has. -/
theorem ChunkInv.aside (h : ChunkInv s) (hcore : Core s.toLedger) (ha : Aside s a s') :
    ChunkInv s' ∧ Grows s.toLedger s'.toLedger := by
  have hg : Grows s.toLedger s'.toLedger :=
    (ha.change hcore).grows hcore fun _ hq => absurd hq.symm (Option.some_ne_none _)
  have hasked : ∀ q, s'.Asked q → s.Asked q ∨ a.request = some q := by
    rintro q (hq | ⟨task, htask, hreq⟩)
    · exact .inl (.inl (ha.committed ▸ hq))
    · rcases ha.tasks task htask with hold | ⟨-, hnew⟩
      · exact .inl (.inr ⟨task, hold, hreq⟩)
      · exact hnew q hreq
  refine ⟨⟨h.distinct.grows hg, fun q hq hattach => ?_,
    fun q q' hq hq' hattach hattach' heq => ?_⟩, hg⟩
  · rcases hasked q hq with hold | hnew
    · exact ha.allocated (h.allocated q hold hattach)
    · exact (ha.publish q hnew hattach).2
  · rcases hasked q hq with hold | hnew
    · rcases hasked q' hq' with hold' | hnew'
      · exact h.unique q q' hold hold' hattach hattach' heq
      · exact absurd (heq ▸ h.allocated q hold hattach) (ha.publish q' hnew' hattach').1
    · rcases hasked q' hq' with hold' | hnew'
      · exact absurd (heq ▸ h.allocated q' hold' hattach') (ha.publish q hnew hattach).1
      · exact Option.some.inj (hnew.symm.trans hnew')

lemma Change.mem_committed {q : PublishRequest} (h : Change l request l')
    (hq : q ∈ l'.committed) :
    q ∈ l.committed ∨ request = some q := by
  cases h with
  | still _ _ committed | fenced _ _ _ _ committed => exact .inl (committed ▸ hq)
  | published q' publishing new chain bumped kept keeps condemns tail deleting rows
      continues committed
      condemned =>
    rw [committed] at hq
    rcases mem_cons.mp hq with rfl | hold
    · exact .inr publishing
    · exact .inl hold

lemma ChunkInv.run {i : ℕ} {task : Task} {next : Ledger × Task} (h : ChunkInv s)
    (hcore : Core s.toLedger) (htask : s.tasks[i]? = some task)
    (hran : Ran s.toLedger s.now task next) :
    ChunkInv { s with toLedger := next.1, tasks := s.tasks.set i next.2 } ∧
      Grows s.toLedger next.1 := by
  have hmem := mem_of_getElem? htask
  have hg : Grows s.toLedger next.1 := by
    refine hran.change.grows hcore fun q hreq hattach hknows => ?_
    obtain ⟨q', hq', hattach', heq⟩ := hknows
    exact h.unique q' q (.inl hq') (.inr ⟨task, hmem, hreq⟩) hattach' hattach heq ▸ hq'
  refine h.asked hg (fun q hq => ?_) rfl
  rcases hq with hq | ⟨task', htask', hreq⟩
  · exact (hran.change.mem_committed hq).imp_right fun hreq => ⟨task, hmem, hreq⟩
  · rcases mem_or_eq_of_mem_set htask' with hold | rfl
    · exact .inr ⟨task', hold, hreq⟩
    · rcases hran.request with hnone | hsame
      · rw [hnone] at hreq
        cases hreq
      · exact .inr ⟨task, hmem, hsame ▸ hreq⟩

lemma ChunkInv.step (h : ChunkInv s) (hinv : StreamInv s)
    (hstep : streamSystem.step s a = some s') :
    ChunkInv s' ∧ Grows s.toLedger s'.toLedger := by
  rcases hinv.cases hstep with ⟨i, input, task, next, -, htask, hran, rfl⟩ |
    ⟨i, input, v, next, -, hv, hran, rfl⟩ | haside
  · exact h.run hinv.toCore htask hran
  · exact h.asked (hran.change.grows hinv.toCore
      fun _ hq => absurd hq.symm (Option.some_ne_none _)) (fun _ hq => hq) rfl
  · exact h.aside hinv.toCore haside

lemma ChunkInv.reach {G : StreamState → Action → Prop} (h : streamSystem.Reach G s) :
    ChunkInv s := by
  refine h.invariant_of (fun s => .reach) (fun s hinit => ?_)
    fun s a s' hinv _ hchunk _ hstep => (hchunk.step hinv hstep).1
  cases hinit
  exact .init

/-- In every run a chunk keeps its start: the records of a chunk, those that are being collected
too, agree on it, and a step adds at most one chunk, a new one; every other record goes on with one
from before. The first clause only carries the assumption of fresh chunks through the run. -/
theorem chunks_attached_once (h : streamSystem.Reach System.Free s) :
    (∀ q q', s.Asked q → s.Asked q' → q.attaches = true → q'.attaches = true →
      q.tail.chunkId = q'.tail.chunkId → q = q') ∧
    (∀ x ∈ s.records, ∀ y ∈ s.records, x.chunkId = y.chunkId → x.start = y.start) ∧
    ∀ a s', streamSystem.step s a = some s' → Grows s.toLedger s'.toLedger := by
  have hinv := ChunkInv.reach h
  refine ⟨hinv.unique, hinv.distinct.same, fun a s' hstep => ?_⟩
  exact (hinv.step (StreamInv.reach h) hstep).2

theorem chunks_attached_once_two : ∃ s, streamSystem.Reach System.Free s ∧ s.records.length = 2 ∧
    ∀ x ∈ s.records, ∀ y ∈ s.records, x.chunkId = y.chunkId → x.start = y.start := by
  have hinit : streamSystem.init {} := rfl
  have hreach := System.reach_run secondChunk hinit
  exact ⟨_, hreach, by decide +kernel, (chunks_attached_once hreach).2.1⟩

end Run

end CrowDB.ChunkStream
