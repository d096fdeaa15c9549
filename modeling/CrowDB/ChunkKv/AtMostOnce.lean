import CrowDB.ChunkKv.Recovery

/-!
# Mutations are executed at most once

A lineage is a partition over its restarts and splits: a restart recovers the worker from a
checkpoint, and at a cutover the line goes on with the parent, which keeps the left half, or
with the child, which starts with the parent's retained results and an empty journal. Expired
floors live in memory only. They survive as long as replay starts at the beginning of the
journal and the journal is the whole history of all its keys, which is what `resumesWhole` asks
of a restart. It also asks that a failed worker is not set going again by a split. Then no
identity is on two records.
-/
namespace CrowDB.ChunkKv
open Lib List

/-- `inherited` is what the ancestors had executed at the cutover; `narrowed` says that a part of
the range was handed over to a child. -/
structure Lineage where
  spec : PartitionSpec
  worker : WorkerState
  inherited : List (RequestId × RetainedResult) := []
  narrowed : Bool := false

inductive LineageStep
  | work (a : WorkerStep)
  | restart (epoch checkpoint : ℕ)
  | child (child : PartitionSpec) (tree : Tree)
  | cutover (splitKey : Key)
  | store

section
variable (f : WireFormat) (s : Lineage)

/-- All records ever written, with the results they left. -/
def Lineage.executed : List (RequestId × RetainedResult) :=
  s.inherited ++ entriesFrom f s.spec.streamName 0 s.worker.journal

/-- One of the checkpoints and the journal give the new worker. Answers were given to clients
and stay. -/
def Lineage.restart (epoch checkpoint : ℕ) : Option Lineage :=
  match s.worker.checkpoints[checkpoint]? with
  | none => none
  | some c => if s.spec.ownershipEpoch ≤ epoch then
      (recover f s.spec epoch c s.worker.journal).toOption.map fun w =>
        { s with
          spec := { s.spec with ownershipEpoch := epoch }
          worker := { w with answered := s.worker.answered } }
    else none

/-- The child's tree stands at the cutover, and the child gets the results of the parent. -/
def Lineage.child (child : PartitionSpec) (tree : Tree) : Option Lineage :=
  if s.worker.betweenBatches ∧ tree.contiguousSlot = s.worker.appliedSeq
      ∧ child.retainedResults = s.spec.retainedResults then
    some {
      spec := child
      worker := { WorkerState.opened tree with
        retry := s.worker.retry
        answered := s.worker.answered }
      inherited := s.executed f }
  else none

/-- The parent goes on with the left half. -/
def Lineage.cutover (splitKey : Key) : Option Lineage :=
  if s.worker.betweenBatches then
    (s.spec.range.split splitKey).map fun halves =>
      { s with
        spec := { s.spec with range := halves.1 }
        worker := s.worker.resume
        narrowed := true }
  else none

def Lineage.step : LineageStep → Option Lineage
  | .work a => (s.worker.step f s.spec a).map fun w => { s with worker := w }
  | .restart epoch checkpoint => s.restart f epoch checkpoint
  | .child child tree => s.child f child tree
  | .cutover splitKey => s.cutover splitKey
  | .store => some { s with worker := s.worker.resume }

end

/-- A new partition; its tree is its first checkpoint. -/
def lineageSystem (f : WireFormat) : System Lineage LineageStep where
  init s := ∃ spec t₀, t₀.contiguousSlot + 1 < 2 ^ 64 ∧ s = {
    spec := spec
    worker := { WorkerState.opened t₀ with checkpoints := [⟨t₀, 0⟩] } }
  step := Lineage.step f

/-- A restart replays the whole journal, nothing was inherited and nothing handed over; splits
find the worker without a failed append or apply. -/
def resumesWhole (s : Lineage) : LineageStep → Bool
  | .work _ => true
  | .restart _ checkpoint => s.worker.checkpoints[checkpoint]?.any (·.replayOffset == 0)
      && s.inherited.isEmpty && !s.narrowed
  | .child .. | .cutover _ | .store => s.worker.lifecycle ≠ .recovering

/-! ## The invariant -/

/-- The specification with a range that was handed over in part. -/
abbrev Lineage.wide (s : Lineage) (range : PartitionRange) : PartitionSpec :=
  { s.spec with range := range }

/-- The worker has started with the results `base`, which recall what was inherited, and has had
the range `range`. -/
structure LineageInv (f : WireFormat) (s : Lineage) (range : PartitionRange) (base : Retry)
    (t₀ : Tree) (done : List WalRecord) : Prop where
  within : ∀ key, s.spec.range.contains key = true → range.contains key = true
  whole_range : s.narrowed = false → range = s.spec.range
  journal : JournalInv f (s.wide range) base t₀ [] s.worker done
  coherent : base.Coherent s.spec.retainedResults
  distinct : (s.inherited.map Prod.fst).Nodup
  recalled : ∀ e ∈ s.inherited, base.results e.1 = some e.2 ∨ base.expired e.1 = true
  known : ∀ id r, base.results id = some r → (id, r) ∈ s.inherited
  unborn : s.inherited = [] → base = RetryWindow.empty
  sameId : ∀ m ∈ s.worker.pending, ∀ r ∈ m.2.request :: m.2.followers,
    r.requestId = m.2.record.requestId
  answered : ∀ a ∈ s.worker.answered, ∃ r,
    (a.1, r) ∈ s.inherited ++ entriesFrom f s.spec.streamName 0 done ∧ r.response = a.2

lemma mem_journaled {f : WireFormat} {offset : ℕ} {ms : List PreparedMutation}
    {m : ℕ × PreparedMutation} (h : m ∈ journaled f offset ms) : m.2 ∈ ms := by
  induction ms generalizing offset with
  | nil => cases h
  | cons _ _ ih =>
    rcases mem_cons.mp h with rfl | h
    · exact .head _
    · exact .tail _ (ih h)

lemma mem_okAnswers {l : List (RequestId × Except ChunkKvError MutationResponse)}
    {a : RequestId × MutationResponse} (h : a ∈ okAnswers l) : (a.1, .ok a.2) ∈ l := by
  obtain ⟨⟨id, result⟩, hmem, hok⟩ := mem_filterMap.mp h
  cases result with
  | error => cases hok
  | ok =>
    cases hok
    exact hmem

variable {e : RequestId × RetainedResult}

namespace LineageInv
variable {f : WireFormat} {s t : Lineage} {range : PartitionRange} {base : Retry} {t₀ : Tree}
  {done : List WalRecord}

section
variable (h : LineageInv f s range base t₀ done)
include h

lemma whole : s.worker.journal = done ++ s.worker.waiting :=
  h.journal.journal

lemma settled (hpending : s.worker.pending = []) :
    s.worker.journal = done := h.journal.settled hpending

/-- What the worker has retained was executed. -/
theorem results_known {id : RequestId} {r : RetainedResult}
    (hr : s.worker.retry.results id = some r) :
    (id, r) ∈ s.inherited ++ entriesFrom f s.spec.streamName 0 done := by
  rw [h.journal.retry] at hr
  rcases RetryWindow.mem_of_retainAll hr with hr | hr
  · exact mem_append_left _ (h.known id r hr)
  · exact mem_append_right _ hr

/-- What was executed and acknowledged is retained, or it has expired. -/
theorem results_recalled (he : e ∈ s.inherited ++ entriesFrom f s.spec.streamName 0 done) :
    s.worker.retry.results e.1 = some e.2 ∨ s.worker.retry.expired e.1 = true := by
  rw [h.journal.retry]
  refine RetryWindow.recalled_retainAll s.spec.retainedResults_pos h.coherent
    (h.journal.acknowledged.fresh_entries _) ?_
  rcases mem_append.mp he with he | he
  · exact .inl (h.recalled e he)
  · exact .inr he

/-- No identity is on two records. -/
theorem executed_nodup : ((s.executed f).map Prod.fst).Nodup := by
  rw [Lineage.executed, map_append, entriesFrom_ids, h.whole]
  refine nodup_append.mpr ⟨h.distinct, h.journal.records.distinct, ?_⟩
  rintro id hold _ hnew rfl
  obtain ⟨e, he, rfl⟩ := mem_map.mp hold
  obtain ⟨r, hr, hid⟩ := mem_map.mp hnew
  -- the identity would have been admitted by the results that recall it
  obtain ⟨hnone, hlive⟩ := RetryWindow.admits_iff.mp (h.journal.records.fresh r hr)
  rw [hid] at hnone hlive
  rcases h.recalled e he with hrec | hrec
  · cases hnone.symm.trans hrec
  · cases hlive.symm.trans hrec

lemma answered_executed : ∀ a ∈ s.worker.answered,
    ∃ r, (a.1, r) ∈ s.executed f ∧ r.response = a.2 := by
  intro a ha
  obtain ⟨r, hr, hresponse⟩ := h.answered a ha
  refine ⟨r, ?_, hresponse⟩
  rw [Lineage.executed, h.whole, entriesFrom_append, ← append_assoc]
  exact mem_append_left _ hr

/-- A retry of a request that was executed is answered or refused, and not executed. -/
theorem retry_answered (he : e ∈ s.executed f) (hpending : s.worker.pending = [])
    {r : MutationRequest} (hid : r.requestId = e.1) (hdigest : f.digest r.operation = e.2.digest)
    (b : Batch) (readable : Bool) :
    prepareRequest f s.spec s.worker.retry s.worker.tree b r readable
        = b.answer r (.ok e.2.response) ∨
      prepareRequest f s.spec s.worker.retry s.worker.tree b r readable
        = b.answer r (.error .requestExpired) := by
  have hnodup := h.executed_nodup
  rw [Lineage.executed, h.settled hpending] at he hnodup
  unfold prepareRequest
  cases hres : s.worker.retry.results r.requestId with
  | some =>
    have heq := inj_on_of_nodup_map hnodup he (h.results_known hres) hid.symm
    simp [heq, hdigest]
  | none =>
    rw [hid] at hres
    rcases h.results_recalled he with hrec | hexp
    · cases hres.symm.trans hrec
    · simp [hid, hexp]

lemma work_frame {w : WorkerState} (hj : JournalInv f (s.wide range) base t₀ [] w done)
    (hpending : w.pending = s.worker.pending) (hanswered : w.answered = s.worker.answered) :
    LineageInv f { s with worker := w } range base t₀ done :=
  { h with journal := hj, sameId := hpending ▸ h.sameId, answered := hanswered ▸ h.answered }

lemma work {a : WorkerStep} {w : WorkerState} (hm : WorkerMove f s.spec s.worker a w) :
    ∃ done', LineageInv f { s with worker := w } range base t₀ done' := by
  have hwide : WorkerMove f (s.wide range) s.worker a w := WorkerMove.widen hm h.within
  cases hwide with
  | batch requests durable hserving hpending hrange =>
    have hj := h.journal.batch h.coherent ⟨hserving, hpending, hrange⟩ durable
    have hok : BatchOk f (s.wide range) s.worker.retry s.worker.nextSeq
        (prepareBatch f (s.wide range) s.worker.retry s.worker.tree s.worker.nextSeq requests) :=
      prepareBatch_ok _ hrange
    refine ⟨done, { h with journal := hj, sameId := fun m hm => ?_, answered := fun a ha => ?_ }⟩
    · exact hok.sameId _ ((kept_sub _ durable).subset (mem_journaled hm))
    · rcases mem_append.mp ha with ha | ha
      · exact h.answered a ha
      · obtain ⟨retained, hretained, hresponse⟩ := hok.answers _ _ (mem_okAnswers ha)
        exact ⟨retained, h.results_known hretained, hresponse⟩
  | applied _ _ _ _ _ _ hpending hahead hlife =>
    exact ⟨done, h.work_frame (h.journal.applyHead hpending hahead hlife) rfl rfl⟩
  | stopped => exact ⟨done, h.work_frame h.journal.stop rfl rfl⟩
  | acknowledged offset m _ hpending hahead =>
    have hj := h.journal.acknowledge hpending hahead
    have hgrow := entriesFrom_append f s.spec.streamName 0 done [m.record]
    have hoffset : offset = journalTail f done := h.journal.head_offset hpending
    rw [Nat.zero_add, ← hoffset] at hgrow
    refine ⟨_, { h with journal := hj, sameId := fun x hx => ?_, answered := fun a ha => ?_ }⟩
    · exact h.sameId x (hpending ▸ .tail _ hx)
    · rw [hgrow, ← append_assoc]
      rcases mem_append.mp ha with ha | ha
      · obtain ⟨r, hr, hresponse⟩ := h.answered a ha
        exact ⟨r, mem_append_left _ hr, hresponse⟩
      · obtain ⟨x, hx, rfl⟩ := mem_map.mp ha
        have hhead : (offset, m) ∈ s.worker.pending := hpending ▸ .head _
        have hid : x.requestId = m.record.requestId := h.sameId _ hhead x hx
        refine ⟨(retainedEntry s.spec.streamName offset m.record).2, ?_, rfl⟩
        rw [hid]
        exact mem_append_right _ (.head _)
  | loaded | dropped => exact ⟨done, h.work_frame h.journal.load rfl rfl⟩
  | captured => exact ⟨done, h.work_frame h.journal.checkpoint rfl rfl⟩

lemma restart {epoch checkpoint : ℕ} (hg : resumesWhole s (.restart epoch checkpoint) = true)
    (ht : s.restart f epoch checkpoint = some t) :
    LineageInv f t range base t₀ s.worker.journal := by
  simp only [resumesWhole, Bool.and_eq_true, List.isEmpty_iff, Bool.not_eq_true'] at hg
  obtain ⟨⟨hwhole, hinherited⟩, hnarrowed⟩ := hg
  obtain rfl := h.unborn hinherited
  obtain rfl := h.whole_range hnarrowed
  simp only [Lineage.restart] at ht
  split at ht
  · cases ht
  · next c hc =>
    have hoffset : c.replayOffset = 0 := by simpa [hc] using hwhole
    split at ht
    · next hepoch =>
      obtain ⟨w, hw, rfl⟩ := Option.map_eq_some_iff.mp ht
      obtain ⟨b, hb, htree⟩ := h.journal.checkpoints c (mem_of_getElem? hc)
      have hheld := hb.trans h.journal.held_le
      cases hrec : recover f s.spec epoch c s.worker.journal with
      | error =>
        rw [hrec] at hw
        cases hw
      | ok =>
        rw [hrec] at hw
        cases hw
        rw [h.whole] at hrec
        obtain ⟨hj, hpending⟩ :=
          h.journal.records.recovered (Nat.zero_le b) hheld htree (hoffset.trans rfl) hepoch hrec
        refine { h with
          journal := h.whole ▸ hj.answer _
          sameId := ?_
          answered := h.answered_executed }
        rw [hpending]
        nofun
    · cases ht

lemma child {child : PartitionSpec} {tree : Tree} (hrun : s.worker.lifecycle ≠ .recovering)
    (ht : s.child f child tree = some t) : LineageInv f t child.range s.worker.retry tree [] := by
  simp only [Lineage.child] at ht
  split at ht <;> cases ht
  next hcond =>
  obtain ⟨hbetween, htree, hlimit⟩ := hcond
  have hjournal := h.settled (hbetween.resolve_right hrun)
  have hexecuted : s.executed f = s.inherited ++ entriesFrom f s.spec.streamName 0 done := by
    rw [Lineage.executed, hjournal]
  refine ⟨fun _ => id, fun _ => rfl, .started ?_ _, ?_, h.executed_nodup, fun e he => ?_,
    fun id r hr => ?_, fun hnil => ?_, nofun, fun a ha => ?_⟩
  · have := h.journal.acknowledged.bounded
    rw [htree, h.journal.applied]
    exact this
  · rw [hlimit]
    exact h.journal.coherent h.coherent
  · exact h.results_recalled (hexecuted ▸ he)
  · exact hexecuted ▸ h.results_known hr
  · rw [hexecuted, append_eq_nil_iff] at hnil
    have hretry : s.worker.retry = base.retainAll s.spec.retainedResults
        (entriesFrom f s.spec.streamName 0 done) := h.journal.retry
    rw [hretry, hnil.2, h.unborn hnil.1]
    rfl
  · rw [hexecuted, entriesFrom_nil, append_nil]
    exact h.answered a ha

lemma store (hrun : s.worker.lifecycle ≠ .recovering) :
    LineageInv f { s with worker := s.worker.resume } range base t₀ done := by
  refine h.work_frame (h.journal.resume hrun) ?_ ?_
  all_goals rw [WorkerState.resume_eq hrun]

lemma cutover {splitKey : Key} (hrun : s.worker.lifecycle ≠ .recovering)
    (ht : s.cutover splitKey = some t) : LineageInv f t range base t₀ done := by
  simp only [Lineage.cutover] at ht
  split at ht
  · obtain ⟨halves, hsplit, rfl⟩ := Option.map_eq_some_iff.mp ht
    exact { h.store hrun with
      within := fun key hkey => h.within key (PartitionRange.contains_of_left hsplit hkey)
      whole_range := nofun }
  · cases ht

/-- Every step that resumes the whole history keeps the invariant. -/
theorem step {a : LineageStep} (hg : resumesWhole s a = true) (ht : s.step f a = some t) :
    ∃ range' base' t₀' done', LineageInv f t range' base' t₀' done' := by
  cases a with
  | work =>
    obtain ⟨w, hw, rfl⟩ := Option.map_eq_some_iff.mp ht
    obtain ⟨done', h'⟩ := h.work (step_move hw)
    exact ⟨range, base, t₀, done', h'⟩
  | restart => exact ⟨range, base, t₀, _, h.restart hg ht⟩
  | child spec tree => exact ⟨spec.range, _, tree, [], h.child (of_decide_eq_true hg) ht⟩
  | cutover => exact ⟨range, base, t₀, done, h.cutover (of_decide_eq_true hg) ht⟩
  | store =>
    cases ht
    exact ⟨range, base, t₀, done, h.store (of_decide_eq_true hg)⟩

end

end LineageInv

/-- In every run whose restarts replay the whole journal of a partition that inherited nothing
and handed nothing over, and whose splits lift no stop: no identity is on two records, every
answer is the response of the record with the identity, and a retry gets that response or is
refused as expired. -/
theorem mutations_at_most_once {f : WireFormat} {s : Lineage}
    (h : (lineageSystem f).Reach (fun s a => resumesWhole s a = true) s) :
    ((s.executed f).map Prod.fst).Nodup ∧
      (∀ a ∈ s.worker.answered, ∃ r, (a.1, r) ∈ s.executed f ∧ r.response = a.2) ∧
      ∀ e ∈ s.executed f, s.worker.pending = [] → ∀ r : MutationRequest, r.requestId = e.1 →
        f.digest r.operation = e.2.digest → ∀ b readable,
          prepareRequest f s.spec s.worker.retry s.worker.tree b r readable
              = b.answer r (.ok e.2.response) ∨
            prepareRequest f s.spec s.worker.retry s.worker.tree b r readable
              = b.answer r (.error .requestExpired) := by
  have hinv : ∃ range base t₀ done, LineageInv f s range base t₀ done := by
    refine h.invariant
      (I := fun s => ∃ range base t₀ done, LineageInv f s range base t₀ done) ?_ ?_
    · rintro s ⟨spec, t₀, hbound, rfl⟩
      have hj : JournalInv f spec RetryWindow.empty t₀ [] (.opened t₀) [] := .started hbound []
      refine ⟨spec.range, RetryWindow.empty, t₀, [], fun _ => id, fun _ => rfl,
        ⟨hj.toLogInv.frame rfl rfl rfl rfl rfl (.inl rfl), hj.ahead, hj.tree, ?_⟩, .empty,
        nodup_nil, nofun, nofun, fun _ => rfl, nofun, nofun⟩
      rintro c hc
      obtain rfl := mem_singleton.mp hc
      exact ⟨0, le_rfl, rfl⟩
    · rintro s a t ⟨range, base, t₀, done, hs⟩ hg ht
      exact hs.step hg ht
  obtain ⟨range, base, t₀, done, hinv⟩ := hinv
  exact ⟨hinv.executed_nodup, hinv.answered_executed, fun e he hpending r hid hdigest =>
    hinv.retry_answered he hpending hid hdigest⟩

/-! ## Runs on fixed requests -/

def exampleLineage : Lineage where
  spec := exampleSpec
  worker := { WorkerState.opened exampleTree with checkpoints := [⟨exampleTree, 0⟩] }

lemma exampleLineage_init : (lineageSystem exampleFormat).init exampleLineage :=
  ⟨exampleSpec, exampleTree, by decide, rfl⟩

/-- A batch of one request, applied and acknowledged. -/
def serveOne (request : MutationRequest × Bool) : List LineageStep :=
  [.work (.batch [request] none), .work (.apply true true), .work .acknowledge]

/-- Request `1` of client `2` makes the worker forget the result of client `1`; the replay
offset of the checkpoint skips its record, and the restarted worker has no floor for it. -/
def forgottenFloor : List LineageStep :=
  serveOne (putOf 1 1) ++ serveOne (putOf 2 1) ++ [.work .loadOffset, .work .treeCheckpoint]
    ++ [.restart 1 0] ++ serveOne (putOf 1 1)

theorem executed_twice_after_restart : ∃ s, (lineageSystem exampleFormat).Reach System.Free s ∧
    (s.executed exampleFormat).map Prod.fst = [⟨0, 1, 1⟩, ⟨0, 2, 1⟩, ⟨0, 1, 1⟩] :=
  ⟨_, System.reach_run forgottenFloor exampleLineage_init, by decide +kernel⟩

/-- The worker restarts behind one record; it serves on behind a cutover, and then the line goes on
with the child of another split. -/
def restartAndSplit : List LineageStep :=
  serveOne (putOf 1 1) ++ [.restart 2 0, .cutover [5]] ++ serveOne (putOf 2 1)
    ++ [.child exampleSpec { exampleTree with contiguousSlot := 2 }] ++ serveOne (putOf 2 2)

theorem mutations_at_most_once_child :
    ∃ s, (lineageSystem exampleFormat).Reach (fun s a => resumesWhole s a = true) s ∧
      (s.executed exampleFormat).length = 3 ∧
      ((s.executed exampleFormat).map Prod.fst).Nodup := by
  have hr := System.reach_runGuarded (g := resumesWhole) restartAndSplit exampleLineage_init
  exact ⟨_, hr, by decide +kernel, (mutations_at_most_once hr).1⟩

end CrowDB.ChunkKv
