import CrowDB.ChunkKv.Serving
import CrowDB.ChunkKv.SplitRun

/-!
# What a split knows of its parent

The base of the child is the part of the parent's records in the child's range, up to some
record; the cursor only moves it along the parent's journal. Once dispatch is installed the
parent writes in the left half and the child behind the cutover, each on its own stream.
-/
namespace CrowDB.ChunkKv
open Lib List ChunkKv.Tree SplitRun

/-! ## Ranges -/

namespace SplitSetup
variable (su : SplitSetup)

/-- The parent keeps the left half, and the child has the right one. -/
theorem split_range : su.plan.parentRange.split su.plan.splitKey
    = some (su.retained.range, su.plan.child.range) := by
  have hvalid := su.planValid
  simp only [SplitPlan.validate, Bool.and_eq_true, Option.any_eq_true, beq_iff_eq] at hvalid
  obtain ⟨-, halves, hsplit, hchild⟩ := hvalid
  rw [hsplit, hchild, PartitionRange.split_eq hsplit]
  rfl

lemma retained_contains {key : Key} (h : su.retained.range.contains key = true) :
    su.parent.range.contains key = true :=
  su.parentRange ▸ PartitionRange.contains_of_left su.split_range h

lemma epoch_ne_zero : su.plan.parentEpoch ≠ 0 ∧ su.plan.child.ownershipEpoch ≠ 0 := by
  have hvalid := su.planValid
  simp only [SplitPlan.validate, Bool.and_eq_true, bne_iff_ne] at hvalid
  exact ⟨hvalid.1.1.1.1.1.2, hvalid.1.1.1.2⟩

lemma child_range_validate : su.plan.child.range.validate = true := by
  have hvalid := su.planValid
  simp only [SplitPlan.validate, Bool.and_eq_true] at hvalid
  exact hvalid.1.1.1.1.1.1.1.2

end SplitSetup

section Move
variable {f : WireFormat} {p : PartitionSpec} {s t : WorkerState} {a : WorkerStep}

/-- A step appends records of the worker's range. -/
theorem WorkerMove.appended (h : WorkerMove f p s a t) :
    ∃ new, t.journal = s.journal ++ new ∧ ∀ r ∈ new, p.range.contains r.operation.key = true := by
  cases h with
  | batch _ durable _ _ hrange =>
    refine ⟨_, rfl, fun r hr => ?_⟩
    obtain ⟨m, hm, rfl⟩ := mem_map.mp hr
    exact (prepareBatch_ok _ hrange).ranged m ((kept_sub _ durable).subset hm)
  | applied | stopped | acknowledged | loaded | captured | dropped =>
    exact ⟨[], (append_nil _).symm, nofun⟩

end Move

/-! ## The base of the child -/

section Base
variable {range : PartitionRange} {t : Tree} {l : List WalRecord}

lemma Tree.restrict_applyRecord {r : WalRecord} (h : r.mutationSeq = t.contiguousSlot + 1) :
    (t.applyRecord r).restrict range
      = (t.restrict range).replayRecord r (range.contains r.operation.key) := by
  cases happlied : r.result.isApplied with
  | false => simp [applyRecord, replayRecord, happlied, restrict, advanceNoop]
  | true =>
    cases hin : range.contains r.operation.key with
    | true =>
      simp only [applyRecord, replayRecord, happlied, restrict, apply,
        Bool.and_self, if_true, Tree.mk.injEq]
      refine ⟨funext fun key => ?_, rfl⟩
      by_cases hkey : key = r.operation.key
      · simp [hkey, hin]
      · simp [Function.update_of_ne hkey]
    | false =>
      simp only [applyRecord, replayRecord, happlied, restrict, apply,
        advanceNoop, Bool.false_and, if_true, Bool.false_eq_true, if_false, h,
        Tree.mk.injEq]
      refine ⟨funext fun key => ?_, by omega⟩
      by_cases hkey : key = r.operation.key
      · simp [hkey, hin]
      · simp [Function.update_of_ne hkey]

/-- The part of the records that lies in the child's range, over a tree. -/
def childTree (su : SplitSetup) (t : Tree) (l : List WalRecord) : Tree :=
  l.foldl (fun t r => t.replayRecord r (su.plan.child.range.contains r.operation.key))
    (t.restrict su.plan.child.range)

lemma childTree_append (su : SplitSetup) (t : Tree) (l m : List WalRecord) :
    childTree su t (l ++ m) = m.foldl
      (fun t r => t.replayRecord r (su.plan.child.range.contains r.operation.key))
      (childTree su t l) :=
  foldl_append

/-- A restricted tree has grown from the restricted start. -/
theorem restrict_foldl (su : SplitSetup) (h : ConsecutiveFrom (t.contiguousSlot + 1) l) :
    (l.foldl applyRecord t).restrict su.plan.child.range = childTree su t l := by
  induction l using reverseRecOn with
  | nil => rfl
  | append_singleton _ _ ih =>
    obtain ⟨hl, hr, -⟩ := ConsecutiveFrom.append.mp h
    rw [childTree_append, ← ih hl, foldl_append]
    refine restrict_applyRecord ?_
    rw [contiguousSlot_foldl hl]
    omega

lemma childTree_slot (su : SplitSetup) (h : ConsecutiveFrom (t.contiguousSlot + 1) l) :
    (childTree su t l).contiguousSlot = t.contiguousSlot + l.length := by
  rw [← restrict_foldl su h, restrict, contiguousSlot_foldl h]

end Base

/-! ## The cursor -/

section Cursor
variable {f : WireFormat} {su : SplitSetup}

lemma journalTail_cons (r : WalRecord) (l : List WalRecord) :
    journalTail f (r :: l) = f.frameBytes r + journalTail f l := by simp [journalTail]

lemma journalTail_take_le (l : List WalRecord) {i j : ℕ} (h : i ≤ j) :
    journalTail f (l.take i) ≤ journalTail f (l.take j) := by
  have hsplit := take_append_drop i (l.take j)
  rw [take_take, Nat.min_eq_left h] at hsplit
  rw [← hsplit, journalTail_append]
  exact Nat.le_add_right _ _

/-- The records up to the target are taken from a cursor that is behind it. -/
theorem replayWriterUntil_eq {l : List WalRecord} {c : DeltaCursor} {q target offset : ℕ}
    (hseq : ConsecutiveFrom q l) (hq : q ≤ c.appliedSeq + 1) (hbehind : c.appliedSeq < target)
    (hlast : target < q + l.length)
    (hvalid : ∀ r ∈ l, ValidRecord f su.parent.id su.parent.ownershipEpoch r)
    (hrange : ∀ r ∈ l, su.plan.parentRange.contains r.operation.key = true) :
    replayWriterUntil f su target c (framesAt f offset l) = .ok {
      offset := offset + journalTail f (l.take (target + 1 - q))
      appliedSeq := target
      tree := ((l.take (target + 1 - q)).drop (c.appliedSeq + 1 - q)).foldl
        (fun t r => t.replayRecord r (su.plan.child.range.contains r.operation.key)) c.tree } := by
  induction l generalizing q c offset with
  | nil =>
    rw [length_nil] at hlast
    omega
  | cons r l ih =>
    obtain ⟨hr, hseq⟩ := hseq
    obtain rfl : r.mutationSeq = q := hr
    rw [length_cons] at hlast
    have hvalid' := fun x hx => hvalid x (.tail r hx)
    have hrange' := fun x hx => hrange x (.tail r hx)
    have htake : (r :: l).take (target + 1 - r.mutationSeq)
        = r :: l.take (target + 1 - (r.mutationSeq + 1)) := by
      rw [show target + 1 - r.mutationSeq = target + 1 - (r.mutationSeq + 1) + 1 by omega,
        take_succ_cons]
    rw [framesAt, replayWriterUntil, if_neg (by omega), htake, journalTail_cons]
    simp only [validateReplayRecord_ok (hvalid r (.head _)), bind, Except.bind]
    rw [applyWriterRecord]
    by_cases hold : r.mutationSeq ≤ c.appliedSeq
    · -- the base holds the record
      have hrest : replayWriterUntil f su target { c with offset := offset + f.frameBytes r }
          (framesAt f (offset + f.frameBytes r) l) = _ :=
        ih hseq (Nat.succ_le_succ hold) hbehind (by omega) hvalid' hrange'
      rw [if_pos hold]
      simp only [if_neg (Nat.ne_of_lt hbehind), hrest]
      rw [show c.appliedSeq + 1 - r.mutationSeq = c.appliedSeq + 1 - (r.mutationSeq + 1) + 1 by
        omega, drop_succ_cons, Nat.add_assoc]
    · have hnext : r.mutationSeq = c.appliedSeq + 1 := by omega
      rw [if_neg hold]
      simp only [ensure, if_pos hnext, hrange r (.head _), if_true, bind, Except.bind, pure,
        Except.pure]
      rw [show c.appliedSeq + 1 - r.mutationSeq = 0 by omega, drop_zero, foldl_cons]
      by_cases hreached : r.mutationSeq = target
      · simp [journalTail, hreached]
      · have hlt : r.mutationSeq < target := by omega
        have hrest : replayWriterUntil f su target ⟨offset + f.frameBytes r, r.mutationSeq,
              c.tree.replayRecord r (su.plan.child.range.contains r.operation.key)⟩
            (framesAt f (offset + f.frameBytes r) l) = _ :=
          ih hseq le_rfl hlt (by omega) hvalid' hrange'
        rw [if_neg hreached, hrest, Nat.sub_self, drop_zero, Nat.add_assoc]

/-- The frames behind a front of the journal. -/
theorem readFrames_append (l m : List WalRecord) :
    readFrames f (journalTail f l) (l ++ m) = .ok (framesAt f (journalTail f l) m) := by
  have hframes := framesFrom_append f 0 l m
  rw [Nat.zero_add] at hframes
  rw [readFrames, journalTail_append, hframes]
  cases m with
  | nil => rw [if_pos (by simp [journalTail])]; rfl
  | cons r =>
    have hpos := f.frameBytes_pos r
    rw [if_neg (by rw [journalTail_cons]; omega)]
    rfl

/-- The base holds the first `b` records of the parent's log; the retained results that the
child may need begin behind the first `i`. -/
structure CursorOk (f : WireFormat) (su : SplitSetup) (t₀ : Tree) (front log : List WalRecord)
    (replayOffset : ℕ) (c : DeltaCursor) (i b : ℕ) : Prop where
  start : i ≤ b
  held : b ≤ log.length
  replay : replayOffset = journalTail f (front ++ log.take i)
  position : c.offset = replayOffset ∨ c.offset = journalTail f (front ++ log.take b)
  seq : c.appliedSeq = t₀.contiguousSlot + b
  tree : c.tree = childTree su t₀ (log.take b)

namespace CursorOk
variable {t₀ : Tree} {front log : List WalRecord} {o i b : ℕ} {c : DeltaCursor}

section
variable (h : CursorOk f su t₀ front log o c i b)
include h

lemma grow (new : List WalRecord) : CursorOk f su t₀ front (log ++ new) o c i b := by
  have hb : (log ++ new).take b = log.take b := take_append_of_le_length h.held
  have hi : (log ++ new).take i = log.take i := take_append_of_le_length (h.start.trans h.held)
  refine ⟨h.start, ?_, hi.symm ▸ h.replay, hb.symm ▸ h.position, h.seq, hb.symm ▸ h.tree⟩
  rw [length_append]
  exact h.held.trans (Nat.le_add_right _ _)

/-- The offset of the cursor is where one of the records up to the base begins. -/
theorem offset_eq : ∃ j ≤ b, c.offset = journalTail f (front ++ log.take j) := by
  rcases h.position with hpos | hpos
  · exact ⟨i, h.start, hpos.trans h.replay⟩
  · exact ⟨b, le_rfl, hpos⟩

/-- Catching up with the first `k` records never fails. -/
theorem catchUp {base : Retry} {k : ℕ} (hlog : JournalOk f su.parent base t₀.contiguousSlot log)
    (hk : k ≤ log.length) : ∃ c', catchUp f su (t₀.contiguousSlot + k) c (front ++ log) = .ok c' ∧
      CursorOk f su t₀ front log o c' i (max b k) := by
  rw [ChunkKv.catchUp, h.seq]
  by_cases hbk : b < k
  · obtain ⟨j, hjb, hoffset⟩ := h.offset_eq
    have hsplit : front ++ log = (front ++ log.take j) ++ log.drop j := by
      rw [append_assoc, take_append_drop]
    have hmem : ∀ r ∈ log.drop j, r ∈ log := fun r => mem_of_mem_drop
    have htake : log.take j ++ (log.drop j).take (k - j) = log.take k := by
      rw [← take_add, Nat.add_sub_cancel' (by omega)]
    have hnew : ((log.drop j).take (k - j)).drop (b - j) = (log.take k).drop b := by
      have hlen : (log.take j).length = j := length_take_of_le (by omega)
      have hnil : (log.take j).drop b = [] := drop_eq_nil_of_le (hlen.trans_le hjb)
      rw [← htake, drop_append, hnil, nil_append, hlen]
    have hbase : (log.take k).take b ++ (log.take k).drop b = log.take k := take_append_drop b _
    rw [take_take, Nat.min_eq_left hbk.le] at hbase
    have hrun : replayWriterUntil f su (t₀.contiguousSlot + k) c
        (framesAt f (journalTail f (front ++ log.take j)) (log.drop j)) = _ :=
      replayWriterUntil_eq (consecutive_drop hlog.consecutive (by omega)) (by rw [h.seq]; omega)
      (by rw [h.seq]; omega)
        (by rw [length_drop]; omega) (fun r hr => hlog.valid r (hmem r hr))
        (fun r hr => su.parentRange ▸ hlog.ranged r (hmem r hr))
    rw [if_pos (Nat.add_lt_add_left hbk _), hoffset, hsplit, readFrames_append]
    refine ⟨_, hrun, ?_⟩
    rw [Nat.max_eq_right hbk.le]
    have hcut : t₀.contiguousSlot + k + 1 - (t₀.contiguousSlot + j + 1) = k - j := by omega
    have hdrop : c.appliedSeq + 1 - (t₀.contiguousSlot + j + 1) = b - j := by
      rw [h.seq]
      omega
    refine ⟨h.start.trans hbk.le, hk, h.replay, .inr ?_, rfl, ?_⟩
    · rw [← journalTail_append, append_assoc, hcut, htake]
    · simp only [hcut, hdrop, h.tree, hnew]
      rw [← childTree_append, hbase]
  · rw [if_neg (by omega)]
    exact ⟨c, rfl, by rwa [Nat.max_eq_left (by omega)]⟩

end

end CursorOk
end Cursor

/-! ## Stages -/

/-- The child since the cutover behind the first `m` records of the parent's log. -/
structure ChildOk (orderly : Prop) (f : WireFormat) (su : SplitSetup) (base : Retry) (n : ℕ)
    (front log : List WalRecord) (i b m : ℕ) (ch : ChildRun) : Prop where
  start : orderly → i < m
  covered : b ≤ m
  within : m ≤ log.length
  cutoverSeq : ch.cutoverSeq = n + m
  cutoverOffset : ch.cutoverOffset = journalTail f (front ++ log.take m)
  left : ∀ r ∈ log.drop m, su.retained.range.contains r.operation.key = true
  writer : ∃ done, WriterInv orderly f su.child (base.retainAll su.parent.retainedResults
      (entriesFrom f su.parent.streamName (journalTail f front) (log.take m)))
    (n + m) [] ch.worker done

/-- `acked` records of the parent's log are acknowledged. -/
inductive StageOk (orderly : Prop) (f : WireFormat) (su : SplitSetup) (base : Retry) (t₀ : Tree)
    (front log : List WalRecord) (acked : ℕ) : SplitStage → Option ChildRun → Prop
  | idle : StageOk orderly f su base t₀ front log acked .idle none
  | loaded {i o : ℕ} (hi : i ≤ acked) (ho : o = journalTail f (front ++ log.take i)) :
      StageOk orderly f su base t₀ front log acked (.loaded o) none
  | catching {i b o : ℕ} {c : DeltaCursor} (hc : CursorOk f su t₀ front log o c i b) :
      StageOk orderly f su base t₀ front log acked (.catching o c) none
  | committed {i b o : ℕ} {c : DeltaCursor} (hc : CursorOk f su t₀ front log o c i b) :
      StageOk orderly f su base t₀ front log acked (.committed (su.artifact o c) c.tree) none
  | dispatched {i b o m : ℕ} {c : DeltaCursor} {ch : ChildRun}
      (hc : CursorOk f su t₀ front log o c i b)
      (hch : ChildOk orderly f su base t₀.contiguousSlot front log i b m ch) :
      StageOk orderly f su base t₀ front log acked (.committed (su.artifact o c) c.tree) (some ch)

structure SplitInv (orderly : Prop) (f : WireFormat) (su : SplitSetup) (t₀ : Tree)
    (front : List WalRecord) (s : SplitRun) (base : Retry) (done : List WalRecord) : Prop where
  parent : ServingInv orderly f su.parent base t₀ front s.parent done
  stage : StageOk orderly f su base t₀ front (done ++ s.parent.waiting) done.length s.stage s.child

variable {ch : ChildRun} {new : List WalRecord}

section Stages
variable {orderly : Prop} {f : WireFormat} {su : SplitSetup} {base : Retry} {t₀ : Tree}
  {front log : List WalRecord}

lemma ChildOk.grow {n i b m : ℕ} (h : ChildOk orderly f su base n front log i b m ch)
    (hnew : ∀ r ∈ new, su.retained.range.contains r.operation.key = true) :
    ChildOk orderly f su base n front (log ++ new) i b m ch := by
  have hm : (log ++ new).take m = log.take m := take_append_of_le_length h.within
  refine ⟨h.start, h.covered, ?_, h.cutoverSeq, hm.symm ▸ h.cutoverOffset, fun r hr => ?_,
    hm.symm ▸ h.writer⟩
  · rw [length_append]
    exact h.within.trans (Nat.le_add_right _ _)
  · rw [drop_append_of_le_length h.within] at hr
    exact (mem_append.mp hr).elim (h.left r) (hnew r)

lemma StageOk.grow {acked acked' : ℕ} {stage : SplitStage} {child : Option ChildRun}
    (h : StageOk orderly f su base t₀ front log acked stage child) (hacked : acked ≤ acked')
    (hlog : acked ≤ log.length)
    (hnew : child.isSome = true → ∀ r ∈ new, su.retained.range.contains r.operation.key = true) :
    StageOk orderly f su base t₀ front (log ++ new) acked' stage child := by
  cases h with
  | idle => exact .idle
  | loaded hi ho =>
    refine .loaded (hi.trans hacked) ?_
    rw [take_append_of_le_length (hi.trans hlog)]
    exact ho
  | catching hc => exact .catching (hc.grow new)
  | committed hc => exact .committed (hc.grow new)
  | dispatched hc hch => exact .dispatched (hc.grow new) (hch.grow (hnew rfl))

end Stages

/-- A split call finds the parent without a failed append or apply when it stores the lifecycle. -/
def SplitRun.staysStopped (s : SplitRun) : SplitAction → Bool
  | .cutover | .store => s.parent.lifecycle ≠ .recovering
  | _ => true

/-- Failed writers stay stopped, batches of either writer are admitted in turn, and when dispatch
is installed the parent's journal has a record that the handoff replays. -/
def SplitRun.orderly (f : WireFormat) (su : SplitSetup) (s : SplitRun) (a : SplitAction) : Bool :=
  s.staysStopped a && match a with
    | .parent a => admitsInTurn f (s.spec su) s.parent a
    | .child a => s.child.all fun ch => admitsInTurn f su.child ch.worker a
    | .cutover => match s.stage with
      | .committed artifact _ =>
        decide (artifact.parentReplayOffset < journalTail f s.parent.journal)
      | _ => true
    | _ => true

/-- A split of a partition that serves: a new one, a recovered one or the child of another
split. What its memtables hold is in its tree. -/
def splitSystem (orderly : Prop) (f : WireFormat) (su : SplitSetup) (t₀ : Tree)
    (front : List WalRecord) : System SplitRun SplitAction where
  init s := (∃ base done, ServingInv orderly f su.parent base t₀ front s.parent done) ∧
    (∀ r ∈ s.memtable, s.parent.tree.inherit r = s.parent.tree) ∧
    s.stage = .idle ∧ s.child = none ∧ s.view = none
  step := SplitRun.step f su

namespace SplitInv
variable {orderly : Prop} {f : WireFormat} {su : SplitSetup} {t₀ : Tree} {front : List WalRecord}
  {s : SplitRun} {base : Retry} {done : List WalRecord}

lemma parentStep {a : WorkerStep} {w : WorkerState} {memtable : List WalRecord}
    (h : SplitInv orderly f su t₀ front s base done)
    (hg : orderly → admitsInTurn f (s.spec su) s.parent a = true)
    (hw : s.parent.step f (s.spec su) a = some w) :
    ∃ done', SplitInv orderly f su t₀ front { s with parent := w, memtable := memtable } base
      done' := by
  have hmove := step_move hw
  obtain ⟨new, hnew, hranged⟩ := hmove.appended
  have hwide : WorkerMove f su.parent s.parent a w ∧
      (orderly → admitsInTurn f su.parent s.parent a = true) := by
    unfold spec at hmove hg
    split at hmove
    · next hchild =>
      rw [if_pos hchild] at hg
      exact ⟨hmove.widen fun _ => su.retained_contains, hg⟩
    · next hchild =>
      rw [if_neg hchild] at hg
      exact ⟨hmove, hg⟩
  obtain ⟨done', hdone, hgrows⟩ := h.parent.move hwide.2 hwide.1
  refine ⟨done', hdone, ?_⟩
  have hlog : done' ++ w.waiting = (done ++ s.parent.waiting) ++ new := by
    rw [hdone.journal, h.parent.journal, append_assoc] at hnew
    exact append_cancel_left hnew
  rw [hlog]
  refine h.stage.grow hgrows.acknowledged (by simp) fun hchild r hr => ?_
  rw [spec, if_pos hchild] at hranged
  exact hranged r hr

section Actions
variable {w : WorkerState} {memtable : List WalRecord} {child : Option ChildRun}
  {view : Option (List WalRecord)} {stage : SplitStage} {o : ℕ} {c : DeltaCursor} {tree : Tree}
  {artifact : PreparedSplitWriterArtifact}

lemma loadBase (h : SplitInv orderly f su t₀ front ⟨w, memtable, .idle, child, view⟩ base done) :
    SplitInv orderly f su t₀ front ⟨w, memtable, .loaded w.retryReplayOffset, child, view⟩ base
      done := by
  have hstage := h.stage
  obtain ⟨i, hi, ho⟩ := h.parent.offset
  cases hstage with
  | idle =>
    refine ⟨h.parent, .loaded hi ?_⟩
    rw [take_append_of_le_length hi]
    exact ho

lemma takeSnapshot
    (h : SplitInv orderly f su t₀ front ⟨w, memtable, .loaded o, child, view⟩ base done) :
    SplitInv orderly f su t₀ front
      (takeSnapshot su ⟨w, memtable, .loaded o, child, view⟩ o) base done := by
  have hstage := h.stage
  dsimp only at hstage
  have hheld := h.parent.held_le
  refine ⟨h.parent, ?_⟩
  cases hstage with
  | loaded hi ho =>
    simp only [takeSnapshot]
    split
    · have hcons := (h.parent.records.front (done.length + w.treeAhead.toNat)).consecutive
      refine .catching ⟨hi.trans (Nat.le_add_right _ _), hheld, ho, .inl rfl, ?_, ?_⟩
      · exact h.parent.tree ▸ h.parent.slot_take hheld
      · exact h.parent.tree ▸ restrict_foldl su hcons
    · exact .idle

section
variable (h : SplitInv orderly f su t₀ front ⟨w, memtable, .catching o c, child, view⟩ base done)
include h

lemma runCatchUp : SplitInv orderly f su t₀ front
      (runCatchUp f su ⟨w, memtable, .catching o c, child, view⟩ o c) base done := by
  have hstage := h.stage
  dsimp only at hstage
  refine ⟨h.parent, ?_⟩
  cases hstage with
  | catching hc =>
    have hk : done.length ≤ (done ++ w.waiting).length := by simp
    obtain ⟨c', hrun, hc'⟩ := hc.catchUp h.parent.records hk
    have happlied : w.appliedSeq = t₀.contiguousSlot + done.length := h.parent.applied
    have hjournal : w.journal = front ++ (done ++ w.waiting) := h.parent.journal
    rw [← happlied, ← hjournal] at hrun
    simp only [runCatchUp, hrun]
    exact .catching hc'

lemma commit : SplitInv orderly f su t₀ front
      ⟨w, memtable, .committed (su.artifact o c) c.tree, child, view⟩ base done := by
  have hstage := h.stage
  refine ⟨h.parent, ?_⟩
  cases hstage with
  | catching hc => exact .committed hc

end

lemma installChild
    (h : SplitInv orderly f su t₀ front ⟨w, memtable, .committed artifact tree, none, view⟩ base
      done)
    (hrun : w.lifecycle ≠ .recovering) (hpending : w.pending = [])
    (hg : orderly → artifact.parentReplayOffset < journalTail f w.journal) :
    SplitInv orderly f su t₀ front
      (installChild f ⟨w, memtable, .committed artifact tree, none, view⟩ tree) base
      done := by
  have hstage := h.stage
  dsimp only at hstage
  have hlog : done ++ w.waiting = done := by rw [LogInv.waiting_nil hpending, append_nil]
  refine ⟨h.parent.resume hrun, ?_⟩
  change StageOk orderly f su base t₀ front (done ++ w.resume.waiting) done.length _ (some _)
  rw [WorkerState.resume_eq hrun]
  change StageOk orderly f su base t₀ front (done ++ w.waiting) done.length _ (some _)
  have hretry : w.retry = _ := h.parent.retry
  have happlied : w.appliedSeq = t₀.contiguousSlot + done.length := h.parent.applied
  have hjournal : w.journal = front ++ done := h.parent.settled hpending
  rw [hlog] at hstage ⊢
  cases hstage with
  | @committed _ b _ c hc =>
    refine .dispatched hc ⟨fun ho => ?_, hc.held, le_rfl, happlied, ?_, ?_, ?_⟩
    · have hlt := hg ho
      by_contra hle
      have hreplay := hc.replay
      rw [take_of_length_le (by omega), ← hjournal] at hreplay
      exact absurd hlt (hreplay ▸ lt_irrefl _)
    · rw [take_length, ← hjournal]
    · rw [drop_length]
      exact nofun
    · have hslot : (c.tree.advanceNoop w.appliedSeq).contiguousSlot
          = t₀.contiguousSlot + done.length := by
        have hbase := childTree_slot su
          (h.parent.acknowledged.front b).consecutive
        rw [length_take_of_le hc.held, ← hc.tree] at hbase
        simp only [advanceNoop, hbase, happlied]
        exact Nat.max_eq_right (Nat.add_le_add_left hc.held _)
      have hbound := hslot ▸ h.parent.acknowledged.bounded
      rw [take_length, ← hretry, ← hslot]
      exact ⟨[], .started hbound (h.parent.coherent h.parent.coherentBase)⟩

lemma childStep {v : WorkerState} {a : WorkerStep}
    (h : SplitInv orderly f su t₀ front ⟨w, memtable, stage, some ch, view⟩ base done)
    (hg : orderly → admitsInTurn f su.child ch.worker a = true)
    (hv : ch.worker.step f su.child a = some v) :
    SplitInv orderly f su t₀ front ⟨w, memtable, stage, some { ch with worker := v }, view⟩ base
      done := by
  have hstage := h.stage
  refine ⟨h.parent, ?_⟩
  cases hstage with
  | dispatched hc hch =>
    obtain ⟨own, hown⟩ := hch.writer
    exact .dispatched hc { hch with writer := hown.move hg (step_move hv) }

lemma publish {records : List WalRecord}
    (h : SplitInv orderly f su t₀ front ⟨w, memtable, stage, some ch, some records⟩ base done) :
    SplitInv orderly f su t₀ front
      ⟨w, memtable, stage, some (publishView su ch records), none⟩ base done := by
  have hstage := h.stage
  refine ⟨h.parent, ?_⟩
  cases hstage with
  | dispatched hc hch =>
    obtain ⟨own, hown⟩ := hch.writer
    exact .dispatched hc { hch with
      writer := ⟨own, { hown.toLogInv.frame rfl rfl rfl rfl rfl (.inl rfl), hown with }⟩ }

end Actions

/-- One step, with the guard where it is asked for. -/
theorem step {a : SplitAction} {t : SplitRun} (h : SplitInv orderly f su t₀ front s base done)
    (hstop : s.staysStopped a = true) (hg : orderly → s.orderly f su a = true)
    (ht : s.step f su a = some t) : ∃ done', SplitInv orderly f su t₀ front t base done' := by
  obtain ⟨w, memtable, stage, child, view⟩ := s
  replace hg := fun ho => (Bool.and_eq_true_iff.mp (hg ho)).2
  cases a with
  | parent =>
    obtain ⟨w', hw, rfl⟩ := Option.map_eq_some_iff.mp ht
    exact h.parentStep hg hw
  | flush =>
    cases ht
    exact ⟨done, h.parent, h.stage⟩
  | loadBase =>
    simp only [step] at ht
    split at ht <;> cases ht
    exact ⟨done, h.loadBase⟩
  | snapshot =>
    simp only [step] at ht
    split at ht <;> cases ht
    exact ⟨done, h.takeSnapshot⟩
  | catchUp =>
    simp only [step] at ht
    split at ht <;> cases ht
    exact ⟨done, h.runCatchUp⟩
  | commit =>
    simp only [step] at ht
    split at ht
    · split at ht <;> cases ht
      exact ⟨done, h.commit⟩
    · cases ht
  | cutover =>
    simp only [step] at ht
    split at ht
    · split at ht <;> cases ht
      next hready =>
        have hrun : w.lifecycle ≠ .recovering := of_decide_eq_true hstop
        exact ⟨done, h.installChild hrun (hready.resolve_right hrun)
          fun ho => of_decide_eq_true (hg ho)⟩
    · cases ht
  | store =>
    cases ht
    have hrun : w.lifecycle ≠ .recovering := of_decide_eq_true hstop
    refine ⟨done, h.parent.resume hrun, ?_⟩
    simp only [WorkerState.resume_eq hrun]
    exact h.stage
  | child =>
    simp only [step] at ht
    split at ht
    · obtain ⟨v, hv, rfl⟩ := Option.map_eq_some_iff.mp ht
      exact ⟨done, h.childStep hg hv⟩
    · cases ht
  | capture =>
    simp only [step] at ht
    split at ht <;> cases ht
    exact ⟨done, h.parent, h.stage⟩
  | publish =>
    simp only [step] at ht
    split at ht <;> cases ht
    exact ⟨done, h.publish⟩

lemma of_reach {G : SplitRun → SplitAction → Prop}
    (h : (splitSystem orderly f su t₀ front).Reach G s)
    (hG : ∀ s a, G s a → s.staysStopped a = true ∧ (orderly → s.orderly f su a = true)) :
    ∃ base done, SplitInv orderly f su t₀ front s base done := by
  refine h.invariant (I := fun s => ∃ base done, SplitInv orderly f su t₀ front s base done) ?_ ?_
  · rintro s ⟨⟨base, done, hparent⟩, -, hstage, hchild, -⟩
    refine ⟨base, done, hparent, ?_⟩
    rw [hstage, hchild]
    exact .idle
  · rintro s a t ⟨base, done, hs⟩ hg ht
    obtain ⟨done', ht'⟩ := hs.step (hG s a hg).1 (hG s a hg).2 ht
    exact ⟨base, done', ht'⟩

end SplitInv
end CrowDB.ChunkKv
