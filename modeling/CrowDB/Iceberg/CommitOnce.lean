import CrowDB.Iceberg.CommitInvariant
import Mathlib.Data.List.Nodup

/-!
# A commit takes effect once or not at all

Every access of a helper is a `TableMove`, so the table keeps its invariant in every run, with
any number of helpers, collections and crashes. What an operation ends with then says whether
its candidate was put in the place of its base, and all helpers that answer agree on it.
-/
namespace CrowDB.Iceberg
open Lib List Option

variable {op : TableCommitOperation} {a : CommitAction} {c : TableHead} {h : Helper}
  {input : HelperInput}

section Steps
variable {tasks : OperationId → Option TableHead} {s t : CommitState} {i : ℕ}

/-- A step of helper `i` is a move of the table that leaves the helper with what it has seen. -/
def HelperMove (tasks : OperationId → Option TableHead) (s : CommitState) (i : ℕ)
    (t : CommitState) : Prop :=
  ∃ u h, TableMove tasks s u ∧ u.helpers = s.helpers ∧ t = u.moveTo i h ∧ h.Ok u

lemma HelperMove.stay (hok : h.Ok s) : HelperMove tasks s i (s.moveTo i h) :=
  ⟨s, h, .stay, rfl, rfl, hok⟩

section
variable (hinv : TableInv tasks s)
include hinv

/-- A helper that has checked its copy against the journal. -/
theorem HelperMove.current (hok : Seen s op → h.Ok s) :
    HelperMove tasks s i (s.moveTo i (if s.current op then h else .idle)) := by
  refine .stay ?_
  split
  next hcur => exact hok (hinv.seen (of_decide_eq_true hcur))
  · trivial

lemma HelperMove.exchange {prev next : TableCommitOperation} {doc : Option TableHead}
    (hok : (Helper.exchange prev next doc).Ok s) : HelperMove tasks s i (if s.current prev then
        (s.putRecord prev next).moveTo i (.changed prev next doc)
      else s.moveTo i (if input.remembered ∧ (prev, next) ∈ s.applied then .changed prev next doc
        else .idle)) := by
  obtain ⟨-, hadv, hdecided⟩ := hok
  split
  next hcur =>
    have hmove : TableMove tasks s (s.putRecord prev next) :=
      .exchange (of_decide_eq_true hcur) hadv hdecided
    refine ⟨_, _, hmove, rfl, rfl, Helper.Ok.changed ?_ doc⟩
    exact (hinv.move hmove).applied (prev, next) mem_cons_self
  · refine .stay ?_
    split
    next happlied => exact Helper.Ok.changed (hinv.applied _ happlied.2) doc
    · trivial

lemma HelperMove.install {again : Prop} [Decidable again] {body : PayloadReference}
    (hok : (Helper.install op).Ok s) (hc : op.candidate = some c) :
    HelperMove tasks s i (if s.head = op.before then
        (s.putInstalled op c).moveTo i (.advance op (op.advance .published) none)
      else s.moveTo i (.advance op (if s.head = c ∨ again then op.advance .published
        else op.finished .rejected 409 body) none)) := by
  obtain ⟨hseen, hphase⟩ := hok
  split
  next hhead =>
    have hmove : TableMove tasks s (s.putInstalled op c) := .install hseen hphase hc hhead
    exact ⟨_, _, hmove, rfl, rfl, hseen.move hinv hmove⟩
  · exact .stay hseen

lemma HelperMove.settle (hok : (Helper.settle op).Ok s) (hc : op.candidate = some c) :
    HelperMove tasks s i (if s.head = c then
        (s.exchangeHead { c with pendingOperation := none }).moveTo i (.answer op)
      else s.moveTo i (.answer op)) := by
  obtain ⟨hseen, hphase⟩ := hok
  have hterm : op.phase.terminal = true := by rw [hphase]; rfl
  split
  next hhead =>
    have hmove : TableMove tasks s (s.exchangeHead { c with pendingOperation := none }) :=
      .settle (hseen.terminal hterm) hphase hc hhead
    exact ⟨_, _, hmove, rfl, rfl, hseen.move hinv hmove, hterm⟩
  · exact .stay ⟨hseen, hterm⟩

lemma HelperMove.answer (hok : (Helper.answer op).Ok s) :
    HelperMove tasks s i ({ s with
      returned := (op.outcome.map fun o => (op.operation, o)).toList ++ s.returned }.moveTo i
        .idle) := by
  have hcur := hok.1.terminal hok.2
  have hsome := validate_terminal (hinv.records _ _ hcur).valid
  rw [hok.2] at hsome
  obtain ⟨o, ho⟩ := isSome_iff_exists.mp hsome.symm
  rw [ho]
  exact ⟨_, .idle, .answer hcur ho, rfl, rfl, trivial⟩

lemma HelperMove.of_run (hok : (s.helpers i).Ok s) (h : s.run i input = some t) :
    HelperMove tasks s i t := by
  unfold CommitState.run at h
  generalize s.helpers i = helper at h hok
  cases helper with
  | idle => cases h
  | publish op doc =>
    cases h
    exact .current hinv id
  | rejectSuperseded op doc =>
    cases h
    refine .stay ?_
    split
    · cases doc with
      | some doc => exact hok
      | none => trivial
    · split
      · exact hok
      · trivial
  | prepare op =>
    cases h
    refine .stay ?_
    split
    · split <;> trivial
    · trivial
  | rejectValidation op status =>
    cases h
    exact .current hinv id
  | ladder op doc =>
    cases h
    exact .stay (Helper.Ok.climb hok doc)
  | writeCandidate op doc =>
    cases h
    exact .current hinv id
  | advance prev next doc =>
    cases h
    refine .stay ?_
    split
    next hcheck =>
      simp only [Bool.and_eq_true, Bool.or_eq_true, bne_iff_ne] at hcheck
      have hadv := Advance.of_advances hcheck.1
      refine ⟨hok, hadv, fun hp => ?_⟩
      exact .of_publicationOutcome hinv hadv (hcheck.2.resolve_left fun hne => hne hp)
    · trivial
  | exchange prev next doc =>
    cases h
    exact .exchange hinv hok
  | finish op =>
    cases h
    exact .current hinv Helper.Ok.resume
  | select op =>
    cases h
    exact .current hinv fun hseen => ⟨hseen, hok⟩
  | install op =>
    simp only at h
    split at h
    · cases h
      exact .stay trivial
    next c hc =>
      cases h
      exact .install hinv hok hc
  | complete op =>
    cases h
    exact .stay hok
  | settle op =>
    simp only at h
    split at h
    · cases h
      exact .stay trivial
    next c hc =>
      cases h
      exact .settle hinv hok hc
  | answer op =>
    cases h
    exact .answer hinv hok

/-- A step is a move of the table after which helper `i` stands somewhere else, if any does. -/
theorem HelperMove.of_step (hok : ∀ i, (s.helpers i).Ok s) (h : s.step tasks a = some t) :
    (∃ i, HelperMove tasks s i t) ∨ TableMove tasks s t ∧ t.helpers = s.helpers := by
  cases a with
  | begin op =>
    obtain ⟨⟨hvalid, hphase, hrev, hnone⟩, ⟨⟩⟩ := ite_none_right_eq_some.mp h
    exact .inr ⟨.begin hvalid hphase hrev hnone, rfl⟩
  | publish i op doc =>
    obtain ⟨-, ⟨⟩⟩ := ite_none_right_eq_some.mp h
    exact .inl ⟨i, .stay trivial⟩
  | recover i id =>
    simp only [CommitState.step] at h
    split at h
    next op hop =>
      cases h
      refine .inl ⟨i, .stay ?_⟩
      split
      · trivial
      · have hid := (hinv.records _ _ hop).operation
        exact hinv.seen (hid ▸ hop)
    · cases h
  | run i input => exact .inl ⟨i, .of_run hinv (hok i) h⟩
  | stop i =>
    cases h
    exact .inl ⟨i, .stay trivial⟩
  | fence task =>
    simp only [CommitState.step] at h
    split at h
    next before htask =>
      obtain ⟨⟨hlive, hfree, -, hhead⟩, ⟨⟩⟩ := ite_none_right_eq_some.mp h
      exact .inr ⟨.fence htask hlive hfree hhead, rfl⟩
    · cases h
  | release task =>
    simp only [CommitState.step] at h
    split at h
    next before htask =>
      obtain ⟨⟨-, hhead⟩, ⟨⟩⟩ := ite_none_right_eq_some.mp h
      exact .inr ⟨.release htask hhead, rfl⟩
    · cases h

end

end Steps

/-! ## Runs -/

structure CommitInv (tasks : OperationId → Option TableHead) (s : CommitState) : Prop where
  table : TableInv tasks s
  helpers : ∀ i, (s.helpers i).Ok s

section Runs
variable {tasks : OperationId → Option TableHead} {s t : CommitState}

lemma TableInv.moveTo (h : TableInv tasks s) (i : ℕ) (helper : Helper) :
    TableInv tasks (s.moveTo i helper) :=
  { h with records := fun id op hop => { h.records id op hop with } }

lemma Helper.Ok.moveTo (hok : h.Ok s) (i : ℕ) (helper : Helper) : h.Ok (s.moveTo i helper) := by
  cases h <;> exact hok

lemma CommitInv.step (h : CommitInv tasks s) (hstep : s.step tasks a = some t) :
    CommitInv tasks t := by
  rcases HelperMove.of_step h.table h.helpers hstep with
    ⟨i, u, helper, hmove, hsame, rfl, hok⟩ | ⟨hmove, hsame⟩
  · refine ⟨(h.table.move hmove).moveTo i helper, fun j => ?_⟩
    by_cases hj : j = i
    · subst hj
      rw [show (u.moveTo j helper).helpers j = helper from Function.update_self _ _ _]
      exact hok.moveTo j helper
    · have hother : (u.moveTo i helper).helpers j = s.helpers j :=
        (Function.update_of_ne hj _ _).trans (congrFun hsame j)
      rw [hother]
      exact ((h.helpers j).move h.table hmove).moveTo i helper
  · exact ⟨h.table.move hmove, fun j => congrFun hsame j ▸ (h.helpers j).move h.table hmove⟩

lemma CommitInv.init (h : (commitSystem tasks).init s) : CommitInv tasks s := by
  obtain ⟨heq, hlive, hfree⟩ := h
  rw [heq]
  refine ⟨⟨?_, ?_, nodup_nil, ?_, ?_, ?_, fun h => absurd h hlive, ?_, ?_,
    .singleton _⟩, fun _ => trivial⟩
  case refine_1 =>
    intro id op hop
    cases hop
  case refine_5 =>
    intro hready id hid
    rw [hfree hready] at hid
    cases hid
  all_goals
    intro e he
    cases he

lemma CommitInv.of_reach (h : (commitSystem tasks).Reach System.Free s) : CommitInv tasks s :=
  h.invariant (fun _ => .init) fun _ _ _ hs _ => hs.step

/-- What is left of a record that is through with its operation. -/
theorem CommitInv.final {id : OperationId} (h : CommitInv tasks s) (hop : s.journal id = some op)
    (hterm : op.phase.terminal = true) (hstep : s.step tasks a = some t) :
    t.journal id = some op := by
  rcases HelperMove.of_step h.table h.helpers hstep with
    ⟨i, u, helper, hmove, -, rfl, -⟩ | ⟨hmove, -⟩
  · exact hmove.terminal hop hterm
  · exact hmove.terminal hop hterm

/-- The generation and the fence, and last whether the marker was cleared, order the heads. -/
def Before (old new : TableHead) : Prop :=
  Older old new ∨ old.generation = new.generation ∧ old.operationFence = new.operationFence ∧
    old.pendingOperation.isSome = true ∧ new.pendingOperation = none

lemma Before.trans {a b : TableHead} (hab : Before a b) (hbc : Before b c) : Before a c := by
  rcases hab with hab | ⟨hg, hf, hsome, hnone⟩ <;> rcases hbc with hbc | ⟨hg', hf', hsome', hnone'⟩
  · exact .inl (hab.trans hbc)
  · refine .inl ?_
    simp only [Older] at hab ⊢
    omega
  · refine .inl ?_
    simp only [Older] at hbc ⊢
    omega
  · rw [hnone] at hsome'
    cases hsome'

lemma Before.of_headMove {old new : TableHead} (h : HeadMove old new) : Before old new := by
  rcases h with h | ⟨hsome, rfl⟩
  · exact .inl h
  · exact .inr ⟨rfl, rfl, hsome, rfl⟩

lemma Before.ne {old new : TableHead} (h : Before old new) : old ≠ new := by
  rintro rfl
  rcases h with h | ⟨-, -, hsome, hnone⟩
  · exact Older.irrefl _ h
  · rw [hnone] at hsome
    cases hsome

/-- No head comes back. -/
theorem TableInv.heads_nodup (h : TableInv tasks s) : (s.head :: s.past).Nodup := by
  have hchain : (s.head :: s.past).IsChain fun new old => Before old new :=
    h.chain.imp fun _ _ => .of_headMove
  have : Trans (fun new old => Before old new) (fun new old => Before old new)
      fun new old : TableHead => Before old new := ⟨fun hab hbc => hbc.trans hab⟩
  exact hchain.pairwise.imp fun hb => hb.ne.symm

end Runs

section Once
variable {tasks : OperationId → Option TableHead} {s : CommitState} {id : OperationId}
  {op : TableCommitOperation}

lemma TableInv.complete_iff (h : TableInv tasks s) (hop : s.journal id = some op)
    (hterm : op.phase.terminal = true) :
    op.phase = .complete ↔ ∃ e ∈ s.installed, e.operation = id := by
  refine ⟨fun hp => (h.records _ _ hop).published (.inr hp), ?_⟩
  rintro ⟨e, he, rfl⟩
  obtain ⟨op', hop', -, -, hphase⟩ := h.installed e he
  obtain rfl : op = op' := some.inj (hop.symm.trans hop')
  cases hp : op.phase <;> simp [hp, TableCommitPhase.terminal] at hphase hterm ⊢

/-- A completed operation has put its candidate on its base, and only once. -/
theorem TableInv.complete_once (h : TableInv tasks s) (hop : s.journal id = some op)
    (hp : op.phase = .complete) : ∃ c, op.candidate = some c ∧
      ⟨id, op.before, c⟩ ∈ s.installed ∧ (s.installed.map (·.operation)).count id = 1 ∧
      [c, op.before] <:+: s.head :: s.past := by
  obtain ⟨e, he, rfl⟩ := (h.records _ _ hop).published (.inr hp)
  obtain ⟨op', hop', hb, hc, -⟩ := h.installed e he
  obtain rfl : op = op' := some.inj (hop.symm.trans hop')
  refine ⟨e.candidate, hc, hb ▸ he, ?_, hb ▸ h.onTop e he⟩
  exact count_eq_one_of_mem h.once (mem_map_of_mem he)

lemma TableInv.returned_eq (h : TableInv tasks s) {o o' : TableCommitOutcome}
    (ho : (id, o) ∈ s.returned) (ho' : (id, o') ∈ s.returned) : o = o' := by
  obtain ⟨op, hop, hout⟩ := h.returned _ ho
  obtain ⟨op', hop', hout'⟩ := h.returned _ ho'
  obtain rfl : op = op' := some.inj (hop.symm.trans hop')
  exact some.inj (hout.symm.trans hout')

end Once

/-- Whatever the helpers, the collector and the crashes do: an operation that has ended is
complete, with status 200, iff its candidate was installed, which then happened once and
directly on its base; a rejected one was not installed, and an ended operation stays as it is;
all outcomes that were returned are the recorded one; and every exchange of the head raises
the generation or the fence, or only clears a marker, so no head value returns. -/
theorem commits_exactly_once (tasks : OperationId → Option TableHead) (s : CommitState)
    (h : (commitSystem tasks).Reach System.Free s) :
    (∀ id op, s.journal id = some op → op.phase.terminal = true →
      (op.phase = .complete ↔ ∃ e ∈ s.installed, e.operation = id) ∧
      (op.phase = .complete → (∃ o, op.outcome = some o ∧ o.status = 200) ∧
        ∃ c, op.candidate = some c ∧ ⟨id, op.before, c⟩ ∈ s.installed ∧
          (s.installed.map (·.operation)).count id = 1 ∧ [c, op.before] <:+: s.head :: s.past) ∧
      (op.phase = .rejected → ∀ e ∈ s.installed, e.operation ≠ id) ∧
      ∀ a t, (commitSystem tasks).step s a = some t → t.journal id = some op) ∧
    (∀ id o, (id, o) ∈ s.returned → (∃ op, s.journal id = some op ∧ op.outcome = some o) ∧
      ∀ o', (id, o') ∈ s.returned → o' = o) ∧
    ((s.head :: s.past).IsChain fun new old => HeadMove old new) ∧ (s.head :: s.past).Nodup := by
  have hinv := CommitInv.of_reach h
  have htable := hinv.table
  refine ⟨fun id op hop hterm => ⟨htable.complete_iff hop hterm, ?_, ?_, ?_⟩, ?_, htable.chain,
    htable.heads_nodup⟩
  · intro hp
    exact ⟨validate_complete (htable.records _ _ hop).valid hp, htable.complete_once hop hp⟩
  · intro hp e he hid
    have hdone := (htable.complete_iff hop hterm).mpr ⟨e, he, hid⟩
    cases hp.symm.trans hdone
  · intro a t hstep
    exact hinv.final hop hterm hstep
  · intro id o ho
    exact ⟨htable.returned _ ho, fun o' ho' => htable.returned_eq ho' ho⟩

/-- Two commits on one table: both are prepared on the first head. -/
def baseHead : TableHead where
  catalog := 1
  table := 2
  namespaceId := 3
  name := [97]
  nameEpoch := 1
  lifecycle := .ready
  generation := 1
  metadataFile := 10
  metadataLocation := ⟨⟨none, 1, 2⟩, [49]⟩
  metadataDigest := []
  commitBinding := none
  formatVersion := 2
  tableUuid := some 5
  operationFence := 1
  pendingOperation := none

def nextHead (id : OperationId) : TableHead :=
  { baseHead with
    generation := 2
    operationFence := 2
    metadataFile := id
    metadataLocation := ⟨⟨none, 1, 2⟩, [50]⟩
    pendingOperation := some id }

def newCommit (id : OperationId) : TableCommitOperation where
  catalog := 1
  activationEpoch := 1
  operation := id
  issuedMs := 0
  principal := [97]
  revision := 1
  timestampMs := 0
  phase := .prepared
  input := ⟨1, id, [], 0⟩
  before := baseHead
  candidate := none
  outcome := none

def replyOf (id : OperationId) : HelperInput := ⟨⟨1, id, [], 0⟩, .ok (nextHead id), false⟩

open CommitAction in
/-- Helper 0 carries the first commit up to the exchange of the head and crashes there; helper 1
recovers it, helper 2 finds its base gone, and a collection fences the settled table. -/
def commitRun : List CommitAction :=
  [begin (newCommit 20), begin (newCommit 21), publish 0 (newCommit 20) (nextHead 20)]
    ++ List.replicate 15 (run 0 (replyOf 20)) ++ [stop 0, recover 1 20]
    ++ List.replicate 10 (run 1 (replyOf 20)) ++ [recover 2 21]
    ++ List.replicate 5 (run 2 (replyOf 21)) ++ [fence 30, release 30]

def settledTask (id : OperationId) : Option TableHead :=
  if id = 30 then some { nextHead 20 with pendingOperation := none } else none

theorem commits_exactly_once_recovered : ∃ s : CommitState,
    (commitSystem settledTask).Reach System.Free s ∧
    s.returned.map (fun r => (r.1, r.2.status)) = [(21, 409), (20, 200)] ∧
    s.installed.map (·.operation) = [20] ∧
    s.past.map (fun head => (head.generation, head.operationFence)) =
      [(2, 3), (2, 2), (2, 2), (1, 1)] ∧
    (s.head :: s.past).Nodup := by
  have hinit : (commitSystem settledTask).init { head := baseHead } :=
    ⟨rfl, by decide, fun _ => rfl⟩
  have hreach := System.reach_run commitRun hinit
  exact ⟨_, hreach, by decide +kernel, by decide +kernel, by decide +kernel,
    (commits_exactly_once settledTask _ hreach).2.2.2⟩

/-- The head of a fenced table is only released, and one with a pending commit only settled. -/
structure Exclusive (tasks : OperationId → Option TableHead) (s t : CommitState) : Prop where
  fenced : s.head.lifecycle = .reclaiming → t.installed = s.installed ∧ (t.head = s.head ∨
    ∃ task before, tasks task = some before ∧ s.head = fencedHead task before ∧
      t.head = releasedHead before)
  pending : s.head.lifecycle = .ready → s.head.pendingOperation.isSome = true →
    t.head = s.head ∨ t.head = { s.head with pendingOperation := none }

lemma TableMove.exclusive (h : TableInv tasks s) (hm : TableMove tasks s t) :
    Exclusive tasks s t := by
  cases hm with
  | stay | begin | exchange | answer => exact ⟨fun _ => ⟨rfl, .inl rfl⟩, fun _ _ => .inl rfl⟩
  | install hseen hphase hc hhead =>
    -- the base of a commit has no marker
    obtain ⟨-, cur, hcur, hsame⟩ := hseen
    have hbefore := validate_before (h.records _ _ hcur).valid
    have hnone : s.head.pendingOperation = none := by
      rw [hhead]
      rcases hsame with rfl | ⟨-, -, hb, -⟩
      · exact hbefore
      · exact hb ▸ hbefore
    refine ⟨fun hfenced => ?_, fun _ hsome => absurd hsome (by simp [hnone])⟩
    obtain ⟨task, before, -, heq, -⟩ := h.fenced hfenced
    rw [heq] at hnone
    cases hnone
  | settle hcur hphase hc hhead =>
    have hready := (validate_candidate (h.records _ _ hcur).valid hc).1
    rw [← hhead] at hready
    exact ⟨fun hfenced => (nomatch hready.symm.trans hfenced), fun _ _ => .inr (hhead ▸ rfl)⟩
  | fence htask hlive hfree hhead =>
    rw [← hhead] at hlive hfree
    exact ⟨fun hfenced => absurd hfenced hlive, fun hready hsome => absurd ⟨hready, hsome⟩ hfree⟩
  | release htask hhead =>
    refine ⟨fun _ => ⟨rfl, .inr ⟨_, _, htask, hhead, rfl⟩⟩, fun hready => ?_⟩
    rw [hhead] at hready
    cases hready

/-- Collection and commits exclude each other in every run. -/
theorem fence_excludes_commits (tasks : OperationId → Option TableHead) {s t : CommitState}
    (h : (commitSystem tasks).Reach System.Free s) {a : CommitAction}
    (hstep : (commitSystem tasks).step s a = some t) : Exclusive tasks s t := by
  have hinv := CommitInv.of_reach h
  rcases HelperMove.of_step hinv.table hinv.helpers hstep with
    ⟨i, u, helper, hmove, -, rfl, -⟩ | ⟨hmove, -⟩
  · exact { hmove.exclusive hinv.table with }
  · exact hmove.exclusive hinv.table

theorem fence_excludes_commits_released : ∃ s t,
    (commitSystem settledTask).step s (.release 30) = some t ∧
      s.head.lifecycle = .reclaiming ∧ t.installed = s.installed := by
  have hinit : (commitSystem settledTask).init { head := baseHead } :=
    ⟨rfl, by decide, fun _ => rfl⟩
  have hreach := System.reach_run (commitRun.take 37) hinit
  refine ⟨_, _, (some_get ?_).symm, ?_, ((fence_excludes_commits settledTask hreach
    (a := .release 30) (some_get _).symm).fenced ?_).1⟩
  all_goals decide +kernel

end CrowDB.Iceberg
