import CrowDB.Iceberg.Commit

/-!
# Journal and head of a table together

Every change of the head but the last one of a commit raises its generation or its fence,
so a head that was passed never comes back. A head that carries a pending commit stays until
the journal record of the commit is complete: only then is the marker cleared, and neither
another commit nor a collection starts from a head with a marker. A record may be rejected
only once its base was passed and without having been installed.
-/
namespace CrowDB.Iceberg
open Lib List Option TableCommitPhase TableCommitOperation

/-- The head `b` carries a later generation or, in the same one, a later fence. -/
def Older (a b : TableHead) : Prop :=
  a.generation < b.generation ∨ a.generation = b.generation ∧ a.operationFence < b.operationFence

lemma Older.irrefl (a : TableHead) : ¬ Older a a := by
  simp [Older]

lemma Older.trans {a b c : TableHead} (hab : Older a b) (hbc : Older b c) : Older a c := by
  simp only [Older] at *
  omega

lemma Older.of_passed {a b : TableHead} (h : passed a b = true) : Older a b := by
  have := of_decide_eq_true h
  simp only [Older]
  omega

/-- What one exchange does to the head: a publication or a change of the fence, or the marker
of a commit is cleared. -/
def HeadMove (old new : TableHead) : Prop :=
  Older old new ∨ old.pendingOperation.isSome = true ∧ new = { old with pendingOperation := none }

lemma HeadMove.le {old new a : TableHead} (h : HeadMove old new) (ha : Older a old) :
    Older a new := by
  rcases h with h | ⟨-, rfl⟩
  · exact ha.trans h
  · exact ha

/-- The number of the record in the journal, for phases that are not `rejected`. -/
def TableCommitPhase.index : TableCommitPhase → ℕ
  | .prepared => 1
  | .validated => 2
  | .writing => 3
  | .publishing => 4
  | .published => 5
  | .complete => 6
  | .rejected => 0

/-! ## Valid records -/

section Records
variable {op prev next : TableCommitOperation} {c : TableHead}

section
variable (h : op.validate = true)
include h

lemma validate_before : op.before.pendingOperation = none := by
  simp only [validate, Bool.and_eq_true, beq_iff_eq, isNone_iff_eq_none] at h
  exact h.1.1.1.1.1.2

lemma validate_candidate (hc : op.candidate = some c) :
    c.lifecycle = .ready ∧ c.pendingOperation = some op.operation ∧
      c.generation = op.before.generation + 1 := by
  simp only [validate, Bool.and_eq_true, hc, all_some] at h
  have hv := h.1.2
  simp only [validateCandidate, Bool.and_eq_true, beq_iff_eq] at hv
  exact ⟨hv.1.1.1.1.1.1.1.2, hv.1.1.1.1.2, hv.1.1.1.1.1.1.2⟩

lemma validate_terminal : op.phase.terminal = op.outcome.isSome := by
  simp only [validate, Bool.and_eq_true, beq_iff_eq] at h
  exact h.1.1.1.1.2

lemma validate_complete (hp : op.phase = .complete) :
    ∃ o, op.outcome = some o ∧ o.status = 200 := by
  have hsome := validate_terminal h
  rw [hp] at hsome
  obtain ⟨o, ho⟩ := isSome_iff_exists.mp hsome.symm
  simp only [validate, Bool.and_eq_true, ho, all_some,
    validateOutcome, hp, beq_iff_eq] at h
  exact ⟨o, ho, h.2.2⟩

end

/-- What a change of the journal may do to a record. -/
structure Advance (prev next : TableCommitOperation) : Prop where
  prevValid : prev.validate = true
  valid : next.validate = true
  operation : next.operation = prev.operation
  before : next.before = prev.before
  revision : next.revision = prev.revision + 1
  permits : prev.phase.permits next.phase = true
  candidate : prev.phase ≠ .prepared → next.candidate = prev.candidate

lemma Advance.of_advances (h : advances prev next = true) : Advance prev next := by
  simp only [advances, Bool.and_eq_true, Bool.or_eq_true, beq_iff_eq] at h
  obtain ⟨⟨⟨⟨⟨hprev, hnext⟩, hsame⟩, hrev⟩, hpermits⟩, hcand⟩ := h
  simp only [sameRequest, Bool.and_eq_true, beq_iff_eq] at hsame
  refine ⟨hprev, hnext, hsame.1.1.1.1.1.2.symm, hsame.1.2.symm, hrev, hpermits, fun hp => ?_⟩
  exact (hcand.resolve_right fun h => hp h.1).symm

lemma Advance.not_terminal (h : Advance prev next) : prev.phase.terminal = false := by
  have := h.permits
  cases hp : prev.phase <;> simp [hp, TableCommitPhase.permits, terminal] at this ⊢

lemma Advance.not_complete (h : Advance prev next) : prev.phase ≠ .complete := by
  intro hp
  cases (congrArg terminal hp).symm.trans h.not_terminal

/-- A record with one behind it is not the first of its operation. -/
theorem not_prepared_of_revision_lt (hopen : op.phase.terminal = false)
    (hidx : op.phase ≠ .rejected → op.revision = op.phase.index) (hlt : op.revision < prev.revision)
    (hprev : prev.phase ≠ .rejected → prev.revision = prev.phase.index) :
    prev.phase ≠ .prepared := by
  intro hp
  have hprev : prev.revision = 1 := by simpa [hp, index] using hprev
  have hrev : op.revision = 0 := by omega
  cases hq : op.phase <;> simp [hq, hrev, index, terminal]
    at hidx hopen

lemma Advance.revision_index (h : Advance prev next)
    (hidx : prev.phase ≠ .rejected → prev.revision = prev.phase.index) :
    (next.phase ≠ .rejected → next.revision = next.phase.index) ∧
    (next.phase = .rejected →
      next.revision ≤ 5 ∧ (next.revision = 5 → prev.phase = .publishing)) := by
  have hperm := h.permits
  have hrev := h.revision
  cases hp : prev.phase <;> cases hq : next.phase <;>
    simp [hp, hq, TableCommitPhase.permits, index] at hperm hidx ⊢ <;> omega

end Records

/-! ## The table -/

/-- The record `op` is in the journal, or was there and the journal has moved on from it. -/
def Seen (s : CommitState) (op : TableCommitOperation) : Prop :=
  (op.phase ≠ .rejected → op.revision = op.phase.index) ∧
  ∃ cur, s.journal op.operation = some cur ∧
    (cur = op ∨ op.phase.terminal = false ∧ op.revision < cur.revision ∧ cur.before = op.before ∧
      (op.phase ≠ .prepared → cur.candidate = op.candidate))

/-- The journal may leave `publishing` for this phase. -/
def Decided (s : CommitState) (op : TableCommitOperation) (phase : TableCommitPhase) : Prop :=
  (phase = .published → ∃ e ∈ s.installed, e.operation = op.operation) ∧
  (phase = .rejected → Older op.before s.head ∧
    (s.journal op.operation = some op → ∀ e ∈ s.installed, e.operation ≠ op.operation))

structure RecordOk (s : CommitState) (id : OperationId) (op : TableCommitOperation) : Prop where
  operation : op.operation = id
  valid : op.validate = true
  revision : op.phase ≠ .rejected → op.revision = op.phase.index
  rejected : op.phase = .rejected → op.revision ≤ 5 ∧ (op.revision = 5 → Older op.before s.head)
  published : op.phase = .published ∨ op.phase = .complete → ∃ e ∈ s.installed, e.operation = id
  held : op.phase ≠ .complete → ∀ e ∈ s.installed, e.operation = id → s.head = e.candidate

structure TableInv (tasks : OperationId → Option TableHead) (s : CommitState) : Prop where
  records : ∀ id op, s.journal id = some op → RecordOk s id op
  installed : ∀ e ∈ s.installed, ∃ op, s.journal e.operation = some op ∧ op.before = e.before ∧
    op.candidate = some e.candidate ∧ op.phase ∈ [.publishing, .published, .complete]
  once : (s.installed.map (·.operation)).Nodup
  behind : ∀ e ∈ s.installed, Older e.before s.head
  onTop : ∀ e ∈ s.installed, [e.candidate, e.before] <:+: s.head :: s.past
  pending : s.head.lifecycle = .ready → ∀ id, s.head.pendingOperation = some id →
    ∃ e ∈ s.installed, e.operation = id
  fenced : s.head.lifecycle = .reclaiming → ∃ task before, tasks task = some before ∧
    s.head = fencedHead task before ∧ before.lifecycle ≠ .reclaiming ∧
    ¬ (before.lifecycle = .ready ∧ before.pendingOperation.isSome)
  applied : ∀ e ∈ s.applied, Seen s e.2
  returned : ∀ r ∈ s.returned, ∃ op, s.journal r.1 = some op ∧ op.outcome = some r.2
  chain : (s.head :: s.past).IsChain fun new old => HeadMove old new

/-- What one access of a helper or of the collector does to the records of the catalog. -/
inductive TableMove (tasks : OperationId → Option TableHead) (s : CommitState) :
    CommitState → Prop
  | stay : TableMove tasks s s
  | begin {op} (hvalid : op.validate = true) (hphase : op.phase = .prepared)
      (hrev : op.revision = 1) (hnone : s.journal op.operation = none) :
      TableMove tasks s (s.record op)
  | exchange {prev next} (hcur : s.journal prev.operation = some prev) (hadv : Advance prev next)
      (hdecided : prev.phase = .publishing → Decided s prev next.phase) :
      TableMove tasks s (s.putRecord prev next)
  | install {op c} (hseen : Seen s op) (hphase : op.phase = .publishing)
      (hc : op.candidate = some c) (hhead : s.head = op.before) :
      TableMove tasks s (s.putInstalled op c)
  | settle {op c} (hcur : s.journal op.operation = some op) (hphase : op.phase = .complete)
      (hc : op.candidate = some c) (hhead : s.head = c) :
      TableMove tasks s (s.exchangeHead { c with pendingOperation := none })
  | answer {op o} (hcur : s.journal op.operation = some op) (ho : op.outcome = some o) :
      TableMove tasks s { s with returned := (op.operation, o) :: s.returned }
  | fence {task before} (htask : tasks task = some before) (hlive : before.lifecycle ≠ .reclaiming)
      (hfree : ¬ (before.lifecycle = .ready ∧ before.pendingOperation.isSome))
      (hhead : s.head = before) : TableMove tasks s (s.exchangeHead (fencedHead task before))
  | release {task before} (htask : tasks task = some before)
      (hhead : s.head = fencedHead task before) :
      TableMove tasks s (s.exchangeHead (releasedHead before))

variable {task : OperationId} {before : TableHead}

section Table
variable {tasks : OperationId → Option TableHead} {s t : CommitState}
  {op prev next : TableCommitOperation} {id : OperationId} {c : TableHead}

lemma TableInv.seen (h : TableInv tasks s) (hcur : s.journal op.operation = some op) :
    Seen s op :=
  ⟨(h.records _ _ hcur).revision, op, hcur, .inl rfl⟩

/-- A record that is through with its operation stays in the journal. -/
theorem Seen.terminal (h : Seen s op) (hterm : op.phase.terminal = true) :
    s.journal op.operation = some op := by
  obtain ⟨-, cur, hcur, rfl | ⟨hopen, -⟩⟩ := h
  · exact hcur
  · rw [hterm] at hopen
    cases hopen

section
variable (h : TableInv tasks s)
include h

lemma TableInv.installed_at {e : Installation} (he : e ∈ s.installed)
    (hid : e.operation = id) (hcur : s.journal id = some op) :
    op.before = e.before ∧ op.candidate = some e.candidate ∧
      op.phase ∈ [.publishing, .published, .complete] := by
  obtain ⟨op', hop', h⟩ := h.installed e he
  rw [hid, hcur, some.injEq] at hop'
  exact hop' ▸ h

/-- An operation that is about to install its candidate on its base still is in the journal. -/
theorem TableInv.selecting (hseen : Seen s op) (hphase : op.phase = .publishing)
    (hhead : s.head = op.before) : s.journal op.operation = some op := by
  obtain ⟨hrev, cur, hcur, rfl | ⟨-, hlt, hbefore, -⟩⟩ := hseen
  · exact hcur
  exfalso
  have hok := h.records _ _ hcur
  have hrev : op.revision = 4 := by simpa [hphase, index] using hrev
  have hpassed : ¬ Older cur.before s.head := by
    rw [hbefore, ← hhead]
    exact Older.irrefl _
  by_cases hrej : cur.phase = .rejected
  · obtain ⟨hle, hold⟩ := hok.rejected hrej
    exact hpassed (hold (by omega))
  · have hidx := hok.revision hrej
    have hpub : cur.phase = .published ∨ cur.phase = .complete := by
      cases hp : cur.phase <;> simp [hp, index] at hidx ⊢ <;> omega
    obtain ⟨e, he, hid⟩ := hok.published hpub
    exact hpassed ((h.installed_at he hid hcur).1 ▸ h.behind e he)

/-- A head that carries the candidate of an operation has its marker. -/
theorem TableInv.candidate_marked {e : Installation} (he : e ∈ s.installed) :
    e.candidate.lifecycle = .ready ∧ e.candidate.pendingOperation = some e.operation := by
  obtain ⟨op, hop, -, hc, -⟩ := h.installed e he
  have hok := h.records _ _ hop
  obtain ⟨hready, hpending, -⟩ := validate_candidate hok.valid hc
  exact ⟨hready, hpending.trans (congrArg some hok.operation)⟩

/-! ### Moves of the head -/

/-- Replacing the head keeps all that speaks of the records, once the new head is not older
and an operation that holds the head has completed. -/
theorem TableInv.exchangeHead {new : TableHead} (hmove : HeadMove s.head new)
    (hheld : ∀ e ∈ s.installed, s.head = e.candidate → ∃ op, s.journal e.operation = some op ∧
      op.phase = .complete) (hpending : new.lifecycle = .ready → new.pendingOperation = none)
    (hfenced : new.lifecycle = .reclaiming → ∃ task before, tasks task = some before ∧
      new = fencedHead task before ∧ before.lifecycle ≠ .reclaiming ∧
      ¬ (before.lifecycle = .ready ∧ before.pendingOperation.isSome)) :
    TableInv tasks (s.exchangeHead new) where
  records id op hop := by
    have hok := h.records id op hop
    refine { hok with rejected := fun hrej => ?_, held := ?_ }
    · exact ⟨(hok.rejected hrej).1, fun h5 => hmove.le ((hok.rejected hrej).2 h5)⟩
    · intro hopen e he hid
      obtain ⟨op', hop', hdone⟩ := hheld e he (hok.held hopen e he hid)
      rw [hid] at hop'
      have heq : op = op' := some.inj (hop.symm.trans hop')
      exact absurd (heq ▸ hdone) hopen
  installed := h.installed
  once := h.once
  behind e he := hmove.le (h.behind e he)
  onTop e he := (h.onTop e he).trans (suffix_cons new _).isInfix
  pending hready id hid := by
    cases (hpending hready).symm.trans hid
  fenced := hfenced
  applied := h.applied
  returned := h.returned
  chain := isChain_cons_cons.mpr ⟨hmove, h.chain⟩

lemma TableInv.settle (hcur : s.journal op.operation = some op) (hphase : op.phase = .complete)
    (hc : op.candidate = some c) (hhead : s.head = c) :
    TableInv tasks (s.exchangeHead { c with pendingOperation := none }) := by
  obtain ⟨hready, hmark, -⟩ := validate_candidate (h.records _ _ hcur).valid hc
  refine h.exchangeHead (.inr ⟨by rw [hhead, hmark]; rfl, by rw [hhead]⟩) ?_ (fun _ => rfl) ?_
  · intro e he heq
    have hid : e.operation = op.operation := by
      have := (h.candidate_marked he).2
      rw [← heq, hhead, hmark] at this
      exact (some.inj this).symm
    exact ⟨op, hid ▸ hcur, hphase⟩
  · intro hrec
    cases hready.symm.trans hrec

lemma TableInv.fence (htask : tasks task = some before) (hlive : before.lifecycle ≠ .reclaiming)
    (hfree : ¬ (before.lifecycle = .ready ∧ before.pendingOperation.isSome))
    (hhead : s.head = before) : TableInv tasks (s.exchangeHead (fencedHead task before)) := by
  refine h.exchangeHead (.inl (.inr ?_)) ?_ ?_ fun _ => ⟨task, before, htask, rfl, hlive, hfree⟩
  · rw [hhead]
    exact ⟨rfl, Nat.lt_succ_self _⟩
  · intro e he heq
    obtain ⟨hready, hmark⟩ := h.candidate_marked he
    rw [← heq, hhead] at hready hmark
    exact absurd ⟨hready, by rw [hmark]; rfl⟩ hfree
  · intro hready
    cases hready

lemma TableInv.release (htask : tasks task = some before)
    (hhead : s.head = fencedHead task before) :
    TableInv tasks (s.exchangeHead (releasedHead before)) := by
  -- the head behind the fence was admitted without a pending commit
  obtain ⟨task', before', htask', hhead', hlive, hfree⟩ := h.fenced (by rw [hhead]; rfl)
  obtain rfl : task' = task :=
    some.inj (congrArg TableHead.pendingOperation (hhead'.symm.trans hhead))
  obtain rfl : before = before' := some.inj (htask.symm.trans htask')
  refine h.exchangeHead (.inl (.inr ?_)) ?_ ?_ ?_
  · rw [hhead]
    exact ⟨rfl, Nat.lt_succ_self _⟩
  · intro e he heq
    have hready := (h.candidate_marked he).1
    rw [← heq, hhead] at hready
    cases hready
  · intro hready
    cases hp : before.pendingOperation with
    | none => exact hp
    | some => exact absurd ⟨hready, by rw [hp]; rfl⟩ hfree
  · intro hrec
    exact absurd hrec hlive

lemma TableInv.install (hseen : Seen s op) (hphase : op.phase = .publishing)
    (hc : op.candidate = some c) (hhead : s.head = op.before) :
    TableInv tasks (s.putInstalled op c) := by
  have hcur := h.selecting hseen hphase hhead
  have hok := h.records _ _ hcur
  obtain ⟨hready, hmark, hgen⟩ := validate_candidate hok.valid hc
  have hbfree := validate_before hok.valid
  have hmove : HeadMove s.head c := .inl (.inl (by rw [hhead]; omega))
  have hnew : ∀ e ∈ s.installed, e.operation ≠ op.operation := by
    intro e he hid
    have := h.behind e he
    rw [← (h.installed_at he hid hcur).1, ← hhead] at this
    exact Older.irrefl _ this
  -- no earlier candidate holds the head: the base has no marker
  have hfree : ∀ e ∈ s.installed, s.head ≠ e.candidate := by
    intro e he heq
    have := (h.candidate_marked he).2
    rw [← heq, hhead, hbfree] at this
    cases this
  refine ⟨fun id op' hop' => ?_, ?_, ?_, ?_, ?_, ?_, ?_, h.applied, h.returned, ?_⟩
  · have hok' := h.records id op' hop'
    refine { hok' with rejected := fun hrej => ?_, published := fun hp => ?_, held := ?_ }
    · exact ⟨(hok'.rejected hrej).1, fun h5 => hmove.le ((hok'.rejected hrej).2 h5)⟩
    · obtain ⟨e, he, hid⟩ := hok'.published hp
      exact ⟨e, mem_cons_of_mem _ he, hid⟩
    · intro hopen e he hid
      rcases mem_cons.mp he with rfl | he
      · rfl
      · exact absurd (hok'.held hopen e he hid) (hfree e he)
  · exact forall_mem_cons.mpr ⟨⟨op, hcur, rfl, hc, by simp [hphase]⟩, h.installed⟩
  · refine nodup_cons.mpr ⟨fun hmem => ?_, h.once⟩
    obtain ⟨e, he, hid⟩ := mem_map.mp hmem
    exact hnew e he hid
  · refine forall_mem_cons.mpr ⟨?_, fun e he => hmove.le (h.behind e he)⟩
    exact hhead ▸ hmove.elim id fun hm => absurd (hhead ▸ hm.1) (by rw [hbfree]; decide)
  · exact forall_mem_cons.mpr ⟨⟨[], s.past, by rw [← hhead]; rfl⟩,
      fun e he => (h.onTop e he).trans (suffix_cons c _).isInfix⟩
  · intro _ id hid
    exact ⟨_, mem_cons_self, some.inj (hmark.symm.trans hid)⟩
  · intro hrec
    cases hready.symm.trans hrec
  · exact isChain_cons_cons.mpr ⟨hmove, h.chain⟩

end

/-! ### Moves of the journal -/

lemma record_self (s : CommitState) (op : TableCommitOperation) :
    (s.record op).journal op.operation = some op :=
  Function.update_self _ _ _

lemma record_of_ne (h : id ≠ op.operation) : (s.record op).journal id = s.journal id :=
  Function.update_of_ne h _ _

/-- A record is still seen after the journal has moved on from it, or from its successors. -/
theorem Seen.grow (h : Seen s op) (hnext : ∀ cur, s.journal op.operation = some cur →
    t.journal op.operation = some cur ∨ ∃ next, t.journal op.operation = some next ∧
      Advance cur next ∧ (cur.phase ≠ .rejected → cur.revision = cur.phase.index)) : Seen t op := by
  obtain ⟨hidx, cur, hcur, hlater⟩ := h
  rcases hnext cur hcur with hkeep | ⟨next, hjournal, hadv, hcuridx⟩
  · exact ⟨hidx, cur, hkeep, hlater⟩
  refine ⟨hidx, next, hjournal, .inr ?_⟩
  rcases hlater with rfl | ⟨hopen, hlt, hbefore, hcand⟩
  · exact ⟨hadv.not_terminal, by rw [hadv.revision]; omega, hadv.before, hadv.candidate⟩
  · refine ⟨hopen, by rw [hadv.revision]; omega, hadv.before.trans hbefore, fun hp => ?_⟩
    have hprep := not_prepared_of_revision_lt hopen hidx hlt hcuridx
    exact (hadv.candidate hprep).trans (hcand hp)

lemma TableInv.begin (h : TableInv tasks s) (hvalid : op.validate = true)
    (hphase : op.phase = .prepared) (hrev : op.revision = 1)
    (hnone : s.journal op.operation = none) : TableInv tasks (s.record op) := by
  have hkeep : ∀ id cur, s.journal id = some cur → (s.record op).journal id = some cur := by
    intro id cur hcur
    refine (record_of_ne ?_).trans hcur
    rintro rfl
    cases hnone.symm.trans hcur
  refine { h with
    records := fun id cur hcur => ?_, installed := fun e he => ?_, applied := ?_, returned := ?_ }
  · by_cases hid : id = op.operation
    · subst hid
      obtain rfl : op = cur := some.inj ((record_self s op).symm.trans hcur)
      refine ⟨rfl, hvalid, fun _ => by rw [hrev, hphase]; rfl, ?_, ?_, ?_⟩
      · intro hrej
        rw [hphase] at hrej
        cases hrej
      · intro hp
        rw [hphase] at hp
        rcases hp with hp | hp <;> cases hp
      · intro _ e he hid
        obtain ⟨op', hop', -⟩ := h.installed e he
        rw [hid, hnone] at hop'
        cases hop'
    · have hcur := (record_of_ne hid).symm.trans hcur
      exact { h.records id cur hcur with }
  · obtain ⟨op', hop', hrest⟩ := h.installed e he
    exact ⟨op', hkeep _ _ hop', hrest⟩
  · intro e he
    obtain ⟨hidx, cur, hcur, hlater⟩ := h.applied e he
    exact ⟨hidx, cur, hkeep _ _ hcur, hlater⟩
  · intro r hr
    obtain ⟨op', hop', ho⟩ := h.returned r hr
    exact ⟨op', hkeep _ _ hop', ho⟩

section
variable (h : TableInv tasks s) (hcur : s.journal prev.operation = some prev)
  (hadv : Advance prev next) (hdecided : prev.phase = .publishing → Decided s prev next.phase)
include h hcur hadv hdecided

/-- An operation that the journal lets finish was installed if it completes, and was not if it
is rejected. -/
theorem TableInv.decided_installed : (next.phase = .published ∨ next.phase = .complete →
      ∃ e ∈ s.installed, e.operation = prev.operation) ∧
    ((∃ e ∈ s.installed, e.operation = prev.operation) →
      next.phase ∈ [.publishing, .published, .complete] ∧ prev.phase ≠ .prepared) := by
  have hperm := hadv.permits
  constructor
  · rintro (hp | hp)
    · have hprev : prev.phase = .publishing := by
        cases hq : prev.phase <;> simp [hp, hq, permits] at hperm ⊢
      exact (hdecided hprev).1 hp
    · have hprev : prev.phase = .published := by
        cases hq : prev.phase <;> simp [hp, hq, permits] at hperm ⊢
      exact (h.records _ _ hcur).published (.inl hprev)
  · rintro ⟨e, he, hid⟩
    have hphase := (h.installed_at he hid hcur).2.2
    have hnot : prev.phase = .publishing → next.phase ≠ .rejected :=
      fun hp hrej => ((hdecided hp).2 hrej).2 hcur e he hid
    cases hp : prev.phase <;> cases hq : next.phase <;>
      simp [hp, hq, permits] at hperm hphase hnot ⊢

lemma TableInv.exchange : TableInv tasks (s.putRecord prev next) := by
  have hok := h.records _ _ hcur
  obtain ⟨hpub, hinst⟩ := h.decided_installed hcur hadv hdecided
  have hself : (s.putRecord prev next).journal prev.operation = some next :=
    hadv.operation ▸ record_self s next
  have hne : ∀ {id}, id ≠ prev.operation → (s.putRecord prev next).journal id = s.journal id :=
    fun hid => record_of_ne (hadv.operation.symm ▸ hid)
  have hseen : ∀ op, Seen s op → Seen (s.putRecord prev next) op := by
    intro op hop
    refine hop.grow fun cur hcur' => ?_
    by_cases hid : op.operation = prev.operation
    · rw [hid, hcur, some.injEq] at hcur'
      subst hcur'
      exact .inr ⟨next, hid ▸ hself, hadv, hok.revision⟩
    · exact .inl ((hne hid).trans hcur')
  have hrevNext := hadv.revision_index hok.revision
  refine { h with
    records := fun id cur hjournal => ?_, installed := fun e he => ?_,
    applied := forall_mem_cons.mpr ⟨?_, fun e he => hseen _ (h.applied e he)⟩
    returned := fun r hr => ?_ }
  · by_cases hid : id = prev.operation
    · subst hid
      obtain rfl : next = cur := some.inj (hself.symm.trans hjournal)
      refine ⟨hadv.operation, hadv.valid, hrevNext.1, fun hrej => ?_, hpub, ?_⟩
      · refine ⟨(hrevNext.2 hrej).1, fun h5 => ?_⟩
        exact hadv.before ▸ ((hdecided ((hrevNext.2 hrej).2 h5)).2 hrej).1
      · exact fun _ => hok.held hadv.not_complete
    · exact { h.records id cur ((hne hid).symm.trans hjournal) with }
  · obtain ⟨op, hop, hb, hc, hphase⟩ := h.installed e he
    by_cases hid : e.operation = prev.operation
    · obtain ⟨hb, hc, -⟩ := h.installed_at he hid hcur
      obtain ⟨hnext, hprep⟩ := hinst ⟨e, he, hid⟩
      exact ⟨next, hid ▸ hself, hadv.before.trans hb, (hadv.candidate hprep).trans hc, hnext⟩
    · exact ⟨op, (hne hid).trans hop, hb, hc, hphase⟩
  · exact ⟨hrevNext.1, next, hadv.operation ▸ hself, .inl rfl⟩
  · obtain ⟨op, hop, ho⟩ := h.returned r hr
    by_cases hid : r.1 = prev.operation
    · -- a record with an outcome is terminal and has no successor
      rw [hid, hcur, some.injEq] at hop
      subst hop
      have := hadv.not_terminal
      rw [validate_terminal hok.valid, ho] at this
      cases this
    · exact ⟨op, (hne hid).trans hop, ho⟩

end

lemma TableInv.move (h : TableInv tasks s) (hmove : TableMove tasks s t) : TableInv tasks t := by
  cases hmove with
  | stay => exact h
  | begin hvalid hphase hrev hnone => exact h.begin hvalid hphase hrev hnone
  | exchange hcur hadv hdecided => exact h.exchange hcur hadv hdecided
  | install hseen hphase hc hhead => exact h.install hseen hphase hc hhead
  | settle hcur hphase hc hhead => exact h.settle hcur hphase hc hhead
  | fence htask hlive hfree hhead => exact h.fence htask hlive hfree hhead
  | release htask hhead => exact h.release htask hhead
  | answer hcur ho =>
    refine { h with
      returned := forall_mem_cons.mpr ⟨⟨_, hcur, ho⟩, h.returned⟩
      records := fun id op hop => { h.records id op hop with } }

/-! ### What a move leaves -/

section
variable (hmove : TableMove tasks s t)
include hmove

/-- The record of an operation stays or is replaced by its successor. -/
theorem TableMove.journal (hcur : s.journal id = some op) :
    t.journal id = some op ∨ ∃ next, t.journal id = some next ∧ Advance op next := by
  cases hmove with
  | @begin _ _ _ _ hnone =>
    refine .inl ((record_of_ne ?_).trans hcur)
    rintro rfl
    cases hnone.symm.trans hcur
  | @exchange prev next hprev hadv =>
    by_cases hid : id = prev.operation
    · subst hid
      obtain rfl : prev = op := some.inj (hprev.symm.trans hcur)
      exact .inr ⟨next, hadv.operation ▸ record_self s next, hadv⟩
    · exact .inl ((record_of_ne (hadv.operation.symm ▸ hid)).trans hcur)
  | _ => exact .inl hcur

lemma TableMove.terminal (hcur : s.journal id = some op) (hterm : op.phase.terminal = true) :
    t.journal id = some op := by
  rcases hmove.journal hcur with h | ⟨next, -, hadv⟩
  · exact h
  · rw [hadv.not_terminal] at hterm
    cases hterm

lemma TableMove.head (h : TableInv tasks s) {a : TableHead} (ha : Older a s.head) :
    Older a t.head := by
  have hchain := (h.move hmove).chain
  cases hmove with
  | install | settle | fence | release => exact (isChain_cons_cons.mp hchain).1.le ha
  | _ => exact ha

end

lemma Seen.move (h : Seen s op) (hinv : TableInv tasks s) (hmove : TableMove tasks s t) :
    Seen t op := by
  refine h.grow fun cur hcur => ?_
  rcases hmove.journal hcur with hkeep | ⟨next, hjournal, hadv⟩
  · exact .inl hkeep
  · exact .inr ⟨next, hjournal, hadv, (hinv.records _ _ hcur).revision⟩

/-- A decision about an operation is not overturned: a rejected one has lost its base. -/
theorem Decided.move {phase : TableCommitPhase} (h : Decided s op phase) (hseen : Seen s op)
    (hinv : TableInv tasks s) (hmove : TableMove tasks s t) : Decided t op phase := by
  constructor
  · intro hp
    obtain ⟨e, he, hid⟩ := h.1 hp
    refine ⟨e, ?_, hid⟩
    cases hmove with
    | install => exact mem_cons_of_mem _ he
    | _ => exact he
  · intro hp
    obtain ⟨hold, hnot⟩ := h.2 hp
    refine ⟨hmove.head hinv hold, fun hcur e he hid => ?_⟩
    cases hmove with
    | @install op' _ hseen' hphase' _ hhead =>
      rcases mem_cons.mp he with rfl | he
      · -- the base of the operation is gone
        have hcur' := hinv.selecting hseen' hphase' hhead
        have hid : op'.operation = op.operation := hid
        obtain rfl : op' = op := some.inj ((hid ▸ hcur').symm.trans hcur)
        exact Older.irrefl _ (hhead ▸ hold)
      · exact hnot hcur e he hid
    | @begin new _ _ _ hnone =>
      obtain ⟨cur, hcur', -⟩ := hinv.installed e he
      have hne : op.operation ≠ new.operation := by
        intro heq
        rw [hid, heq, hnone] at hcur'
        cases hcur'
      exact hnot ((record_of_ne hne).symm.trans hcur) e he hid
    | @exchange prev next hprev hadv =>
      by_cases heq : op.operation = prev.operation
      · -- the journal has moved past the record
        have hnext : next = op := by
          refine some.inj (Eq.trans ?_ hcur)
          rw [heq, ← hadv.operation]
          exact (record_self s next).symm
        obtain ⟨-, cur, hcur', hlater⟩ := hseen
        rw [heq, hprev, some.injEq] at hcur'
        subst hcur'
        have hrev := hadv.revision
        rw [hnext] at hrev
        rcases hlater with rfl | ⟨-, hlt, -⟩ <;> omega
      · exact hnot ((record_of_ne (hadv.operation.symm ▸ heq)).symm.trans hcur) e he hid
    | _ => exact hnot hcur e he hid

end Table

/-! ## Helpers -/

/-- What a helper knows of its copy of the record. -/
def Helper.Ok (s : CommitState) : Helper → Prop
  | .rejectSuperseded op _ | .ladder op _ | .complete op | .advance op _ _ => Seen s op
  | .exchange prev next _ => Seen s prev ∧ Advance prev next ∧
      (prev.phase = .publishing → Decided s prev next.phase)
  | .select op => op.phase = .publishing
  | .install op => Seen s op ∧ op.phase = .publishing
  | .settle op => Seen s op ∧ op.phase = .complete
  | .answer op => Seen s op ∧ op.phase.terminal = true
  | _ => True

section Helpers
variable {tasks : OperationId → Option TableHead} {s t : CommitState}
  {op prev next : TableCommitOperation} {i : ℕ}

lemma Helper.Ok.move {h : Helper} (hok : h.Ok s) (hinv : TableInv tasks s)
    (hmove : TableMove tasks s t) : h.Ok t := by
  cases h with
  | rejectSuperseded | ladder | complete | advance => exact Seen.move hok hinv hmove
  | exchange =>
    exact ⟨hok.1.move hinv hmove, hok.2.1, fun hp => (hok.2.2 hp).move hok.1 hinv hmove⟩
  | install | settle | answer => exact ⟨hok.1.move hinv hmove, hok.2⟩
  | _ => exact hok

lemma Helper.Ok.resume (h : Seen s op) : (Helper.resume op).Ok s := by
  unfold Helper.resume
  split
  next hp => exact hp
  · exact h
  next hp => exact ⟨h, hp⟩
  next hp => exact ⟨h, by rw [hp]; rfl⟩
  · trivial

lemma Helper.Ok.changed (h : Seen s next) (doc : Option TableHead) :
    (Helper.changed prev next doc).Ok s := by
  unfold Helper.changed
  split
  · exact h
  · split
    · exact Helper.Ok.resume h
    · trivial

lemma Helper.Ok.climb (h : Seen s op) (doc : TableHead) : (Helper.climb op doc).Ok s := by
  unfold Helper.climb
  split
  · exact h
  · exact h
  · split <;> trivial
  · trivial

/-- The check of the head before the journal leaves `publishing`. -/
theorem Decided.of_publicationOutcome (hinv : TableInv tasks s) (hadv : Advance prev next)
    (h : publicationOutcome s.head prev next.phase = true) : Decided s prev next.phase := by
  unfold publicationOutcome at h
  split at h
  next c hc hp =>
    refine ⟨fun _ => ?_, fun hrej => absurd (hp.symm.trans hrej) (by decide)⟩
    have hhead : s.head = c := eq_of_beq h
    obtain ⟨hready, hmark, -⟩ := validate_candidate hadv.prevValid hc
    exact hinv.pending (hhead ▸ hready) _ (hhead ▸ hmark)
  next c hc hp =>
    simp only [Bool.and_eq_true, bne_iff_ne] at h
    obtain ⟨⟨⟨-, hcand⟩, hpassed⟩, -⟩ := h
    refine ⟨fun hpub => absurd (hp.symm.trans hpub) (by decide), fun _ => ?_⟩
    refine ⟨.of_passed hpassed, fun hcur e he hid => hcand ?_⟩
    -- an installed candidate would still be the head
    have hc' := (hinv.installed_at he hid hcur).2.1
    rw [(hinv.records _ _ hcur).held hadv.not_complete e he hid]
    exact some.inj (hc'.symm.trans hc)
  · cases h

end Helpers
end CrowDB.Iceberg
