import CrowDB.ChunkStream.System

/-!
# The chain of attached records

A batch that is fenced by the tail rewrites the chain: it may extend or replace the tail, mark a
record in front of it, or take one out. `Rewrite` says what such a batch leaves, once for all
batches. From it follow the order of the intervals, the coverage above the trim offset, and that
no snapshot captured before can guard another batch.
-/
namespace CrowDB.ChunkStream
open Lib List Snapshot Store PublishRequest

/-! ## Chains -/

structure ChainOk (st : Store) : Prop where
  sorted : SortedRows Snapshot.start st.attached
  rows : ∀ sn ∈ st.attached, Attached sn.record ∧ 0 < sn.revision ∧ sn.revision ≤ st.revision
  order : ∀ a ∈ st.attached, ∀ b ∈ st.attached, a.start < b.start →
    a.record.stop ≤ b.start ∧ a.sequence < b.sequence ∧ a.record.state ≠ .active
  tail : ∀ t, st.loadTail = some t → t.record.state ≠ .deleting
  cover : ∀ t, st.loadTail = some t → ∀ x, t.record.trimOffset ≤ x → x < t.record.stop →
    ∃ sn ∈ st.attached, sn.start ≤ x ∧ x < sn.record.stop
  candidates : SortedRows Snapshot.sequence st.candidates
  reserved : ∀ sn ∈ st.candidates,
    sn.record.state = .candidate ∧ 0 < sn.revision ∧ sn.revision ≤ st.revision
  pins : SortedRows PinRecord.id st.pins

variable {st : Store} {t : Snapshot}

lemma ChainOk.loadTail_last (h : ChainOk st) (ht : st.loadTail = some t) :
    t ∈ st.attached ∧ ∀ sn ∈ st.attached, sn.start ≤ t.start :=
  h.sorted.getLast?_eq_some_iff.mp ht

/-- A later state of the stream is no step back. -/
structure Reached (r t : StreamChunkRecord) : Prop where
  epoch : r.writerEpoch ≤ t.writerEpoch
  generation : r.generation ≤ t.generation
  trim : r.trimOffset ≤ t.trimOffset
  stop : r.stop ≤ t.stop

lemma Reached.refl (r : StreamChunkRecord) : Reached r r := ⟨le_rfl, le_rfl, le_rfl, le_rfl⟩

lemma Reached.trans {a b c : StreamChunkRecord} (hab : Reached a b) (hbc : Reached b c) :
    Reached a c :=
  ⟨hab.epoch.trans hbc.epoch, hab.generation.trans hbc.generation, hab.trim.trans hbc.trim,
    hab.stop.trans hbc.stop⟩

lemma Advances.reached {base tail : StreamChunkRecord} (h : Advances base tail) :
    Reached base tail := ⟨h.epoch, h.generation.le, h.trim, h.stop⟩

lemma Extends.stop_le {base next : StreamChunkRecord} (h : Extends base next)
    (hb : Attached base) (hn : Attached next) : base.stop ≤ next.stop := by
  obtain ⟨rest, hrest⟩ := h.mappings
  have hbc := hb.cover
  have hnc := hn.cover
  rw [← hrest, sum_append, h.start] at hnc
  omega

/-- What a batch with the tail as its guard leaves: the new tail, records in front of the old
tail, possibly one of them marked, and the old tail if it was sealed for a successor. -/
structure Rewrite (st next : Store) (t : Snapshot) (T : StreamChunkRecord) : Prop where
  old : st.loadTail = some t
  revision : next.revision = st.revision + 1
  sorted : SortedRows Snapshot.start next.attached
  tail : ⟨T, next.revision⟩ ∈ next.attached
  attached : Attached T
  state : T.state ≠ .deleting
  start : t.start ≤ T.start
  sequence : t.sequence ≤ T.sequence
  reached : Reached t.record T
  rows : ∀ row ∈ next.attached, row = ⟨T, next.revision⟩ ∨
    (row ∈ st.attached ∧ row.start < t.start) ∨
    (row.revision = next.revision ∧ ∃ o ∈ st.attached, o.start < t.start ∧
      o.record.state = .sealed ∧ row.record = marked o.record) ∨
    (row.revision = next.revision ∧ Extends t.record row.record ∧ row.record.state = .sealed ∧
      Attached row.record ∧ row.record.stop ≤ T.start ∧ t.sequence < T.sequence)
  keeps : ∀ o ∈ st.attached,
    (∃ row ∈ next.attached, Extends o.record row.record ∧ o.record.stop ≤ row.record.stop) ∨
      o.record.stop ≤ T.trimOffset ∨ (o = t ∧ t.record.mappings = [])
  join : ∀ x, t.start ≤ x → x < T.start → ∃ row ∈ next.attached, row.start ≤ x ∧ x < row.record.stop

/-- Candidates and pins behind an executed batch. -/
structure Sided (st next : Store) : Prop where
  revision : next.revision = st.revision + 1
  candidates : SortedRows Snapshot.sequence next.candidates
  reserved : ∀ sn ∈ next.candidates,
    sn.record.state = .candidate ∧ 0 < sn.revision ∧ sn.revision ≤ next.revision
  new : ∀ sn ∈ next.candidates, st.revision < sn.revision ∨ sn ∈ st.candidates
  pins : SortedRows PinRecord.id next.pins

variable {r : StreamChunkRecord}

section Rewrite
variable {st next : Store} {t : Snapshot} {T : StreamChunkRecord}

lemma extends_marked (r : StreamChunkRecord) : Extends r (marked r) := ⟨rfl, rfl, rfl, prefix_rfl⟩

lemma marked_attached (h : Attached r) : Attached (marked r) where
  state := by simp [marked]
  bounds := h.bounds
  trim := h.trim
  cover := h.cover
  appends := h.appends

section
variable (h : Rewrite st next t T)
include h

lemma Rewrite.row_le : ∀ row ∈ next.attached, row.start ≤ T.start := by
  intro row hrow
  rcases h.rows row hrow with rfl | ⟨-, hlt⟩ | ⟨-, o, -, hlt, -, hrec⟩ | ⟨-, hext, -, ha, hle, -⟩
  · exact le_rfl
  · exact hlt.le.trans h.start
  · have : row.start = o.start := by rw [Snapshot.start, hrec]; rfl
    exact (this ▸ hlt.le).trans h.start
  · exact ha.start_le_stop.trans hle

lemma Rewrite.loadTail : next.loadTail = some ⟨T, next.revision⟩ :=
  h.sorted.getLast?_eq_some_iff.mpr ⟨h.tail, h.row_le⟩

section
variable (hst : ChainOk st)
include hst

lemma Rewrite.rows_attached : ∀ sn ∈ next.attached,
      Attached sn.record ∧ 0 < sn.revision ∧ sn.revision ≤ next.revision := by
  intro row hrow
  have hrev := h.revision
  rcases h.rows row hrow with rfl | ⟨hold, -⟩ | ⟨hnew, o, ho, -, -, hrec⟩ | ⟨hnew, -, -, ha, -⟩
  · refine ⟨h.attached, ?_, le_rfl⟩
    show 0 < next.revision
    omega
  · obtain ⟨ha, hpos, hle⟩ := hst.rows row hold
    exact ⟨ha, hpos, by omega⟩
  · rw [hrec]
    exact ⟨marked_attached (hst.rows o ho).1, by omega, hnew.le⟩
  · exact ⟨ha, by omega, hnew.le⟩

/-- Where a row in front of the new tail comes from. -/
theorem Rewrite.origin {row : Snapshot} (hrow : row ∈ next.attached)
    (hne : row ≠ ⟨T, next.revision⟩) :
    ∃ o ∈ st.attached, o.start = row.start ∧ o.sequence = row.sequence ∧
      row.record.state ≠ .active ∧ (o.start < t.start → o.record.stop = row.record.stop) ∧
      (o.start = t.start → row.record.stop ≤ T.start ∧ row.sequence < T.sequence) := by
  have ht := (hst.loadTail_last h.old).1
  rcases h.rows row hrow with rfl | ⟨hold, hlt⟩ | ⟨-, o, ho, hlt, hsealed, hrec⟩ |
      ⟨-, hext, hsealed, -, hle, hseq⟩
  · exact absurd rfl hne
  · exact ⟨row, hold, rfl, rfl, (hst.order row hold t ht hlt).2.2, fun _ => rfl,
      fun heq => absurd heq hlt.ne⟩
  · refine ⟨o, ho, ?_, ?_, ?_, fun _ => ?_, fun heq => absurd heq hlt.ne⟩
    · rw [Snapshot.start, Snapshot.start, hrec]; rfl
    · rw [Snapshot.sequence, Snapshot.sequence, hrec]; rfl
    · rw [hrec]
      simp [marked]
    · rw [hrec]; rfl
  · have hs : row.sequence = t.sequence := hext.sequence
    refine ⟨t, ht, hext.start.symm, hs.symm, ?_, fun hlt => absurd hlt (lt_irrefl _),
      fun _ => ⟨hle, hs ▸ hseq⟩⟩
    rw [hsealed]
    decide

lemma Rewrite.order : ∀ a ∈ next.attached, ∀ b ∈ next.attached, a.start < b.start →
      a.record.stop ≤ b.start ∧ a.sequence < b.sequence ∧ a.record.state ≠ .active := by
  intro a ha b hb hlt
  obtain ⟨ht, hmax⟩ := hst.loadTail_last h.old
  have hane : a ≠ ⟨T, next.revision⟩ := by
    rintro rfl
    exact absurd hlt (not_lt.mpr (h.row_le b hb))
  obtain ⟨o, ho, hstart, hseq, hstate, hstop, htail⟩ := h.origin hst ha hane
  by_cases hbt : b = ⟨T, next.revision⟩
  · subst hbt
    refine ⟨?_, ?_, hstate⟩
    · rcases (hmax o ho).lt_or_eq with hot | hot
      · rw [← hstop hot]
        exact (hst.order o ho t ht hot).1.trans h.start
      · exact (htail hot).1
    · rcases (hmax o ho).lt_or_eq with hot | hot
      · exact hseq ▸ (hst.order o ho t ht hot).2.1.trans_le h.sequence
      · exact (htail hot).2
  · obtain ⟨o', ho', hstart', hseq', -⟩ := h.origin hst hb hbt
    have hoo : o.start < o'.start := by rw [hstart, hstart']; exact hlt
    obtain ⟨h1, h2, -⟩ := hst.order o ho o' ho' hoo
    refine ⟨?_, hseq ▸ hseq' ▸ h2, hstate⟩
    rw [← hstop (hoo.trans_le (hmax o' ho')), ← hstart']
    exact h1

lemma Rewrite.cover :
    ∀ x, T.trimOffset ≤ x → x < T.stop → ∃ sn ∈ next.attached, sn.start ≤ x ∧
    x < sn.record.stop := by
  intro x hlow hhigh
  by_cases hx : T.start ≤ x
  · exact ⟨_, h.tail, hx, hhigh⟩
  rw [not_le] at hx
  by_cases ht : t.start ≤ x
  · exact h.join x ht hx
  rw [not_le] at ht
  have htrec := (hst.rows t (hst.loadTail_last h.old).1).1.start_le_stop
  obtain ⟨o, ho, hos, hoe⟩ := hst.cover t h.old x (h.reached.trim.trans hlow) (ht.trans_le htrec)
  rcases h.keeps o ho with ⟨row, hrow, hext, hle⟩ | htrim | ⟨rfl, -⟩
  · exact ⟨row, hrow, hext.start.trans_le hos, hoe.trans_le hle⟩
  · omega
  · exact absurd ht (not_lt.mpr hos)

lemma Rewrite.chainOk (hs : Sided st next) : ChainOk next where
  sorted := h.sorted
  rows := h.rows_attached hst
  order := h.order hst
  tail t' ht' := by
    rw [h.loadTail] at ht'
    cases ht'
    exact h.state
  cover t' ht' := by
    rw [h.loadTail] at ht'
    cases ht'
    exact h.cover hst
  candidates := hs.candidates
  reserved := hs.reserved
  pins := hs.pins

end

end

end Rewrite

/-! ## Captured snapshots -/

/-- A captured tail: while the revision of its key is the same, it is still the tail. -/
structure Tracks (st : Store) (sn : Snapshot) : Prop where
  attached : Attached sn.record
  positive : 0 < sn.revision
  bound : sn.revision ≤ st.revision
  current : ∀ row ∈ st.attached, row.start = sn.start → row.revision = sn.revision →
    st.loadTail = some sn

lemma ChainOk.tracks (h : ChainOk st) (ht : st.loadTail = some t) : Tracks st t := by
  obtain ⟨ha, hpos, hle⟩ := h.rows t (h.loadTail_last ht).1
  exact ⟨ha, hpos, hle, fun _ _ _ _ => ht⟩

variable {revision : ℕ}

lemma findRow_revision {key : Snapshot → ℕ} {k : ℕ} {rows : List Snapshot} (hpos : 0 < revision)
    (h : (findRow key k rows).elim 0 Snapshot.revision = revision) :
    ∃ row ∈ rows, key row = k ∧ row.revision = revision := by
  cases hf : findRow key k rows with
  | none =>
    rw [hf] at h
    exact absurd h hpos.ne
  | some row =>
    rw [hf] at h
    exact ⟨row, mem_of_find?_eq_some hf, by simpa using find?_some hf, h⟩

lemma recordKey_attached (h : Attached r) : recordKey r = .attached r.start := by
  rw [recordKey, if_neg h.state]

variable {sn : Snapshot}

/-- The guard of a fenced batch holds only for the current tail. -/
theorem Tracks.loadTail (h : Tracks st sn)
    (hrev : st.revisionOf (recordKey sn.record) = sn.revision) : st.loadTail = some sn := by
  rw [recordKey_attached h.attached] at hrev
  obtain ⟨row, hrow, hstart, hrev⟩ := findRow_revision h.positive hrev
  exact h.current row hrow hstart hrev

/-- The store has only new candidates, or has not moved. -/
structure Quiet (st next : Store) : Prop where
  attached : next.attached = st.attached
  pins : next.pins = st.pins
  revision : st.revision ≤ next.revision
  candidates : ∀ sn ∈ next.candidates, st.revision < sn.revision ∨ sn ∈ st.candidates

/-- The tail has a new revision. -/
structure Bumped (st next : Store) : Prop where
  revision : next.revision = st.revision + 1
  rows : ∀ sn ∈ next.attached, sn.revision = next.revision ∨ sn ∈ st.attached ∧
    st.loadTail ≠ some sn
  tail : ∃ t, next.loadTail = some t ∧ t.revision = next.revision
  candidates : ∀ sn ∈ next.candidates, st.revision < sn.revision ∨ sn ∈ st.candidates
  initial : st.attached = [] → ∀ sn ∈ next.candidates, sn.sequence ≠ 0

def Moved (st next : Store) : Prop := Quiet st next ∨ Bumped st next

lemma Quiet.refl (st : Store) : Quiet st st := ⟨rfl, rfl, le_rfl, fun _ => .inr⟩

variable {next : Store}

lemma Moved.revision_le (h : Moved st next) : st.revision ≤ next.revision := by
  rcases h with h | h
  · exact h.revision
  · rw [h.revision]
    exact Nat.le_succ _

lemma Moved.candidates (h : Moved st next) :
    ∀ sn ∈ next.candidates, st.revision < sn.revision ∨ sn ∈ st.candidates :=
  h.elim (fun h => h.candidates) fun h => h.candidates

lemma Tracks.moved (hst : ChainOk st) (h : Tracks st sn) (hm : Moved st next) :
    Tracks next sn := by
  refine ⟨h.attached, h.positive, h.bound.trans hm.revision_le, fun row hrow hstart hrev => ?_⟩
  rcases hm with hm | hm
  · rw [hm.attached] at hrow
    rw [Store.loadTail, hm.attached]
    exact h.current row hrow hstart hrev
  · rcases hm.rows row hrow with hnew | ⟨hold, hnot⟩
    · have := h.bound
      have := hm.revision
      omega
    · have hcur := h.current row hold hstart hrev
      rw [hst.sorted.eq_of_key hold (hst.loadTail_last hcur).1 hstart] at hnot
      exact absurd hcur hnot

/-- A snapshot from before is current only in a quiet store. -/
theorem Moved.current (hm : Moved st next) (hbound : sn.revision ≤ st.revision)
    (hcur : next.loadTail = some sn) : Quiet st next ∧ st.loadTail = some sn := by
  rcases hm with hm | hm
  · refine ⟨hm, ?_⟩
    rwa [loadTail, hm.attached] at hcur
  · obtain ⟨t, ht, hrev⟩ := hm.tail
    rw [ht] at hcur
    cases hcur
    have := hm.revision
    omega

variable {T : StreamChunkRecord}

lemma Rewrite.bumped (h : Rewrite st next t T) (hs : Sided st next) : Bumped st next where
  revision := h.revision
  rows row hrow := by
    rcases h.rows row hrow with rfl | ⟨hold, hlt⟩ | ⟨hnew, -⟩ | ⟨hnew, -⟩
    · exact .inl rfl
    · refine .inr ⟨hold, fun heq => ?_⟩
      rw [h.old] at heq
      cases heq
      exact absurd hlt (lt_irrefl _)
    · exact .inl hnew
    · exact .inl hnew
  tail := ⟨_, h.loadTail, rfl⟩
  candidates := hs.new
  initial hnil := by
    have := h.old
    rw [Store.loadTail, hnil] at this
    cases this

/-! ## What has been published -/

/-- A written record is still stood for, as far as it is not trimmed. -/
def Held (st : Store) (t : Snapshot) (r : StreamChunkRecord) : Prop :=
  r.stop ≤ t.record.trimOffset ∨ r.mappings = [] ∨ ∃ sn ∈ st.attached, Extends r sn.record

/-- The stream has not gone back behind a publication, and has what it wrote. -/
def Kept (st : Store) (q : PublishRequest) : Prop :=
  ∃ t, st.loadTail = some t ∧ Reached q.tail t.record ∧ ∀ r ∈ q.records, Attached r ∧ Held st t r

lemma Rewrite.held (h : Rewrite st next t T) (hst : ChainOk st) (hr : Attached r)
    (hk : Held st t r) : Held next ⟨T, next.revision⟩ r := by
  rcases hk with htrim | hnil | ⟨o, ho, hext⟩
  · exact .inl (htrim.trans h.reached.trim)
  · exact .inr (.inl hnil)
  · rcases h.keeps o ho with ⟨row, hrow, hext', -⟩ | htrim | ⟨rfl, hnil⟩
    · exact .inr (.inr ⟨row, hrow, hext.trans hext'⟩)
    · exact .inl ((hext.stop_le hr (hst.rows o ho).1).trans htrim)
    · exact .inr (.inl (prefix_nil.mp (hnil ▸ hext.mappings)))

variable {q : PublishRequest}

lemma Rewrite.kept (h : Rewrite st next t T) (hst : ChainOk st) (hk : Kept st q) :
    Kept next q := by
  obtain ⟨t', ht', hreach, hrecords⟩ := hk
  rw [h.old] at ht'
  cases ht'
  exact ⟨_, h.loadTail, hreach.trans h.reached,
    fun r hr => ⟨(hrecords r hr).1, h.held hst (hrecords r hr).1 (hrecords r hr).2⟩⟩

/-- A record that was marked for collection: trimmed, in front of the tail, and the only one that
may stand at its key. -/
structure Condemned (st : Store) (r : StreamChunkRecord) : Prop where
  state : r.state = .deleting
  below : ∃ t, st.loadTail = some t ∧ r.stop ≤ t.record.trimOffset ∧ r.start < t.start
  only : ∀ sn ∈ st.attached, sn.start = r.start → sn.record = r

lemma Rewrite.condemned (h : Rewrite st next t T) (hr : Condemned st r) : Condemned next r := by
  obtain ⟨t', ht', hstop, hstart⟩ := hr.below
  rw [h.old] at ht'
  cases ht'
  refine ⟨hr.state, ⟨_, h.loadTail, hstop.trans h.reached.trim, hstart.trans_le h.start⟩,
    fun row hrow heq => ?_⟩
  rcases h.rows row hrow with rfl | ⟨hold, -⟩ | ⟨-, o, ho, -, hsealed, hrec⟩ | ⟨-, hext, -⟩
  · have : T.start = r.start := heq
    have := h.start
    omega
  · exact hr.only row hold heq
  · have hos : o.start = r.start := by
      rw [← heq, Snapshot.start, Snapshot.start, hrec]
      rfl
    have := hr.only o ho hos
    rw [this, hr.state] at hsealed
    cases hsealed
  · have : t.start = r.start := hext.start.symm.trans heq
    omega

/-! ## Batches

What each of the batches does to the chain. -/

/-- The operations that leave the attached records alone. -/
def BatchOp.plain : BatchOp → Bool
  | .put r => r.state == .candidate
  | .delete (.attached _) => false
  | .delete (.candidate _) => true
  | .putPin _ => true
  | .deletePin _ => true

/-- Candidates and pins behind some operations. -/
structure Sides (v : ℕ) (st next : Store) : Prop where
  revision : next.revision = st.revision
  candidates : SortedRows Snapshot.sequence next.candidates
  rows : ∀ sn ∈ next.candidates, sn.record.state = .candidate ∧ sn.revision = v ∨ sn ∈ st.candidates
  pins : SortedRows PinRecord.id next.pins

lemma sides_foldl (v : ℕ) (st : Store) (hc : SortedRows Snapshot.sequence st.candidates)
    (hp : SortedRows PinRecord.id st.pins) (ops : List BatchOp) :
    Sides v st (ops.foldl (applyOp v) st) := by
  induction ops generalizing st with
  | nil => exact ⟨rfl, hc, fun sn => .inr, hp⟩
  | cons op _ ih =>
    have hone : Sides v st (st.applyOp v op) := by
      cases op with
      | put =>
        simp only [applyOp]
        split
        next hstate =>
          refine ⟨rfl, hc.insertRow, fun sn hsn => ?_, hp⟩
          rcases mem_of_mem_insertRow hsn with rfl | hsn
          · exact .inl ⟨hstate, rfl⟩
          · exact .inr hsn
        · exact ⟨rfl, hc, fun sn => .inr, hp⟩
      | delete key =>
        cases key with
        | attached => exact ⟨rfl, hc, fun sn => .inr, hp⟩
        | candidate =>
          exact ⟨rfl, hc.eraseRow _, fun sn h => .inr (mem_eraseRow.mp h).1, hp⟩
      | putPin => exact ⟨rfl, hc, fun sn => .inr, hp.insertRow⟩
      | deletePin => exact ⟨rfl, hc, fun sn => .inr, hp.eraseRow _⟩
    have hrest := ih _ hone.candidates hone.pins
    refine ⟨hrest.revision.trans hone.revision, hrest.candidates, fun sn hsn => ?_, hrest.pins⟩
    rcases hrest.rows sn hsn with hnew | hold
    · exact .inl hnew
    · exact hone.rows sn hold

variable {ops : List BatchOp} {v : ℕ}

/-- What no operation changes. -/
theorem foldl_applyOp_eq {α : Type*} {f : Store → α}
    (h : ∀ op ∈ ops, ∀ st : Store, f (st.applyOp v op) = f st) (st : Store) :
    f (ops.foldl (applyOp v) st) = f st := by
  induction ops generalizing st with
  | nil => rfl
  | cons op _ ih =>
    rw [foldl_cons, ih fun op' h' => h op' (mem_cons_of_mem _ h')]
    exact h op mem_cons_self st

lemma attached_foldl_plain (h : ∀ op ∈ ops, op.plain = true) (st : Store) :
    (ops.foldl (applyOp v) st).attached = st.attached := by
  refine foldl_applyOp_eq (fun op hop st => ?_) st
  have hplain := h op hop
  rcases op with r | (_ | _) | _ | _
  · have hstate : r.state = .candidate := by simpa [BatchOp.plain] using hplain
    simp [applyOp, hstate]
  · cases hplain
  all_goals rfl

lemma applyOp_put (hr : Attached r) (v : ℕ) (st : Store) :
    (st.applyOp v (.put r)).attached = insertRow start ⟨r, v⟩ st.attached := by
  simp [applyOp, hr.state]

variable {guard : RecordKey}

lemma batch_eq_some (h : st.batch ops guard revision = some next) :
    st.revisionOf guard = revision ∧
      next = ops.foldl (applyOp (st.revision + 1)) { st with revision := st.revision + 1 } := by
  simp only [batch] at h
  split at h
  next hrev => exact ⟨hrev, (Option.some.inj h).symm⟩
  · cases h

lemma ChainOk.sided (hst : ChainOk st) (h : st.batch ops guard revision = some next) :
    Sided st next := by
  obtain ⟨-, rfl⟩ := batch_eq_some h
  have hs := sides_foldl (st.revision + 1) { st with revision := st.revision + 1 }
    hst.candidates hst.pins ops
  refine ⟨hs.revision, hs.candidates, fun sn hsn => ?_, fun sn hsn => ?_, hs.pins⟩
  · rw [hs.revision]
    rcases hs.rows sn hsn with ⟨hstate, hrev⟩ | hold
    · exact ⟨hstate, hrev ▸ Nat.succ_pos _, hrev.le⟩
    · obtain ⟨hstate, hpos, hle⟩ := hst.reserved sn hold
      exact ⟨hstate, hpos, hle.trans (Nat.le_succ _)⟩
  · rcases hs.rows sn hsn with ⟨-, hrev⟩ | hold
    · exact .inl (hrev ▸ Nat.lt_succ_self _)
    · exact .inr hold

/-- The tail is written back behind operations `ops`. -/
theorem fenced_attached (ht : Attached t.record)
    (h : st.batch (ops ++ [.put t.record]) (recordKey t.record) t.revision = some next) :
    next.attached = insertRow start ⟨t.record, st.revision + 1⟩
      (ops.foldl (applyOp (st.revision + 1)) { st with revision := st.revision + 1 }).attached := by
  obtain ⟨-, rfl⟩ := batch_eq_some h
  rw [foldl_append, foldl_cons, foldl_nil, applyOp_put ht]

section Fenced
variable {st next : Store} {t : Snapshot} (hst : ChainOk st) (ht : st.loadTail = some t)
include hst ht

/-- The tail is replaced at its key, behind the rows `base`. -/
theorem Rewrite.replace {base : List Snapshot}
    (hrev : next.revision = st.revision + 1) (hsorted : SortedRows Snapshot.start base)
    (hnext : next.attached = insertRow Snapshot.start ⟨T, st.revision + 1⟩ base) (hT : Attached T)
    (hstate : T.state ≠ .deleting) (hstart : T.start = t.start) (hseq : t.sequence ≤ T.sequence)
    (hreached : Reached t.record T) (hfate : Extends t.record T ∨ t.record.mappings = [])
    (hrows : ∀ row ∈ base, row ∈ st.attached ∨ row.revision = next.revision ∧
      ∃ o ∈ st.attached, o.start < t.start ∧ o.record.state = .sealed ∧
      row.record = marked o.record)
    (hkeeps : ∀ o ∈ st.attached, o.start ≠ t.start →
      (∃ row ∈ base, Extends o.record row.record ∧ o.record.stop ≤ row.record.stop) ∨
        o.record.stop ≤ T.trimOffset) : Rewrite st next t T := by
  obtain ⟨htm, hmax⟩ := hst.loadTail_last ht
  have hmem : ∀ row, row ∈ next.attached ↔ row = ⟨T, next.revision⟩ ∨
      row ∈ base ∧ row.start ≠ t.start := by
    intro row
    rw [hnext, hrev, ← hstart]
    exact mem_insertRow hsorted
  have htail : ⟨T, next.revision⟩ ∈ next.attached := (hmem _).mpr (.inl rfl)
  refine ⟨ht, hrev, hnext ▸ hsorted.insertRow, htail, hT, hstate, hstart.ge, hseq, hreached,
    fun row hrow => ?_, fun o ho => ?_, fun x h1 h2 => absurd h2 (not_lt.mpr (hstart ▸ h1))⟩
  · rcases (hmem row).mp hrow with rfl | ⟨hbase, hne⟩
    · exact .inl rfl
    · rcases hrows row hbase with hold | hmark
      · exact .inr (.inl ⟨hold, lt_of_le_of_ne (hmax row hold) hne⟩)
      · exact .inr (.inr (.inl hmark))
  · by_cases hos : o.start = t.start
    · obtain rfl := hst.sorted.eq_of_key ho htm hos
      rcases hfate with hext | hnil
      · exact .inl ⟨_, htail, hext, hext.stop_le (hst.rows o ho).1 hT⟩
      · exact .inr (.inr ⟨rfl, hnil⟩)
    · rcases hkeeps o ho hos with ⟨row, hrow, hext, hle⟩ | htrim
      · have hrs : row.start = o.start := hext.start
        exact .inl ⟨row, (hmem row).mpr (.inr ⟨hrow, hrs ▸ hos⟩), hext, hle⟩
      · exact .inr (.inl htrim)

/-- A fenced batch that leaves all records alone. -/
theorem Rewrite.plain (hops : ∀ op ∈ ops, op.plain = true)
    (h : st.batch (ops ++ [.put t.record]) (recordKey t.record) t.revision = some next) :
    Rewrite st next t t.record := by
  have hatt := (hst.rows t (hst.loadTail_last ht).1).1
  have hnext := fenced_attached hatt h
  rw [attached_foldl_plain hops] at hnext
  exact .replace hst ht (hst.sided h).revision hst.sorted hnext hatt (hst.tail t ht) rfl le_rfl
    (.refl _) (.inl (.refl _)) (fun row => .inl)
    fun o ho _ => .inl ⟨o, ho, .refl _, le_rfl⟩

/-- A collection marks a sealed record in front of the tail. -/
theorem Rewrite.mark {o : Snapshot} (ho : o ∈ st.attached) (hlt : o.start < t.start)
    (hsealed : o.record.state = .sealed)
    (h : st.batch ([.put (marked o.record)] ++ [.put t.record]) (recordKey t.record) t.revision =
      some next) : Rewrite st next t t.record := by
  have hatt := (hst.rows t (hst.loadTail_last ht).1).1
  have hrev := (hst.sided h).revision
  have hnext := fenced_attached hatt h
  refine .replace hst ht hrev hst.sorted.insertRow hnext hatt (hst.tail t ht) rfl le_rfl (.refl _)
    (.inl (.refl _)) (fun row hrow => ?_) fun a ha _ => .inl ?_
  · rcases mem_of_mem_insertRow hrow with rfl | hold
    · exact .inr ⟨hrev.symm, o, ho, hlt, hsealed, rfl⟩
    · exact .inl hold
  · by_cases hao : a.start = o.start
    · obtain rfl := hst.sorted.eq_of_key ha ho hao
      exact ⟨⟨marked a.record, st.revision + 1⟩, (mem_insertRow hst.sorted).mpr (.inl rfl),
        extends_marked _, le_rfl⟩
    · exact ⟨a, (mem_insertRow hst.sorted).mpr (.inr ⟨ha, hao⟩), .refl _, le_rfl⟩

/-- A collection takes a trimmed record out. -/
theorem Rewrite.delete {start : ℕ}
    (htrim : ∀ o ∈ st.attached, o.start = start → o.record.stop ≤ t.record.trimOffset)
    (h : st.batch ([.delete (.attached start)] ++ [.put t.record]) (recordKey t.record) t.revision =
      some next) : Rewrite st next t t.record := by
  have hatt := (hst.rows t (hst.loadTail_last ht).1).1
  refine .replace hst ht (hst.sided h).revision (hst.sorted.eraseRow start)
    (fenced_attached hatt h) hatt (hst.tail t ht) rfl le_rfl (.refl _) (.inl (.refl _))
    (fun row hrow => .inl (mem_eraseRow.mp hrow).1) fun a ha _ => ?_
  by_cases hak : a.start = start
  · exact .inr (htrim a ha hak)
  · exact .inl ⟨a, mem_eraseRow.mpr ⟨ha, hak⟩, .refl _, le_rfl⟩

end Fenced

/-- A record that stands for the same chunk, and for no less of it. -/
structure Continues (x y : StreamChunkRecord) : Prop where
  chunkId : y.chunkId = x.chunkId
  start : y.start = x.start
  stop : x.stop ≤ y.stop

lemma Continues.refl (x : StreamChunkRecord) : Continues x x := ⟨rfl, rfl, le_rfl⟩

lemma Extends.continues {x y : StreamChunkRecord} (h : Extends x y) (hx : Attached x)
    (hy : Attached y) : Continues x y := ⟨h.chunkId, h.start, h.stop_le hx hy⟩

lemma continues_marked (x : StreamChunkRecord) : Continues x (marked x) := ⟨rfl, rfl, le_rfl⟩

/-- Each row behind a batch is the new tail or goes on with one from before. -/
theorem Rewrite.continues {row : Snapshot} (h : Rewrite st next t T) (hst : ChainOk st)
    (hrow : row ∈ next.attached) :
    row.record = T ∨ ∃ o ∈ st.attached, Continues o.record row.record := by
  have ht := (hst.loadTail_last h.old).1
  rcases h.rows row hrow with rfl | ⟨hold, -⟩ | ⟨-, o, ho, -, -, hrec⟩ | ⟨-, hext, -, ha, -⟩
  · exact .inl rfl
  · exact .inr ⟨row, hold, .refl _⟩
  · exact .inr ⟨o, ho, hrec ▸ continues_marked _⟩
  · exact .inr ⟨t, ht, hext.continues (hst.rows t ht).1 ha⟩

/-! ## Pins behind a batch -/

/-- The operations that leave the pins alone. -/
def BatchOp.pinless : BatchOp → Bool
  | .put _ | .delete _ => true
  | .putPin _ | .deletePin _ => false

lemma pins_foldl (h : ∀ op ∈ ops, op.pinless = true) (st : Store) :
    (ops.foldl (applyOp v) st).pins = st.pins := by
  refine foldl_applyOp_eq (fun op hop st => ?_) st
  have hpinless := h op hop
  cases op with
  | put =>
    rw [applyOp]
    split <;> rfl
  | delete key => cases key <;> rfl
  | putPin pin | deletePin id => cases hpinless

lemma batch_pins (h : st.batch ops guard revision = some next)
    (hops : ∀ op ∈ ops, op.pinless = true) : next.pins = st.pins := by
  obtain ⟨-, rfl⟩ := batch_eq_some h
  exact pins_foldl hops _

lemma fenced_pins
    (h : st.batch (ops ++ [.put t.record]) (recordKey t.record) t.revision = some next) :
    next.pins = (ops.foldl (applyOp (st.revision + 1))
      { st with revision := st.revision + 1 }).pins := by
  obtain ⟨-, rfl⟩ := batch_eq_some h
  rw [foldl_append]
  exact pins_foldl (by simp [BatchOp.pinless]) _

lemma mem_pins_deleted {expired : List PinRecord} {p : PinRecord} :
    p ∈ ((expired.map fun p => BatchOp.deletePin p.id).foldl (applyOp v) st).pins ↔
      p ∈ st.pins ∧ p.id ∉ expired.map PinRecord.id := by
  induction expired generalizing st with
  | nil => simp
  | cons _ _ ih =>
    rw [map_cons, foldl_cons, ih, applyOp]
    simp [and_assoc]

/-! ## Publications -/

lemma PublishRequest.candidateOps_plain (h : q.candidateOps = .ok ops) :
    ∀ op ∈ ops, op.plain = true := by
  simp only [candidateOps] at h
  split at h
  · cases h
    simp
  next candidate _ =>
    split at h
    next hm =>
      cases h
      have hstate : candidate.record.state = .candidate := by
        simp only [candidateMatches, Bool.and_eq_true, beq_iff_eq] at hm
        exact hm.1.1.1.1
      simp [BatchOp.plain, recordKey, hstate]
    · cases h

/-- The attached records behind a publication: the sealed predecessor, unless its key goes to the
successor, and the new tail. -/
theorem PublishRequest.batch_attached (hq : q.ops = .ok ops) (htail : Attached q.tail)
    (hprev : ∀ previous ∈ q.previous, Attached previous)
    (h : st.batch ops guard revision = some next) :
    (next.attached = insertRow start ⟨q.tail, st.revision + 1⟩ st.attached ∧
      ∀ previous ∈ q.previous, previous.start = q.tail.start ∧ previous.mappings = []) ∨
    ∃ previous, q.previous = some previous ∧ previous.start ≠ q.tail.start ∧
      next.attached = insertRow start ⟨q.tail, st.revision + 1⟩
        (insertRow start ⟨previous, st.revision + 1⟩ st.attached) := by
  obtain ⟨-, rfl⟩ := batch_eq_some h
  simp only [PublishRequest.ops, bind_eq_ok, pure_eq_ok] at hq
  obtain ⟨before, hbefore, dropped, hdropped, rfl⟩ := hq
  have hplain := candidateOps_plain hdropped
  rw [foldl_append, foldl_cons, foldl_nil, applyOp_put htail, foldl_append,
    attached_foldl_plain hplain]
  simp only [predecessorOps] at hbefore
  split at hbefore
  next hnone =>
    cases hbefore
    exact .inl ⟨rfl, by rw [hnone]; simp⟩
  next previous hsome =>
    have hpa := hprev previous hsome
    rw [recordKey_attached hpa, recordKey_attached htail] at hbefore
    split at hbefore
    next hne =>
      cases hbefore
      refine .inr ⟨previous, hsome, fun heq => hne (congrArg _ heq), ?_⟩
      rw [foldl_cons, foldl_nil, applyOp_put hpa]
    next heq =>
      split at hbefore
      · cases hbefore
      next hempty =>
        cases hbefore
        refine .inl ⟨rfl, fun p hp => ?_⟩
        rw [hsome] at hp
        cases hp
        have hkey : previous.start = q.tail.start := RecordKey.attached.inj (not_not.mp heq)
        refine ⟨hkey, ?_⟩
        have hcover := hpa.cover
        rw [StreamChunkRecord.start, StreamChunkRecord.stop, not_not.mp hempty] at hcover
        have hsum : previous.mappings.sum = 0 := by omega
        cases hm : previous.mappings with
        | nil => rfl
        | cons length =>
          have := hpa.appends length (by rw [hm]; exact mem_cons_self)
          rw [hm, sum_cons] at hsum
          omega

/-- A publication over the current tail. -/
theorem Rewrite.publish (hst : ChainOk st) (ht : st.loadTail = some t)
    (hcheck : validateTransition (some t.record) q.tail q.previous = .ok ()) (hq : q.ops = .ok ops)
    (h : st.batch ops guard revision = some next) :
    Rewrite st next t q.tail ∧ Kept next q ∧
      ∀ row ∈ next.attached, row.record.state = .deleting → row ∈ st.attached := by
  obtain ⟨htm, hmax⟩ := hst.loadTail_last ht
  have hatt := (hst.rows t htm).1
  obtain ⟨htail, hdel, hadv, hkind⟩ := validateTransition_some hcheck
  have hrev := (hst.sided h).revision
  have hprev : ∀ previous ∈ q.previous, Attached previous := by
    rcases hkind with ⟨hnone, -⟩ | ⟨sealed, hsome, ha, -⟩
    · rw [hnone]
      simp
    · rw [hsome]
      rintro _ ⟨⟩
      exact ha
  have hkept : Rewrite st next t q.tail → (∀ previous ∈ q.previous, previous.mappings = [] ∨
      ⟨previous, next.revision⟩ ∈ next.attached) → Kept next q := by
    refine fun hrw hheld => ⟨_, hrw.loadTail, .refl _, fun r hr => ?_⟩
    rcases mem_cons.mp hr with rfl | hr
    · exact ⟨htail, .inr (.inr ⟨_, hrw.tail, .refl _⟩)⟩
    · have hp : r ∈ q.previous := Option.mem_toList.mp hr
      rcases hheld r hp with hnil | hmem
      · exact ⟨hprev r hp, .inr (.inl hnil)⟩
      · exact ⟨hprev r hp, .inr (.inr ⟨_, hmem, .refl _⟩)⟩
  rcases q.batch_attached hq htail hprev h with ⟨hnext, hempty⟩ | ⟨previous, hsome, hne, hnext⟩
  · -- the new tail stands at the key of the old one
    have hfacts : q.tail.start = t.start ∧ t.sequence ≤ q.tail.sequence ∧
        (Extends t.record q.tail ∨ t.record.mappings = []) := by
      rcases hkind with ⟨-, hext⟩ | ⟨sealed, hsome, hsa, -, hext, -, hjoin, hseq⟩
      · exact ⟨hext.start, hext.sequence.ge, .inl hext⟩
      · obtain ⟨hstart, hnil⟩ := hempty sealed hsome
        refine ⟨hstart.symm.trans hext.start, by rw [hseq]; exact Nat.le_succ _, .inr ?_⟩
        exact prefix_nil.mp (hnil ▸ hext.mappings)
    obtain ⟨hstart, hseq, hfate⟩ := hfacts
    have hrw : Rewrite st next t q.tail :=
      .replace hst ht hrev hst.sorted hnext htail hdel hstart hseq hadv.reached hfate
        (fun row => .inl) fun o ho _ => .inl ⟨o, ho, .refl _, le_rfl⟩
    refine ⟨hrw, hkept hrw fun previous hp => .inl (hempty previous hp).2,
      fun row hrow hstate => ?_⟩
    rw [hnext] at hrow
    rcases mem_of_mem_insertRow hrow with rfl | hold
    · exact absurd hstate hdel
    · exact hold
  · -- the old tail is sealed in front of the new one
    obtain ⟨hpa, hsealed, hext, hjoin, hseq⟩ : Attached previous ∧ previous.state = .sealed ∧
        Extends t.record previous ∧ previous.stop = q.tail.start ∧
        q.tail.sequence = t.sequence + 1 := by
      rcases hkind with ⟨hnone, -⟩ | ⟨sealed, hsealed, hsa, hstate, hext, -, hjoin, hseq⟩
      · rw [hsome] at hnone
        cases hnone
      · rw [hsome] at hsealed
        cases hsealed
        exact ⟨hsa, hstate, hext, hjoin, hseq⟩
    have hps : previous.start = t.start := hext.start
    have hlt : t.start < q.tail.start := by
      have := hpa.start_le_stop
      omega
    have hseqlt : t.sequence < q.tail.sequence := by omega
    have hsorted := hst.sorted.insertRow (x := ⟨previous, st.revision + 1⟩)
    have hmem : ∀ row, row ∈ next.attached ↔ row = ⟨q.tail, next.revision⟩ ∨
        (row = ⟨previous, next.revision⟩ ∨ row ∈ st.attached ∧ row.start ≠ t.start) ∧
          row.start ≠ q.tail.start := by
      intro row
      rw [hnext, hrev, mem_insertRow hsorted, mem_insertRow hst.sorted, ← hps]
      rfl
    have hprow : ⟨previous, next.revision⟩ ∈ next.attached := (hmem _).mpr (.inr ⟨.inl rfl, hne⟩)
    have hrw : Rewrite st next t q.tail := by
      refine ⟨ht, hrev, hnext ▸ hsorted.insertRow, (hmem _).mpr (.inl rfl), htail, hdel,
        hlt.le, hseqlt.le, hadv.reached, fun row hrow => ?_, fun o ho => .inl ?_,
        fun x h1 h2 => ⟨_, hprow, hps.trans_le h1, hjoin ▸ h2⟩⟩
      · rcases (hmem row).mp hrow with rfl | ⟨rfl | ⟨hold, hne⟩, -⟩
        · exact .inl rfl
        · exact .inr (.inr (.inr ⟨rfl, hext, hsealed, hpa, hjoin.le, hseqlt⟩))
        · exact .inr (.inl ⟨hold, lt_of_le_of_ne (hmax row hold) hne⟩)
      · by_cases hos : o.start = t.start
        · rw [hst.sorted.eq_of_key ho htm hos]
          exact ⟨_, hprow, hext, hext.stop_le hatt hpa⟩
        · refine ⟨o, (hmem o).mpr (.inr ⟨.inr ⟨ho, hos⟩, ?_⟩), .refl _, le_rfl⟩
          exact ((hmax o ho).trans_lt hlt).ne
    refine ⟨hrw, hkept hrw fun p hp => .inr ?_, fun row hrow hstate => ?_⟩
    · rw [hsome] at hp
      cases hp
      exact hprow
    · rcases (hmem row).mp hrow with rfl | ⟨rfl | ⟨hold, -⟩, -⟩
      · exact absurd hstate hdel
      · rw [hsealed] at hstate
        cases hstate
      · exact hold

/-- The candidate of the first publication is that of sequence zero. -/
theorem PublishRequest.candidateKey_zero {c : Snapshot} (he : q.expected = none)
    (hcheck : q.check = .ok ()) (hq : q.ops = .ok ops) (hc : q.candidate = some c) :
    recordKey c.record = .candidate 0 := by
  rw [check, he] at hcheck
  obtain ⟨-, -, hseq, -⟩ := validateTransition_none hcheck
  simp only [PublishRequest.ops, candidateOps, hc, bind_eq_ok] at hq
  obtain ⟨-, -, dropped, hdropped, -⟩ := hq
  split at hdropped
  next hm =>
    simp only [candidateMatches, Bool.and_eq_true, beq_iff_eq] at hm
    rw [recordKey, if_pos hm.1.1.1.1, hm.1.1.2, hseq]
  · cases hdropped

/-- The first publication finds its candidate and no records, and takes the candidate out. -/
theorem ChainOk.first {c : Snapshot} (hst : ChainOk st) (hnil : st.attached = [])
    (he : q.expected = none) (hcheck : q.check = .ok ()) (hprev : q.previous = none)
    (hc : q.candidate = some c) (hq : q.ops = .ok ops)
    (h : st.batch ops guard revision = some next) :
    ChainOk next ∧ Bumped st next ∧ Kept next q ∧ next.attached = [⟨q.tail, next.revision⟩] := by
  have hkey := q.candidateKey_zero he hcheck hq hc
  rw [check, he] at hcheck
  obtain ⟨htail, hdel, hseq, hstop⟩ := validateTransition_none hcheck
  have hs := hst.sided h
  have hrev := hs.revision
  have hatt : next.attached = [⟨q.tail, next.revision⟩] := by
    rcases q.batch_attached hq htail (by rw [hprev]; simp) h with ⟨hnext, -⟩ | ⟨_, hsome, -⟩
    · rw [hnext, hnil, hrev]
      rfl
    · rw [hprev] at hsome
      cases hsome
  have hload : next.loadTail = some ⟨q.tail, next.revision⟩ := by rw [loadTail, hatt]; rfl
  have hrow : ∀ sn ∈ next.attached, sn = ⟨q.tail, next.revision⟩ := by
    rw [hatt]
    simp
  have hpos : 0 < next.revision := by omega
  refine ⟨⟨?_, ?_, ?_, ?_, ?_, hs.candidates, hs.reserved, hs.pins⟩,
    ⟨hrev, ?_, ⟨_, hload, rfl⟩, hs.new, ?_⟩,
    ⟨_, hload, .refl _, ?_⟩, hatt⟩
  · rw [hatt]
    exact pairwise_singleton _ _
  · intro sn hsn
    rw [hrow sn hsn]
    exact ⟨htail, hpos, le_rfl⟩
  · intro a ha b hb hlt
    rw [hrow a ha, hrow b hb] at hlt
    exact absurd hlt (lt_irrefl _)
  · intro t ht
    rw [hload] at ht
    cases ht
    exact hdel
  · intro t ht x _ hx
    rw [hload] at ht
    cases ht
    exact absurd hx (by rw [hstop]; exact Nat.not_lt_zero x)
  · exact fun sn hsn => .inl (by rw [hrow sn hsn])
  · -- the candidate of sequence zero was the guard
    intro _ sn hsn hzero
    obtain ⟨-, rfl⟩ := batch_eq_some h
    simp only [PublishRequest.ops, predecessorOps, hprev,
      candidateOps, hc, bind_eq_ok, pure_eq_ok] at hq
    obtain ⟨_, hbefore, dropped, hdropped, rfl⟩ := hq
    cases hbefore
    split at hdropped
    next hm =>
      cases hdropped
      rw [hkey] at hsn
      simp only [nil_append, cons_append, foldl_cons, applyOp, if_neg htail.state] at hsn
      exact (mem_eraseRow.mp hsn).2 hzero
    · cases hdropped
  · intro r hr
    rw [records, hprev] at hr
    obtain rfl : r = q.tail := by simpa using hr
    exact ⟨htail, .inr (.inr ⟨_, by rw [hatt]; exact mem_cons_self, .refl _⟩)⟩

/-- A batch that leaves the attached records alone. -/
theorem ChainOk.quiet (hst : ChainOk st) (h : st.batch ops guard revision = some next)
    (hatt : next.attached = st.attached) : ChainOk next := by
  have hs := hst.sided h
  have hrev := hs.revision
  have hload : next.loadTail = st.loadTail := congrArg getLast? hatt
  refine ⟨hatt ▸ hst.sorted, fun sn hsn => ?_, ?_, ?_, ?_, hs.candidates, hs.reserved, hs.pins⟩
  · obtain ⟨ha, hpos, hle⟩ := hst.rows sn (hatt ▸ hsn)
    exact ⟨ha, hpos, by omega⟩
  · rw [hatt]
    exact hst.order
  · rw [hload]
    exact hst.tail
  · rw [hload, hatt]
    exact hst.cover

end CrowDB.ChunkStream
