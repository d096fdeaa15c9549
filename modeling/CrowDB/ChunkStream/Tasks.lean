import CrowDB.ChunkStream.Chain

/-!
# The steps of tasks

What every task knows while it waits, and what each of its steps does to the records, to the pins
and to the history, whatever the other tasks have done in between.
-/
namespace CrowDB.ChunkStream
open Lib List Ledger BatchOp

variable {l l' : Ledger} {now : ℕ} {asked : Option PublishRequest}

/-! ## What holds of the store and its history -/

structure Core (l : Ledger) : Prop where
  chain : ChainOk l.store
  snapshots : ∀ sn ∈ l.snapshots, Tracks l.store sn
  reservations : ∀ sn ∈ l.candidates, 0 < sn.revision ∧ sn.revision ≤ l.store.revision
  committed : ∀ q ∈ l.committed, Kept l.store q
  tail : ∀ t, l.store.loadTail = some t → ∃ q ∈ l.committed, q.tail = t.record
  condemned : ∀ r ∈ l.condemned, Condemned l.store r
  deleting : ∀ sn ∈ l.store.attached, sn.record.state = .deleting → sn.record ∈ l.condemned

/-- What a step may do, as far as waiting tasks depend on it. -/
structure Evolves (l l' : Ledger) : Prop where
  moved : Moved l.store l'.store
  committed : l.committed ⊆ l'.committed
  condemned : l.condemned ⊆ l'.condemned
  fence : l'.condemned = l.condemned ∨ Bumped l.store l'.store

/-- A tail from before is current only if nothing was written under the fence. -/
theorem Evolves.current {sn : Snapshot} (h : Evolves l l') (ht : Tracks l.store sn)
    (hcur : l'.store.loadTail = some sn) :
    l.store.loadTail = some sn ∧ l'.store.attached = l.store.attached ∧
      l'.store.pins = l.store.pins ∧ l'.condemned = l.condemned := by
  obtain ⟨hquiet, hold⟩ := h.moved.current ht.bound hcur
  refine ⟨hold, hquiet.attached, hquiet.pins, h.fence.elim (fun heq => heq) fun hbump => ?_⟩
  obtain ⟨t, ht', hrev⟩ := hbump.tail
  rw [ht'] at hcur
  cases hcur
  have := hbump.revision
  have := ht.bound
  omega

/-- Only what was read of the store is handed out. -/
structure Handed (l l' : Ledger) : Prop where
  snapshots : ∀ sn ∈ l'.snapshots, sn ∈ l.snapshots ∨ l'.store.loadTail = some sn
  candidates : ∀ sn ∈ l'.candidates,
    sn ∈ l.candidates ∨ 0 < sn.revision ∧ sn.revision ≤ l.store.revision

lemma Handed.of_eq (hs : l'.snapshots = l.snapshots) (hc : l'.candidates = l.candidates) :
    Handed l l' := ⟨fun _ h => .inl (hs ▸ h), fun _ h => .inl (hc ▸ h)⟩

variable {t : Snapshot}

lemma Handed.capture (ht : l'.store.loadTail = some t) (hs : l'.snapshots = t :: l.snapshots)
    (hc : l'.candidates = l.candidates) : Handed l l' := by
  refine ⟨fun sn hsn => ?_, fun _ h => .inl (hc ▸ h)⟩
  rw [hs] at hsn
  rcases mem_cons.mp hsn with rfl | hold
  · exact .inr ht
  · exact .inl hold

/-! ## Publications -/

/-- The first publication knows that its guard fails once there are records. -/
structure Initial (st : Store) (revision : ℕ) : Prop where
  positive : 0 < revision
  bound : revision ≤ st.revision
  empty : ∀ row ∈ st.candidates, row.sequence = 0 → row.revision = revision → st.attached = []

variable {revision : ℕ} {next st : Store}

lemma Initial.moved (h : Initial st revision) (hm : Moved st next) : Initial next revision := by
  refine ⟨h.positive, h.bound.trans hm.revision_le, fun row hrow hseq hrev => ?_⟩
  rcases hm.candidates row hrow with hnew | hold
  · have := h.bound
    omega
  · have hnil := h.empty row hold hseq hrev
    rcases hm with hm | hm
    · rw [hm.attached, hnil]
    · exact absurd hseq (hm.initial hnil row hrow)

/-- What a publication knows of its arguments. -/
structure Prepared (st : Store) (q : PublishRequest) : Prop where
  previous : q.expected = none → q.previous = none
  expected : ∀ e, q.expected = some e → Tracks st e
  candidate : ∀ c, q.candidate = some c → 0 < c.revision ∧ c.revision ≤ st.revision

variable {q : PublishRequest}

lemma Prepared.moved (h : Prepared st q) (hst : ChainOk st) (hm : Moved st next) :
    Prepared next q :=
  ⟨h.previous, fun e he => (h.expected e he).moved hst hm,
    fun c hc => ⟨(h.candidate c hc).1, (h.candidate c hc).2.trans hm.revision_le⟩⟩

/-- What it knows of the revision that it compares. -/
structure Guards (st : Store) (q : PublishRequest) (revision : ℕ) : Prop where
  check : q.check = .ok ()
  expected : ∀ e, q.expected = some e → Tracks st ⟨e.record, revision⟩
  initial : q.expected = none → Initial st revision

lemma Guards.moved (h : Guards st q revision) (hst : ChainOk st) (hm : Moved st next) :
    Guards next q revision :=
  ⟨h.check, fun e he => (h.expected e he).moved hst hm, fun hn => (h.initial hn).moved hm⟩

variable {ops : List BatchOp} {guarded : Snapshot}

/-- The first publication is executed only on an empty chain. -/
theorem Guards.first (hg : Guards st q revision) (hq : q.ops = .ok ops)
    (hc : q.candidate = some guarded) (he : q.expected = none)
    (hb : st.batch ops (recordKey guarded.record) revision = some next) : st.attached = [] := by
  have hinit := hg.initial he
  have hrevision := (batch_eq_some hb).1
  rw [q.candidateKey_zero he hg.check hq hc] at hrevision
  obtain ⟨row, hrow, hseq, hrow'⟩ := findRow_revision hinit.positive hrevision
  exact hinit.empty row hrow hseq hrow'

/-! ## What a step changes -/

/-- What a step does to the records and to the history. A batch under the fence may have marked a
record, and a publication is always a new one. -/
inductive Change (l : Ledger) (request : Option PublishRequest) (l' : Ledger) : Prop
  | still (chain : ChainOk l'.store) (quiet : Quiet l.store l'.store)
      (committed : l'.committed = l.committed) (condemned : l'.condemned = l.condemned)
  | fenced (t : Snapshot) (rewrite : Rewrite l.store l'.store t t.record)
      (sided : Sided l.store l'.store)
      (deleting : ∀ row ∈ l'.store.attached, row.record.state = .deleting →
        row ∈ l.store.attached ∨ row.record ∈ l'.condemned)
      (committed : l'.committed = l.committed)
      (condemned : l'.condemned = l.condemned ∨ ∃ o ∈ l.store.attached,
        l'.condemned = marked o.record :: l.condemned ∧ Condemned l'.store (marked o.record))
  | published (q : PublishRequest) (publishing : request = some q) (new : q ∉ l.committed)
      (chain : ChainOk l'.store) (bumped : Bumped l.store l'.store) (kept : Kept l'.store q)
      (keeps : ∀ q', Kept l.store q' → Kept l'.store q')
      (condemns : ∀ r, Condemned l.store r → Condemned l'.store r)
      (tail : l'.store.loadTail = some ⟨q.tail, l'.store.revision⟩)
      (deleting : ∀ row ∈ l'.store.attached, row.record.state = .deleting →
        row ∈ l.store.attached)
      (rows : ∀ row ∈ l'.store.attached,
        row.record = q.tail ∨ ∃ o ∈ l.store.attached, Continues o.record row.record)
      (continues : q.attaches = false → ∃ o ∈ l.store.attached, Continues o.record q.tail)
      (committed : l'.committed = q :: l.committed) (condemned : l'.condemned = l.condemned)

lemma Change.refl (h : Core l) (asked : Option PublishRequest) : Change l asked l :=
  .still h.chain (.refl _) rfl rfl

lemma Change.congr {m : Ledger} (h : Change l asked l') (hstore : m.store = l'.store)
    (hcommitted : m.committed = l'.committed) (hcondemned : m.condemned = l'.condemned) :
    Change l asked m := by
  cases h with
  | still => constructor <;> simp only [hstore, hcommitted, hcondemned] <;> assumption
  | fenced t => refine .fenced t ?_ ?_ ?_ ?_ ?_ <;>
      simp only [hstore, hcommitted, hcondemned] <;> assumption
  | published q publishing new chain bumped kept keeps condemns tail deleting rows continues =>
    refine .published q publishing new ?_ ?_ ?_ ?_ ?_ ?_ ?_ ?_ continues ?_ ?_ <;>
      simp only [hstore, hcommitted, hcondemned] <;> assumption

/-- The chain and all that is known of it survive. -/
theorem Change.core (h : Change l asked l') (hcore : Core l) (hh : Handed l l') :
    Core l' ∧ Evolves l l' := by
  have hfollow : ∀ (hc : ChainOk l'.store) (hm : Moved l.store l'.store),
      (∀ q ∈ l'.committed, Kept l'.store q) →
      (∀ t, l'.store.loadTail = some t → ∃ q ∈ l'.committed, q.tail = t.record) →
      (∀ r ∈ l'.condemned, Condemned l'.store r) →
      (∀ row ∈ l'.store.attached, row.record.state = .deleting → row.record ∈ l'.condemned) →
      Core l' := by
    refine fun hc hm hkept htail hcondemned hdeleting =>
      ⟨hc, fun sn hsn => ?_, fun sn hsn => ?_, hkept, htail, hcondemned, hdeleting⟩
    · rcases hh.snapshots sn hsn with hold | hnew
      · exact (hcore.snapshots sn hold).moved hcore.chain hm
      · exact hc.tracks hnew
    · obtain ⟨hpos, hle⟩ := (hh.candidates sn hsn).elim (hcore.reservations sn) fun hnew => hnew
      exact ⟨hpos, hle.trans hm.revision_le⟩
  cases h with
  | still chain quiet committed condemned =>
    have hload : l'.store.loadTail = l.store.loadTail := congrArg getLast? quiet.attached
    refine ⟨hfollow chain (.inl quiet) (fun q hq => ?_) (fun t ht => ?_) (fun r hr => ?_)
      fun row hrow hstate => ?_, .inl quiet, ?_, ?_, .inl condemned⟩
    · simp only [Kept, Held, hload, quiet.attached]
      exact hcore.committed q (committed ▸ hq)
    · rw [committed]
      exact hcore.tail t (hload ▸ ht)
    · obtain ⟨hdel, hbelow, honly⟩ := hcore.condemned r (condemned ▸ hr)
      exact ⟨hdel, hload ▸ hbelow, quiet.attached ▸ honly⟩
    · rw [condemned]
      exact hcore.deleting row (quiet.attached ▸ hrow) hstate
    · rw [committed]
      exact Subset.refl _
    · rw [condemned]
      exact Subset.refl _
  | fenced t rewrite sided deleting committed condemned =>
    have hbump := rewrite.bumped sided
    have hsub : l.condemned ⊆ l'.condemned := by
      rcases condemned with heq | ⟨o, -, heq, -⟩
      · rw [heq]
        exact Subset.refl _
      · rw [heq]
        exact subset_cons_self _ _
    refine ⟨hfollow (rewrite.chainOk hcore.chain sided) (.inr hbump) (fun q hq => ?_)
      (fun t' ht' => ?_)
      (fun r hr => ?_) fun row hrow hstate => ?_, .inr hbump, ?_, hsub, .inr hbump⟩
    · exact rewrite.kept hcore.chain (hcore.committed q (committed ▸ hq))
    · rw [rewrite.loadTail] at ht'
      cases ht'
      rw [committed]
      exact hcore.tail t rewrite.old
    · rcases condemned with heq | ⟨o, -, heq, hmark⟩
      · exact rewrite.condemned (hcore.condemned r (heq ▸ hr))
      · rw [heq] at hr
        rcases mem_cons.mp hr with rfl | hold
        · exact hmark
        · exact rewrite.condemned (hcore.condemned r hold)
    · exact (deleting row hrow hstate).elim
        (fun hold => hsub (hcore.deleting row hold hstate)) fun hnew => hnew
    · rw [committed]
      exact Subset.refl _
  | published q publishing new chain bumped kept keeps condemns tail deleting rows
      continues committed
      condemned =>
    refine ⟨hfollow chain (.inr bumped) (fun q' hq' => ?_) (fun t ht => ?_)
      (fun r hr => condemns r (hcore.condemned r (condemned ▸ hr))) fun row hrow hstate => ?_,
      .inr bumped, ?_, ?_, .inl condemned⟩
    · rw [committed] at hq'
      rcases mem_cons.mp hq' with rfl | hold
      · exact kept
      · exact keeps q' (hcore.committed q' hold)
    · rw [tail] at ht
      cases ht
      exact ⟨q, committed ▸ mem_cons_self, rfl⟩
    · rw [condemned]
      exact hcore.deleting row (deleting row hrow hstate) hstate
    · rw [committed]
      exact subset_cons_self _ _
    · rw [condemned]
      exact Subset.refl _

/-! ## What a step does to pins -/

/-- Every pin that covers the record is over. -/
def Uncovered (st : Store) (now : ℕ) (r : StreamChunkRecord) : Prop :=
  ∀ p ∈ st.pins, p.covers r = true → p.expires ≤ now

/-- The pins of these identities are over. -/
def Over (st : Store) (now : ℕ) (expired : List PinRecord) : Prop :=
  ∀ p ∈ st.pins, p.id ∈ expired.map PinRecord.id → p.expires ≤ now

/-- A step of a task takes out pins that are over, and marks what is not covered. -/
structure Spares (l : Ledger) (now : ℕ) (l' : Ledger) : Prop where
  pins : ∀ p ∈ l'.store.pins, p ∈ l.store.pins
  keeps : ∀ p ∈ l.store.pins, p ∈ l'.store.pins ∨ p.expires ≤ now
  condemned : ∀ r ∈ l'.condemned, r ∈ l.condemned ∨ Uncovered l.store now r

lemma Spares.of_eq (hpins : l'.store.pins = l.store.pins)
    (hcondemned : l'.condemned = l.condemned) :
    Spares l now l' :=
  ⟨fun _ hp => hpins ▸ hp, fun _ hp => .inl (hpins ▸ hp), fun _ hr => .inl (hcondemned ▸ hr)⟩

variable {wall : ℕ}

lemma le_of_expiredBy {p : PinRecord} (hshows : shows now wall = true)
    (h : p.expiredBy wall = true) : p.expires ≤ now := by
  simp only [shows, Bool.and_eq_true, decide_eq_true_eq] at hshows
  simp only [PinRecord.expiredBy, decide_eq_true_eq] at h
  omega

/-- The pins that a clock shows to be expired are over. -/
theorem over_expiredPins (hst : SortedRows PinRecord.id st.pins) (hshows : shows now wall = true) :
    Over st now (expiredPins st.pins wall) := by
  intro p hp hid
  obtain ⟨e, he, heq⟩ := mem_map.mp hid
  obtain ⟨hmem, hexp⟩ := mem_filter.mp (mem_of_mem_take he)
  rw [← hst.eq_of_key hmem hp heq]
  exact le_of_expiredBy hshows hexp

/-! ## Batches -/

lemma sendFenced_eq (st : Store) (t : Snapshot) (ops : List BatchOp) (reply : Reply) :
    (st.sendFenced t ops reply).1 = st ∨
      st.batch (ops ++ [.put t.record]) (recordKey t.record) t.revision =
        some (st.sendFenced t ops reply).1 :=
  Store.send_eq _ _ _ _ _

lemma sendFenced_pins (st : Store) (t : Snapshot) (reply : Reply)
    (hops : ∀ op ∈ ops, op.pinless = true) : (st.sendFenced t ops reply).1.pins = st.pins := by
  rcases sendFenced_eq st t ops reply with heq | hb
  · rw [heq]
  · exact (fenced_pins hb).trans (pins_foldl hops _)

variable {reply : Reply}

/-- An answered batch was executed. -/
theorem Core.revision_of_ok {a : ℕ} (h : Core l)
    (hsend : l.store.sendFenced t ops reply = (next, .ok a)) :
    next.revision ≠ l.store.revision := by
  rw [(h.chain.sided (Store.send_ok hsend).1).revision]
  exact Nat.succ_ne_self _

/-- Pins and candidates change under the fence. -/
theorem Core.sendPlain (h : Core l) (ht : Tracks l.store t) (hops : ∀ op ∈ ops, op.plain = true)
    (reply : Reply) (asked : Option PublishRequest) :
    Change l asked { l with store := (l.store.sendFenced t ops reply).1 } := by
  rcases sendFenced_eq l.store t ops reply with heq | hb
  · rw [heq]
    exact .refl h _
  · have hload := ht.loadTail (batch_eq_some hb).1
    refine .fenced t (.plain h.chain hload hops hb) (h.chain.sided hb)
      (fun row hrow hstate => .inl ?_)
      rfl (.inl rfl)
    have hrow' : row ∈ (l.store.sendFenced t ops reply).1.attached := hrow
    rw [fenced_attached ht.attached hb, attached_foldl_plain hops] at hrow'
    rcases mem_of_mem_insertRow hrow' with rfl | hold
    · exact absurd hstate (h.chain.tail t hload)
    · exact hold

/-- What a collector knows when it goes on to mark a record. -/
structure Markable (st : Store) (t : Snapshot) (r : StreamChunkRecord) : Prop where
  tracks : Tracks st t
  state : r.state = .sealed
  chunkId : r.chunkId ≠ t.record.chunkId
  trimmed : r.stop ≤ t.record.trimOffset
  row : st.loadTail = some t → ∃ o ∈ st.attached, o.record = r

variable {r : StreamChunkRecord}

/-- A mark that was executed has found its record under the tail. -/
theorem Core.sendMark (h : Core l) (hm : Markable l.store t r)
    (hu : l.store.loadTail = some t → Uncovered l.store now r) (reply : Reply)
    (asked : Option PublishRequest) :
    Change l asked (l.condemns (l.store.sendFenced t [.put (marked r)] reply).1 (marked r)) ∧
      Spares l now (l.condemns (l.store.sendFenced t [.put (marked r)] reply).1 (marked r)) := by
  rcases sendFenced_eq l.store t [.put (marked r)] reply with heq | hb
  · rw [heq]
    simp only [condemns]
    exact ⟨.refl h _, .of_eq rfl rfl⟩
  have hload := hm.tracks.loadTail (batch_eq_some hb).1
  obtain ⟨htm, hmax⟩ := h.chain.loadTail_last hload
  obtain ⟨o, ho, rfl⟩ := hm.row hload
  have hlt : o.start < t.start := by
    refine lt_of_le_of_ne (hmax o ho) fun heq => hm.chunkId ?_
    rw [h.chain.sorted.eq_of_key ho htm heq]
  have hrw := Rewrite.mark h.chain hload ho hlt hm.state hb
  have hpins : (l.store.sendFenced t [.put (marked o.record)] reply).1.pins = l.store.pins :=
    sendFenced_pins _ t reply (by simp [pinless])
  generalize (l.store.sendFenced t [.put (marked o.record)] reply).1 = next at *
  have hne : ¬ next.revision = l.store.revision := by
    rw [hrw.revision]
    exact Nat.succ_ne_self _
  have hrows : ∀ row ∈ next.attached, row.record = t.record ∨ row.record = marked o.record ∨
      row ∈ l.store.attached ∧ row.start ≠ o.start := by
    intro row hrow
    rw [fenced_attached hm.tracks.attached hb, foldl_cons] at hrow
    rcases mem_of_mem_insertRow hrow with rfl | hrow
    · exact .inl rfl
    · rcases (mem_insertRow h.chain.sorted).mp hrow with rfl | hold
      · exact .inr (.inl rfl)
      · exact .inr (.inr hold)
  simp only [condemns, if_neg hne]
  refine ⟨.fenced t hrw (h.chain.sided hb) (fun row hrow hstate => ?_) rfl
    (.inr ⟨o, ho, rfl, rfl, ⟨_, hrw.loadTail, hm.trimmed, hlt⟩, fun row hrow heq => ?_⟩),
    fun p hp => hpins ▸ hp, fun p hp => .inl (hpins ▸ hp), fun r' hr' => ?_⟩
  · rcases hrows row hrow with hrec | hrec | ⟨hold, -⟩
    · rw [hrec] at hstate
      exact absurd hstate (h.chain.tail t hload)
    · exact .inr (hrec ▸ mem_cons_self)
    · exact .inl hold
  · rcases hrows row hrow with hrec | hrec | ⟨-, hne⟩
    · have : t.start = o.start := (congrArg StreamChunkRecord.start hrec).symm.trans heq
      exact absurd this hlt.ne'
    · exact hrec
    · exact absurd heq hne
  · rcases mem_cons.mp hr' with rfl | hold
    · exact .inr (hu hload)
    · exact .inl hold

lemma Core.sendDelete (h : Core l) (ht : Tracks l.store t) (hr : r ∈ l.condemned) (reply : Reply)
    (asked : Option PublishRequest) : Change l asked
      { l with store := (l.store.sendFenced t [.delete (.attached r.start)] reply).1 } := by
  rcases sendFenced_eq l.store t [.delete (.attached r.start)] reply with heq | hb
  · rw [heq]
    exact .refl h _
  have hload := ht.loadTail (batch_eq_some hb).1
  have hcond := h.condemned r hr
  obtain ⟨t', ht', hstop, -⟩ := hcond.below
  rw [hload] at ht'
  cases ht'
  refine .fenced t (.delete h.chain hload (fun o ho heq => ?_) hb) (h.chain.sided hb)
    (fun row hrow hstate => .inl ?_) rfl (.inl rfl)
  · rw [hcond.only o ho heq]
    exact hstop
  · have hrow' : row ∈ (l.store.sendFenced t [.delete (.attached r.start)] reply).1.attached := hrow
    rw [fenced_attached ht.attached hb] at hrow'
    rcases mem_of_mem_insertRow hrow' with rfl | hold
    · exact absurd hstate (h.chain.tail t hload)
    · exact (mem_eraseRow.mp hold).1

variable {candidate : StreamChunkRecord}

/-- `reserve_initial` writes a candidate only. -/
theorem Core.sendReserve (h : Core l) (hstate : candidate.state = .candidate) (guard : RecordKey)
    (revision : ℕ) (reply : Reply) (asked : Option PublishRequest) :
    Change l asked { l with store := (l.store.send [.put candidate] guard revision reply).1 } := by
  rcases l.store.send_eq [.put candidate] guard revision reply with heq | hb
  · rw [heq]
    exact .refl h _
  have hsided := h.chain.sided hb
  generalize (l.store.send [.put candidate] guard revision reply).1 = next at *
  have hatt : next.attached = l.store.attached := by
    obtain ⟨-, rfl⟩ := batch_eq_some hb
    exact attached_foldl_plain (by simp [plain, hstate]) _
  exact .still (h.chain.quiet hb hatt) ⟨hatt, batch_pins hb (by simp [pinless]),
    hsided.revision ▸ Nat.le_succ _, hsided.new⟩ rfl rfl

lemma PublishRequest.ops_pinless (hq : q.ops = .ok ops) : ∀ op ∈ ops, op.pinless = true := by
  simp only [PublishRequest.ops, bind_eq_ok, pure_eq_ok] at hq
  obtain ⟨before, hbefore, dropped, hdropped, rfl⟩ := hq
  have h1 : ∀ op ∈ before, op.pinless = true := by
    simp only [PublishRequest.predecessorOps] at hbefore
    repeat' split at hbefore
    all_goals cases hbefore <;> simp [pinless]
  have h2 : ∀ op ∈ dropped, op.pinless = true := by
    simp only [PublishRequest.candidateOps] at hdropped
    repeat' split at hdropped
    all_goals cases hdropped <;> simp [pinless]
  exact forall_mem_concat (forall_mem_append.mpr ⟨h1, h2⟩) rfl

/-- An executed publication is a new one, and its tail goes on with the old one unless it attaches
another chunk. -/
theorem Core.publish (h : Core l) (hp : Prepared l.store q) (hg : Guards l.store q revision)
    (hq : q.ops = .ok ops) (hguard : q.guarded = some guarded)
    (hb : l.store.batch ops (recordKey guarded.record) revision = some next) :
    Change l (some q) (l.wrote next q) ∧ next.loadTail = some ⟨q.tail, next.revision⟩ ∧
      q ∈ (l.wrote next q).committed := by
  have hsided := h.chain.sided hb
  have hne : ¬ next.revision = l.store.revision := by
    rw [hsided.revision]
    exact Nat.succ_ne_self _
  simp only [wrote, if_neg hne]
  cases he : q.expected with
  | some e =>
    have hge : guarded = e := by
      rw [PublishRequest.guarded, he] at hguard
      exact (Option.some.inj hguard).symm
    subst hge
    have hload := (hg.expected guarded he).loadTail (batch_eq_some hb).1
    have htm := (h.chain.loadTail_last hload).1
    have hcheck := hg.check
    rw [PublishRequest.check, he] at hcheck
    obtain ⟨hrw, hkept, hdeleting⟩ := Rewrite.publish h.chain hload hcheck hq hb
    obtain ⟨htail, -, hadv, hkind⟩ := validateTransition_some hcheck
    refine ⟨.published q rfl (fun hmem => ?_) (hrw.chainOk h.chain hsided) (hrw.bumped hsided) hkept
      (fun q' => hrw.kept h.chain) (fun r => hrw.condemned) hrw.loadTail hdeleting
      (fun row => hrw.continues h.chain) (fun hsame => ?_) rfl rfl, hrw.loadTail,
      mem_cons_self⟩
    · obtain ⟨t, ht, hreached, -⟩ := h.committed q hmem
      rw [hload] at ht
      cases ht
      exact absurd hreached.generation (not_le.mpr hadv.generation)
    · simp only [PublishRequest.attaches, he, bne_eq_false_iff_eq] at hsame
      rcases hkind with ⟨-, hext⟩ | ⟨_, -, -, -, -, hother, -⟩
      · exact ⟨_, htm, hext.continues (h.chain.rows _ htm).1 htail⟩
      · exact absurd hsame hother
  | none =>
    have hc : q.candidate = some guarded := by
      rwa [PublishRequest.guarded, he] at hguard
    have hnil : l.store.attached = [] := hg.first hq hc he hb
    have hempty : l.store.loadTail = none := by rw [Store.loadTail, hnil]; rfl
    obtain ⟨hchain, hbump, hkept, hatt⟩ := h.chain.first hnil he hg.check (hp.previous he) hc hq hb
    have hload : next.loadTail = some ⟨q.tail, next.revision⟩ := by rw [Store.loadTail, hatt]; rfl
    have hrow : ∀ row ∈ next.attached, row.record = q.tail := by
      rw [hatt]
      simp
    -- nothing was published or marked before
    have hnone : ∀ q', ¬ Kept l.store q' := by
      rintro q' ⟨t, ht, -⟩
      rw [hempty] at ht
      cases ht
    refine ⟨.published q rfl (fun hmem => hnone q (h.committed q hmem)) hchain hbump hkept
      (fun q' hq' => absurd hq' (hnone q')) (fun r hr => ?_) hload (fun row hr hstate => ?_)
      (fun row hr => .inl (hrow row hr)) (fun hsame => ?_) rfl rfl, hload, mem_cons_self⟩
    · obtain ⟨t, ht, -⟩ := hr.below
      rw [hempty] at ht
      cases ht
    · rw [hrow row hr] at hstate
      exact absurd hstate (hchain.tail _ hload)
    · simp only [PublishRequest.attaches, he] at hsame
      cases hsame

/-! ## Tasks -/

/-- The publication that a task is about. -/
def Task.request : Task → Option PublishRequest
  | .publish q | .publishSend q _ _ | .publishResolve q _ | .publishCandidate q _ _
  | .published q _ => some q
  | _ => none

/-- What a task knows while it waits. As long as the tail that it has read is the tail, so are the
pins and records that it has read behind it. -/
def Task.Ok (l : Ledger) (now : ℕ) : Task → Prop
  | .publish q | .published q (.error _) => Prepared l.store q
  | .publishSend q revision _ | .publishCandidate q revision _ =>
    Prepared l.store q ∧ Guards l.store q revision
  | .publishResolve q _ => Prepared l.store q ∧ q.check = .ok ()
  | .published q (.ok _) => ∃ q' ∈ l.committed, q'.tail = q.tail
  | .reserveSend candidate _ => candidate.state = .candidate
  | .registerRead candidate tail | .registerSend candidate tail =>
    candidate.state = .candidate ∧ Tracks l.store tail
  | .removeRead _ _ tail | .removeSend _ _ tail | .collectPins _ tail => Tracks l.store tail
  | .collectPrune _ tail pins | .collectScan _ tail pins | .collectGet _ tail pins _ =>
    Tracks l.store tail ∧ (l.store.loadTail = some tail → pins = l.store.pins)
  | .collectPruneSend tail expired =>
    Tracks l.store tail ∧ (l.store.loadTail = some tail → Over l.store now expired)
  | .collectCheck _ tail pins _ record =>
    Tracks l.store tail ∧ (l.store.loadTail = some tail → pins = l.store.pins) ∧
      (l.store.loadTail = some tail → ∃ o ∈ l.store.attached, o.record = record) ∧
      (record.state = .deleting → record ∈ l.condemned)
  | .collectMark tail record => Markable l.store tail record ∧
    (l.store.loadTail = some tail → Uncovered l.store now record)
  | .collectRelease record | .collectReload record => record ∈ l.condemned
  | .collectDelete record current => record ∈ l.condemned ∧ Tracks l.store current
  | _ => True

/-- Nothing that other tasks do takes away what a task knows. -/
theorem Task.Ok.evolve {task : Task} {now' : ℕ} (h : task.Ok l now) (hst : ChainOk l.store)
    (he : Evolves l l') (hnow : now ≤ now') : task.Ok l' now' := by
  have htracks : ∀ {t}, Tracks l.store t → Tracks l'.store t := fun ht => ht.moved hst he.moved
  have hprep : ∀ {q}, Prepared l.store q → Prepared l'.store q := fun hp => hp.moved hst he.moved
  have hpins : ∀ {t pins}, Tracks l.store t → (l.store.loadTail = some t → pins = l.store.pins) →
      l'.store.loadTail = some t → pins = l'.store.pins := by
    intro t pins ht hp hcur
    obtain ⟨hold, -, heq, -⟩ := he.current ht hcur
    exact (hp hold).trans heq.symm
  have hrow : ∀ {t r}, Tracks l.store t →
      (l.store.loadTail = some t → ∃ o ∈ l.store.attached, o.record = r) →
      l'.store.loadTail = some t → ∃ o ∈ l'.store.attached, o.record = r := by
    intro t r ht hr hcur
    obtain ⟨hold, heq, -⟩ := he.current ht hcur
    exact heq ▸ hr hold
  cases task with
  | publish => exact hprep h
  | publishSend | publishCandidate => exact ⟨hprep h.1, h.2.moved hst he.moved⟩
  | publishResolve => exact ⟨hprep h.1, h.2⟩
  | published q result =>
    cases result with
    | error e => exact hprep h
    | ok sn => exact h.imp fun q' hq' => ⟨he.committed hq'.1, hq'.2⟩
  | reserveSend => exact h
  | registerRead | registerSend => exact ⟨h.1, htracks h.2⟩
  | removeRead | removeSend | collectPins => exact htracks h
  | collectPrune | collectScan | collectGet => exact ⟨htracks h.1, hpins h.1 h.2⟩
  | collectPruneSend tail expired =>
    refine ⟨htracks h.1, fun hcur p hp hid => ?_⟩
    obtain ⟨hold, -, heq, -⟩ := he.current h.1 hcur
    exact (h.2 hold p (heq ▸ hp) hid).trans hnow
  | collectCheck retained tail pins keys record =>
    exact ⟨htracks h.1, hpins h.1 h.2.1, hrow h.1 h.2.2.1,
      fun hstate => he.condemned (h.2.2.2 hstate)⟩
  | collectMark tail record =>
    obtain ⟨hm, hu⟩ := h
    refine ⟨⟨htracks hm.tracks, hm.state, hm.chunkId, hm.trimmed, hrow hm.tracks hm.row⟩,
      fun hcur p hp hcovers => ?_⟩
    obtain ⟨hold, -, heq, -⟩ := he.current hm.tracks hcur
    exact (hu hold p (heq ▸ hp) hcovers).trans hnow
  | collectRelease | collectReload => exact he.condemned h
  | collectDelete => exact ⟨he.condemned h.1, htracks h.2⟩
  | _ => trivial

/-! ## Steps of tasks -/

/-- What a step of a task leaves behind. Only the release of a condemned record releases a chunk. -/
structure Ran (l : Ledger) (now : ℕ) (task : Task) (next : Ledger × Task) : Prop where
  change : Change l task.request next.1
  handed : Handed l next.1
  ok : next.2.Ok next.1 now
  request : next.2.request = none ∨ next.2.request = task.request
  released : next.1.released = l.released ∨
    ∃ r ∈ l.condemned, next.1.released = r.chunkId :: l.released
  spares : Spares l now next.1

variable {record : StreamChunkRecord} {previous : Option Snapshot}

section Run
variable {task : Task} {input : Input}

variable {task' : Task}

/-- The step only reads, and may hand out what it has read. -/
theorem Ran.hands (h : Core l) (hstore : l'.store = l.store)
    (hcommitted : l'.committed = l.committed) (hcondemned : l'.condemned = l.condemned)
    (hreleased : l'.released = l.released) (hh : Handed l l') (hok : task'.Ok l' now)
    (hrequest : task'.request = none ∨ task'.request = task.request) :
    Ran l now task (l', task') :=
  ⟨(Change.refl h _).congr hstore hcommitted hcondemned, hh, hok, hrequest, .inl hreleased,
    .of_eq (by rw [hstore]) hcondemned⟩

lemma Ran.reads (h : Core l) (hok : task'.Ok l now)
    (hrequest : task'.request = none ∨ task'.request = task.request) :
    Ran l now task (l, task') :=
  .hands h rfl rfl rfl rfl (.of_eq rfl rfl) hok hrequest

lemma Ran.finished (h : Core l) : Ran l now task (l, .finished) := .reads h trivial (.inl rfl)

/-- The tail is read first. -/
theorem Ran.loads (h : Core l) {f : Snapshot → Task} (hreq : ∀ t, (f t).request = none)
    (hf : ∀ t, Tracks l.store t → (f t).Ok l now) :
    Ran l now task (l, l.store.loadTail.elim .finished f) := by
  cases ht : l.store.loadTail with
  | none => exact .finished h
  | some t => exact .reads h (hf t (h.chain.tracks ht)) (.inl (hreq t))

/-- A batch that leaves pins and history alone. -/
theorem Ran.sent (hc : Change l task.request { l with store := st })
    (hpins : st.pins = l.store.pins) (hok : task'.Ok { l with store := st } now)
    (hrequest : task'.request = none ∨ task'.request = task.request) :
    Ran l now task ({ l with store := st }, task') :=
  ⟨hc, .of_eq rfl rfl, hok, hrequest, .inl rfl, .of_eq hpins rfl⟩

lemma nextAttempt_ok (attempt : ℕ) (hp : Prepared l.store q) (hg : Guards l.store q revision) :
    (nextAttempt q revision attempt).Ok l now := by
  rw [nextAttempt]
  split
  · exact ⟨hp, hg⟩
  · exact hp

lemma nextAttempt_request (q : PublishRequest) (revision attempt : ℕ) :
    (nextAttempt q revision attempt).request = some q := by
  rw [nextAttempt]
  split <;> rfl

section
variable (h : Core l)
include h

/-- The publication finds its record as the tail. -/
theorem Ran.found {current : Snapshot} (hreq : task.request = some q)
    (hcur : l.store.loadTail = some current) (heq : current.record = q.tail) :
    Ran l now task
      ({ l with snapshots := current :: l.snapshots }, .published q (.ok current)) := by
  obtain ⟨q', hq', htail⟩ := h.tail current hcur
  exact .hands h rfl rfl rfl rfl (.capture hcur rfl rfl) ⟨q', hq', htail.trans heq⟩
    (.inr hreq.symm)

lemma Core.runPublish (hp : Prepared l.store q) : Ran l now (.publish q) (l.runPublish q) := by
  rw [Ledger.runPublish]
  split
  · exact .reads h hp (.inr rfl)
  · exact .reads h hp (.inr rfl)
  next u guarded hcheck hguard =>
    split
    next current he hcur =>
      split
      next heq => exact .found h rfl hcur heq
      · exact .reads h hp (.inr rfl)
    next hnot =>
      refine .reads h ⟨hp, hcheck, fun e he => ?_, fun hnone => ?_⟩ (.inr rfl)
      · rw [PublishRequest.guarded, he] at hguard
        cases hguard
        exact hp.expected _ he
      · rw [PublishRequest.guarded, hnone] at hguard
        obtain ⟨hpos, hle⟩ := hp.candidate guarded hguard
        refine ⟨hpos, hle, fun _ _ _ _ => ?_⟩
        cases hl : l.store.loadTail with
        | none => exact getLast?_eq_none_iff.mp hl
        | some current => exact absurd hl (hnot current hnone)

lemma Core.runPublishSend {attempt : ℕ} (hp : Prepared l.store q)
    (hg : Guards l.store q revision) :
    Ran l now (.publishSend q revision attempt) (l.runPublishSend q revision attempt reply) := by
  rw [Ledger.runPublishSend]
  split
  · exact .reads h hp (.inr rfl)
  · exact .reads h hp (.inr rfl)
  next ops guarded hq hguard =>
    -- whatever the answer is, the batch was executed or not
    have hwrote : ∀ next answer task',
        l.store.send ops (recordKey guarded.record) revision reply = (next, answer) →
        task'.request = some q →
        (Prepared next q → Guards next q revision → task'.Ok (l.wrote next q) now) →
        Ran l now (.publishSend q revision attempt) (l.wrote next q, task') := by
      intro next answer task' hsend hreq hok
      have heq := l.store.send_eq ops (recordKey guarded.record) revision reply
      rw [hsend] at heq
      rcases heq with rfl | hb
      · simp only [wrote] at hok ⊢
        exact .reads h (hok hp hg) (.inr hreq)
      · have hc := (h.publish hp hg hq hguard hb).1
        have hm := (hc.core h (.of_eq rfl rfl)).2.moved
        exact ⟨hc, .of_eq rfl rfl, hok (hp.moved h.chain hm) (hg.moved h.chain hm), .inr hreq,
          .inl rfl, .of_eq (batch_pins hb (q.ops_pinless hq)) rfl⟩
    split
    next next v hsend =>
      obtain ⟨hb, rfl⟩ := Store.send_ok hsend
      obtain ⟨hc, hload, hmem⟩ := h.publish hp hg hq hguard hb
      exact ⟨hc.congr rfl rfl rfl, .capture hload rfl rfl, ⟨q, hmem, rfl⟩, .inr rfl, .inl rfl,
        .of_eq (batch_pins hb (q.ops_pinless hq)) rfl⟩
    next next hsend =>
      exact hwrote next _ _ hsend (nextAttempt_request q revision attempt)
        fun hp' hg' => nextAttempt_ok attempt hp' hg'
    next next hsend => exact hwrote next _ _ hsend rfl fun hp' _ => ⟨hp', hg.check⟩
    next next hsend => exact hwrote next _ _ hsend rfl fun hp' _ => ⟨hp', hg.check⟩
    next next hsend => exact hwrote next _ _ hsend rfl fun hp' _ => hp'

lemma Core.runPublishResolve {attempt : ℕ} (hp : Prepared l.store q) (hcheck : q.check = .ok ()) :
    Ran l now (.publishResolve q attempt) (l.runPublishResolve q attempt) := by
  rw [Ledger.runPublishResolve]
  split
  · exact .reads h hp (.inr rfl)
  next current hcur =>
    split
    next heq => exact .found h rfl hcur heq
    split
    next hany =>
      have hg : Guards l.store q current.revision := by
        refine ⟨hcheck, fun e he => ?_, fun hnone => by rw [hnone] at hany; cases hany⟩
        rw [he] at hany
        have heq : current.record = e.record := by simpa using hany
        rw [← heq]
        exact h.chain.tracks hcur
      split
      · exact .reads h (nextAttempt_ok attempt hp hg) (.inr (nextAttempt_request _ _ _))
      · exact .reads h ⟨hp, hg⟩ (.inr rfl)
    split
    · exact .reads h hp (.inr rfl)
    · exact .reads h hp (.inr rfl)

lemma Core.readCandidate (candidate : StreamChunkRecord) :
    Ran l now task (l.readCandidate candidate, .finished) := by
  rw [Ledger.readCandidate]
  split
  · exact .finished h
  next found hfound =>
    split
    next heq =>
      refine .hands h rfl rfl rfl rfl ⟨fun _ => .inl, fun sn hsn => ?_⟩ trivial (.inl rfl)
      rcases mem_cons.mp hsn with rfl | hold
      · cases hk : recordKey candidate with
        | attached start =>
          rw [hk] at hfound
          exact .inr (h.chain.rows sn (mem_of_find?_eq_some hfound)).2
        | candidate sequence =>
          rw [hk] at hfound
          exact .inr (h.chain.reserved sn (mem_of_find?_eq_some hfound)).2
      · exact .inl hold
    · exact .finished h

lemma Core.runReserve : Ran l now task (l, l.runReserve candidate previous) := by
  simp only [Ledger.runReserve]
  split
  · exact .finished h
  next hvalid =>
    split
    · exact .finished h
    split
    · exact .finished h
    · exact .reads h (not_not.mp fun hstate => hvalid (.inr (.inl hstate))) (.inl rfl)

lemma Core.runReserveSend (hstate : candidate.state = .candidate) :
    Ran l now task (l.runReserveSend candidate previous reply) := by
  have hc := h.sendReserve hstate (recordKey candidate) (previous.elim 0 Snapshot.revision) reply
    task.request
  have hpins : (l.store.send [.put candidate] (recordKey candidate)
      (previous.elim 0 Snapshot.revision) reply).1.pins = l.store.pins := by
    rcases l.store.send_eq [.put candidate] (recordKey candidate)
      (previous.elim 0 Snapshot.revision) reply with heq | hb
    · rw [heq]
    · exact batch_pins hb (by simp [pinless])
  rw [Ledger.runReserveSend]
  split
  all_goals
    next hsend =>
      rw [hsend] at hc hpins
      exact .sent hc hpins trivial (.inl rfl)

lemma Core.runRegister : Ran l now task (l, l.runRegister candidate) := by
  rw [Ledger.runRegister]
  split
  · exact .finished h
  next hvalid =>
    split
    · exact .finished h
    next tail htail =>
      split
      · exact .finished h
      · exact .reads h ⟨not_not.mp fun hne => hvalid (.inl hne), h.chain.tracks htail⟩ (.inl rfl)

end

variable {tail : Snapshot}

lemma Core.runCollectCheck {retained : ℕ} {pins : List PinRecord} {keys : List ℕ} (h : Core l)
    (hshows : shows now wall = true)
    (hok : (Task.collectCheck retained tail pins keys record).Ok l now) :
    Ran l now task (l, runCollectCheck retained tail pins keys record wall) := by
  obtain ⟨ht, hpins, hrow, hdeleting⟩ := hok
  rw [Ledger.runCollectCheck]
  split
  · exact .reads h ⟨ht, hpins⟩ (.inl rfl)
  next hcollect =>
    split
    · exact .reads h ⟨ht, hpins⟩ (.inl rfl)
    next hany =>
      split
      next hstate => exact .reads h (hdeleting hstate) (.inl rfl)
      next hstate =>
        simp only [collectable, Bool.not_eq_true', Bool.not_eq_false, Bool.and_eq_true,
          bne_iff_ne, decide_eq_true_eq, Bool.or_eq_true, beq_iff_eq] at hcollect
        obtain ⟨⟨⟨hchunk, htrim⟩, -⟩, hkind⟩ := hcollect
        refine .reads h ⟨⟨ht, hkind.resolve_right hstate, hchunk, htrim, hrow⟩,
          fun hcur p hp hcovers => ?_⟩ (.inl rfl)
        -- a pin that covers the record has not stopped the collector, so that it is over
        rw [← hpins hcur] at hp
        by_contra hlt
        refine hany (any_eq_true.mpr ⟨p, hp, ?_⟩)
        simp only [Bool.and_eq_true]
        refine ⟨?_, hcovers⟩
        by_contra hexp
        exact hlt (le_of_expiredBy hshows (by simpa using hexp))

lemma Core.runCollectMark (h : Core l) (hok : (Task.collectMark tail record).Ok l now) :
    Ran l now task (l.runCollectMark tail record reply) := by
  obtain ⟨hc, hs⟩ := h.sendMark hok.1 hok.2 reply task.request
  rw [Ledger.runCollectMark]
  split
  next next v hsend =>
    rw [hsend] at hc hs
    refine ⟨hc, .of_eq rfl rfl, ?_, .inl rfl, .inl rfl, hs⟩
    simp only [condemns, if_neg (h.revision_of_ok hsend)]
    exact mem_cons_self
  next next answer _ hsend =>
    rw [hsend] at hc hs
    exact ⟨hc, .of_eq rfl rfl, trivial, .inl rfl, .inl rfl, hs⟩

lemma plain_deletePins (pins : List PinRecord) :
    ∀ op ∈ pins.map fun p => deletePin p.id, op.plain = true := by
  simp [plain]

lemma Core.runCollectPruneSend {expired : List PinRecord} (h : Core l)
    (hok : (Task.collectPruneSend tail expired).Ok l now) (reply : Reply) :
    Ran l now task ({ l with
      store := (l.store.sendFenced tail (expired.map fun p => deletePin p.id) reply).1 },
      .finished) := by
  refine ⟨h.sendPlain hok.1 (plain_deletePins expired) reply _, .of_eq rfl rfl, trivial, .inl rfl,
    .inl rfl, ?_⟩
  rcases sendFenced_eq l.store tail (expired.map fun p => deletePin p.id) reply with heq | hb
  · rw [heq]
    exact .of_eq rfl rfl
  · have hload := hok.1.loadTail (batch_eq_some hb).1
    have hpins : ∀ p, p ∈ (l.store.sendFenced tail
        (expired.map fun p => deletePin p.id) reply).1.pins ↔
        p ∈ l.store.pins ∧ p.id ∉ expired.map PinRecord.id := by
      intro p
      rw [fenced_pins hb]
      exact mem_pins_deleted
    refine ⟨fun p hp => ((hpins p).mp hp).1, fun p hp => ?_, fun r => .inl⟩
    by_cases hid : p.id ∈ expired.map PinRecord.id
    · exact .inr (hok.2 hload p hp hid)
    · exact .inl ((hpins p).mpr ⟨hp, hid⟩)

/-- Every step of a task. -/
theorem Core.runTask {next : Ledger × Task} (h : Core l) (hok : task.Ok l now)
    (hrun : l.runTask now input task = some next) : Ran l now task next := by
  cases task <;> try cases hrun
  case publish q => exact h.runPublish hok
  case publishSend q revision attempt =>
    exact h.runPublishSend hok.1 hok.2
  case publishResolve q attempt => exact h.runPublishResolve hok.1 hok.2
  case publishCandidate q revision attempt =>
    simp only [runPublishCandidate]
    split
    · exact .reads h (nextAttempt_ok attempt hok.1 hok.2) (.inr (nextAttempt_request _ _ _))
    · exact .reads h hok.1 (.inr rfl)
  case reserve candidate previous => exact h.runReserve
  case reserveSend candidate previous =>
    exact h.runReserveSend hok
  case reserveRead candidate => exact h.readCandidate candidate
  case register candidate =>
    exact h.runRegister
  case registerRead candidate tail =>
    rw [runRegisterRead]
    split
    · exact .reads h hok (.inl rfl)
    · exact h.readCandidate candidate
  case registerSend candidate tail =>
    have hplain : ∀ op ∈ [put candidate], op.plain = true := by simp [plain, hok.1]
    have hpinless : ∀ op ∈ [put candidate], op.pinless = true := by simp [pinless]
    have hc := h.sendPlain hok.2 hplain input.reply none
    have hpins := sendFenced_pins l.store tail input.reply hpinless
    simp only [runTask] at hrun
    split at hrun
    all_goals
      next hsend =>
        cases hrun
        rw [hsend] at hc hpins
        exact .sent hc hpins trivial (.inl rfl)
  case registered candidate => exact h.readCandidate candidate
  case remove sequence chunk =>
    exact .loads h (fun _ => rfl) fun t ht => ht
  case removeRead sequence chunk tail =>
    simp only [runRemoveRead]
    split
    · exact .finished h
    split
    · exact .finished h
    · exact .reads h hok (.inl rfl)
  case removeSend sequence chunk tail =>
    exact .sent (h.sendPlain hok (by simp [plain]) _ _)
      (sendFenced_pins _ _ _ (by simp [pinless])) trivial (.inl rfl)
  case collect q => exact .loads h (fun _ => rfl) fun t ht => ht
  case collectPins q tail =>
    exact .reads h ⟨hok, fun _ => rfl⟩ (.inl rfl)
  case collectPrune q tail pins =>
    obtain ⟨hshows, heq⟩ := Option.ite_none_right_eq_some.mp hrun
    cases heq
    simp only [runCollectPrune]
    split
    · exact .reads h hok (.inl rfl)
    · refine .reads h ⟨hok.1, fun hcur => ?_⟩ (.inl rfl)
      rw [hok.2 hcur]
      exact over_expiredPins h.chain.pins hshows
  case collectPruneSend tail expired => exact h.runCollectPruneSend hok _
  case collectScan q tail pins =>
    exact .reads h hok (.inl rfl)
  case collectGet retained tail pins keys =>
    cases keys with
    | nil => exact .finished h
    | cons key keys =>
      simp only [runCollectGet]
      split
      · exact .finished h
      next found hfound =>
        have hmem := mem_of_find?_eq_some hfound
        exact .reads h ⟨hok.1, hok.2, fun _ => ⟨found, hmem, rfl⟩, h.deleting found hmem⟩ (.inl rfl)
  case collectCheck retained tail pins keys record =>
    obtain ⟨hshows, heq⟩ := Option.ite_none_right_eq_some.mp hrun
    cases heq
    exact h.runCollectCheck hshows hok
  case collectMark tail record => exact h.runCollectMark hok
  case collectRelease record =>
    exact ⟨(Change.refl h _).congr rfl rfl rfl, .of_eq rfl rfl, hok, .inl rfl,
      .inr ⟨record, hok, rfl⟩, .of_eq rfl rfl⟩
  case collectReload record => exact .loads h (fun _ => rfl) fun t ht => ⟨hok, ht⟩
  case collectDelete record current =>
    exact .sent (h.sendDelete hok.2 hok.1 _ _) (sendFenced_pins _ _ _ (by simp [pinless]))
      trivial (.inl rfl)

end Run

end CrowDB.ChunkStream
