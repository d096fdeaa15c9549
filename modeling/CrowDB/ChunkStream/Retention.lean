import CrowDB.ChunkStream.Lineage

/-!
# Collection and reads

A chunk is released for a record that is trimmed, in front of the tail and without a pin over it.
A read is protected by the pin of its view: the pin covers the record that the read has located,
or names the chunk to which the view was appended.

Both need care. A worker that could not open a view for a new chunk goes on with the old one, and
its appends are in a chunk that the pin of this view does not name. And a pin may be registered
that names a chunk which is marked already, when nothing of the chunk is left above the trim
offset.
-/
namespace CrowDB.ChunkStream
open Lib List Option

variable {s s' : StreamState} {a : Action} {v w : ReadView} {i : ℕ}

def PinPhase.registers : PinPhase → Bool
  | .send _ _ => true
  | _ => false

/-- The chunk that a pin names as active is not marked when the pin is written. -/
def StreamState.Unmarked (s : StreamState) (v : ReadView) : Prop :=
  v.phase.registers = true → ∀ r ∈ s.condemned, v.pin.active ≠ some r.chunkId

/-- Appends go to the chunk that the pin of the view names, and a pin is written only while the
chunk that it names is not marked. -/
def StreamState.careful (s : StreamState) : Action → Bool
  | .append worker _ => (s.workers[worker]?).all fun w => (s.views[w.view]?).all fun v =>
    v.pin.active == some w.snapshot.record.chunkId
  | .lease i _ => (s.views[i]?).all fun v =>
    !v.phase.registers || s.condemned.all fun r => v.pin.active != some r.chunkId
  | _ => true

def Careful (s : StreamState) (a : Action) : Prop := s.careful a = true

lemma Careful.unmarked {input : Input} (h : Careful s (.lease i input))
    (hv : s.views[i]? = some v) : s.Unmarked v := by
  intro hregisters r hr
  simp only [Careful, StreamState.careful, hv, all_some, hregisters, Bool.not_true,
    Bool.false_or, List.all_eq_true, bne_iff_ne] at h
  exact h r hr

lemma Careful.append {worker length : ℕ} {w : Worker} (h : Careful s (.append worker length))
    (hw : s.workers[worker]? = some w) (hv : s.views[w.view]? = some v) :
    v.pin.active = some w.snapshot.record.chunkId := by
  simpa [Careful, StreamState.careful, hw, hv] using h

/-! ## Leases over whole runs -/

structure LeaseInv (s : StreamState) : Prop where
  released : ∀ c ∈ s.released, ∃ r ∈ s.condemned, r.chunkId = c
  quiet : ∀ r ∈ s.condemned, Uncovered s.store s.now r
  views : ∀ (i : ℕ) (v : ReadView), s.views[i]? = some v → v.Leased s i

lemma LeaseInv.init : LeaseInv {} := by
  refine ⟨?_, ?_, ?_⟩ <;> simp

/-- A pin in front of the trim offset does not cover a condemned record. -/
theorem Core.clear_of_trim {t : Snapshot} {p : PinRecord} (h : Core s.toLedger)
    (ht : s.store.loadTail = some t) (htrim : t.record.trimOffset ≤ p.start)
    (hactive : ∀ r ∈ s.condemned, p.active ≠ some r.chunkId) : s.Clear p := by
  intro r hr
  obtain ⟨t', ht', hstop, -⟩ := (h.condemned r hr).below
  cases ht.symm.trans ht'
  have hne : (p.active == some r.chunkId) = false := beq_false_of_ne (hactive r hr)
  have hlt : decide (p.start < r.stop) = false := decide_eq_false (not_lt.mpr (hstop.trans htrim))
  rw [PinRecord.covers, hne, hlt]
  rfl

variable {r : StreamChunkRecord}

/-- No pin comes in over a condemned record. -/
theorem PinChange.quiet {next : Store} (h : PinChange s.store v next) (hcore : Core s.toLedger)
    (hinv : LeaseInv s) (hv : v.Leased s i) (hmark : s.Unmarked v) (hr : r ∈ s.condemned) :
    Uncovered next s.now r := by
  intro p hp hcovers
  have hknows := hv.knows
  cases h with
  | still same => exact hinv.quiet r hr p (same ▸ hp) hcovers
  | registered current expired phase old pins =>
    simp only [ReadView.Knows, phase] at hknows
    rcases (pins p).mp hp with rfl | ⟨⟨hold, -⟩, -⟩
    · have hclear := hcore.clear_of_trim old hknows.2.2.1 (hmark (by rw [phase]; rfl))
      cases (hclear r hr).symm.trans hcovers
    · exact hinv.quiet r hr p hold hcovers
  | renewed tail pin phase old pins =>
    simp only [ReadView.Knows, phase] at hknows
    rcases (pins p).mp hp with rfl | ⟨hold, -⟩
    · cases (hknows.2.2 old r hr).symm.trans hcovers
    · exact hinv.quiet r hr p hold hcovers
  | released tail phase pins => exact hinv.quiet r hr p ((pins p).mp hp).1 hcovers

lemma LeaseInv.run {task : Task} {next : Ledger × Task} (h : LeaseInv s) (hinv : StreamInv s)
    (hran : Ran s.toLedger s.now task next) (he : Evolves s.toLedger next.1) (tasks : List Task) :
    LeaseInv { s with toLedger := next.1, tasks := tasks } := by
  have hold : ∀ c ∈ s.released, ∃ r ∈ next.1.condemned, r.chunkId = c := fun c hc =>
    (h.released c hc).imp fun r hr => ⟨he.condemned hr.1, hr.2⟩
  refine ⟨fun c hc => ?_, fun r hr p hp hcovers => ?_, fun j v hv => ?_⟩
  · have hc' : c ∈ next.1.released := hc
    rcases hran.released with hsame | ⟨r, hr, hnew⟩
    · exact hold c (hsame ▸ hc')
    · rw [hnew] at hc'
      rcases mem_cons.mp hc' with rfl | hc'
      · exact ⟨r, he.condemned hr, rfl⟩
      · exact hold c hc'
  · have hp' := hran.spares.pins p hp
    exact (hran.spares.condemned r hr).elim (fun hr => h.quiet r hr p hp' hcovers)
      fun hunc => hunc p hp' hcovers
  · exact (h.views j v hv).evolve (hinv.views v (mem_of_getElem? hv)) he le_rfl
      fun p hp _ => hran.spares.keeps p hp

lemma LeaseInv.lease {next : Store × ReadView} (h : LeaseInv s) (hinv : StreamInv s)
    (hv : s.views[i]? = some v) (hmark : s.Unmarked v) (hran : PinRan s i v next)
    (he : Evolves s.toLedger { s.toLedger with store := next.1 }) :
    LeaseInv { s with store := next.1, views := s.views.set i next.2 } := by
  have hok := hinv.views v (mem_of_getElem? hv)
  have hleased := h.views i v hv
  refine ⟨h.released, fun r => hran.pins.quiet hinv.toCore h hleased hmark, fun j u hu => ?_⟩
  by_cases hji : j = i
  · subst hji
    rw [getElem?_set_self (List.getElem?_eq_some_iff.mp hv).1] at hu
    cases hu
    exact hran.leased h.quiet hleased _
  · rw [getElem?_set_ne (Ne.symm hji)] at hu
    exact (h.views j u hu).evolve (hinv.views u (mem_of_getElem? hu)) he le_rfl
      (hran.pins.keeps hok hleased hji)

/-- A view that is left alone knows what it knew. -/
theorem ViewKeeps.knows (h : ViewKeeps s a i v w) (hv : v.Knows s) : w.Knows s := by
  have hdropped : v.dropped = true → w.dropped = true := fun hd =>
    h.dropped.elim (fun hsame => hsame.trans hd) fun hnew => hnew.1
  rcases h.phase with hsame | ⟨hload, hd⟩
  · simp only [ReadView.Knows, hsame, h.pin, h.started, h.deadline] at hv ⊢
    split at hv
    case h_10 =>
      exact fun hd => hv (by_contra fun hne => by simp [hdropped (by simpa using hne)] at hd)
    case h_11 | h_12 | h_13 => exact hdropped hv
    all_goals exact hv
  · simp only [ReadView.Knows, hload]
    exact hdropped hd

lemma ViewKeeps.leased (h : ViewKeeps s a i v w) (hv : v.Leased s i) : w.Leased s i := by
  refine ⟨h.pin ▸ hv.id, h.pin ▸ h.captured ▸ hv.start, h.pin ▸ h.captured ▸ hv.stop,
    h.started ▸ hv.started, h.deadline ▸ hv.deadline, fun hd => ?_, h.knows hv.knows⟩
  rw [h.pin, h.deadline]
  refine hv.lease ?_
  rcases h.dropped with hsame | ⟨htrue, -⟩
  · exact hsame ▸ hd
  · cases htrue.symm.trans hd

/-- A pin is drawn. -/
theorem leased_pinOf {record : StreamChunkRecord} {wall : ℕ} (h : shows s.now wall = true) :
    ({ captured := record, pin := pinOf record i wall, started := s.now,
       stop := record.stop } : ReadView).Leased s i := by
  simp only [shows, Bool.and_eq_true, decide_eq_true_eq] at h
  exact ⟨rfl, rfl, rfl, le_rfl, Nat.zero_le _, fun _ hlt => absurd hlt (Nat.not_lt_zero _), rfl,
    leaseEnd_le h.1⟩

lemma LeaseInv.aside (h : LeaseInv s) (hinv : StreamInv s) (ha : Aside s a s')
    (he : Evolves s.toLedger s'.toLedger) : LeaseInv s' := by
  refine ⟨?_, fun r hr p hp hcovers => ?_, fun j w hw => ?_⟩
  · rw [ha.released, ha.condemned]
    exact h.released
  · exact (h.quiet r (ha.condemned ▸ hr) p (ha.store ▸ hp) hcovers).trans ha.now
  · have hkeep : KeepsPin s s' j := fun p hp _ => .inl (ha.store ▸ hp)
    rcases ha.views j w hw with ⟨v, hv, hkeeps⟩ | ⟨record, wall, -, hshows, rfl⟩
    · exact (hkeeps.leased (h.views j v hv)).evolve
        (hkeeps.ok (hinv.views v (mem_of_getElem? hv))) he ha.now hkeep
    · exact (leased_pinOf hshows).evolve trivial he ha.now hkeep

lemma LeaseInv.step (h : LeaseInv s) (hinv : StreamInv s) (hcare : Careful s a)
    (hstep : streamSystem.step s a = some s') : LeaseInv s' := by
  obtain ⟨-, he⟩ := hinv.step hstep
  rcases hinv.cases hstep with ⟨i, input, task, next, rfl, htask, hran, rfl⟩ |
    ⟨i, input, v, next, rfl, hv, hran, rfl⟩ | haside
  · exact h.run hinv hran he _
  · exact h.lease hinv hv (hcare.unmarked hv) hran he
  · exact h.aside hinv haside he

lemma LeaseInv.reach (h : streamSystem.Reach Careful s) : LeaseInv s := by
  refine h.invariant_of (fun s => .reach) (fun s hinit => ?_)
    fun s a s' hinv _ hlease hcare => hlease.step hinv hcare
  cases hinit
  exact .init

/-! ## Records that a reader has seen -/

/-- The record is one of a known chunk, and the records of this chunk go on with it. -/
def Ledger.Lineal (l : Ledger) (r : StreamChunkRecord) : Prop :=
  l.Knows r.chunkId ∧ ∀ x ∈ l.records, x.chunkId = r.chunkId → Continues r x

variable {y x : StreamChunkRecord}

lemma Continues.trans {z : StreamChunkRecord} (h : Continues x y) (h' : Continues y z) :
    Continues x z :=
  ⟨h'.chunkId.trans h.chunkId, h'.start.trans h.start, h.stop.trans h'.stop⟩

/-- What the records of a known chunk go on with. -/
theorem Grows.origin {l l' : Ledger} (h : Grows l l') (hknows : l.Knows y.chunkId)
    (hy : y ∈ l'.records) : ∃ x ∈ l.records, Continues x y := by
  obtain ⟨fresh, hfresh, hrec⟩ := h.records
  rcases hrec y hy with hf | hx
  · exact absurd hknows (hfresh y hf).1
  · exact hx

lemma Ledger.Lineal.grows {l l' : Ledger} (h : l.Lineal r) (hg : Grows l l') : l'.Lineal r := by
  refine ⟨h.1.mono hg.committed, fun y hy heq => ?_⟩
  obtain ⟨x, hx, hc⟩ := hg.origin (heq ▸ h.1) hy
  exact (h.2 x hx (hc.chunkId.symm.trans heq)).trans hc

/-- An attached record is the only one of its chunk. -/
theorem Core.lineal {l : Ledger} {sn : Snapshot} (h : Core l) (hd : Distinct l)
    (hsn : sn ∈ l.store.attached) : l.Lineal sn.record := by
  have hmem : sn.record ∈ l.records := mem_records.mpr (.inl ⟨sn, hsn, rfl⟩)
  refine ⟨hd.known _ hmem, fun x hx heq => ?_⟩
  have hstart := hd.same x hx _ hmem heq
  rcases mem_records.mp hx with ⟨sn', hsn', rfl⟩ | hcond
  · rw [h.chain.sorted.eq_of_key hsn' hsn hstart]
    exact .refl _
  · rw [(h.condemned x hcond).only sn hsn hstart.symm]
    exact .refl _

lemma covers_continues {p : PinRecord} (h : p.covers x = true) (hc : Continues x y) :
    p.covers y = true := by
  simp only [PinRecord.covers, Bool.or_eq_true, Bool.and_eq_true,
    decide_eq_true_eq] at h ⊢
  rw [hc.chunkId, hc.start]
  rcases h with hactive | ⟨hstop, hstart⟩
  · exact .inl hactive
  · exact .inr ⟨hstop.trans_le hc.stop, hstart⟩

/-- The pin of the view protects the chunk. -/
def StreamState.Guarded (s : StreamState) (v : ReadView) (c : ChunkId) : Prop :=
  v.pin.active = some c ∨ s.Knows c ∧ ∀ x ∈ s.records, x.chunkId = c → v.pin.covers x = true

variable {c : ChunkId}

lemma StreamState.Guarded.grows (h : s.Guarded v c) (hg : Grows s.toLedger s'.toLedger)
    (hpin : SamePin w.pin v.pin) : s'.Guarded w c := by
  rcases h with hactive | ⟨hknows, hcovers⟩
  · exact .inl (hpin.active.trans hactive)
  · refine .inr ⟨hknows.mono hg.committed, fun y hy heq => ?_⟩
    obtain ⟨x, hx, hc⟩ := hg.origin (heq ▸ hknows) hy
    rw [hpin.covers]
    exact covers_continues (hcovers x hx (hc.chunkId.symm.trans heq)) hc

lemma StreamState.Guarded.covers (h : s.Guarded v c) (hr : r ∈ s.condemned) (hc : r.chunkId = c) :
    v.pin.covers r = true := by
  rcases h with hactive | ⟨-, hcovers⟩
  · simp [PinRecord.covers, hactive, hc]
  · exact hcovers r (mem_records.mpr (.inr hr)) hc

variable {offset : ℕ}

/-- A record that holds an offset of the view is covered by its pin. -/
theorem guarded_of_lineal (hv : v.Leased s i) (hr : s.Lineal r)
    (hlow : v.captured.trimOffset ≤ offset) (hhigh : offset < v.captured.stop)
    (hstart : r.start ≤ offset) (hstop : offset < r.stop) : s.Guarded v r.chunkId := by
  refine .inr ⟨hr.1, fun x hx heq => ?_⟩
  have hc := hr.2 x hx heq
  have h1 : v.pin.start < x.stop := by
    rw [hv.start]
    exact hlow.trans_lt (hstop.trans_le hc.stop)
  have h2 : x.start < v.pin.stop := by
    rw [hv.stop, hc.start]
    exact hstart.trans_lt hhigh
  simp [PinRecord.covers, h1, h2]

/-! ## Reads -/

structure ReadOk (s : StreamState) (r : ChunkRead) (v : ReadView) : Prop where
  view : s.views[r.view]? = some v
  opened : v.phase.opened = true
  dropped : v.dropped = false
  offset : v.captured.trimOffset ≤ r.offset
  chunk : ∀ c, r.chunkId = some c → s.Guarded v c
  stale : r.stale = some true → v.deadline ≤ s.now

structure ReadInv (s : StreamState) : Prop where
  extents : ∀ v ∈ s.views, ∀ e ∈ v.extents, v.pin.active = some e.chunkId
  cache : ∀ r ∈ s.cache, s.Lineal r
  reads : ∀ r ∈ s.reads, ∃ v, ReadOk s r v
  delivered : ∀ r ∈ s.delivered, r.stale ≠ some true

/-- While the lease of the view runs, no chunk that its pin protects is released. -/
theorem LeaseInv.unreleased (h : LeaseInv s) (hv : v.Leased s i) (hdropped : v.dropped = false)
    (hlt : s.now < v.deadline) (hg : s.Guarded v c) : c ∉ s.released := by
  intro hc
  obtain ⟨r, hr, heq⟩ := h.released c hc
  obtain ⟨p, hp, hsame, hexp⟩ := hv.lease hdropped hlt
  have hcovers : p.covers r = true := (hsame.covers r).trans (hg.covers hr heq)
  exact absurd (hexp.trans (h.quiet r hr p hp hcovers)) (not_le.mpr hlt)

lemma ReadInv.init : ReadInv {} := by
  refine ⟨?_, ?_, ?_, ?_⟩ <;> simp

/-- A step that does not touch the reads. Their views are only followed by their processes. -/
theorem ReadInv.next (h : ReadInv s) (hg : Grows s.toLedger s'.toLedger)
    (hreads : s'.reads = s.reads ∧ s'.cache = s.cache ∧ s'.delivered = s.delivered)
    (hnow : s.now ≤ s'.now)
    (hextents : ∀ w ∈ s'.views, ∀ e ∈ w.extents, w.pin.active = some e.chunkId)
    (hviews : ∀ r ∈ s.reads, ∀ v, ReadOk s r v →
      ∃ w, s'.views[r.view]? = some w ∧ PinStep s v w) : ReadInv s' := by
  obtain ⟨hreads, hcache, hdelivered⟩ := hreads
  refine ⟨hextents, fun r hr => (h.cache r (hcache ▸ hr)).grows hg, fun r hr => ?_,
    hdelivered ▸ h.delivered⟩
  obtain ⟨v, hok⟩ := h.reads r (hreads ▸ hr)
  obtain ⟨w, hw, hf⟩ := hviews r (hreads ▸ hr) v hok
  obtain ⟨hopened, hdropped, hdeadline⟩ := hf.opened hok.opened
  exact ⟨w, hw, hopened, hdropped.trans hok.dropped, hf.captured ▸ hok.offset,
    fun c hc => (hok.chunk c hc).grows hg hf.pin, fun hs => (hdeadline (hok.stale hs)).trans hnow⟩

lemma ReadInv.lease {next : Store × ReadView} (h : ReadInv s) (hv : s.views[i]? = some v)
    (hg : Grows s.toLedger { s.toLedger with store := next.1 }) (hran : PinRan s i v next) :
    ReadInv { s with store := next.1, views := s.views.set i next.2 } := by
  refine h.next hg ⟨rfl, rfl, rfl⟩ le_rfl (fun u hu e he => ?_) fun r hr u hok => ?_
  · rcases mem_or_eq_of_mem_set hu with hold | rfl
    · exact h.extents u hold e he
    · rw [hran.step.pin.active]
      exact h.extents v (mem_of_getElem? hv) e (hran.extents ▸ he)
  · by_cases heq : r.view = i
    · subst heq
      cases hok.view.symm.trans hv
      exact ⟨next.2, getElem?_set_self (List.getElem?_eq_some_iff.mp hv).1, hran.step⟩
    · exact ⟨u, (getElem?_set_ne (Ne.symm heq)).trans hok.view, .refl s u⟩

/-- A view that is read is not dropped. -/
theorem ViewKeeps.step (h : ViewKeeps s a i v w) (hd : v.dropped = false) {r : ChunkRead}
    (hr : r ∈ s.reads) (hview : r.view = i) : PinStep s v w := by
  refine ⟨h.pin ▸ .refl _, h.captured, fun hopened => ⟨?_, ?_, fun hle => h.deadline ▸ hle⟩⟩
  · rcases h.phase with hsame | ⟨-, hdropped⟩
    · rw [hsame]
      exact hopened
    · cases hdropped.symm.trans hd
  · exact h.dropped.elim (fun hsame => hsame) fun hnew => absurd hview (hnew.2 r hr)

lemma ReadInv.aside (h : ReadInv s) (hg : Grows s.toLedger s'.toLedger) (ha : Aside s a s')
    (hcare : Careful s a) (hreading : a.reading = false) : ReadInv s' := by
  refine h.next hg (ha.reads hreading) ha.now (fun w hw e he => ?_) fun r hr v hok => ?_
  · obtain ⟨j, hj⟩ := getElem?_of_mem hw
    rcases ha.views j w hj with ⟨v, hv, hkeeps⟩ | ⟨record, wall, -, -, rfl⟩
    · rw [hkeeps.pin]
      rcases hkeeps.extents e he with hold | ⟨worker, length, wk, rfl, hwk, hview, hc⟩
      · exact h.extents v (mem_of_getElem? hv) e hold
      · exact hc ▸ hcare.append hwk hview
    · cases he
  · have hlt : r.view < s'.views.length :=
      (List.getElem?_eq_some_iff.mp hok.view).1.trans_le ha.length
    refine ⟨_, getElem?_eq_getElem hlt, ?_⟩
    rcases ha.views r.view _ (getElem?_eq_getElem hlt) with
      ⟨v', hv', hkeeps⟩ | ⟨record, wall, hnone, -⟩
    · cases hv'.symm.trans hok.view
      exact hkeeps.step hok.dropped hr rfl
    · exact absurd (hok.view.symm.trans hnone) (some_ne_none _)

variable {cache : List StreamChunkRecord}

/-- What is known of a read does not depend on the other reads. -/
theorem ReadOk.congr {r : ChunkRead} {reads delivered : List ChunkRead} (h : ∃ v, ReadOk s r v) :
    ∃ v, ReadOk { s with reads := reads, cache := cache, delivered := delivered } r v :=
  h.imp fun _ hok => { hok with }

/-- One read goes on. -/
theorem ReadInv.setRead {j : ℕ} {r' : ChunkRead} (h : ReadInv s) (hcache : ∀ r ∈ cache, s.Lineal r)
    (hr' : ∃ v, ReadOk s r' v) : ReadInv { s with reads := s.reads.set j r', cache := cache } := by
  exact ⟨h.extents, hcache, fun r hr => ReadOk.congr (forall_mem_set h.reads hr' r hr), h.delivered⟩

/-- The record that a read finds in the store is attached and holds the offset. -/
theorem locate_eq_some (h : s.locate offset = some r) :
    ∃ sn ∈ s.store.attached, sn.record = r ∧ r.start ≤ offset ∧ offset < r.stop := by
  obtain ⟨sn, hsn, heq⟩ := bind_eq_some_iff.mp h
  obtain ⟨⟨hstop, -⟩, heq⟩ := ite_none_right_eq_some.mp heq
  cases heq
  obtain ⟨hmem, hstart⟩ := mem_filter.mp (mem_of_getLast? hsn)
  exact ⟨sn, hmem, rfl, of_decide_eq_true hstart, hstop⟩

/-- The chunk that a read goes to is protected by the pin of its view. -/
theorem ReadInv.target {hit : Option StreamChunkRecord}
    {target : ChunkId × Option StreamChunkRecord} (h : ReadInv s) (hcore : Core s.toLedger)
    (hd : Distinct s.toLedger) (hmem : v ∈ s.views) (hv : v.Leased s i)
    (hlow : v.captured.trimOffset ≤ offset) (ht : s.readTarget v offset hit = some target) :
    s.Guarded v target.1 ∧ ∀ r ∈ target.2.toList, s.Lineal r := by
  unfold StreamState.readTarget at ht
  split at ht
  · obtain ⟨chunk, hchunk, rfl⟩ := map_eq_some_iff.mp ht
    obtain ⟨e, he, rfl⟩ := map_eq_some_iff.mp hchunk
    exact ⟨.inl (h.extents v hmem e (mem_of_find?_eq_some he)), by simp⟩
  next hhigh =>
    rw [not_le] at hhigh
    split at ht
    next record =>
      obtain ⟨⟨hcache, hstart, hstop⟩, heq⟩ := ite_none_right_eq_some.mp ht
      cases heq
      exact ⟨guarded_of_lineal hv (h.cache record hcache) hlow hhigh hstart hstop, by simp⟩
    · obtain ⟨record, hrecord, rfl⟩ := map_eq_some_iff.mp ht
      obtain ⟨sn, hsn, rfl, hstart, hstop⟩ := locate_eq_some hrecord
      have hlineal := hcore.lineal hd hsn
      refine ⟨guarded_of_lineal hv hlineal hlow hhigh hstart hstop, fun r hr => ?_⟩
      have : r = sn.record := by simpa using hr
      exact this ▸ hlineal

lemma ReadInv.stepReading (h : ReadInv s) (hinv : StreamInv s) (hchunk : ChunkInv s)
    (hlease : LeaseInv s) (ha : a.reading = true) (hstep : streamSystem.step s a = some s') :
    ReadInv s' := by
  simp only [streamSystem] at hstep
  cases a <;> simp only [StreamState.step, bind_eq_some_iff, map_eq_some_iff,
    ite_none_right_eq_some, some.injEq] at hstep
  case beginRead view offset =>
    obtain ⟨v, hv, ⟨hdropped, hlt, hlow, -⟩, rfl⟩ := hstep
    refine ⟨h.extents, h.cache, forall_mem_concat ?_ ?_, h.delivered⟩
    · exact fun r hr => ReadOk.congr (h.reads r hr)
    · exact ⟨v, hv, (hlease.views view v hv).opened hlt, hdropped, hlow, by simp, by simp⟩
  case locateRead j hit =>
    obtain ⟨r, hr, v, hv, -, target, htarget, rfl⟩ := hstep
    obtain ⟨u, hok⟩ := h.reads r (mem_of_getElem? hr)
    cases hok.view.symm.trans hv
    obtain ⟨hguard, hlineal⟩ := h.target hinv.toCore hchunk.distinct (mem_of_getElem? hv)
      (hlease.views r.view v hv) hok.offset htarget
    refine h.setRead (fun x hx => ?_) ⟨v, { hok with chunk := fun c hc => ?_ }⟩
    · exact (mem_append.mp hx).elim (hlineal x) (h.cache x)
    · cases hc
      exact hguard
  case checkRead j =>
    obtain ⟨r, hr, v, -, -, rfl⟩ := hstep
    obtain ⟨u, hok⟩ := h.reads r (mem_of_getElem? hr)
    exact h.setRead h.cache ⟨u, { hok with }⟩
  case readChunk j =>
    obtain ⟨r, hr, chunk, hc, -, rfl⟩ := hstep
    obtain ⟨u, hok⟩ := h.reads r (mem_of_getElem? hr)
    refine h.setRead h.cache ⟨u, { hok with stale := fun hstale => ?_ }⟩
    -- a released chunk is read only through a lease that is over
    have hreleased : chunk ∈ s.released := by simpa using hstale
    by_contra hlt
    exact hlease.unreleased (hlease.views r.view u hok.view) hok.dropped (not_le.mp hlt)
      (hok.chunk chunk hc) hreleased
  case endRead j =>
    obtain ⟨r, hr, v, hv, ⟨-, hlt⟩, rfl⟩ := hstep
    refine ⟨h.extents, h.cache, fun x hx => ReadOk.congr (h.reads x (mem_of_mem_eraseIdx hx)),
      fun x hx => ?_⟩
    rcases mem_cons.mp hx with rfl | hold
    · obtain ⟨u, hok⟩ := h.reads x (mem_of_getElem? hr)
      cases hok.view.symm.trans hv
      exact fun hstale => absurd (hok.stale hstale) (not_le.mpr hlt)
    · exact h.delivered x hold
  all_goals cases ha

lemma ReadInv.step (h : ReadInv s) (hinv : StreamInv s) (hchunk : ChunkInv s)
    (hlease : LeaseInv s) (hcare : Careful s a) (hstep : streamSystem.step s a = some s') :
    ReadInv s' := by
  have hg := (hchunk.step hinv hstep).2
  cases hreading : a.reading with
  | true => exact h.stepReading hinv hchunk hlease hreading hstep
  | false =>
    rcases hinv.cases hstep with ⟨i, input, task, next, rfl, htask, hran, rfl⟩ |
      ⟨i, input, v, next, rfl, hv, hran, rfl⟩ | haside
    · exact h.next hg ⟨rfl, rfl, rfl⟩ le_rfl h.extents fun r hr v hok => ⟨v, hok.view, .refl s v⟩
    · exact h.lease hv hg hran
    · exact h.aside hg haside hcare hreading

lemma ReadInv.reach (h : streamSystem.Reach Careful s) : ReadInv s := by
  refine h.invariant_of (I := fun s => StreamInv s ∧ ChunkInv s ∧ LeaseInv s)
    (fun s hs => ⟨.reach hs, .reach hs, .reach hs⟩) (fun s hinit => ?_)
    fun s a s' hinv _ hread hcare => hread.step hinv.1 hinv.2.1 hinv.2.2 hcare
  cases hinit
  exact .init

/-! ## What is released -/

/-- The record is trimmed, its chunk is not that of the tail, and no pin that has not expired
covers its interval or names its chunk. -/
structure Unneeded (s : StreamState) (r : StreamChunkRecord) : Prop where
  trimmed : ∃ t, s.store.loadTail = some t ∧ r.stop ≤ t.record.trimOffset ∧
    r.chunkId ≠ t.record.chunkId
  unpinned : ∀ p ∈ s.store.pins, s.now < p.expires → p.covers r = false

lemma LeaseInv.unneeded (h : LeaseInv s) (hcore : Core s.toLedger) (hd : Distinct s.toLedger)
    (hr : r ∈ s.condemned) : Unneeded s r := by
  obtain ⟨t, ht, hstop, hlt⟩ := (hcore.condemned r hr).below
  refine ⟨⟨t, ht, hstop, fun heq => ?_⟩, fun p hp hexp => ?_⟩
  · have htm := (hcore.chain.loadTail_last ht).1
    have hstart := hd.same r (mem_records.mpr (.inr hr)) t.record
      (mem_records.mpr (.inl ⟨t, htm, rfl⟩)) heq
    exact absurd hstart hlt.ne
  · by_contra hcovers
    exact absurd (h.quiet r hr p hp (by simpa using hcovers)) (not_le.mpr hexp)

/-- Only the release of a condemned record releases a chunk. -/
theorem StreamInv.released_step (h : StreamInv s) (hstep : streamSystem.step s a = some s') :
    s'.released = s.released ∨ ∃ r ∈ s.condemned, s'.released = r.chunkId :: s.released := by
  rcases h.cases hstep with ⟨i, input, task, next, rfl, htask, hran, rfl⟩ |
    ⟨i, input, v, next, rfl, hv, hran, rfl⟩ | haside
  · exact hran.released
  · exact .inl rfl
  · exact .inl haside.released

/-- In every careful run, with any number of owners, collectors and readers: a chunk is released
only for a record of it that was marked and is not needed, also when a collection is taken up
behind the mark; and no read that has passed its checks saw a released chunk. -/
theorem collection_spares_needed_chunks (h : streamSystem.Reach Careful s) :
    (∀ a s', streamSystem.step s a = some s' → s'.released = s.released ∨
      ∃ r ∈ s.condemned, s'.released = r.chunkId :: s.released ∧ Unneeded s r) ∧
    ∀ r ∈ s.delivered, r.stale ≠ some true := by
  have hinv := StreamInv.reach h
  refine ⟨fun a s' hstep => ?_, (ReadInv.reach h).delivered⟩
  rcases hinv.released_step hstep with hsame | ⟨r, hr, hnew⟩
  · exact .inl hsame
  · exact .inr ⟨r, hr, hnew,
      (LeaseInv.reach h).unneeded hinv.toCore (ChunkInv.reach h).distinct hr⟩

open ChunkStream.Action in
/-- A reader of the first chunk goes on behind a collection. -/
def pinnedRead : List Action :=
  pinnedChunk ++ [beginRead 0 5, locateRead 0 none, checkRead 0, readChunk 0, endRead 0]

theorem collection_spares_needed_chunks_pinned :
    ∃ s, streamSystem.Reach Careful s ∧ s.released = [⟨1, 1⟩] ∧ s.delivered.length = 1 ∧
      ∀ r ∈ s.delivered, r.stale ≠ some true := by
  have hinit : streamSystem.init {} := rfl
  have hreach := System.reach_runGuarded (g := StreamState.careful) pinnedRead hinit
  exact ⟨_, hreach, by decide +kernel, by decide +kernel,
    (collection_spares_needed_chunks hreach).2⟩

open ChunkStream.Action in
/-- A worker has its view on the first chunk. No view can be opened for the second one, nor for the
third one that a second rollover puts behind it. The appends to the third chunk are read through
the old view while it is trimmed and collected. -/
def unpinnedAppend : List Action :=
  firstChunk ++ [pin ⟨sampleRecord 0 .active 2 0 0 [10], 3⟩ 0] ++ leases 0 4 ++
  [startWorker ⟨sampleRecord 0 .active 2 0 0 [10], 3⟩ 0, register (sampleCandidate 1)] ++
  runs 3 4 ++
  [publish ⟨some ⟨sampleRecord 0 .active 2 0 0 [10], 3⟩, sampleRecord 1 .active 3 10 0 [],
    some (sampleRecord 0 .sealed 3 0 0 [10]), some ⟨sampleCandidate 1, 5⟩⟩] ++ runs 4 5 ++
  [workerPublished 0 ⟨sampleRecord 1 .active 3 10 0 [], 6⟩, workerViewFailed 0,
    register (sampleCandidate 2)] ++ runs 5 4 ++
  [publish ⟨some ⟨sampleRecord 1 .active 3 10 0 [], 6⟩, sampleRecord 2 .active 4 10 0 [],
    some (sampleRecord 1 .sealed 4 10 0 []), some ⟨sampleCandidate 2, 7⟩⟩] ++ runs 6 5 ++
  [workerPublished 0 ⟨sampleRecord 2 .active 4 10 0 [], 8⟩, workerViewFailed 0, append 0 5,
    beginRead 0 12, locateRead 0 none,
    publish ⟨some ⟨sampleRecord 2 .active 4 10 0 [], 8⟩, sampleRecord 2 .active 5 10 0 [5], none,
      none⟩] ++ runs 7 2 ++
  [register (sampleCandidate 3)] ++ runs 8 4 ++
  [publish ⟨some ⟨sampleRecord 2 .active 5 10 0 [5], 9⟩, sampleRecord 3 .active 6 15 15 [],
    some (sampleRecord 2 .sealed 6 10 15 [5]), some ⟨sampleCandidate 3, 10⟩⟩] ++ runs 9 5 ++
  [collect ⟨100, none, 128⟩] ++ runs 10 12 ++ [checkRead 0, readChunk 0, endRead 0]

open ChunkStream.Action in
/-- All of the first chunk is trimmed, and it is marked when a reader that has captured it before
registers its pin. -/
def lateRegistration : List Action :=
  firstChunk ++
  [publish ⟨some ⟨sampleRecord 0 .active 2 0 0 [10], 3⟩, sampleRecord 0 .active 3 0 10 [10], none,
    none⟩] ++ runs 3 2 ++
  [register (sampleCandidate 1)] ++ runs 4 4 ++
  [publish ⟨some ⟨sampleRecord 0 .active 3 0 10 [10], 4⟩, sampleRecord 1 .active 4 10 10 [],
    some (sampleRecord 0 .sealed 4 0 10 [10]), some ⟨sampleCandidate 1, 5⟩⟩] ++ runs 5 5 ++
  [collect ⟨100, none, 128⟩] ++ runs 6 7 ++
  [pin ⟨sampleRecord 0 .active 3 0 10 [10], 4⟩ 0] ++ leases 0 4

/-- A read that passes all its checks has read a released chunk; and a chunk is released while a
pin that has not expired names it. -/
theorem collection_releases_needed_chunk :
    (∃ s, streamSystem.Reach System.Free s ∧ ∃ r ∈ s.delivered, r.stale = some true) ∧
    ∃ s s', streamSystem.Reach System.Free s ∧ streamSystem.step s (.run 6 {}) = some s' ∧
      s.released = [] ∧ s'.released = [⟨1, 0⟩] ∧
      ∃ p ∈ s.store.pins, s.now < p.expires ∧ p.active = some ⟨1, 0⟩ := by
  have hinit : streamSystem.init {} := rfl
  exact ⟨⟨_, System.reach_run unpinnedAppend hinit, by decide +kernel⟩,
    _, _, System.reach_run lateRegistration hinit, (some_get (by decide +kernel)).symm,
    by decide +kernel, by decide +kernel, by decide +kernel⟩

end CrowDB.ChunkStream
