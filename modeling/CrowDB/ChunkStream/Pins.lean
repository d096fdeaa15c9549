import CrowDB.ChunkStream.Tasks

/-!
# The steps of pins

One process per view registers its pin, renews the lease and releases the pin. While the lease of
a view runs, its pin is in the store and has not expired.
-/
namespace CrowDB.ChunkStream
open Lib

variable {s s' : StreamState} {v : ReadView} {i : ℕ} {next : Store}

lemma leaseEnd_mono {a b : ℕ} (h : a ≤ b) : leaseEnd a ≤ leaseEnd b := by
  unfold leaseEnd
  omega

lemma le_leaseEnd (a : ℕ) : a ≤ leaseEnd a := by
  unfold leaseEnd
  omega

/-- A pin that was written at a time behind the start of the lease outlasts it. -/
theorem leaseEnd_le {started wall : ℕ} (h : started ≤ wall) :
    leaseEnd started ≤ wall + leaseMs := by
  unfold leaseEnd leaseMs
  omega

/-- Pins that differ only in the time. -/
structure SamePin (p q : PinRecord) : Prop where
  id : p.id = q.id
  start : p.start = q.start
  stop : p.stop = q.stop
  active : p.active = q.active

lemma SamePin.refl (p : PinRecord) : SamePin p p := ⟨rfl, rfl, rfl, rfl⟩

variable {p q : PinRecord}

lemma SamePin.symm (h : SamePin p q) : SamePin q p :=
  ⟨h.id.symm, h.start.symm, h.stop.symm, h.active.symm⟩

lemma SamePin.trans {r : PinRecord} (h : SamePin p q) (h' : SamePin q r) : SamePin p r :=
  ⟨h.id.trans h'.id, h.start.trans h'.start, h.stop.trans h'.stop, h.active.trans h'.active⟩

lemma SamePin.covers (h : SamePin p q) (r : StreamChunkRecord) : p.covers r = q.covers r := by
  rw [PinRecord.covers, PinRecord.covers, h.start, h.stop, h.active]

/-! ## What the process of a pin knows -/

/-- The tail that it has read, and the pin that it writes next. -/
def ReadView.Ok (st : Store) (v : ReadView) : Prop :=
  match v.phase with
  | .read tail | .send tail _ | .renewMatch tail | .renewPrepare tail | .releaseSend tail =>
    Tracks st tail
  | .renewSend tail next => Tracks st tail ∧ SamePin next v.pin
  | .renewVerify next | .renewed next => SamePin next v.pin
  | _ => True

lemma ReadView.Ok.moved {st : Store} (h : v.Ok st) (hst : ChainOk st) (hm : Moved st next) :
    v.Ok next := by
  unfold ReadView.Ok at h ⊢
  split at h
  case h_6 => exact ⟨h.1.moved hst hm, h.2⟩
  case h_7 | h_8 => exact h
  case h_9 => trivial
  all_goals exact h.moved hst hm

/-- The store leases the pin at least to the given time. -/
def StreamState.Leases (s : StreamState) (pin : PinRecord) (limit : ℕ) : Prop :=
  ∃ p ∈ s.store.pins, SamePin p pin ∧ limit ≤ p.expires

/-- No condemned record is covered. -/
def StreamState.Clear (s : StreamState) (pin : PinRecord) : Prop :=
  ∀ r ∈ s.condemned, pin.covers r = false

def ReadView.Knows (s : StreamState) (v : ReadView) : Prop :=
  match v.phase with
  | .load | .verify => v.deadline = 0 ∧ leaseEnd v.started ≤ v.pin.expires
  | .read current =>
    v.deadline = 0 ∧ leaseEnd v.started ≤ v.pin.expires ∧ current.record.trimOffset ≤ v.pin.start
  | .send current expired =>
    v.deadline = 0 ∧ leaseEnd v.started ≤ v.pin.expires ∧ current.record.trimOffset ≤ v.pin.start ∧
      (s.store.loadTail = some current → Over s.store s.now expired)
  | .pinned =>
    v.deadline = 0 ∧ (s.now < leaseEnd v.started → s.Leases v.pin (leaseEnd v.started))
  | .failed => v.deadline = 0
  | .renewPrepare tail => s.store.loadTail = some tail → s.Clear v.pin
  | .renewSend tail next => v.deadline ≤ next.expires ∧ leaseEnd v.started ≤ next.expires ∧
    (s.store.loadTail = some tail → s.Clear next)
  | .renewVerify next => leaseEnd v.started ≤ next.expires
  | .renewed _ => v.dropped = false → s.now < leaseEnd v.started →
    s.Leases v.pin (leaseEnd v.started)
  | .releaseLoad | .releaseSend _ | .closed => v.dropped = true
  | .idle | .renewLoad | .renewMatch _ | .lapsed | .ended => True

structure ReadView.Leased (s : StreamState) (i : ℕ) (v : ReadView) : Prop where
  id : v.pin.id = i
  start : v.pin.start = v.captured.trimOffset
  stop : v.pin.stop = v.captured.stop
  started : v.started ≤ s.now
  deadline : v.deadline ≤ leaseEnd s.now
  lease : v.dropped = false → s.now < v.deadline → s.Leases v.pin v.deadline
  knows : v.Knows s

/-- What a step leaves of the pins of one identity. -/
def KeepsPin (s s' : StreamState) (i : ℕ) : Prop :=
  ∀ p ∈ s.store.pins, p.id = i → p ∈ s'.store.pins ∨ p.expires ≤ s.now

variable {pin : PinRecord}

lemma StreamState.Leases.keep {limit : ℕ} (h : s.Leases pin limit) (hkeep : KeepsPin s s' pin.id)
    (hlt : s.now < limit) : s'.Leases pin limit := by
  obtain ⟨p, hp, hsame, hexp⟩ := h
  rcases hkeep p hp hsame.id with hp' | hover
  · exact ⟨p, hp', hsame, hexp⟩
  · exact absurd (hexp.trans hover) (not_le.mpr hlt)

lemma ReadView.Leased.evolve (h : v.Leased s i) (hok : v.Ok s.store)
    (he : Evolves s.toLedger s'.toLedger) (hnow : s.now ≤ s'.now) (hkeep : KeepsPin s s' i) :
    v.Leased s' i := by
  have hlease : ∀ {limit}, s.Leases v.pin limit → s'.now < limit → s'.Leases v.pin limit :=
    fun hl hlt => hl.keep (h.id ▸ hkeep) (hnow.trans_lt hlt)
  have hclear : ∀ {t pin}, Tracks s.store t → (s.store.loadTail = some t → s.Clear pin) →
      s'.store.loadTail = some t → s'.Clear pin := by
    intro t pin ht hc hcur r hr
    obtain ⟨hold, -, -, hcond⟩ := he.current ht hcur
    exact hc hold r (hcond ▸ hr)
  refine ⟨h.id, h.start, h.stop, h.started.trans hnow, h.deadline.trans (leaseEnd_mono hnow),
    fun hd hlt => hlease (h.lease hd (hnow.trans_lt hlt)) hlt, ?_⟩
  have hknows := h.knows
  unfold ReadView.Knows at hknows ⊢
  unfold ReadView.Ok at hok
  split at hknows
  case h_4 current _ hphase =>
    rw [hphase] at hok
    refine ⟨hknows.1, hknows.2.1, hknows.2.2.1, fun hcur p hp hid => ?_⟩
    obtain ⟨hold, -, hpins, -⟩ := he.current hok hcur
    exact (hknows.2.2.2 hold p (hpins ▸ hp) hid).trans hnow
  case h_5 => exact ⟨hknows.1, fun hlt => hlease (hknows.2 (hnow.trans_lt hlt)) hlt⟩
  case h_7 _ hphase =>
    rw [hphase] at hok
    exact hclear hok hknows
  case h_8 _ _ hphase =>
    rw [hphase] at hok
    exact ⟨hknows.1, hknows.2.1, hclear hok.1 hknows.2.2⟩
  case h_10 => exact fun hd hlt => hlease (hknows hd (hnow.trans_lt hlt)) hlt
  all_goals exact hknows

/-! ## What a step does to the store -/

inductive PinChange (st : Store) (v : ReadView) (next : Store) : Prop
  | still (same : next = st)
  | registered (current : Snapshot) (expired : List PinRecord)
      (phase : v.phase = .send current expired) (old : st.loadTail = some current)
      (pins : ∀ p, p ∈ next.pins ↔
        p = v.pin ∨ (p ∈ st.pins ∧ p.id ∉ expired.map PinRecord.id) ∧ p.id ≠ v.pin.id)
  | renewed (tail : Snapshot) (pin : PinRecord) (phase : v.phase = .renewSend tail pin)
      (old : st.loadTail = some tail)
      (pins : ∀ p, p ∈ next.pins ↔ p = pin ∨ p ∈ st.pins ∧ p.id ≠ pin.id)
  | released (tail : Snapshot) (phase : v.phase = .releaseSend tail)
      (pins : ∀ p, p ∈ next.pins ↔ p ∈ st.pins ∧ p.id ≠ v.pin.id)

section
variable (h : PinChange s.store v next) (hok : v.Ok s.store) (hv : v.Leased s i)
include h hok hv

/-- Behind its own step the lease of a pin still holds. -/
theorem PinChange.lease (hd : v.dropped = false) (hlt : s.now < v.deadline) :
    ∃ p ∈ next.pins, SamePin p v.pin ∧ v.deadline ≤ p.expires := by
  have hknows := hv.knows
  cases h with
  | still same =>
    rw [same]
    exact hv.lease hd hlt
  | registered _ _ phase =>
    simp only [ReadView.Knows, phase] at hknows
    rw [hknows.1] at hlt
    cases hlt
  | renewed _ pin phase _ pins =>
    simp only [ReadView.Knows, ReadView.Ok, phase] at hknows hok
    exact ⟨pin, (pins pin).mpr (.inl rfl), hok.2, hknows.1⟩
  | released _ phase =>
    simp only [ReadView.Knows, phase] at hknows
    rw [hknows] at hd
    cases hd

/-- No other pin is touched, except for those that are over. -/
theorem PinChange.keeps {j : ℕ} (hne : j ≠ i) :
    ∀ p ∈ s.store.pins, p.id = j → p ∈ next.pins ∨ p.expires ≤ s.now := by
  intro p hp hid
  have hknows := hv.knows
  have hother : p.id ≠ v.pin.id := by rw [hid, hv.id]; exact hne
  cases h with
  | still same => exact .inl (same ▸ hp)
  | registered _ expired phase old pins =>
    simp only [ReadView.Knows, phase] at hknows
    by_cases hexp : p.id ∈ expired.map PinRecord.id
    · exact .inr (hknows.2.2.2 old p hp hexp)
    · exact .inl ((pins p).mpr (.inr ⟨⟨hp, hexp⟩, hother⟩))
  | renewed _ _ phase _ pins =>
    simp only [ReadView.Ok, phase] at hok
    exact .inl ((pins p).mpr (.inr ⟨hp, hok.2.id ▸ hother⟩))
  | released _ _ pins => exact .inl ((pins p).mpr ⟨hp, hother⟩)

end

/-- A view as far as readers depend on it. -/
structure PinStep (s : StreamState) (v w : ReadView) : Prop where
  pin : SamePin w.pin v.pin
  captured : w.captured = v.captured
  opened : v.phase.opened = true → w.phase.opened = true ∧ w.dropped = v.dropped ∧
    (v.deadline ≤ s.now → w.deadline ≤ s.now)

lemma PinStep.refl (s : StreamState) (v : ReadView) : PinStep s v v :=
  ⟨.refl _, rfl, fun h => ⟨h, rfl, fun hd => hd⟩⟩

/-- What a step of the process of a pin leaves behind. -/
structure PinRan (s : StreamState) (i : ℕ) (v : ReadView) (next : Store × ReadView) : Prop where
  change : Change s.toLedger none { s.toLedger with store := next.1 }
  pins : PinChange s.store v next.1
  ok : next.2.Ok next.1
  step : PinStep s v next.2
  extents : next.2.extents = v.extents
  leased : (∀ r ∈ s.condemned, Uncovered s.store s.now r) → v.Leased s i →
    ∀ views, next.2.Leased { s with store := next.1, views := views } i

variable {expired : List PinRecord}

section Run
variable {phase old : PinPhase}

/-- A step to another phase that may have written the store. -/
theorem PinRan.sent (hv : v.Ok s.store) (hphase : v.phase = old)
    (hc : Change s.toLedger none { s.toLedger with store := next })
    (hpins : PinChange s.store v next) (hok : ({ v with phase := phase } : ReadView).Ok next)
    (hopened : old.opened = true → phase.opened = true)
    (hknows : ({ v with phase := old } : ReadView).Knows s →
      ({ v with phase := phase } : ReadView).Knows { s with store := next }) :
    PinRan s i v (next, { v with phase := phase }) := by
  subst hphase
  exact ⟨hc, hpins, hok, ⟨.refl _, rfl, fun h => ⟨hopened h, rfl, fun hd => hd⟩⟩, rfl,
    fun _ hl _ => { hl with lease := hpins.lease hv hl, knows := hknows hl.knows }⟩

/-- A step to another phase. -/
theorem PinRan.turn (h : Core s.toLedger) (hphase : v.phase = old)
    (hok : ({ v with phase := phase } : ReadView).Ok s.store)
    (hopened : old.opened = true → phase.opened = true)
    (hknows : (∀ r ∈ s.condemned, Uncovered s.store s.now r) → v.Leased s i →
      ({ v with phase := old } : ReadView).Knows s →
      ({ v with phase := phase } : ReadView).Knows s) :
    PinRan s i v (s.store, { v with phase := phase }) := by
  subst hphase
  exact ⟨.refl h _, .still rfl, hok, ⟨.refl _, rfl, fun h => ⟨hopened h, rfl, fun hd => hd⟩⟩, rfl,
    fun hq hl _ => { hl with knows := hknows hq hl hl.knows }⟩

lemma sorted_pins_deleted {r : ℕ} (st : Store) (h : SortedRows PinRecord.id st.pins) :
    SortedRows PinRecord.id
      ((expired.map fun p => BatchOp.deletePin p.id).foldl (Store.applyOp r) st).pins := by
  induction expired generalizing st with
  | nil => exact h
  | cons e _ ih => exact ih _ (h.eraseRow e.id)

lemma mem_of_loadPin {st : Store} {id : ℕ} (h : st.loadPin id = some p) : p ∈ st.pins :=
  List.mem_of_find?_eq_some h

section
variable (h : Core s.toLedger)
include h

lemma Core.runPinLoad (hphase : v.phase = .load) : PinRan s i v (s.store, s.runPinLoad v) := by
  simp only [StreamState.runPinLoad]
  split
  · exact .turn h hphase trivial nofun fun _ _ hk => hk.1
  next current hcur =>
    split
    · exact .turn h hphase trivial nofun fun _ _ hk => hk.1
    next hbounds =>
      exact .turn h hphase (h.chain.tracks hcur) nofun fun _ _ hk =>
        ⟨hk.1, hk.2, not_lt.mp fun hlt => hbounds (.inl hlt)⟩

lemma Core.runPinSend {current : Snapshot} (hok : v.Ok s.store)
    (hphase : v.phase = .send current expired) (reply : Reply) :
    PinRan s i v (s.runPinSend v current expired reply) := by
  have ht : Tracks s.store current := by simpa [ReadView.Ok, hphase] using hok
  have hplain : ∀ op ∈ (expired.map fun p => BatchOp.deletePin p.id) ++ [.putPin v.pin],
      op.plain = true := forall_mem_concat (plain_deletePins expired) rfl
  have hc := h.sendPlain ht hplain reply none
  have hpins : PinChange s.store v (s.store.sendFenced current
      ((expired.map fun p => BatchOp.deletePin p.id) ++ [.putPin v.pin]) reply).1 := by
    rcases sendFenced_eq s.store current
        ((expired.map fun p => BatchOp.deletePin p.id) ++ [.putPin v.pin]) reply with heq | hb
    · exact .still heq
    · refine .registered current expired hphase (ht.loadTail (batch_eq_some hb).1) fun p => ?_
      rw [fenced_pins hb, List.foldl_append]
      refine (mem_insertRow (sorted_pins_deleted _ ?_)).trans
        (or_congr_right (and_congr_left fun _ => mem_pins_deleted))
      exact h.chain.pins
  rw [StreamState.runPinSend]
  split <;> rename_i hsend <;> rw [hsend] at hc hpins
  · refine .sent hok hphase hc hpins trivial nofun fun hk =>
      ⟨hk.1, fun _ => ⟨v.pin, ?_, .refl _, hk.2.1⟩⟩
    cases hpins with
    | still same => exact absurd (congrArg Store.revision same) (h.revision_of_ok hsend)
    | registered _ _ _ _ pins => exact (pins v.pin).mpr (.inl rfl)
    | renewed _ _ phase | released _ phase => cases hphase.symm.trans phase
  · exact .sent hok hphase hc hpins trivial nofun fun hk => ⟨hk.1, hk.2.1⟩
  · exact .sent hok hphase hc hpins trivial nofun fun hk => ⟨hk.1, hk.2.1⟩
  · exact .sent hok hphase hc hpins trivial nofun fun hk => ⟨hk.1, hk.2.1⟩
  · exact .sent hok hphase hc hpins trivial nofun fun hk => hk.1

variable {tail : Snapshot}

lemma Core.runRenewMatch {wall : ℕ} (ht : Tracks s.store tail)
    (hphase : v.phase = .renewMatch tail) (hshows : shows s.now wall = true) :
    PinRan s i v (s.store, s.runRenewMatch v tail wall) := by
  simp only [StreamState.runRenewMatch]
  split
  next hmatch =>
    -- the pin has not expired, so that it covers nothing that is condemned
    refine .turn h hphase ht (fun _ => rfl) fun hq _ _ _ r hr => ?_
    by_contra hcovers
    have hle := hq r hr v.pin (mem_of_loadPin hmatch.1) (by simpa using hcovers)
    simp only [shows, Bool.and_eq_true, decide_eq_true_eq] at hshows
    omega
  · exact .turn h hphase trivial (fun _ => rfl) fun _ _ _ => trivial

lemma Core.runRenewSend (hok : v.Ok s.store) (hphase : v.phase = .renewSend tail pin)
    (reply : Reply) : PinRan s i v (s.runRenewSend v tail pin reply) := by
  have hv := hok
  simp only [ReadView.Ok, hphase] at hv
  have hplain : ∀ op ∈ [BatchOp.putPin pin], op.plain = true := by simp [BatchOp.plain]
  have hc := h.sendPlain hv.1 hplain reply none
  have hpins : PinChange s.store v (s.store.sendFenced tail [.putPin pin] reply).1 := by
    rcases sendFenced_eq s.store tail [.putPin pin] reply with heq | hb
    · exact .still heq
    · refine .renewed tail pin hphase (hv.1.loadTail (batch_eq_some hb).1) fun p => ?_
      rw [fenced_pins hb]
      exact mem_insertRow h.chain.pins
  rw [StreamState.runRenewSend]
  split <;> rename_i hsend <;> rw [hsend] at hc hpins
  · refine .sent hok hphase hc hpins hv.2 (fun _ => rfl) fun hk _ _ => ⟨pin, ?_, hv.2, hk.2.1⟩
    cases hpins with
    | still same => exact absurd (congrArg Store.revision same) (h.revision_of_ok hsend)
    | renewed _ _ phase _ pins =>
      cases hphase.symm.trans phase
      exact (pins pin).mpr (.inl rfl)
    | registered _ _ phase | released _ phase => cases hphase.symm.trans phase
  · exact .sent hok hphase hc hpins hv.2 (fun _ => rfl) fun hk => hk.2.1
  · exact .sent hok hphase hc hpins trivial (fun _ => rfl) fun _ => trivial

lemma Core.runRenewed (hok : SamePin pin v.pin) (hphase : v.phase = .renewed pin) :
    PinRan s i v (s.store, s.runRenewed v pin) := by
  simp only [StreamState.runRenewed]
  split
  · exact .turn h hphase trivial (fun _ => rfl) fun _ _ _ => trivial
  next hlive =>
    refine ⟨.refl h _, .still rfl, trivial,
      ⟨hok, rfl, fun _ => ⟨rfl, rfl, fun hd => absurd hd hlive⟩⟩, rfl, fun _ hl _ =>
      ⟨hok.id.trans hl.id, hok.start.trans hl.start, hok.stop.trans hl.stop, hl.started,
        leaseEnd_mono hl.started, fun hd hlt => ?_, trivial⟩⟩
    have hknows := hl.knows
    simp only [ReadView.Knows, hphase] at hknows
    obtain ⟨p, hp, hpin, hexp⟩ := hknows hd hlt
    exact ⟨p, hp, hpin.trans hok.symm, hexp⟩

lemma Core.runReleaseSend (hok : v.Ok s.store) (hphase : v.phase = .releaseSend tail)
    (reply : Reply) : PinRan s i v (s.runReleaseSend v tail reply) := by
  have ht : Tracks s.store tail := by simpa [ReadView.Ok, hphase] using hok
  have hplain : ∀ op ∈ [BatchOp.deletePin v.pin.id], op.plain = true := by simp [BatchOp.plain]
  have hc := h.sendPlain ht hplain reply none
  have hpins : PinChange s.store v (s.store.sendFenced tail [.deletePin v.pin.id] reply).1 := by
    rcases sendFenced_eq s.store tail [.deletePin v.pin.id] reply with heq | hb
    · exact .still heq
    · refine .released tail hphase fun p => ?_
      rw [fenced_pins hb]
      exact mem_eraseRow
  rw [StreamState.runReleaseSend]
  split
  all_goals
    next hsend =>
      rw [hsend] at hc hpins
      exact .sent hok hphase hc hpins trivial (fun _ => rfl) fun hk => hk

/-- The tail is read on the way. -/
theorem PinRan.loads {none : PinPhase} {f : Snapshot → PinPhase}
    (hnone : PinRan s i v (s.store, { v with phase := none }))
    (hf : ∀ t, Tracks s.store t → PinRan s i v (s.store, { v with phase := f t })) :
    PinRan s i v (s.store, { v with phase := s.store.loadTail.elim none f }) := by
  cases ht : s.store.loadTail with
  | none => exact hnone
  | some t => exact hf t (h.chain.tracks ht)

/-- Every step of the process of a pin. -/
theorem Core.runPin {input : Input} {next : Store × ReadView} (hok : v.Ok s.store)
    (hrun : s.runPin input v = some next) : PinRan s i v next := by
  have hv := hok
  cases hphase : v.phase <;>
    simp only [StreamState.runPin, ReadView.Ok, hphase, Option.some.injEq, reduceCtorEq,
      Option.ite_none_right_eq_some] at hrun hv
  case load => exact hrun ▸ h.runPinLoad hphase
  case read =>
    obtain ⟨hshows, rfl⟩ := hrun
    simp only [StreamState.runPinRead]
    split
    · exact .turn h hphase trivial nofun fun _ _ hk => hk.1
    · exact .turn h hphase hv nofun fun _ _ hk =>
        ⟨hk.1, hk.2.1, hk.2.2, fun _ => over_expiredPins h.chain.pins hshows⟩
  case send => exact hrun ▸ h.runPinSend hok hphase _
  case verify =>
    subst hrun
    split
    next hload =>
      exact .turn h hphase trivial nofun fun _ _ hk =>
        ⟨hk.1, fun _ => ⟨v.pin, mem_of_loadPin hload, .refl _, hk.2⟩⟩
    · exact .turn h hphase trivial nofun fun _ _ hk => hk
  case pinned =>
    subst hrun
    refine ⟨.refl h _, .still rfl, trivial, ⟨.refl _, rfl, fun ho => ?_⟩, rfl, fun _ hl _ =>
      ⟨hl.id, hl.start, hl.stop, hl.started, leaseEnd_mono hl.started, fun _ hlt => ?_, trivial⟩⟩
    · rw [hphase] at ho
      cases ho
    · have hknows := hl.knows
      simp only [ReadView.Knows, hphase] at hknows
      exact hknows.2 hlt
  case idle =>
    subst hrun
    simp only [StreamState.runIdle]
    split
    · exact .turn h hphase trivial (fun _ => rfl) fun _ _ _ => trivial
    · exact ⟨.refl h _, .still rfl, trivial, ⟨.refl _, rfl, fun _ => ⟨rfl, rfl, fun hd => hd⟩⟩, rfl,
        fun _ hl _ => { hl with started := le_rfl, knows := trivial }⟩
  case renewLoad =>
    subst hrun
    have hidle : PinRan s i v (s.store, { v with phase := .idle }) :=
      .turn h hphase trivial (fun _ => rfl) fun _ _ _ => trivial
    split
    · exact hidle
    · exact .loads h hidle fun t ht => .turn h hphase ht (fun _ => rfl) fun _ _ _ => trivial
  case renewMatch =>
    split at hrun
    · cases hrun
      exact .turn h hphase trivial (fun _ => rfl) fun _ _ _ => trivial
    obtain ⟨hshows, heq⟩ := Option.ite_none_right_eq_some.mp hrun
    cases heq
    exact h.runRenewMatch hv hphase hshows
  case renewPrepare =>
    obtain ⟨hshows, rfl⟩ := hrun
    simp only [shows, Bool.and_eq_true, decide_eq_true_eq] at hshows
    exact .turn h hphase ⟨hv, rfl, rfl, rfl, rfl⟩ (fun _ => rfl) fun _ hl hk =>
      ⟨hl.deadline.trans (leaseEnd_le hshows.1), leaseEnd_le (hl.started.trans hshows.1), hk⟩
  case renewSend => exact hrun ▸ h.runRenewSend hok hphase _
  case renewVerify pin =>
    subst hrun
    split
    next hload =>
      exact .turn h hphase hv (fun _ => rfl) fun _ _ hk _ _ => ⟨pin, mem_of_loadPin hload, hv, hk⟩
    · exact .turn h hphase trivial (fun _ => rfl) fun _ _ _ => trivial
  case renewed => exact hrun ▸ h.runRenewed hv hphase
  case lapsed =>
    subst hrun
    exact ⟨.refl h _, .still rfl, trivial,
      ⟨.refl _, rfl, fun _ => ⟨rfl, rfl, fun _ => le_rfl⟩⟩, rfl,
      fun _ hl _ => ⟨hl.id, hl.start, hl.stop, hl.started, le_leaseEnd _,
        fun _ hlt => absurd hlt (lt_irrefl _), trivial⟩⟩
  case releaseLoad =>
    subst hrun
    exact .loads h (.turn h hphase trivial (fun _ => rfl) fun _ _ hk => hk)
      fun t ht => .turn h hphase ht (fun _ => rfl) fun _ _ hk => hk
  case releaseSend => exact hrun ▸ h.runReleaseSend hok hphase _

end

/-- A view with a deadline was opened. -/
theorem ReadView.Leased.opened (h : v.Leased s i) (hlt : s.now < v.deadline) :
    v.phase.opened = true := by
  have hknows := h.knows
  have hzero : v.deadline ≠ 0 := by omega
  unfold ReadView.Knows at hknows
  split at hknows
  all_goals
    next hphase =>
      rw [hphase]
      first | rfl | exact absurd hknows.1 hzero | exact absurd hknows hzero

end Run

end CrowDB.ChunkStream
