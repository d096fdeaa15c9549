import CrowDB.ChunkDb.Metadata

/-!
# What one step does to the metadata

An accepted operation either publishes a successor of the chunk record, together with
the groups it touches, or rewrites a group alone. Because every published record carries
the next revision, the conditional write accepts it only when the cached copy that it
was computed from is the present record.
-/
namespace CrowDB.ChunkDb
open Lib Lib.Tiling List Option
open DiskDb (ChunkId)

/-- The strips of a group that are not yet attached and not cancelled. -/
def outstanding (g : StripReservationGroup) : List ChunkStrip :=
  ((g.strips.zip g.states).filter fun x => x.2 = .reserved ∨ x.2 = .consumed).map Prod.fst

/-- The strip that a mutation names. -/
def StripReservationGroup.named (g : StripReservationGroup) (update : ReservationUpdate) :
    Option ChunkStrip := g.strips.find? fun s => s.stripSequence = update.stripSequence

/-- The records that an operation publishes for the chunk `c`. -/
inductive Publishes (cfg : LifecycleConfig) (c : Chunk) (groups : List StripReservationGroup) :
    ChunkAction → Chunk → List StripReservationGroup → Prop
  | append {observed : Chunk} {allocated : List ChunkStrip} {c' : Chunk}
      (hallocated : allocatedFrom (appendSequence observed) allocated = true)
      (h : publishAppended observed c allocated = .ok c') :
      Publishes cfg c groups (.append observed allocated) c' groups
  | advance {r : AdvanceRequest} {nowMs : ℕ} {c' : Chunk}
      (h : advanceChunkWrite c r nowMs = .ok c') :
      Publishes cfg c groups (.advance r nowMs) c' groups
  | reserve {p : PendingReserve} {resources : ReservedResources} {nowMs : ℕ} {c' : Chunk}
      {g : StripReservationGroup}
      (hallocated : allocatedFrom p.observed.nextStripSequence resources.strips = true)
      (hcount : resources.strips.length = p.spec.stripCount)
      (h : publishNewGroup p.observed c p.groupId p.fence p.spec resources nowMs = .ok (c', g)) :
      Publishes cfg c groups (.reserve p resources nowMs) c' (putGroup g groups)
  | confirm {groupId : ChunkId} {fence : ReservationFence} {update : ReservationUpdate}
      {inputs : MutationInputs} {g g' : StripReservationGroup} {index : ℕ} {strip : ChunkStrip}
      {c' : Chunk} {groups' : List StripReservationGroup}
      (haction : update.action = .confirm)
      (hg : findGroup groups groupId = some g) (hstrip : g.strips[index]? = some strip)
      (hnamed : g.named update = some strip) (hstate : g.states[index]? = some .consumed)
      (hfence : c.modifyTs = fence.expectedModifyTs) (hactive : c.state = .active)
      (h : confirmReservedStrip c g index strip update = .ok (c', g'))
      (hgroups : groups' = putGroup g' groups ∨ groups' = deleteGroup groupId groups) :
      Publishes cfg c groups (.mutate groupId fence update inputs) c' groups'
  | publish {groupId : ChunkId} {fence : ReservationFence} {update : ReservationUpdate}
      {inputs : MutationInputs} {g : StripReservationGroup} {c' : Chunk}
      (haction : update.action = .publish)
      (hg : findGroup groups groupId = some g) (hactive : c.state = .active)
      (h : publishConversionGroup cfg c g inputs.topology inputs.nowMs = .ok c') :
      Publishes cfg c groups (.mutate groupId fence update inputs) c' (deleteGroup groupId groups)
  | replace {r : ReplaceRequest} {nowMs : ℕ} {c' : Chunk}
      (h : replaceChunkStripRange cfg c r nowMs = .ok c') :
      Publishes cfg c groups (.replace r nowMs) c' groups
  | replaceReserved {r : ReplaceRequest} {nowMs : ℕ} {old replacement : ChunkStrip}
      {g g' : StripReservationGroup} {index : ℕ} {c' : Chunk}
      (hold : r.oldStrips = [old]) (hnew : r.replacementStrips = [replacement])
      (hbehind : c.strips.length < r.stopIndex)
      (hg : g ∈ groups) (hindex : g.strips[index]? = some old)
      (h : replaceReservedStrip cfg c g index old replacement r.operationId r.retireOldSegments
        nowMs = .ok (c', g')) :
      Publishes cfg c groups (.replace r nowMs) c' (putGroup g' groups)
  | sealAt {sealBytes nowMs : ℕ} {c' : Chunk} (h : sealChunkAtBoundary c sealBytes nowMs = .ok c') :
      Publishes cfg c groups (.sealAt sealBytes nowMs) c' groups
  | cleanup {nowMs : ℕ} : Publishes cfg c groups (.cleanup nowMs) (finishCleanup c nowMs) groups

/-- The rewrites of groups alone: a new version of a group with the same strips, fewer
of them outstanding, or the removal of a group. -/
inductive Regroups (groups : List StripReservationGroup) : List StripReservationGroup → Prop
  | rewrite {g g' : StripReservationGroup} (hg : g ∈ groups) (hid : g'.groupId = g.groupId)
      (hstrips : g'.strips = g.strips) (hsub : (outstanding g').Sublist (outstanding g)) :
      Regroups groups (putGroup g' groups)
  | drop (id : ChunkId) : Regroups groups (deleteGroup id groups)

variable {groups : List StripReservationGroup} {g : StripReservationGroup}

lemma findGroup_mem {id : ChunkId} (h : findGroup groups id = some g) : g ∈ groups :=
  mem_of_find?_eq_some h

lemma findGroup_id {id : ChunkId} (h : findGroup groups id = some g) : g.groupId = id := by
  simpa using find?_some h

lemma set_self {α : Type*} {l : List α} {i : ℕ} {x : α} (h : l[i]? = some x) : l.set i x = l := by
  obtain ⟨hi, rfl⟩ := List.getElem?_eq_some_iff.mp h
  exact set_getElem_self hi

variable {state : StripReservationState} {strip : ChunkStrip}

/-- The outstanding strips around one entry. -/
theorem outstanding_around {strips : List ChunkStrip} {states : List StripReservationState}
    {index : ℕ} (hstrip : strips[index]? = some strip) (hstate : states[index]? = some state) :
    ∃ before after : List ChunkStrip, ∀ strip' (state' : StripReservationState),
      (((strips.set index strip').zip (states.set index state')).filter fun x =>
          x.2 = .reserved ∨ x.2 = .consumed).map Prod.fst =
        before ++ (if state' = .reserved ∨ state' = .consumed then [strip'] else []) ++ after := by
  induction strips generalizing states index with
  | nil => simp at hstrip
  | cons s strips ih =>
    cases states with
    | nil => simp at hstate
    | cons t states =>
      cases index with
      | zero =>
        refine ⟨[], ((strips.zip states).filter fun x =>
          x.2 = .reserved ∨ x.2 = .consumed).map Prod.fst, fun strip' state' => ?_⟩
        by_cases h : state' = .reserved ∨ state' = .consumed <;> simp [h]
      | succ =>
        obtain ⟨before, after, hall⟩ := ih hstrip hstate
        refine ⟨(if t = .reserved ∨ t = .consumed then [s] else []) ++ before, after,
          fun strip' state' => ?_⟩
        by_cases h : t = .reserved ∨ t = .consumed
        · simpa [h] using hall strip' state'
        · simpa [h] using hall strip' state'

/-- A new state for one entry that was outstanding, or a move within the outstanding
states, leaves no more strips outstanding. -/
theorem outstanding_set_sublist {index : ℕ} {state' : StripReservationState}
    (hstrip : g.strips[index]? = some strip) (hstate : g.states[index]? = some state)
    (hkeep : state' = .reserved ∨ state' = .consumed → state = .reserved ∨ state = .consumed) :
    (outstanding { g with states := g.states.set index state' }).Sublist (outstanding g) := by
  obtain ⟨before, after, hall⟩ := outstanding_around hstrip hstate
  have hnew := hall strip state'
  have hold := hall strip state
  rw [set_self hstrip] at hnew hold
  rw [set_self hstate] at hold
  rw [outstanding, outstanding, hnew, hold]
  refine ((Sublist.refl before).append ?_).append (Sublist.refl after)
  split
  · next h => simp [hkeep h]
  · exact nil_sublist _

lemma outstanding_cancelReserved_sublist (g : StripReservationGroup) :
    (outstanding g.cancelReserved).Sublist (outstanding g) := by
  unfold outstanding StripReservationGroup.cancelReserved
  generalize g.strips = strips
  generalize g.states = states
  induction strips generalizing states with
  | nil => simp
  | cons =>
    cases states with
    | nil => simp
    | cons t =>
      cases t <;> simp_all

variable {cfg : LifecycleConfig} {c : Chunk} {update : ReservationUpdate} {fence : ReservationFence}
  {w : MetaWrite} {index : ℕ} {groupId : ChunkId} {inputs : MutationInputs} {plan : ReservationPlan}

lemma mutateEntry_moves (hactive : c.state = .active) (hg : findGroup groups groupId = some g)
    (hstrip : g.strips[index]? = some strip) (hnamed : g.named update = some strip)
    (hstate : g.states[index]? = some state)
    (h : mutateEntry cfg c g fence update inputs index strip state = .ok plan)
    (hw : reservationWrite groupId groups plan = some w) : (∃ c' groups', w = .chunk c' groups' ∧
      Publishes cfg c groups (.mutate groupId fence update inputs) c' groups') ∨
    (∃ groups', w = .groups groups' ∧ Regroups groups groups') := by
  have hmem := findGroup_mem hg
  cases haction : update.action with
  | consume =>
    simp only [mutateEntry, haction, consumeStrip] at h
    split at h
    · next hres =>
      simp only [bind_eq_ok, pure_eq_ok] at h
      obtain ⟨-, -, rfl⟩ := h
      simp only [reservationWrite, some.injEq] at hw
      refine .inr ⟨_, hw.symm, .rewrite hmem rfl rfl ?_⟩
      exact outstanding_set_sublist hstrip hstate fun _ => .inl hres
    · simp only [bind_eq_ok, pure_eq_ok] at h
      obtain ⟨-, -, rfl⟩ := h
      simp [reservationWrite] at hw
  | confirm =>
    simp only [mutateEntry, haction, confirmStrip] at h
    split at h
    · next hcons =>
      subst hcons
      simp only [bind_eq_ok, ensure_eq_ok, pure_eq_ok] at h
      obtain ⟨-, hfence, ⟨c', g'⟩, hconfirm, rfl⟩ := h
      refine .inl ⟨c', if decide (g'.dataNum ≠ 0 ∨ g'.codeNum ≠ 0) || !g'.terminal then
        putGroup g' groups else deleteGroup groupId groups, ?_, ?_⟩
      · split at hw <;> simp_all [reservationWrite]
      · refine .confirm haction hg hstrip hnamed hstate hfence hactive hconfirm ?_
        split
        · exact .inl rfl
        · exact .inr rfl
    · simp only [bind_eq_ok, pure_eq_ok] at h
      obtain ⟨-, -, rfl⟩ := h
      simp [reservationWrite] at hw
  | cancel =>
    simp only [mutateEntry, haction, cancelStrip] at h
    split at h
    · simp only [pure_eq_ok] at h
      subst h
      simp only [reservationWrite, some.injEq] at hw
      refine .inr ⟨_, hw.symm, .rewrite hmem rfl rfl ?_⟩
      exact outstanding_set_sublist hstrip hstate (by simp)
    · simp only [bind_eq_ok, pure_eq_ok] at h
      obtain ⟨-, -, rfl⟩ := h
      simp [reservationWrite] at hw
  | renew =>
    simp only [mutateEntry, haction, renewGroup, bind_eq_ok, pure_eq_ok] at h
    obtain ⟨-, -, rfl⟩ := h
    simp only [reservationWrite, some.injEq] at hw
    exact .inr ⟨_, hw.symm, .rewrite hmem rfl rfl (Sublist.refl _)⟩
  | publish =>
    simp only [mutateEntry, haction, bind_eq_ok, pure_eq_ok] at h
    obtain ⟨-, -, c', hpublish, rfl⟩ := h
    simp only [reservationWrite, some.injEq] at hw
    exact .inl ⟨c', _, hw.symm, .publish haction hg hactive hpublish⟩

lemma mutate_moves
    (h : mutateStripReservation cfg c groupId
      (findGroup groups groupId) fence update inputs = .ok plan)
    (hw : reservationWrite groupId groups plan = some w) : (∃ c' groups', w = .chunk c' groups' ∧
      Publishes cfg c groups (.mutate groupId fence update inputs) c' groups') ∨
    (∃ groups', w = .groups groups' ∧ Regroups groups groups') := by
  simp only [mutateStripReservation, bind_eq_ok, ChunkState.checkCanAppend, ensure_eq_ok] at h
  obtain ⟨-, hactive, -, -, h⟩ := h
  split at h
  · simp only [pure_eq_ok] at h
    subst h
    simp [reservationWrite] at hw
  · simp only [bind_eq_ok, orFail_eq_ok] at h
    obtain ⟨g, hg, -, -, -, -, strip, hstrip, state, hstate, -, -, h⟩ := h
    have hnamed : g.named update = some strip := by
      rw [StripReservationGroup.named, find?_eq_getElem?_findIdx]
      exact hstrip
    exact mutateEntry_moves hactive hg hstrip hnamed hstate h hw

lemma findReserved_some {old replacement : ChunkStrip}
    (h : findReserved old replacement groups = some (g, some index)) :
    g ∈ groups ∧ g.strips[index]? = some old := by
  induction groups with
  | nil => simp [findReserved] at h
  | cons x _ ih =>
    simp only [findReserved] at h
    split at h
    · simp at h
    · split at h
      · next hmem =>
        simp only [some.injEq, Prod.mk.injEq] at h
        obtain ⟨rfl, rfl⟩ := h
        have hlt : (x.strips.findIdx fun s => decide (s = old)) < x.strips.length :=
          findIdx_lt_length.mpr ⟨old, hmem, by simp⟩
        rw [getElem?_eq_getElem hlt]
        have := findIdx_getElem (w := hlt)
        simpa using this
      · obtain ⟨hg, hindex⟩ := ih h
        exact ⟨mem_cons_of_mem _ hg, hindex⟩

variable {nowMs : ℕ} {r : ReplaceRequest}

lemma planReplace_moves (h : planReplace cfg c groups r nowMs = some w) :
    ∃ c' groups', w = .chunk c' groups' ∧ Publishes cfg c groups (.replace r nowMs) c' groups' := by
  unfold planReplace at h
  split at h
  · simp at h
  · split at h
    · next hbehind =>
      split at h
      · next old replacement _ hold hnew =>
        split at h
        · next g index hfind =>
          obtain ⟨⟨c', g'⟩, hreplace, rfl⟩ := map_eq_some_iff.mp h
          obtain ⟨hg, hindex⟩ := findReserved_some hfind
          exact ⟨c', _, rfl, .replaceReserved hold hnew hbehind hg hindex
            (toOption_eq_some.mp hreplace)⟩
        · simp at h
      · simp at h
    · obtain ⟨c', hreplace, rfl⟩ := map_eq_some_iff.mp h
      exact ⟨c', _, rfl, .replace (toOption_eq_some.mp hreplace)⟩

variable {a : ChunkAction}

/-- The inversion of the planned write. -/
theorem planWrite_moves (h : planWrite cfg c groups a = some w) :
    (∃ c' groups', w = .chunk c' groups' ∧ Publishes cfg c groups a c' groups') ∨
    (∃ groups', w = .groups groups' ∧ Regroups groups groups') := by
  cases a with
  | append =>
    simp only [planWrite] at h
    split at h
    · next hallocated =>
      obtain ⟨c', hc, rfl⟩ := map_eq_some_iff.mp h
      exact .inl ⟨c', _, rfl, .append hallocated (toOption_eq_some.mp hc)⟩
    · simp at h
  | advance =>
    obtain ⟨c', hc, rfl⟩ := map_eq_some_iff.mp h
    exact .inl ⟨c', _, rfl, .advance (toOption_eq_some.mp hc)⟩
  | reserve =>
    simp only [planWrite] at h
    split at h
    · next hallocated =>
      obtain ⟨⟨c', g⟩, hc, rfl⟩ := map_eq_some_iff.mp h
      exact .inl ⟨c', _, rfl, .reserve hallocated.1 hallocated.2 (toOption_eq_some.mp hc)⟩
    · simp at h
  | mutate =>
    obtain ⟨plan, hplan, hw⟩ := bind_eq_some_iff.mp h
    exact mutate_moves (toOption_eq_some.mp hplan) hw
  | replace => exact .inl (planReplace_moves h)
  | cancelGroup =>
    obtain ⟨g, hg, rfl⟩ := map_eq_some_iff.mp h
    exact .inr ⟨_, rfl, .rewrite (findGroup_mem hg) rfl rfl (outstanding_cancelReserved_sublist g)⟩
  | dropGroup groupId =>
    simp only [planWrite, some.injEq] at h
    exact .inr ⟨_, h.symm, .drop groupId⟩
  | sealAt =>
    obtain ⟨c', hc, rfl⟩ := map_eq_some_iff.mp h
    exact .inl ⟨c', _, rfl, .sealAt (toOption_eq_some.mp hc)⟩
  | cleanup =>
    simp only [planWrite, some.injEq] at h
    exact .inl ⟨_, _, h.symm, .cleanup⟩

/-! ## Fields of the published record -/

variable {c' : Chunk}

lemma publishAppended_eq {observed : Chunk} {allocated : List ChunkStrip}
    (h : publishAppended observed c allocated = .ok c') :
    observed.nextStripSequence = c.nextStripSequence ∧
      c' = { c with
        strips := c.strips ++ assignStripOffsets c.capacity allocated
        nextStripSequence := appendSequence observed + allocated.length
        capacity := sumCapacity (c.strips ++ assignStripOffsets c.capacity allocated)
        modifyTs := c.modifyTs + 1 } := by
  simp only [publishAppended, bind_eq_ok, ensure_eq_ok, orFail_eq_ok,
    pure_eq_ok, checkedAdd32_eq_some, sameAllocationBasis, decide_eq_true_eq] at h
  obtain ⟨-, -, next, ⟨-, rfl⟩, -, -, -, ⟨-, -, -, hbasis⟩, rfl⟩ := h
  exact ⟨by rw [← hbasis], rfl⟩

lemma publishNewGroup_eq {observed : Chunk} {spec : ReserveGroupSpec}
    {resources : ReservedResources}
    (h : publishNewGroup observed c groupId fence spec resources nowMs = .ok (c', g)) :
    ∃ offset, c.nextStripSequence = observed.nextStripSequence ∧
      g = newGroup c.id groupId fence spec offset resources nowMs ∧
      c' = { c with
        nextStripSequence := observed.nextStripSequence + spec.stripCount
        modifyTs := c.modifyTs + 1
        writerLeaseDeadlineMs := g.leaseDeadlineMs } := by
  simp only [publishNewGroup, bind_eq_ok, ensure_eq_ok,
    pure_eq_ok, Prod.mk.injEq] at h
  obtain ⟨⟨start, next, offset⟩, hplan, -, -, -, -, -, ⟨hstart, -⟩, hc, hg⟩ := h
  simp only [planReservation, bind_eq_ok, orFail_eq_ok,
    checkedAdd32_eq_some] at hplan
  obtain ⟨-, -, -, -, -, -, -, -, -, -, n, ⟨-, rfl⟩, rfl, rfl, rfl⟩ := hplan
  refine ⟨_, hstart, hg.symm, ?_⟩
  rw [← hc, ← hg]

variable {g' : StripReservationGroup}

lemma confirmReservedStrip_eq (h : confirmReservedStrip c g index strip update = .ok (c', g')) :
    strip.chunkOffset = c.capacity ∧ c.acknowledgedCursor < update.acknowledgedCursor ∧
      update.acknowledgedCursor ≤ satAdd32 c.capacity strip.capacity * 1024 ∧
      c' = { c with
        strips := c.strips ++ [strip]
        capacity := satAdd32 c.capacity strip.capacity
        acknowledgedCursor := update.acknowledgedCursor
        closedStripSequence := update.closedStripSequence
        modifyTs := c.modifyTs + 1 } ∧
      g' = { g with states := g.states.set index .confirmed } := by
  simp only [confirmReservedStrip, bind_eq_ok, ensure_eq_ok] at h
  obtain ⟨-, hoff, -, ⟨hlt, hle⟩, rfl, rfl⟩ := h
  exact ⟨hoff, hlt, hle, rfl, rfl⟩

lemma replaceReservedStrip_eq {old replacement : ChunkStrip} {op : ChunkId} {retire : Bool}
    (h : replaceReservedStrip cfg c g index old replacement op retire nowMs = .ok (c', g')) :
    validateReplacementGeometry [old] [replacement] c.id = .ok () ∧
      replacement.stripSequence = old.stripSequence ∧
      c' = { c with
        modifyTs := c.modifyTs + 1
        lastStripReplacement := some op
        cleanupIntents := c.cleanupIntents ++
          retireIntent cfg retire op (segmentsOnlyIn [old] [replacement]) nowMs } ∧
      g' = { g with strips := g.strips.set index replacement } := by
  simp only [replaceReservedStrip, bind_eq_ok, ensure_eq_ok] at h
  obtain ⟨u, hgeometry, -, hseq, rfl, rfl⟩ := h
  exact ⟨hgeometry, hseq, rfl, rfl⟩

lemma replaceChunkStripRange_eq (h : replaceChunkStripRange cfg c r nowMs = .ok c') :
    ∃ next, r.oldStrips ≠ [] ∧ r.replacementStrips ≠ [] ∧
      (c.strips.drop r.startIndex).take r.oldStrips.length = r.oldStrips ∧
      validateReplacementGeometry r.oldStrips r.replacementStrips c.id = .ok () ∧
      validateReplacementSequences c r.startIndex r.stopIndex r.replacementStrips = .ok next ∧
      c' = { c with
        strips := splice c.strips r.startIndex r.stopIndex r.replacementStrips
        capacity := sumCapacity (splice c.strips r.startIndex r.stopIndex r.replacementStrips)
        nextStripSequence := next
        modifyTs := c.modifyTs + 1
        lastStripReplacement := some r.operationId
        cleanupIntents := c.cleanupIntents ++ retireIntent cfg r.retireOldSegments r.operationId
          (segmentsOnlyIn r.oldStrips r.replacementStrips) nowMs } := by
  simp only [replaceChunkStripRange, checkReplaceRequest, bind_eq_ok, ensure_eq_ok, pure_eq_ok] at h
  obtain ⟨-, ⟨-, ⟨hold, hnew⟩, -, -, -⟩, -, -, -, ⟨-, hrange⟩, u, hgeometry, next, hseq, rfl⟩ := h
  exact ⟨next, hold, hnew, hrange, hgeometry, hseq, rfl⟩

/-- The range of the chunk that a published conversion replaces, and the new record. -/
theorem publishConversionGroup_eq {topology : TopologySnapshot}
    (h : publishConversionGroup cfg c g topology nowMs = .ok c') :
    ∃ first rest start selected assessment, g.strips = first :: rest ∧
      start + g.strips.length ≤ c.strips.length ∧
      Forall₂ (fun x y => sameReservedLayout x y = true)
        ((c.strips.drop start).take g.strips.length) g.strips ∧
      (∀ s, g.strips.getLast? = some s →
        satAdd32 s.chunkOffset s.capacity * 1024 ≤ c.acknowledgedCursor) ∧
      selected.Sublist (g.strips.flatMap mirrorSegments) ∧
      c' = { c with
        strips := splice c.strips start (start + g.strips.length)
          [conversionStrip g first selected assessment nowMs]
        capacity := sumCapacity (splice c.strips start (start + g.strips.length)
          [conversionStrip g first selected assessment nowMs])
        modifyTs := c.modifyTs + 1
        lastStripReplacement := some g.groupId
        cleanupIntents := c.cleanupIntents ++ retireIntent cfg true g.groupId
          ((g.strips.flatMap mirrorSegments).filter fun x => x ∉ selected) nowMs } := by
  simp only [publishConversionGroup, bind_eq_ok, ensure_eq_ok, orFail_eq_ok, pure_eq_ok] at h
  obtain ⟨-, -, first, hfirst, -, ⟨hstop, hsame⟩, -, ⟨hend, -⟩, selected, hselected, -, -, rfl⟩ := h
  obtain ⟨rest, hrest⟩ := head?_eq_some_iff.mp hfirst
  refine ⟨first, rest, _, selected, _, hrest, hstop, hsame, fun s hs => ?_,
    selectConversionSurvivors_sublist hselected, rfl⟩
  simpa [hs] using hend

lemma advanceChunkWrite_eq {r : AdvanceRequest} (h : advanceChunkWrite c r nowMs = .ok c') :
    c.acknowledgedCursor ≤ r.acknowledgedCursor ∧
      r.acknowledgedCursor ≤ c.capacity * 1024 ∧
      ((r.closedStripSequence = none ∧ c' = { c with
        acknowledgedCursor := r.acknowledgedCursor
        writerLeaseDeadlineMs := satAdd64 nowMs r.writerLeaseMs
        modifyTs := c.modifyTs + 1 }) ∨
      ∃ sequence, r.closedStripSequence = some sequence ∧
        checkClosedSequence c r.acknowledgedCursor sequence = .ok () ∧ c' = { c with
          strips := closeStrips sequence nowMs c.strips
          closedStripSequence := some sequence
          acknowledgedCursor := r.acknowledgedCursor
          writerLeaseDeadlineMs := satAdd64 nowMs r.writerLeaseMs
          modifyTs := c.modifyTs + 1 }) := by
  simp only [advanceChunkWrite, bind_eq_ok, ensure_eq_ok] at h
  obtain ⟨-, -, -, -, -, -, -, ⟨hge, hle⟩, h⟩ := h
  refine ⟨hge, hle, ?_⟩
  split at h
  · next hnone =>
    simp only [pure_eq_ok] at h
    exact .inl ⟨hnone, h.symm⟩
  · next sequence hsome =>
    simp only [bind_eq_ok, pure_eq_ok] at h
    obtain ⟨u, hcheck, rfl⟩ := h
    exact .inr ⟨sequence, hsome, hcheck, rfl⟩

lemma sealChunkAtBoundary_eq {sealBytes : ℕ}
    (h : sealChunkAtBoundary c sealBytes nowMs = .ok c') :
    c.state = .active ∧ (sealBytes + 1023) / 1024 ≤ c.capacity ∧
      (c.chunkType = .wal ∨ c.chunkType = .stream → c.acknowledgedCursor ≤ sealBytes) ∧
      c' = closeAcknowledgedStrips
        { c with
          strips := sealWrittenStrips nowMs ((sealBytes + 1023) / 1024)
            (c.strips.take (trimIndex c.strips ((sealBytes + 1023) / 1024)))
          state := .sealed
          modifyTs := c.modifyTs + 1
          sealedLength := (sealBytes + 1023) / 1024
          acknowledgedCursor := sealBytes
          sealedTsMs := nowMs
          capacity := sumCapacity (c.strips.take (trimIndex c.strips ((sealBytes + 1023) / 1024)))
          cleanupIntents := c.cleanupIntents ++
            sealIntent c.id c.modifyTs ((sealBytes + 1023) / 1024)
              ((c.strips.drop (trimIndex c.strips ((sealBytes + 1023) / 1024))).flatMap
                extractSegments) nowMs } nowMs := by
  simp only [sealChunkAtBoundary, validateSealBounds, ChunkState.checkCanSeal, bind_eq_ok,
    ensure_eq_ok, pure_eq_ok] at h
  obtain ⟨-, -, -, hactive, -, ⟨-, hcursor, hlen⟩, rfl⟩ := h
  refine ⟨hactive, hlen, fun ht => ?_, rfl⟩
  by_contra hlt
  exact hcursor ⟨ht, by omega⟩

variable {groups' : List StripReservationGroup}

/-- Every published record is the successor of the record it was computed from. -/
theorem Publishes.modifyTs (h : Publishes cfg c groups a c' groups') :
    c'.modifyTs = c.modifyTs + 1 := by
  cases h with
  | append _ h => obtain ⟨-, rfl⟩ := publishAppended_eq h; rfl
  | advance h => obtain ⟨-, -, ⟨-, rfl⟩ | ⟨-, -, -, rfl⟩⟩ := advanceChunkWrite_eq h <;> rfl
  | reserve _ _ h => obtain ⟨-, -, -, rfl⟩ := publishNewGroup_eq h; rfl
  | confirm _ _ _ _ _ _ _ h => obtain ⟨-, -, -, rfl, -⟩ := confirmReservedStrip_eq h; rfl
  | publish _ _ _ h =>
    obtain ⟨first, rest, start, selected, assessment, -, -, -, -, -, rfl⟩ :=
      publishConversionGroup_eq h
    rfl
  | replace h => obtain ⟨next, -, -, -, -, -, rfl⟩ := replaceChunkStripRange_eq h; rfl
  | replaceReserved _ _ _ _ _ h => obtain ⟨-, -, rfl, -⟩ := replaceReservedStrip_eq h; rfl
  | sealAt h =>
    obtain ⟨-, -, -, rfl⟩ := sealChunkAtBoundary_eq h
    unfold closeAcknowledgedStrips
    split <;> rfl
  | cleanup => rfl

/-! ## Steps -/

/-- The cached copy is the present record or an older one. -/
def CacheOk (m : MetaState) : Prop :=
  (m.chunk = none → m.cache = none) ∧
    ∀ c d, m.chunk = some c → m.cache = some d → d = c ∨ d.modifyTs < c.modifyTs

/-- What a step does to the record and the groups. -/
inductive MetaMove (cfg : LifecycleConfig) (m : MetaState) : MetaAction → MetaState → Prop
  | quiet {a : MetaAction} {t : MetaState} (hchunk : t.chunk = m.chunk)
      (hgroups : t.groups = m.groups) : MetaMove cfg m a t
  | allocate {r : AllocateRequest} {allocated : List ChunkStrip} {nowMs : ℕ} {acked : Bool}
      {t : MetaState} (hnone : m.chunk = none) (hallocated : allocatedFrom 0 allocated = true)
      (hchunk : t.chunk = some (newChunk r allocated nowMs)) (hgroups : t.groups = m.groups) :
      MetaMove cfg m (.allocate r allocated nowMs acked) t
  | publish {a : ChunkAction} {acked : Bool} {c c' : Chunk} {t : MetaState}
      (hc : m.chunk = some c) (hacquire : m.acquire = some c) (hplanned : a.planned m = true)
      (h : Publishes cfg c m.groups a c' t.groups) (hchunk : t.chunk = some c') :
      MetaMove cfg m (.operate a acked) t
  | regroup {a : ChunkAction} {acked : Bool} {t : MetaState} (hchunk : t.chunk = m.chunk)
      (h : Regroups m.groups t.groups) : MetaMove cfg m (.operate a acked) t

variable {m : MetaState}

lemma acquire_eq_of_revision (hm : CacheOk m) {d : Chunk} (hc : m.chunk = some c)
    (hd : m.acquire = some d) (hrev : d.modifyTs = c.modifyTs) : d = c := by
  unfold MetaState.acquire at hd
  cases hcache : m.cache with
  | none =>
    rw [hcache, hc] at hd
    simpa using hd.symm
  | some e =>
    rw [hcache] at hd
    simp only [orElse_eq_orElse, orElse_some, some.injEq] at hd
    subst hd
    rcases hm.2 c e hc hcache with h | h
    · exact h
    · omega

/-- A planned record that the conditional write accepts. -/
theorem commit_moves {t : MetaState} {acked : Bool} {d c' : Chunk} (hm : CacheOk m)
    (hplanned : a.planned m = true) (hd : m.acquire = some d)
    (hpub : Publishes cfg d m.groups a c' groups') (h : m.commit c' groups' acked = some t) :
    MetaMove cfg m (.operate a acked) t ∧ CacheOk t := by
  simp only [MetaState.commit] at h
  split at h
  · next heq =>
    cases h
    refine ⟨.quiet rfl rfl, fun hnone => absurd (heq.symm.trans hnone) (by simp),
      fun c e hc he => ?_⟩
    cases acked with
    | false => exact hm.2 c e hc he
    | true =>
      simp only [if_true, some.injEq] at he
      exact .inl (he.symm.trans (some.inj (heq.symm.trans hc)))
  · split at h <;> cases h
    next hsucc =>
    cases hc : m.chunk with
    | none => simp [MetaState.acquire, hc, hm.1 hc] at hd
    | some =>
      simp only [hc, all_some, decide_eq_true_eq] at hsucc
      have hrev := hpub.modifyTs
      obtain rfl := acquire_eq_of_revision hm hc hd (by omega)
      refine ⟨.publish hc hd hplanned hpub rfl, by simp, fun x e hx he => ?_⟩
      cases hx
      cases acked with
      | true => exact .inl (some.inj he).symm
      | false =>
        obtain rfl := some.inj (hd.symm.trans he)
        exact .inr (by omega)

/-- What a step does, and how it leaves the cached copy. -/
theorem metaStep_moves {t : MetaState} {a : MetaAction} (hm : CacheOk m)
    (h : metaStep cfg m a = some t) : MetaMove cfg m a t ∧ CacheOk t := by
  cases a with
  | allocate _ _ _ acked =>
    simp only [metaStep] at h
    split at h <;> cases h
    next hnone =>
    refine ⟨.allocate hnone.1 hnone.2.1 rfl rfl, by simp, fun c d hc hd => .inl ?_⟩
    cases acked <;> simp_all [hm.1 hnone.1]
  | planReserve =>
    obtain ⟨c, -, h⟩ := bind_eq_some_iff.mp h
    split at h <;> cases h
    exact ⟨.quiet rfl rfl, hm⟩
  | operate =>
    simp only [metaStep, ite_none_right_eq_some, bind_eq_some_iff] at h
    obtain ⟨hplanned, d, hd, w, hw, h⟩ := h
    rcases planWrite_moves hw with ⟨c', groups', rfl, hpub⟩ | ⟨groups', rfl, hre⟩
    · exact commit_moves hm hplanned hd hpub h
    · cases h
      exact ⟨.regroup rfl hre, hm⟩
  | evict | crash =>
    cases h
    exact ⟨.quiet rfl rfl, fun _ => rfl, fun c d _ hd => by simp at hd⟩

lemma cacheOk_of_reach {G : MetaState → MetaAction → Prop} (h : (metaSystem cfg).Reach G m) :
    CacheOk m := by
  refine h.invariant ?_ ?_
  · rintro s rfl
    exact ⟨fun _ => rfl, fun c d hc => by simp at hc⟩
  · intro s a t hs _ ht
    exact (metaStep_moves hs ht).2

end CrowDB.ChunkDb
