import CrowDB.ChunkDb.ChunkLayout

/-!
# The write cursor of a chunk

The cursor only moves forward and stays inside the chunk, the closed sequence only grows,
and a strip closed by the writer ends at or below the cursor. Some paths do not keep this
by themselves. A confirmation takes the closed sequence of its request as it is, while an
advance refuses one that moves backward. An advance closes every strip up to the given
sequence but compares only the end of the strip with that sequence to the cursor; a
replacement in the middle of the chunk gives strips there larger sequences than strips
behind them have. A conversion, or a replacement by fewer strips, puts a range under its
first sequence, and a seal that ends there takes it as the closed one. The seal timestamps
of replacement strips are taken from the request.
-/
namespace CrowDB.ChunkDb
open Lib Lib.Tiling List Option ChunkStrip
open DiskDb (ChunkId)

@[simp] lemma closedLe_refl (a : Option ℕ) : closedLe a a = true := by
  cases a <;> simp [closedLe]

/-! ## Careful requests -/

/-- The strip with the given sequence is not empty, and the sequences behind it are larger. -/
def closesInOrder (sequence : ℕ) : List ChunkStrip → Bool
  | [] => true
  | s :: strips =>
    if s.stripSequence = sequence then
      decide (s.capacity ≠ 0) && strips.all fun t => sequence < t.stripSequence
    else closesInOrder sequence strips

/-- The strips that an operation adds to the chunk. -/
def ChunkAction.added (groups : List StripReservationGroup) : ChunkAction → List ChunkStrip
  | .append _ allocated => allocated
  | .mutate groupId _ update _ =>
    if update.action = .confirm then
      ((findGroup groups groupId).bind fun g => g.named update).toList
    else []
  | _ => []

/-- A confirmation carries what an advance to its cursor would accept, on the chunk with
the strip attached, and leaves the closed sequence out only as long as there is none. -/
def confirmsLikeAdvance (c : Chunk) (update : ReservationUpdate) : Bool :=
  match update.closedStripSequence with
  | none => c.closedStripSequence.isNone
  | some closed => (checkClosedSequence c update.acknowledgedCursor closed).toOption.isSome &&
      closesInOrder closed c.strips

/-- A replacement strip is sealed only where it replaces a sealed strip that ends no
earlier, and a range is put under its first sequence only below the cursor. -/
def replacesInPlace (c : Chunk) (r : ReplaceRequest) : Bool :=
  (r.replacementStrips.all fun s => decide (s.sealedTsMs = 0) ||
    r.oldStrips.any fun o => decide (o.sealedTsMs ≠ 0 ∧ s.stop ≤ o.stop)) &&
  r.replacementStrips.head?.all fun s => r.oldStrips.head?.all fun o =>
    decide (s.stop ≤ o.stop ∨ s.stop * 1024 < c.acknowledgedCursor)

def carefulAction (c : Chunk) (groups : List StripReservationGroup) (a : ChunkAction) : Bool :=
  match a with
  | .advance r _ => r.closedStripSequence.all fun sequence => closesInOrder sequence c.strips
  | .mutate groupId _ update _ =>
    match update.action with
    | .confirm => confirmsLikeAdvance { c with strips := c.strips ++ a.added groups } update
    | .publish => (findGroup groups groupId).all fun g => g.strips.getLast?.all fun s =>
        decide (s.stop * 1024 ≠ c.acknowledgedCursor)
    | _ => true
  | .replace r _ => replacesInPlace c r
  | _ => true

/-- The chunk with what the action adds fits the capacity field. -/
def MetaState.fits (m : MetaState) : MetaAction → Bool
  | .allocate _ allocated _ _ => decide (total ChunkStrip.capacity allocated < 2 ^ 32)
  | .operate a _ => m.chunk.all fun c => decide (total ChunkStrip.capacity c.strips +
      total ChunkStrip.capacity (a.added m.groups) < 2 ^ 32)
  | _ => true

def carefulCursor (m : MetaState) (a : MetaAction) : Bool :=
  m.fits a && match a with
    | .operate action _ => m.acquire.all fun c => carefulAction c m.groups action
    | _ => true

/-! ## Capacity -/

section Fits
variable {cfg : LifecycleConfig} {m t : MetaState} {c c' : Chunk}
  {groups groups' : List StripReservationGroup}

lemma LayoutInv.bounded_of_added {a : ChunkAction} (h : LayoutInv c groups)
    (hpub : Publishes cfg c groups a c' groups')
    (hfits : total capacity c.strips + total capacity (a.added groups) < 2 ^ 32) :
    total capacity c'.strips < 2 ^ 32 := by
  cases hpub with
  | append _ happend =>
    obtain ⟨-, rfl⟩ := publishAppended_eq happend
    rw [total_append, assignStripOffsets_total]
    exact hfits
  | confirm haction hg _ hnamed _ _ _ hconfirm =>
    obtain ⟨-, -, -, rfl, -⟩ := confirmReservedStrip_eq hconfirm
    simpa [ChunkAction.added, haction, hg, hnamed] using hfits
  | advance hadvance => exact (h.advance hadvance).bounded
  | reserve hallocated hcount hreserve => exact (h.reserve hallocated hcount hreserve).bounded
  | publish _ _ _ hpublish => exact (h.publish hpublish).1.bounded
  | replace hreplace => exact (h.replace hreplace).1.bounded
  | replaceReserved _ _ _ hg hindex hreplace =>
    exact (h.replaceReserved hg hindex hreplace).bounded
  | sealAt hseal => exact (h.sealAt hseal).bounded
  | cleanup => exact h.bounded

lemma LayoutState.bounded (h : LayoutState m) : m.bounded = true := by
  unfold LayoutState at h
  unfold MetaState.bounded
  cases hc : m.chunk with
  | none => rfl
  | some =>
    rw [hc] at h
    simpa using h.bounded

lemma bounded_of_fits {a : MetaAction} (hcache : CacheOk m) (hlayout : LayoutState m)
    (hfits : m.fits a = true) (hstep : metaStep cfg m a = some t) : t.bounded = true := by
  cases (metaStep_moves hcache hstep).1 with
  | quiet hchunk =>
    rw [MetaState.bounded, hchunk]
    exact hlayout.bounded
  | allocate _ _ hchunk =>
    rw [MetaState.bounded, hchunk]
    simpa [MetaState.fits, newChunk, assignStripOffsets_total] using hfits
  | publish hc _ _ hpub hchunk =>
    unfold LayoutState at hlayout
    rw [hc] at hlayout
    simp only [MetaState.fits, hc, all_some, decide_eq_true_eq] at hfits
    simpa [MetaState.bounded, hchunk] using hlayout.bounded_of_added hpub hfits
  | regroup hchunk =>
    rw [MetaState.bounded, hchunk]
    exact hlayout.bounded

end Fits

/-! ## The invariant -/

/-- What holds while the chunk is written: sealed strips end at or below the cursor, and
the strips that reach the cursor have no smaller sequence than the closed one. -/
structure WriterInv (c : Chunk) : Prop where
  closed : ∀ s ∈ c.strips, s.sealedTsMs ≠ 0 → s.stop * 1024 ≤ c.acknowledgedCursor
  known : ∀ q, c.closedStripSequence = some q → q < c.nextStripSequence
  ahead : ∀ q, c.closedStripSequence = some q → ∀ s ∈ c.strips,
    c.acknowledgedCursor ≤ s.stop * 1024 → q ≤ s.stripSequence

structure CursorInv (c : Chunk) (groups : List StripReservationGroup) : Prop where
  within : c.acknowledgedCursor ≤ c.capacity * 1024
  writing : c.state = .active → WriterInv c
  reserved : ∀ g ∈ groups, ∀ s ∈ g.strips, s.sealedTsMs = 0

/-- What one published record may do to the cursor and to the closed sequence of a log or
a stream. -/
structure CursorMove (c c' : Chunk) : Prop where
  chunkType : c'.chunkType = c.chunkType
  forward : c.chunkType = .wal ∨ c.chunkType = .stream →
    c.acknowledgedCursor ≤ c'.acknowledgedCursor ∧
      closedLe c.closedStripSequence c'.closedStripSequence = true

variable {cursor : ℕ}

/-- Around a strip that ends at or below the cursor and is closed in order: what has no
larger sequence ends at or below the cursor, and what reaches the cursor has no smaller
sequence. -/
theorem closesInOrder_sound {sequence a : ℕ} {strips : List ChunkStrip} {t : ChunkStrip}
    (htiles : Tiles chunkOffset capacity a strips) (h : closesInOrder sequence strips = true)
    (ht : (strips.find? fun s => s.stripSequence = sequence) = some t)
    (hend : t.stop * 1024 ≤ cursor) : t.capacity ≠ 0 ∧ ∀ s ∈ strips,
      (s.stripSequence ≤ sequence → s.stop * 1024 ≤ cursor) ∧
      (cursor ≤ s.stop * 1024 → sequence ≤ s.stripSequence) := by
  induction strips generalizing a with
  | nil => simp at ht
  | cons s strips ih =>
    obtain ⟨hoff, htail⟩ := (tiles_cons ..).mp htiles
    by_cases hs : s.stripSequence = sequence
    · simp only [closesInOrder, hs, if_true, Bool.and_eq_true, decide_eq_true_eq,
        List.all_eq_true] at h
      obtain rfl : s = t := by simpa [hs] using ht
      refine ⟨h.1, forall_mem_cons.mpr ⟨⟨fun _ => hend, fun _ => hs.ge⟩, fun x hx => ?_⟩⟩
      have := h.2 x hx
      exact ⟨fun hle => absurd this hle.not_gt, fun _ => this.le⟩
    · simp only [closesInOrder, hs] at h
      simp only [find?_cons, hs] at ht
      obtain ⟨hne, hall⟩ := ih htail h ht
      -- this strip ends before the closed one starts, and the closed one is not empty
      have hle := htail.le_offset (mem_of_find?_eq_some ht)
      have hlt : s.stop < t.stop := by
        unfold stop
        omega
      have hbelow : s.stop * 1024 < cursor :=
        (Nat.mul_lt_mul_of_pos_right hlt (by simp)).trans_le hend
      exact ⟨hne, forall_mem_cons.mpr
        ⟨⟨fun _ => hbelow.le, fun hreach => absurd hreach hbelow.not_ge⟩, hall⟩⟩

lemma checkClosedSequence_ok {c : Chunk} {sequence : ℕ} {u : Unit}
    (h : checkClosedSequence c cursor sequence = .ok u)
    (hbounded : ∀ s ∈ c.strips, s.stop < 2 ^ 32) :
    closedLe c.closedStripSequence (some sequence) = true ∧ ∃ t,
      (c.strips.find? fun s => s.stripSequence = sequence) = some t ∧ t.stop * 1024 ≤ cursor := by
  simp only [checkClosedSequence, bind_eq_ok, ensure_eq_ok, orFail_eq_ok] at h
  obtain ⟨-, hforward, t, ht, hend⟩ := h
  rw [satAdd32_eq (hbounded t (mem_of_find?_eq_some ht))] at hend
  refine ⟨?_, t, ht, hend⟩
  cases hc : c.closedStripSequence with
  | none => rfl
  | some => simpa [hc, closedLe] using hforward

/-- The last strip that a seal closes holds the byte before the cursor. -/
theorem closeAcknowledged_last {nowMs a : ℕ} {strips : List ChunkStrip}
    (htiles : Tiles chunkOffset capacity a strips) (hbounded : a + total capacity strips < 2 ^ 32)
    (hcursor : cursor ≤ (a + total capacity strips) * 1024) (lastClosed : Option ℕ) :
    ((closeAcknowledged cursor nowMs lastClosed strips).2 = lastClosed ∧
      (strips = [] ∨ cursor ≤ a * 1024)) ∨
      ∃ s ∈ strips, (closeAcknowledged cursor nowMs lastClosed strips).2 = some s.stripSequence ∧
        s.chunkOffset * 1024 < cursor ∧ cursor ≤ s.stop * 1024 := by
  induction strips generalizing a lastClosed with
  | nil => exact .inl ⟨rfl, .inl rfl⟩
  | cons s _ ih =>
    obtain ⟨hoff, htail⟩ := (tiles_cons ..).mp htiles
    rw [total_cons] at hbounded hcursor
    simp only [closeAcknowledged]
    split
    · next hle => exact .inl ⟨rfl, .inr (hoff ▸ hle)⟩
    · next hlt =>
      rw [satAdd32_eq (by omega)]
      right
      split
      · next hin => exact ⟨s, mem_cons_self, rfl, Nat.lt_of_not_le hlt, hin.le⟩
      · next hout =>
        have hrest := ih htail (by omega) (by rw [← Nat.add_assoc] at hcursor; exact hcursor)
          (some s.stripSequence)
        rcases hrest with ⟨hlast, hend⟩ | ⟨t, ht, hlast, hlo, hhi⟩
        · refine ⟨s, mem_cons_self, hlast, Nat.lt_of_not_le hlt, ?_⟩
          rw [stop, hoff]
          rcases hend with rfl | hend
          · exact hcursor
          · exact hend
        · exact ⟨t, mem_cons_of_mem _ ht, hlast, hlo, hhi⟩

lemma trimIndex_stop {strips : List ChunkStrip} {sealLength : ℕ} {s : ChunkStrip}
    (hs : strips[trimIndex strips sealLength]? = some s) : sealLength ≤ s.chunkOffset := by
  obtain ⟨hlt, hget⟩ := List.getElem?_eq_some_iff.mp hs
  have hfound := findIdx_getElem (w := hlt)
  simp only [decide_eq_true_eq] at hfound
  unfold trimIndex at hget
  rwa [hget] at hfound

section Published
variable {cfg : LifecycleConfig} {c c' : Chunk} {groups groups' : List StripReservationGroup}

lemma CursorMove.kept (htype : c'.chunkType = c.chunkType)
    (hcursor : c'.acknowledgedCursor = c.acknowledgedCursor)
    (hclosed : c'.closedStripSequence = c.closedStripSequence) : CursorMove c c' :=
  ⟨htype, fun _ => ⟨hcursor.ge, hclosed ▸ closedLe_refl _⟩⟩

/-- A closed sequence that passes the check of an advance and is in order. -/
theorem closes_sound {d : Chunk} {sequence : ℕ} {u : Unit} (hlayout : LayoutInv c groups)
    (hcheck : checkClosedSequence d cursor sequence = .ok u) (hsame : d.strips = c.strips)
    (horder : closesInOrder sequence c.strips = true) :
    closedLe d.closedStripSequence (some sequence) = true ∧ sequence < c.nextStripSequence ∧
      ∀ s ∈ c.strips, (s.stripSequence ≤ sequence → s.stop * 1024 ≤ cursor) ∧
        (cursor ≤ s.stop * 1024 → sequence ≤ s.stripSequence) := by
  obtain ⟨hforward, t, ht, hend⟩ :=
    checkClosedSequence_ok hcheck fun s hs => hlayout.stop_lt (hsame ▸ hs)
  rw [hsame] at ht
  have hknown := hlayout.below _ (mem_append_left _ (mem_map_of_mem (mem_of_find?_eq_some ht)))
  have hseq : t.stripSequence = sequence := by simpa using find?_some ht
  exact ⟨hforward, hseq ▸ hknown, (closesInOrder_sound hlayout.tiles horder ht hend).2⟩

/-- The strips kept by a seal hold every byte below the boundary. -/
theorem seal_within {sealBytes : ℕ} (hlayout : LayoutInv c groups)
    (hlen : (sealBytes + 1023) / 1024 ≤ c.capacity) :
    (sealBytes + 1023) / 1024 ≤ total capacity
      (c.strips.take (trimIndex c.strips ((sealBytes + 1023) / 1024))) := by
  have hcover := hlayout.tiles.cover_of_cut (n := (sealBytes + 1023) / 1024)
    (by rw [Nat.zero_add, ← hlayout.capacity_eq]; exact hlen) (fun x => trimIndex_stop)
  rwa [Nat.zero_add] at hcover

lemma seal_moves {sealBytes nowMs : ℕ} (h : CursorInv c groups) (hlayout : LayoutInv c groups)
    (hseal : sealChunkAtBoundary c sealBytes nowMs = .ok c') :
    CursorInv c' groups ∧ CursorMove c c' := by
  obtain ⟨hactive, hlen, hforward, rfl⟩ := sealChunkAtBoundary_eq hseal
  have hwithin := seal_within hlayout hlen
  set sealLength := (sealBytes + 1023) / 1024 with hsealLength
  set kept := c.strips.take (trimIndex c.strips sealLength) with hkept
  have hle : total capacity kept ≤ total capacity c.strips := total_take_le ..
  have hbounded := hlayout.bounded
  have hsum : sumCapacity kept = total capacity kept := sumCapacity_eq (by omega)
  have htiles := hlayout.tiles
  rw [← take_append_drop (trimIndex c.strips sealLength) c.strips, tiles_append] at htiles
  have hextent := sealWrittenStrips_extent nowMs sealLength kept
  have htotal := total_of_extent hextent
  unfold closeAcknowledgedStrips
  split
  · refine ⟨⟨?_, fun h => by simp at h, h.reserved⟩, rfl, fun ht => ⟨hforward ht, closedLe_refl _⟩⟩
    simp only
    omega
  · refine ⟨⟨?_, fun h => by simp at h, h.reserved⟩, rfl, fun ht => ⟨hforward ht, ?_⟩⟩
    · simp only
      omega
    · -- the last closed strip holds the byte before the boundary, so it reaches the cursor
      have hlast := @closeAcknowledged_last sealBytes nowMs 0 _
        (tiles_of_extent hextent htiles.1) (by omega) (by omega) c.closedStripSequence
      simp only
      rcases hlast with ⟨hlast, -⟩ | ⟨s, hs, hlast, -, hhi⟩
      · rw [hlast]
        exact closedLe_refl _
      · rw [hlast]
        obtain ⟨t, ht', hoff, hcap, hseq, -⟩ := exists_of_extent hextent hs
        cases hclosed : c.closedStripSequence with
        | none => rfl
        | some q =>
          have hreach : c.acknowledgedCursor ≤ t.stop * 1024 := by
            rw [stop, hoff, hcap]
            exact (hforward ht).trans hhi
          have := (h.writing hactive).ahead q hclosed t (mem_of_mem_take ht') hreach
          simpa [closedLe, ← hseq] using this

lemma advance_moves {r : AdvanceRequest} {nowMs : ℕ} (h : CursorInv c groups)
    (hlayout : LayoutInv c groups)
    (hguard : (r.closedStripSequence.all fun sequence => closesInOrder sequence c.strips) = true)
    (hadvance : advanceChunkWrite c r nowMs = .ok c') : CursorInv c' groups ∧ CursorMove c c' := by
  obtain ⟨hge, hle, ⟨-, rfl⟩ | ⟨sequence, hclosed, hcheck, rfl⟩⟩ := advanceChunkWrite_eq hadvance
  · refine ⟨⟨hle, fun ha => ?_, h.reserved⟩, rfl, fun _ => ⟨hge, closedLe_refl _⟩⟩
    have w := h.writing ha
    exact ⟨fun s hs hsealed => (w.closed s hs hsealed).trans hge, w.known,
      fun q hq s hs hreach => w.ahead q hq s hs (hge.trans hreach)⟩
  · rw [hclosed] at hguard
    obtain ⟨hforward, hknown, horder⟩ := closes_sound hlayout hcheck rfl hguard
    refine ⟨⟨hle, fun ha => ⟨fun x hx hsealed => ?_, fun q hq => ?_, fun q hq x hx => ?_⟩,
      h.reserved⟩, rfl, fun _ => ⟨hge, hforward⟩⟩
    · obtain ⟨s, hs, rfl⟩ := mem_map.mp hx
      by_cases hcond : s.stripSequence ≤ sequence ∧ s.sealedTsMs = 0
      · rw [if_pos hcond]
        exact (horder s hs).1 hcond.1
      · rw [if_neg hcond] at hsealed ⊢
        exact ((h.writing ha).closed s hs hsealed).trans hge
    · obtain rfl := some.inj hq
      exact hknown
    · obtain rfl := some.inj hq
      obtain ⟨s, hs, hoff, hcap, hseq, -⟩ := exists_of_extent (closeStrips_extent ..) hx
      rw [stop, ← hoff, ← hcap, ← hseq]
      exact (horder s hs).2

/-- The strips of a published conversion end with the last strip of its group. -/
theorem conversionStrip_stop {g : StripReservationGroup} {first : ChunkStrip}
    {rest : List ChunkStrip} {start nowMs : ℕ} (selected : List Segment)
    (assessment : PlacementAssessment) (hlayout : LayoutInv c groups)
    (hstrips : g.strips = first :: rest)
    (hsame : Forall₂ (fun x y => sameReservedLayout x y = true)
      ((c.strips.drop start).take g.strips.length) g.strips) :
    ∃ last, g.strips.getLast? = some last ∧ last.stop < 2 ^ 32 ∧
      (conversionStrip g first selected assessment nowMs).stop = last.stop := by
  have htiles := hlayout.tiles
  have hbounded := hlayout.bounded
  rw [take_append_take_drop (l := c.strips) (i := start) (n := g.strips.length) rfl]
    at htiles hbounded
  simp only [tiles_append, total_append, LayoutInv.total_of_sameReservedLayout hsame]
    at htiles hbounded
  have hgroup := LayoutInv.tiles_of_sameReservedLayout hsame htiles.1.2
  obtain ⟨last, hlast⟩ : ∃ last, g.strips.getLast? = some last :=
    Option.isSome_iff_exists.mp (by simp [hstrips])
  have hend := hgroup.end_eq hlast
  have hfirst : first.chunkOffset = 0 + total capacity (c.strips.take start) := by
    rw [hstrips] at hgroup
    exact hgroup.1
  refine ⟨last, hlast, ?_, ?_⟩
  · unfold stop
    omega
  · rw [stop, stop, hend, conversionStrip, sumCapacity_eq (by omega), hfirst]

/-- A confirmation that an advance would accept. -/
theorem confirm_moves {update : ReservationUpdate} (w : WriterInv c)
    (hlayout : LayoutInv c' groups')
    (hcursor : c.acknowledgedCursor < update.acknowledgedCursor)
    (hguard : confirmsLikeAdvance { c with strips := c'.strips } update = true)
    (hstrips : ∀ s ∈ c'.strips, s ∈ c.strips ∨ s.sealedTsMs = 0)
    (hcursor' : c'.acknowledgedCursor = update.acknowledgedCursor)
    (hclosed' : c'.closedStripSequence = update.closedStripSequence) :
    WriterInv c' ∧ closedLe c.closedStripSequence c'.closedStripSequence = true := by
  have hbelow : ∀ s ∈ c'.strips, s.sealedTsMs ≠ 0 → s.stop * 1024 ≤ c'.acknowledgedCursor := by
    intro s hs hsealed
    have := w.closed s ((hstrips s hs).resolve_right hsealed) hsealed
    omega
  unfold confirmsLikeAdvance at hguard
  split at hguard
  · next hnone =>
    simp only [isNone_iff_eq_none] at hguard
    rw [hguard, hclosed']
    exact ⟨⟨hbelow, by simp [hclosed', hnone], by simp [hclosed', hnone]⟩, rfl⟩
  · next sequence hsome =>
    rw [Bool.and_eq_true] at hguard
    obtain ⟨u, hcheck⟩ := isSome_iff_exists.mp hguard.1
    obtain ⟨hforward, hknown, horder⟩ :=
      closes_sound hlayout (toOption_eq_some.mp hcheck) rfl hguard.2
    rw [hclosed', hsome]
    refine ⟨⟨hbelow, fun q hq => ?_, fun q hq s hs hreach => ?_⟩, hforward⟩
    · obtain rfl := some.inj (hsome.symm.trans (hclosed'.symm.trans hq))
      exact hknown
    · obtain rfl := some.inj (hsome.symm.trans (hclosed'.symm.trans hq))
      exact (horder s hs).2 (hcursor' ▸ hreach)

/-- The strips change and neither the cursor nor the closed sequence does. -/
theorem WriterInv.edit (new : List ChunkStrip) (w : WriterInv c)
    (hstrips : ∀ s ∈ c'.strips, s ∈ c.strips ∨ s ∈ new)
    (hcursor : c'.acknowledgedCursor = c.acknowledgedCursor)
    (hclosed : c'.closedStripSequence = c.closedStripSequence)
    (hnext : c.nextStripSequence ≤ c'.nextStripSequence)
    (hbelow : ∀ s ∈ new, s.sealedTsMs ≠ 0 → s.stop * 1024 ≤ c.acknowledgedCursor)
    (hahead : ∀ q < c.nextStripSequence, c.closedStripSequence = some q → ∀ s ∈ new,
      c.acknowledgedCursor ≤ s.stop * 1024 → q ≤ s.stripSequence) : WriterInv c' := by
  refine ⟨fun s hs => ?_, fun q hq => (w.known q (hclosed ▸ hq)).trans_le hnext,
    fun q hq s hs => ?_⟩
  · rw [hcursor]
    exact (hstrips s hs).elim (w.closed s) (hbelow s)
  · rw [hclosed] at hq
    rw [hcursor]
    exact (hstrips s hs).elim (w.ahead q hq s) (hahead q (w.known q hq) hq s)

lemma replace_moves {r : ReplaceRequest} {nowMs : ℕ} (h : CursorInv c groups)
    (hlayout : LayoutInv c groups) (hguard : replacesInPlace c r = true)
    (hreplace : replaceChunkStripRange cfg c r nowMs = .ok c') :
    CursorInv c' groups ∧ CursorMove c c' := by
  have hkeep := (hlayout.replace hreplace).2
  obtain ⟨next, -, hnew, hrange, hgeometry, hsequences, rfl⟩ := replaceChunkStripRange_eq hreplace
  simp only [replacesInPlace, Bool.and_eq_true, List.all_eq_true, Bool.or_eq_true,
    decide_eq_true_eq, List.any_eq_true] at hguard
  obtain ⟨hsealed, hfirst⟩ := hguard
  obtain ⟨x, new, hx⟩ := exists_cons_of_ne_nil hnew
  rw [hx] at hsequences
  obtain ⟨-, hfresh, hnext⟩ := validateReplacementSequences_sound hsequences
  have hold : ∀ o ∈ r.oldStrips, o ∈ c.strips := fun o ho =>
    mem_of_mem_drop (mem_of_mem_take (hrange ▸ ho))
  refine ⟨⟨by rw [hkeep]; exact h.within, fun ha => ?_, h.reserved⟩, .kept rfl rfl rfl⟩
  have w := h.writing ha
  refine w.edit _ (fun s => mem_splice) rfl rfl hnext (fun s hs hs0 => ?_)
    fun q hknown hq s hs hreach => ?_
  · obtain ⟨o, ho, ho0, hle⟩ := (hsealed s hs).resolve_left hs0
    exact (Nat.mul_le_mul_right _ hle).trans (w.closed o (hold o ho) ho0)
  · rw [hx] at hs
    rcases mem_cons.mp hs with rfl | hs
    · -- the first strip keeps its sequence and, at the cursor, reaches no further than before
      have hseq : r.oldStrips.head?.map stripSequence = some s.stripSequence := by
        simp only [validateReplacementGeometry, bind_eq_ok, ensure_eq_ok] at hgeometry
        obtain ⟨-, ⟨-, -, hseq⟩, -⟩ := hgeometry
        simpa [hx] using hseq
      obtain ⟨o, ho, hos⟩ := map_eq_some_iff.mp hseq
      simp only [hx, head?_cons, ho, all_some, decide_eq_true_eq] at hfirst
      have hstop : s.stop ≤ o.stop := hfirst.resolve_right hreach.not_gt
      rw [← hos]
      exact w.ahead q hq o (hold o (mem_of_mem_head? ho))
        (hreach.trans (Nat.mul_le_mul_right _ hstop))
    · exact hknown.le.trans (hfresh s hs).1

/-- Every published record keeps the discipline when its request is careful. -/
theorem CursorInv.publishes {a : ChunkAction} (h : CursorInv c groups)
    (hlayout : LayoutInv c groups) (hguard : carefulAction c groups a = true)
    (hbounded : total capacity c'.strips < 2 ^ 32)
    (hpub : Publishes cfg c groups a c' groups') : CursorInv c' groups' ∧ CursorMove c c' := by
  have hlayout' := hlayout.publishes hpub hbounded
  cases hpub with
  | append hallocated happend =>
    obtain ⟨hnext, rfl⟩ := publishAppended_eq happend
    refine ⟨⟨?_, fun ha => ?_, h.reserved⟩, .kept rfl rfl rfl⟩
    · refine h.within.trans (Nat.mul_le_mul_right 1024 ?_)
      have hcap := hlayout'.capacity_eq
      simp only [total_append, ← hlayout.capacity_eq] at hcap
      exact hcap ▸ Nat.le_add_right ..
    · refine (h.writing ha).edit _ (fun s => mem_append.mp) rfl rfl ?_ (fun s hs hs0 => ?_)
        fun q hknown _ s hs _ => ?_
      · exact (appendSequence_ge hnext).trans (Nat.le_add_right ..)
      · obtain ⟨t, ht, o, rfl⟩ := mem_assignStripOffsets hs
        exact absurd (allocatedFrom_mem hallocated ht).1 hs0
      · have hseq := mem_map_of_mem (f := stripSequence) hs
        rw [assignStripOffsets_sequence, allocatedFrom_sequence hallocated, mem_range'_1] at hseq
        exact hknown.le.trans ((appendSequence_ge hnext).trans hseq.1)
  | advance hadvance => exact advance_moves h hlayout hguard hadvance
  | reserve hallocated _ hreserve =>
    obtain ⟨offset, hnext, rfl, rfl⟩ := publishNewGroup_eq hreserve
    refine ⟨⟨h.within, fun ha => ?_, forall_mem_upsert h.reserved fun s hs => ?_⟩,
      .kept rfl rfl rfl⟩
    · exact (h.writing ha).edit [] (fun s => .inl) rfl rfl (hnext ▸ Nat.le_add_right ..) nofun
        nofun
    · obtain ⟨t, ht, o, rfl⟩ := mem_assignStripOffsets hs
      exact (allocatedFrom_mem hallocated ht).1
  | @confirm groupId fence update inputs g g' index strip _ _ haction hg hstrip hnamed _ _ hactive
      hconfirm hgroups =>
    obtain ⟨-, hlt, hle, rfl, rfl⟩ := confirmReservedStrip_eq hconfirm
    have hreserved := h.reserved g (findGroup_mem hg)
    simp only [carefulAction, haction, ChunkAction.added, hg, bind_some, hnamed] at hguard
    have hmoves := confirm_moves (h.writing hactive) hlayout' hlt hguard (fun s hs => ?_) rfl rfl
    · refine ⟨⟨hle, fun _ => hmoves.1, ?_⟩, rfl, fun _ => ⟨hlt.le, hmoves.2⟩⟩
      rcases hgroups with rfl | rfl
      · exact forall_mem_upsert h.reserved hreserved
      · exact forall_mem_dropKey h.reserved
    · rcases mem_append.mp hs with hs | hs
      · exact .inl hs
      · obtain rfl : s = strip := by simpa using hs
        exact .inr (hreserved s (mem_of_getElem? hstrip))
  | @publish _ _ _ _ g _ haction hg _ hpublish =>
    have hkeep := (hlayout.publish hpublish).2
    obtain ⟨first, rest, start, selected, assessment, hstrips, hstop, hsame, hend, -, rfl⟩ :=
      publishConversionGroup_eq hpublish
    refine ⟨⟨by rw [hkeep]; exact h.within, fun ha => ?_, forall_mem_dropKey h.reserved⟩,
      .kept rfl rfl rfl⟩
    obtain ⟨last, hlast, hlt, heq⟩ :=
      conversionStrip_stop selected assessment hlayout hstrips hsame
    have hrange := hend last hlast
    rw [satAdd32_eq hlt] at hrange
    simp only [carefulAction, haction, hg, all_some, hlast, decide_eq_true_eq] at hguard
    refine (h.writing ha).edit _ (fun s => mem_splice) rfl rfl le_rfl (fun s hs hs0 => ?_)
      fun q _ _ s hs hreach => ?_
    · rw [mem_singleton.mp hs] at hs0
      exact absurd rfl hs0
    · rw [mem_singleton.mp hs, heq] at hreach
      exact absurd (le_antisymm hrange hreach) hguard
  | replace hreplace => exact replace_moves h hlayout hguard hreplace
  | @replaceReserved _ _ old replacement g _ _ _ hold hnew _ hg hindex hreplace =>
    obtain ⟨-, -, rfl, rfl⟩ := replaceReservedStrip_eq hreplace
    refine ⟨⟨h.within, fun ha => { h.writing ha with },
      forall_mem_upsert h.reserved (forall_mem_set (h.reserved g hg) ?_)⟩, .kept rfl rfl rfl⟩
    have hopen := h.reserved g hg old (mem_of_getElem? hindex)
    simp only [carefulAction, replacesInPlace, Bool.and_eq_true] at hguard
    simpa [hold, hnew, hopen] using hguard.1
  | sealAt hseal => exact seal_moves h hlayout hseal
  | cleanup =>
    exact ⟨⟨h.within, fun ha => { h.writing ha with }, h.reserved⟩, .kept rfl rfl rfl⟩

end Published

/-! ## Runs -/

def CursorState (m : MetaState) : Prop :=
  ∀ c, m.chunk = some c → CursorInv c m.groups

lemma newChunk_cursorInv {r : AllocateRequest} {allocated : List ChunkStrip} {nowMs : ℕ}
    (hallocated : allocatedFrom 0 allocated = true) :
    CursorInv (newChunk r allocated nowMs) [] := by
  refine ⟨Nat.zero_le _, fun _ => ⟨fun s hs hsealed => ?_, nofun, nofun⟩,
    fun g hg => absurd hg not_mem_nil⟩
  obtain ⟨t, ht, o, rfl⟩ := mem_assignStripOffsets hs
  exact absurd (allocatedFrom_mem hallocated ht).1 hsealed

lemma CursorInv.regroup {c : Chunk} {groups groups' : List StripReservationGroup}
    (h : CursorInv c groups) (hre : Regroups groups groups') : CursorInv c groups' := by
  refine ⟨h.within, h.writing, ?_⟩
  cases hre with
  | @rewrite g₀ _ hg₀ _ hstrips =>
    exact forall_mem_upsert h.reserved (hstrips ▸ h.reserved g₀ hg₀)
  | drop => exact forall_mem_dropKey h.reserved

/-- A careful step keeps the invariant, and moves the cursor and the closed sequence of a
chunk that is there only forward. -/
theorem CursorState.step {cfg : LifecycleConfig} {m t : MetaState} {a : MetaAction}
    (hcache : CacheOk m) (hlayout : LayoutState m) (h : CursorState m)
    (hguard : carefulCursor m a = true) (hstep : metaStep cfg m a = some t) :
    CursorState t ∧ ∀ c, m.chunk = some c → ∃ c', t.chunk = some c' ∧ CursorMove c c' := by
  simp only [carefulCursor, Bool.and_eq_true] at hguard
  have hbounded := bounded_of_fits hcache hlayout hguard.1 hstep
  have hguard := hguard.2
  unfold LayoutState at hlayout
  cases (metaStep_moves hcache hstep).1 with
  | quiet hchunk hgroups =>
    refine ⟨fun c hc => ?_, fun c hc => ⟨c, hchunk.trans hc, .kept rfl rfl rfl⟩⟩
    rw [hgroups]
    exact h c (hchunk ▸ hc)
  | allocate hnone hallocated hchunk hgroups =>
    rw [hnone] at hlayout
    refine ⟨fun c hc => ?_, fun c hc => absurd (hnone.symm.trans hc) (by simp)⟩
    rw [hchunk, some.injEq] at hc
    rw [hgroups, hlayout, ← hc]
    exact newChunk_cursorInv hallocated
  | @publish _ _ c c' _ hc hacquire _ hpub hchunk =>
    rw [hc] at hlayout
    simp only [MetaState.bounded, hchunk, all_some, decide_eq_true_eq] at hbounded
    simp only [hacquire] at hguard
    obtain ⟨hinv, hmove⟩ := (h c hc).publishes hlayout hguard hbounded hpub
    refine ⟨fun d hd => ?_, fun d hd => ⟨c', hchunk, ?_⟩⟩
    · rw [hchunk, some.injEq] at hd
      exact hd ▸ hinv
    · rw [hc, some.injEq] at hd
      exact hd ▸ hmove
  | regroup hchunk hre =>
    exact ⟨fun c hc => (h c (hchunk ▸ hc)).regroup hre,
      fun c hc => ⟨c, hchunk.trans hc, .kept rfl rfl rfl⟩⟩

lemma cursor_of_reach {cfg : LifecycleConfig} {m : MetaState}
    (h : (metaSystem cfg).Reach (fun m a => carefulCursor m a = true) m) :
    LayoutState m ∧ CursorState m := by
  refine h.invariant_of (J := fun m => LayoutState m ∧ CursorState m)
    (fun s => cacheOk_of_reach) ?_ ?_
  · rintro s rfl
    exact ⟨rfl, fun c hc => by simp at hc⟩
  · intro s a t hcache _ hs hguard hstep
    have hfits := hguard
    simp only [carefulCursor, Bool.and_eq_true] at hfits
    have hbounded := bounded_of_fits hcache hs.1 hfits.1 hstep
    exact ⟨hs.1.step hcache hstep hbounded, (hs.2.step hcache hs.1 hguard hstep).1⟩

/-- In every careful run the cursor lies inside the chunk, the strips closed before the
seal end at or below it, and a careful step on an active chunk of a log or a stream moves
the cursor and the closed sequence only forward. -/
theorem cursor_discipline {cfg : LifecycleConfig} {m : MetaState} {c : Chunk}
    (h : (metaSystem cfg).Reach (fun m a => carefulCursor m a = true) m)
    (hc : m.chunk = some c) :
    c.acknowledgedCursor ≤ c.capacity * 1024 ∧
    (c.state = .active → ∀ s ∈ c.strips, s.sealedTsMs ≠ 0 → s.stop * 1024 ≤ c.acknowledgedCursor) ∧
    ∀ a t, carefulCursor m a = true → (metaSystem cfg).step m a = some t →
      c.state = .active → (c.chunkType = .wal ∨ c.chunkType = .stream) →
      ∃ c', t.chunk = some c' ∧ c.acknowledgedCursor ≤ c'.acknowledgedCursor ∧
        closedLe c.closedStripSequence c'.closedStripSequence = true := by
  obtain ⟨hlayout, hcursor⟩ := cursor_of_reach h
  refine ⟨(hcursor c hc).within, fun ha => ((hcursor c hc).writing ha).closed,
    fun a t hguard hstep _ htype => ?_⟩
  obtain ⟨c', hc', hmove⟩ := (hcursor.step (cacheOk_of_reach h) hlayout hguard hstep).2 c hc
  exact ⟨c', hc', hmove.forward htype⟩

/-! ## Examples -/

/-- Two strips of four KB. -/
def allocateTwo : MetaAction :=
  .allocate exampleAllocation
    [exampleStrip 0 0 [exampleSegment 0], exampleStrip 1 0 [exampleSegment 1]] 1 true

def exampleAdvance (revision cursor : ℕ) (closed : Option ℕ) : MetaAction :=
  .operate (.advance ⟨1, revision, cursor, closed, 1000⟩ 5) true

theorem cursor_discipline_sealed : ∃ m c t c', (metaSystem exampleConfig).Reach
        (fun m a => carefulCursor m a = true) m ∧ m.chunk = some c ∧
      c.state = .active ∧
      (metaSystem exampleConfig).step m (.operate (.sealAt 6000 9) true) = some t ∧
      t.chunk = some c' ∧ c.acknowledgedCursor ≤ c'.acknowledgedCursor := by
  have hreach := System.reach_runGuarded (S := metaSystem exampleConfig)
    (g := carefulCursor) [allocateTwo, exampleAdvance 1 5000 (some 0)] rfl
  have hstep := (cursor_discipline hreach (some_get (by decide +kernel)).symm).2.2
    (.operate (.sealAt 6000 9) true) _ (by decide +kernel) (some_get (by decide +kernel)).symm
    (by decide +kernel) (.inr (by decide +kernel))
  obtain ⟨c', hc', hle, -⟩ := hstep
  exact ⟨_, _, _, c', hreach, (some_get _).symm, by decide +kernel, (some_get _).symm, hc', hle⟩

def smallStrip (sequence offset segment : ℕ) : ChunkStrip :=
  { exampleStrip sequence offset [{ exampleSegment segment with unitCount := 2 }]
    with capacity := 2 }

/-- The first strip is split in two, the second half with a fresh sequence, and the writer
closes that half with the cursor at its end. -/
def closeMiddle : List MetaAction :=
  [allocateTwo, .operate (.replace ⟨1, 0, [exampleStrip 0 0 [exampleSegment 0]],
     [smallStrip 0 0 2, smallStrip 2 2 3], ⟨3, 3⟩, true⟩ 2) true,
   exampleAdvance 2 4096 (some 2)]

/-- Both reserved strips are attached, the second without a closed sequence. -/
def confirmWithoutClose : List MetaAction :=
  reserveTwo ++ [exampleMutation 2 1 .consume 8192, exampleMutation 2 1 .confirm 8192,
    exampleMutation 3 2 .consume 12288]

def confirmOpen : MetaAction :=
  .operate (.mutate ⟨2, 2⟩ (exampleFence 3) ⟨2, .confirm, 12288, none⟩
    ⟨exampleTopology, 1⟩) true

/-- An advance closes a strip behind the cursor, and a confirmation removes the closed
sequence. -/
theorem cursor_discipline_broken : (∃ m c s, (metaSystem exampleConfig).Reach
        (fun m a => m.fits a = true) m ∧
      m.chunk = some c ∧ c.state = .active ∧ s ∈ c.strips ∧ s.sealedTsMs ≠ 0 ∧
      c.acknowledgedCursor < s.stop * 1024) ∧
    ∃ m c t c', (metaSystem exampleConfig).Reach
        (fun m a => m.fits a = true) m ∧
      m.chunk = some c ∧ c.state = .active ∧
      (metaSystem exampleConfig).step m confirmOpen = some t ∧
      t.chunk = some c' ∧ closedLe c.closedStripSequence c'.closedStripSequence = false := by
  constructor
  · refine ⟨_, _, getLast _ ?_, System.reach_runGuarded closeMiddle rfl, (some_get ?chunk).symm,
      ?_, getLast_mem _, ?_, ?_⟩
    case chunk => decide +kernel
    all_goals decide +kernel
  · refine ⟨_, _, _, _, System.reach_runGuarded confirmWithoutClose rfl, (some_get ?_).symm, ?_,
      (some_get ?_).symm, (some_get ?_).symm, ?_⟩
    all_goals decide +kernel

end CrowDB.ChunkDb
