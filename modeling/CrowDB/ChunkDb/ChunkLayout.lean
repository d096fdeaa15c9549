import CrowDB.ChunkDb.MetadataMoves

/-!
# The layout of a chunk

In every run whose total capacity stays below `2 ^ 32` KB the strips tile the chunk from
offset zero, the capacity is their sum, and the sequences of the attached and of the
outstanding strips are distinct and below the next sequence. The copies of each strip
are disjoint as long as a conversion is published of a group on disjoint segments: the
publication does not check them, although a replacement with the same strip would.
-/
namespace CrowDB.ChunkDb
open Lib Lib.Tiling List Option ChunkStrip StripReservationGroup
open DiskDb (ChunkId)

/-! ## Where a strip lies and what it holds -/

/-- The part of a strip that sealing leaves alone. -/
structure StripExtent where
  offset : ℕ
  capacity : ℕ
  sequence : ℕ
  segments : List Segment

def ChunkStrip.extent (s : ChunkStrip) : StripExtent :=
  ⟨s.chunkOffset, s.capacity, s.stripSequence, extractSegments s⟩

lemma closeStrips_extent (sequence nowMs : ℕ) (strips : List ChunkStrip) :
    (closeStrips sequence nowMs strips).map extent = strips.map extent := by
  unfold closeStrips
  rw [List.map_map]
  refine map_congr_left fun s _ => ?_
  simp only [Function.comp_apply]
  split <;> rfl

lemma sealWrittenStrips_extent (nowMs remaining : ℕ) (strips : List ChunkStrip) :
    (sealWrittenStrips nowMs remaining strips).map extent =
      strips.map extent := by
  induction strips generalizing remaining with
  | nil => rfl
  | cons s _ ih =>
    simp only [sealWrittenStrips]
    split
    · rfl
    · simp only [map_cons, ih]
      rcases hs : s.strip with - | (_ | _) <;>
        simp [extent, extractSegments, Strip.markParity, hs]

lemma closeAcknowledged_extent (cursor nowMs : ℕ) (lastClosed : Option ℕ)
    (strips : List ChunkStrip) :
    (closeAcknowledged cursor nowMs lastClosed strips).1.map extent =
      strips.map extent := by
  induction strips generalizing lastClosed with
  | nil => rfl
  | cons _ _ ih =>
    simp only [closeAcknowledged]
    split
    · rfl
    · split
      · rfl
      · simp only [map_cons, ih]
        rfl

variable {s : ChunkStrip}

section Alike
variable {l l' : List ChunkStrip} (h : l'.map ChunkStrip.extent = l.map ChunkStrip.extent)
include h

lemma map_sequence_of_extent :
    l'.map stripSequence = l.map stripSequence := by
  have := congrArg (map StripExtent.sequence) h
  simpa [Function.comp_def, extent] using this

lemma tiles_of_extent {a : ℕ} (ht : Tiles chunkOffset capacity a l) :
    Tiles chunkOffset capacity a l' := by
  have hl : Tiles StripExtent.offset StripExtent.capacity a (l.map extent) :=
    tiles_map.mpr ht
  rwa [← h, tiles_map] at hl

lemma total_of_extent : total capacity l' = total capacity l := by
  have hl := congrArg (total StripExtent.capacity) h
  rwa [total_map, total_map] at hl

lemma exists_of_extent (hs : s ∈ l') :
    ∃ t ∈ l, t.chunkOffset = s.chunkOffset ∧ t.capacity = s.capacity ∧
      t.stripSequence = s.stripSequence ∧ extractSegments t = extractSegments s := by
  have hmem : s.extent ∈ l.map extent := h ▸ mem_map_of_mem hs
  obtain ⟨t, ht, he⟩ := mem_map.mp hmem
  simp only [extent, StripExtent.mk.injEq] at he
  exact ⟨t, ht, he.1, he.2.1, he.2.2.1, he.2.2.2⟩

end Alike

/-! ## Allocated strips -/

lemma assignStripOffsets_map {β : Type*} (f : ChunkStrip → β)
    (hf : ∀ (s : ChunkStrip) (o : ℕ), f { s with chunkOffset := o } = f s) (offset : ℕ)
    (strips : List ChunkStrip) :
    (assignStripOffsets offset strips).map f = strips.map f := by
  induction strips generalizing offset with
  | nil => rfl
  | cons _ _ ih => simp [assignStripOffsets, ih, hf]

section
variable (offset : ℕ) (strips : List ChunkStrip)
include offset strips

lemma assignStripOffsets_total : total capacity (assignStripOffsets offset strips) =
      total capacity strips := by
  rw [total, total, assignStripOffsets_map capacity fun _ _ => rfl]

lemma assignStripOffsets_sequence : (assignStripOffsets offset strips).map stripSequence =
      strips.map stripSequence :=
  assignStripOffsets_map _ (fun _ _ => rfl) ..

lemma assignStripOffsets_length : (assignStripOffsets offset strips).length = strips.length := by
  simpa using congrArg length (assignStripOffsets_sequence offset strips)

end

variable {strips : List ChunkStrip}

lemma assignStripOffsets_tiles {offset : ℕ}
    (h : offset + total capacity strips < 2 ^ 32) :
    Tiles chunkOffset capacity offset (assignStripOffsets offset strips) := by
  induction strips generalizing offset with
  | nil => simp [assignStripOffsets]
  | cons _ _ ih =>
    rw [total_cons] at h
    rw [assignStripOffsets, satAdd32_eq (by omega)]
    exact ⟨rfl, ih (by simp only; omega)⟩

/-- Each assigned strip is one of the allocated ones at a new offset. -/
theorem mem_assignStripOffsets {offset : ℕ} (hs : s ∈ assignStripOffsets offset strips) :
    ∃ t ∈ strips, ∃ o, s = { t with chunkOffset := o } := by
  induction strips generalizing offset with
  | nil => simp [assignStripOffsets] at hs
  | cons t _ ih =>
    rcases mem_cons.mp hs with rfl | hs
    · exact ⟨t, mem_cons_self, offset, rfl⟩
    · obtain ⟨u, hu, o, rfl⟩ := ih hs
      exact ⟨u, mem_cons_of_mem _ hu, o, rfl⟩

variable {start : ℕ}

lemma allocatedFrom_sequence (h : allocatedFrom start strips = true) :
    strips.map stripSequence = range' start strips.length := by
  induction strips generalizing start with
  | nil => rfl
  | cons _ _ ih =>
    simp only [allocatedFrom, Bool.and_eq_true, decide_eq_true_eq] at h
    simp [range'_succ, ih h.2, h.1.1]

lemma allocatedFrom_mem (h : allocatedFrom start strips = true) (hs : s ∈ strips) :
    s.sealedTsMs = 0 ∧ DisjointCopies (extractSegments s) := by
  induction strips generalizing start with
  | nil => simp at hs
  | cons _ _ ih =>
    simp only [allocatedFrom, Bool.and_eq_true, decide_eq_true_eq] at h
    rcases mem_cons.mp hs with rfl | hs
    · exact h.1.2
    · exact ih h.2 hs

/-! ## Outstanding strips -/

def reservedSequences (g : StripReservationGroup) : List ℕ :=
  (outstanding g).map ChunkStrip.stripSequence

lemma outstanding_subset (g : StripReservationGroup) : outstanding g ⊆ g.strips := by
  intro s hs
  obtain ⟨⟨t, st⟩, ht, rfl⟩ := mem_map.mp hs
  exact (of_mem_zip (mem_of_mem_filter ht)).1

variable {index : ℕ} {strip : ChunkStrip}

/-- Confirming a consumed strip takes exactly that strip out of the outstanding ones. -/
theorem outstanding_confirm_perm {g : StripReservationGroup}
    (hstrip : g.strips[index]? = some strip) (hstate : g.states[index]? = some .consumed) :
    (outstanding g).Perm
      (strip :: outstanding { g with states := g.states.set index .confirmed }) := by
  obtain ⟨before, after, hall⟩ := outstanding_around hstrip hstate
  have hnew := hall strip .confirmed
  have hold := hall strip .consumed
  rw [set_self hstrip] at hnew hold
  rw [set_self hstate] at hold
  rw [outstanding, outstanding, hnew, hold]
  simp

/-- Replacing a strip by one with the same sequence keeps the outstanding sequences. -/
theorem outstanding_replace_sequence {g : StripReservationGroup} {old new : ChunkStrip}
    (hold : g.strips[index]? = some old) (hseq : new.stripSequence = old.stripSequence) :
    reservedSequences { g with strips := g.strips.set index new } = reservedSequences g := by
  have hmap : ∀ strips : List ChunkStrip,
      (((strips.zip g.states).filter fun x => x.2 = .reserved ∨ x.2 = .consumed).map Prod.fst).map
        stripSequence =
      (((strips.map stripSequence).zip g.states).filter fun x =>
        x.2 = .reserved ∨ x.2 = .consumed).map Prod.fst := by
    simp [zip_map_left, List.filter_map, Function.comp_def]
  rw [reservedSequences, reservedSequences, outstanding, outstanding, hmap, hmap, map_set, hseq,
    set_self (by rw [getElem?_map, hold]; rfl)]

/-! ## The invariant -/

/-- The sequences of the attached and of the outstanding strips. -/
def heldSequences (c : Chunk) (groups : List StripReservationGroup) : List ℕ :=
  c.strips.map ChunkStrip.stripSequence ++ groups.flatMap reservedSequences

structure LayoutInv (c : Chunk) (groups : List StripReservationGroup) : Prop where
  tiles : Tiles ChunkStrip.chunkOffset ChunkStrip.capacity 0 c.strips
  capacity_eq : c.capacity = total ChunkStrip.capacity c.strips
  bounded : total ChunkStrip.capacity c.strips < 2 ^ 32
  distinct : (heldSequences c groups).Nodup
  below : ∀ n ∈ heldSequences c groups, n < c.nextStripSequence

lemma LayoutInv.stop_lt {c : Chunk} {groups : List StripReservationGroup} (h : LayoutInv c groups)
    (hs : s ∈ c.strips) : s.stop < 2 ^ 32 := by
  have := h.tiles.stop_le hs
  rw [Nat.zero_add] at this
  exact this.trans_lt h.bounded

lemma take_append_take_drop {α : Type*} {l old : List α} {i n : ℕ}
    (h : (l.drop i).take n = old) : l = l.take i ++ old ++ l.drop (i + n) := by
  rw [← h, append_assoc, ← drop_drop, take_append_drop, take_append_drop]

variable {cfg : LifecycleConfig} {g : StripReservationGroup} {allocated : List ChunkStrip}
  {g' : StripReservationGroup}

/-- The appended sequences start at the next sequence of the chunk. -/
theorem appendSequence_ge {observed c : Chunk}
    (h : observed.nextStripSequence = c.nextStripSequence) :
    c.nextStripSequence ≤ appendSequence observed := by
  unfold appendSequence
  split <;> omega

namespace LayoutInv
variable {c c' : Chunk} {groups groups' : List StripReservationGroup}

/-- Sequences are kept, and fresh ones are added. -/
theorem grow (h : LayoutInv c groups) (fresh : List ℕ)
    (htiles : Tiles chunkOffset capacity 0 c'.strips)
    (hcapacity : c'.capacity = total capacity c'.strips)
    (hbounded : total capacity c'.strips < 2 ^ 32) (hnodup : fresh.Nodup)
    (hfresh : ∀ n ∈ fresh, c.nextStripSequence ≤ n ∧ n < c'.nextStripSequence)
    (hnext : c.nextStripSequence ≤ c'.nextStripSequence)
    (hcount : ∀ n, (heldSequences c' groups').count n ≤
      (heldSequences c groups).count n + fresh.count n) : LayoutInv c' groups' := by
  refine ⟨htiles, hcapacity, hbounded, ?_, ?_⟩
  · refine nodup_iff_count_le_one.mpr fun n => (hcount n).trans ?_
    have hold := nodup_iff_count_le_one.mp h.distinct n
    have hnew := nodup_iff_count_le_one.mp hnodup n
    by_cases hn : n ∈ fresh
    · have hnot : n ∉ heldSequences c groups := fun hmem =>
        absurd (h.below n hmem) (not_lt.mpr (hfresh n hn).1)
      rw [count_eq_zero_of_not_mem hnot]
      omega
    · rw [count_eq_zero_of_not_mem hn]
      omega
  · intro n hn
    have hpos := (count_pos_iff.mpr hn).trans_le (hcount n)
    by_cases hmem : n ∈ fresh
    · exact (hfresh n hmem).2
    · rw [count_eq_zero_of_not_mem hmem] at hpos
      exact (h.below n (count_pos_iff.mp hpos)).trans_le hnext

/-- The groups change and no sequence is added. -/
theorem keep (h : LayoutInv c groups) (hcount : ∀ n, (groups'.flatMap reservedSequences).count n ≤
      (groups.flatMap reservedSequences).count n) : LayoutInv c groups' := by
  refine h.grow [] h.tiles h.capacity_eq h.bounded nodup_nil nofun le_rfl fun n => ?_
  simpa [heldSequences] using hcount n

lemma count_regroups (hre : Regroups groups groups') (n : ℕ) :
    (groups'.flatMap reservedSequences).count n ≤ (groups.flatMap reservedSequences).count n := by
  cases hre with
  | @rewrite g g' hg hid _ hsub =>
    have hle : (reservedSequences g').count n ≤ (reservedSequences g).count n :=
      (hsub.map _).count_le n
    have := count_dropKey_add_le groupId (f := reservedSequences) hg n
    rw [putGroup, count_upsert, hid]
    omega
  | drop => exact count_dropKey_le ..

section
variable (h : LayoutInv c groups)
include h

/-- The groups may lose outstanding strips. -/
theorem regroup (hre : Regroups groups groups') : LayoutInv c groups' := h.keep (count_regroups hre)

/-- A record with the same extents, as far as it keeps them, and no smaller next sequence. -/
theorem of_extent_sublist {kept : List ChunkStrip} {k : ℕ} (hkept : kept = c.strips.take k)
    (hextent : c'.strips.map extent = kept.map extent)
    (hcapacity : c'.capacity = total capacity kept)
    (hnext : c'.nextStripSequence = c.nextStripSequence) : LayoutInv c' groups := by
  subst hkept
  have htiles := h.tiles
  rw [← take_append_drop k c.strips, tiles_append] at htiles
  have htotal := total_of_extent hextent
  have hle : total capacity (c.strips.take k) ≤ total capacity c.strips :=
    total_take_le ..
  have hbounded := h.bounded
  refine h.grow [] (tiles_of_extent hextent htiles.1) (hcapacity.trans htotal.symm) (by omega)
    nodup_nil nofun hnext.ge fun n => ?_
  have := ((take_sublist k c.strips).map stripSequence).count_le n
  simpa [heldSequences, map_sequence_of_extent hextent] using this

lemma append {observed : Chunk}
    (hallocated : allocatedFrom (appendSequence observed) allocated = true)
    (happend : publishAppended observed c allocated = .ok c')
    (hbounded : total capacity c'.strips < 2 ^ 32) : LayoutInv c' groups := by
  obtain ⟨hnext, rfl⟩ := publishAppended_eq happend
  have hstart := appendSequence_ge hnext
  set added := assignStripOffsets c.capacity allocated with hadded
  have hseq : added.map stripSequence =
      range' (appendSequence observed) allocated.length := by
    rw [assignStripOffsets_sequence, allocatedFrom_sequence hallocated]
  have htotal : total capacity added = total capacity allocated :=
    assignStripOffsets_total ..
  simp only [total_append] at hbounded
  refine h.grow (range' (appendSequence observed) allocated.length)
    (tiles_append .. |>.mpr ⟨h.tiles, ?_⟩) (sumCapacity_eq (by simp only [total_append]; omega))
    (by simp only [total_append]; omega)
    (nodup_range' ..) (fun n hn => ?_) (by simp only; omega) fun n => ?_
  · rw [Nat.zero_add, ← h.capacity_eq]
    exact assignStripOffsets_tiles (by rw [h.capacity_eq]; omega)
  · rw [mem_range'_1] at hn
    exact ⟨hstart.trans hn.1, hn.2⟩
  · simp only [heldSequences, map_append, count_append, hseq]
    omega

variable {nowMs : ℕ}

lemma reserve {p : PendingReserve} {resources : ReservedResources}
    (hallocated : allocatedFrom p.observed.nextStripSequence resources.strips = true)
    (hcount : resources.strips.length = p.spec.stripCount)
    (hpublish : publishNewGroup p.observed c p.groupId p.fence p.spec resources nowMs =
      .ok (c', g)) : LayoutInv c' (putGroup g groups) := by
  obtain ⟨offset, hnext, hg, rfl⟩ := publishNewGroup_eq hpublish
  have hsub : (reservedSequences g).Sublist (range' c.nextStripSequence p.spec.stripCount) := by
    rw [← hcount, hnext, ← allocatedFrom_sequence hallocated,
      ← assignStripOffsets_sequence offset resources.strips]
    refine Sublist.map _ ?_
    rw [hg]
    refine (filter_sublist.map Prod.fst).trans ?_
    rw [map_fst_zip (by simp [newGroup, assignStripOffsets_length])]
    exact Sublist.refl _
  refine h.grow _ h.tiles h.capacity_eq h.bounded (nodup_range' ..)
    (fun n hn => hnext ▸ mem_range'_1.mp hn) (hnext ▸ Nat.le_add_right ..) fun n => ?_
  have hfresh := hsub.count_le n
  have hdrop := count_dropKey_le groupId (f := reservedSequences)
    g.groupId groups n
  simp only [heldSequences, putGroup, count_append, count_upsert]
  omega

lemma confirm {groupId : ChunkId} {update : ReservationUpdate}
    (hg : findGroup groups groupId = some g) (hstrip : g.strips[index]? = some strip)
    (hstate : g.states[index]? = some .consumed)
    (hconfirm : confirmReservedStrip c g index strip update = .ok (c', g'))
    (hgroups : groups' = putGroup g' groups ∨ groups' = deleteGroup groupId groups)
    (hbounded : total capacity c'.strips < 2 ^ 32) : LayoutInv c' groups' := by
  obtain ⟨hoff, -, -, rfl, rfl⟩ := confirmReservedStrip_eq hconfirm
  have hmem := findGroup_mem hg
  have hid := findGroup_id hg
  have hperm : (reservedSequences g).Perm (strip.stripSequence ::
      reservedSequences { g with states := g.states.set index .confirmed }) :=
    (outstanding_confirm_perm hstrip hstate).map stripSequence
  simp only [total_append] at hbounded
  refine h.grow [] (tiles_append .. |>.mpr ⟨h.tiles, ?_⟩) ?_ (by simpa using hbounded) nodup_nil
    nofun le_rfl fun n => ?_
  · simp [hoff, h.capacity_eq]
  · simp only [total_append, h.capacity_eq]
    exact satAdd32_eq hbounded
  · have hdrop := count_dropKey_add_le StripReservationGroup.groupId (f := reservedSequences) hmem n
    have hcount := hperm.count_eq n
    rw [count_cons] at hcount
    simp only [heldSequences, map_append, map_cons, map_nil, count_append, count_singleton]
    rcases hgroups with rfl | rfl
    · simp only [putGroup, count_upsert]
      omega
    · rw [deleteGroup, ← hid]
      omega

/-- A range of strips is replaced by strips that tile the same range, the first with the
sequence of the first strip and the others with fresh sequences; the capacity stays. -/
theorem splice {o r : ChunkStrip} {old new : List ChunkStrip}
    (hrange : (c.strips.drop start).take (o :: old).length = o :: old)
    (htiles : Tiles chunkOffset capacity o.chunkOffset (r :: new))
    (htotal : total capacity (r :: new) = total capacity (o :: old))
    (hfirst : r.stripSequence = o.stripSequence) (hnodup : ((r :: new).map stripSequence).Nodup)
    (hfresh : ∀ s ∈ new, c.nextStripSequence ≤ s.stripSequence ∧
      s.stripSequence < c'.nextStripSequence)
    (hnext : c.nextStripSequence ≤ c'.nextStripSequence)
    (hstrips : c'.strips = splice c.strips start (start + (o :: old).length) (r :: new))
    (hcapacity : c'.capacity = sumCapacity c'.strips) :
    LayoutInv c' groups ∧ c'.capacity = c.capacity := by
  have hsplit := take_append_take_drop hrange
  set pre := c.strips.take start
  set post := c.strips.drop (start + (o :: old).length)
  have hc' : c'.strips = pre ++ (r :: new) ++ post := hstrips
  have htotal' : total capacity c'.strips = total capacity c.strips := by
    rw [hc']
    conv_rhs => rw [hsplit]
    simp only [total_append, htotal]
  have hpre : o.chunkOffset = 0 + total capacity pre := by
    have := h.tiles
    rw [hsplit] at this
    simp only [tiles_append] at this
    exact this.1.2.1
  have hcapacity' := hcapacity.trans (sumCapacity_eq (htotal' ▸ h.bounded))
  refine ⟨h.grow _ ?_ hcapacity' (htotal' ▸ h.bounded) (nodup_cons.mp hnodup).2 (fun n hn => ?_)
    hnext fun n => ?_, hcapacity'.trans (htotal'.trans h.capacity_eq.symm)⟩
  · rw [hc']
    have := h.tiles
    rw [hsplit] at this
    exact this.replace (hpre ▸ htiles) htotal
  · obtain ⟨s, hs, rfl⟩ := mem_map.mp hn
    exact hfresh s hs
  · rw [heldSequences, heldSequences, hc']
    conv_rhs => rw [hsplit]
    simp only [map_append, map_cons, count_append, count_cons, hfirst]
    omega

lemma replace {r : ReplaceRequest} (hreplace : replaceChunkStripRange cfg c r nowMs = .ok c') :
    LayoutInv c' groups ∧ c'.capacity = c.capacity := by
  obtain ⟨next, hold, hnew, hrange, hgeometry, hsequences, rfl⟩ :=
    replaceChunkStripRange_eq hreplace
  obtain ⟨o, old, ho⟩ := exists_cons_of_ne_nil hold
  obtain ⟨x, new, hx⟩ := exists_cons_of_ne_nil hnew
  rw [ho] at hrange hgeometry
  rw [hx] at hgeometry hsequences
  have htotal : total capacity (o :: old) < 2 ^ 32 := by
    have hbounded := h.bounded
    rw [take_append_take_drop hrange] at hbounded
    simp only [total_append] at hbounded
    omega
  obtain ⟨htiles, hsum, hfirst⟩ := validateReplacementGeometry_sound hgeometry htotal
  obtain ⟨hnodup, hfresh, hnext⟩ := validateReplacementSequences_sound hsequences
  have hstop : r.stopIndex = r.startIndex + (o :: old).length := by
    rw [ReplaceRequest.stopIndex, ho]
  refine h.splice hrange htiles hsum (by simpa using hfirst) hnodup hfresh hnext ?_ rfl
  simp [hx, hstop]

end

lemma total_of_sameReservedLayout {l l' : List ChunkStrip}
    (h : Forall₂ (fun x y => sameReservedLayout x y = true) l l') :
    total capacity l = total capacity l' := by
  induction h with
  | nil => rfl
  | cons hxy _ ih =>
    simp only [sameReservedLayout, decide_eq_true_eq] at hxy
    rw [total_cons, total_cons, ih, hxy.2.2.2.1]

lemma tiles_of_sameReservedLayout {l l' : List ChunkStrip} {a : ℕ}
    (h : Forall₂ (fun x y => sameReservedLayout x y = true) l l')
    (ht : Tiles chunkOffset capacity a l) : Tiles chunkOffset capacity a l' := by
  induction h generalizing a with
  | nil => trivial
  | cons hxy _ ih =>
    simp only [sameReservedLayout, decide_eq_true_eq] at hxy
    exact ⟨hxy.1 ▸ ht.1, ih (hxy.2.2.2.1 ▸ ht.2)⟩

lemma publish {topology : TopologySnapshot} (h : LayoutInv c groups)
    (hpublish : publishConversionGroup cfg c g topology nowMs = .ok c') :
    LayoutInv c' groups ∧ c'.capacity = c.capacity := by
  obtain ⟨first, rest, start, selected, assessment, hstrips, hstop, hsame, -, -, rfl⟩ :=
    publishConversionGroup_eq hpublish
  have hlen : ((c.strips.drop start).take g.strips.length).length = g.strips.length := by
    rw [length_take, length_drop]
    omega
  obtain ⟨o, old, ho⟩ : ∃ o old, (c.strips.drop start).take g.strips.length = o :: old := by
    refine exists_cons_of_ne_nil fun hnil => ?_
    rw [hnil, hstrips] at hlen
    simp at hlen
  have hlen' : g.strips.length = (o :: old).length := by rw [← ho, hlen]
  have hcapacities : total capacity (o :: old) = total capacity g.strips := by
    rw [← ho]
    exact total_of_sameReservedLayout hsame
  have hhead : o.chunkOffset = first.chunkOffset ∧ o.stripSequence = first.stripSequence := by
    rw [ho, hstrips] at hsame
    have hof := (forall₂_cons.mp hsame).1
    simp only [sameReservedLayout, decide_eq_true_eq] at hof
    exact ⟨hof.1, hof.2.1⟩
  have hbounded := h.bounded
  rw [take_append_take_drop ho] at hbounded
  simp only [total_append] at hbounded
  have hcapacity : (conversionStrip g first selected assessment nowMs).capacity =
      total capacity g.strips := sumCapacity_eq (by omega)
  rw [hlen'] at ho
  have htiles : Tiles chunkOffset capacity o.chunkOffset
      [conversionStrip g first selected assessment nowMs] := ⟨hhead.1.symm, trivial⟩
  refine h.splice ho htiles ?_ hhead.2.symm (by simp) (by simp) le_rfl ?_ rfl
  · rw [hcapacities, total_cons, total_nil, hcapacity, Nat.add_zero]
  · simp [hlen']

lemma replaceReserved {old replacement : ChunkStrip} {op : ChunkId} {retire : Bool}
    (h : LayoutInv c groups) (hg : g ∈ groups) (hindex : g.strips[index]? = some old)
    (hreplace : replaceReservedStrip cfg c g index old replacement op retire nowMs = .ok (c', g')) :
    LayoutInv c' (putGroup g' groups) := by
  obtain ⟨-, hseq, rfl, rfl⟩ := replaceReservedStrip_eq hreplace
  have hsame := outstanding_replace_sequence hindex hseq
  suffices LayoutInv c (putGroup { g with strips := g.strips.set index replacement } groups) from
    { this with }
  refine h.keep fun n => ?_
  have := count_dropKey_add_le groupId (f := reservedSequences) hg n
  rw [putGroup, count_upsert, hsame]
  omega

lemma closeAcknowledgedStrips_fields (c : Chunk) (nowMs : ℕ) :
    (closeAcknowledgedStrips c nowMs).strips.map extent = c.strips.map extent ∧
      (closeAcknowledgedStrips c nowMs).capacity = c.capacity ∧
      (closeAcknowledgedStrips c nowMs).nextStripSequence = c.nextStripSequence := by
  unfold closeAcknowledgedStrips
  split
  · exact ⟨rfl, rfl, rfl⟩
  · exact ⟨closeAcknowledged_extent .., rfl, rfl⟩

lemma sealAt {sealBytes : ℕ} (h : LayoutInv c groups)
    (hseal : sealChunkAtBoundary c sealBytes nowMs = .ok c') : LayoutInv c' groups := by
  obtain ⟨-, -, -, rfl⟩ := sealChunkAtBoundary_eq hseal
  set k := trimIndex c.strips ((sealBytes + 1023) / 1024)
  refine h.of_extent_sublist (k := k) rfl ?_ ?_ ?_
  · rw [(closeAcknowledgedStrips_fields ..).1]
    exact sealWrittenStrips_extent ..
  · rw [(closeAcknowledgedStrips_fields ..).2.1]
    exact sumCapacity_eq ((total_take_le k c.strips).trans_lt h.bounded)
  · exact (closeAcknowledgedStrips_fields ..).2.2

lemma advance {r : AdvanceRequest} (h : LayoutInv c groups)
    (hadvance : advanceChunkWrite c r nowMs = .ok c') : LayoutInv c' groups := by
  obtain ⟨-, -, ⟨-, rfl⟩ | ⟨sequence, -, -, rfl⟩⟩ := advanceChunkWrite_eq hadvance
  · exact { h with }
  · refine h.of_extent_sublist take_length.symm ?_ h.capacity_eq rfl
    exact closeStrips_extent ..

lemma newChunk {r : AllocateRequest} (hallocated : allocatedFrom 0 allocated = true)
    (hbounded : total capacity (newChunk r allocated nowMs).strips < 2 ^ 32) :
    LayoutInv (newChunk r allocated nowMs) [] := by
  simp only [ChunkDb.newChunk] at hbounded ⊢
  have htotal := assignStripOffsets_total 0 allocated
  refine
    { tiles := assignStripOffsets_tiles (by omega)
      capacity_eq := sumCapacity_eq hbounded
      bounded := hbounded
      distinct := ?_
      below := ?_ }
  all_goals simp only [heldSequences, flatMap_nil, append_nil, assignStripOffsets_sequence,
    allocatedFrom_sequence hallocated, assignStripOffsets_length]
  · exact nodup_range' ..
  · intro n hn
    have := mem_range'_1.mp hn
    omega

/-- Every published record keeps the layout. -/
theorem publishes {a : ChunkAction} (h : LayoutInv c groups)
    (hpub : Publishes cfg c groups a c' groups')
    (hbounded : total capacity c'.strips < 2 ^ 32) : LayoutInv c' groups' := by
  cases hpub with
  | append hallocated happend => exact h.append hallocated happend hbounded
  | advance hadvance => exact h.advance hadvance
  | reserve hallocated hcount hreserve => exact h.reserve hallocated hcount hreserve
  | confirm _ hg hstrip _ hstate _ _ hconfirm hgroups =>
    exact h.confirm hg hstrip hstate hconfirm hgroups hbounded
  | publish _ _ _ hpublish => exact (h.publish hpublish).1.regroup (.drop _)
  | replace hreplace => exact (h.replace hreplace).1
  | replaceReserved _ _ _ hg hindex hreplace => exact h.replaceReserved hg hindex hreplace
  | sealAt hseal => exact h.sealAt hseal
  | cleanup => exact { h with }

end LayoutInv

/-! ## Copies -/

/-- The copies of a group's strips, followed by its parity. -/
def StripReservationGroup.segments (g : StripReservationGroup) : List Segment :=
  g.strips.flatMap mirrorSegments ++ g.paritySegments

structure CopiesInv (c : Chunk) (groups : List StripReservationGroup) : Prop where
  strips : ∀ s ∈ c.strips, DisjointCopies (extractSegments s)
  reserved : ∀ g ∈ groups, ∀ s ∈ outstanding g, DisjointCopies (extractSegments s)

lemma mem_outstanding :
    s ∈ outstanding g ↔ ∃ (i : ℕ) (st : StripReservationState), g.strips[i]? = some s ∧
      g.states[i]? = some st ∧ (st = .reserved ∨ st = .consumed) := by
  constructor
  · intro hs
    obtain ⟨⟨t, st⟩, hmem, rfl⟩ := mem_map.mp hs
    obtain ⟨hzip, hst⟩ := mem_filter.mp hmem
    obtain ⟨i, hi⟩ := mem_iff_getElem?.mp hzip
    obtain ⟨ht, hsts⟩ := getElem?_zip_eq_some.mp hi
    exact ⟨i, st, ht, hsts, by simpa using hst⟩
  · rintro ⟨i, st, hs, hst, hout⟩
    have hzip : (s, st) ∈ g.strips.zip g.states :=
      mem_of_getElem? (getElem?_zip_eq_some.mpr ⟨hs, hst⟩)
    exact mem_map.mpr ⟨(s, st), mem_filter.mpr ⟨hzip, by simpa using hout⟩, rfl⟩

lemma mem_outstanding_replace {new : ChunkStrip}
    (hs : s ∈ outstanding { g with strips := g.strips.set index new }) :
    s = new ∨ s ∈ outstanding g := by
  obtain ⟨i, st, hi, hst, hout⟩ := mem_outstanding.mp hs
  simp only [getElem?_set] at hi
  split at hi
  · split at hi
    · exact .inl (by simpa using hi.symm)
    · simp at hi
  · exact .inr (mem_outstanding.mpr ⟨i, st, hi, hst, hout⟩)

namespace CopiesInv
variable {c c' : Chunk} {groups groups' : List StripReservationGroup}

section
variable (h : CopiesInv c groups)
include h

lemma regroup (hre : Regroups groups groups') : CopiesInv c groups' := by
  refine ⟨h.strips, ?_⟩
  cases hre with
  | @rewrite g₀ _ hg₀ _ _ hsub =>
    exact forall_mem_upsert h.reserved fun s hs => h.reserved g₀ hg₀ s (hsub.subset hs)
  | drop => exact forall_mem_dropKey h.reserved

lemma of_extent {k : ℕ} (hextent : c'.strips.map extent = (c.strips.take k).map extent) :
    CopiesInv c' groups := by
  refine ⟨fun s hs => ?_, h.reserved⟩
  obtain ⟨t, ht, -, -, -, hseg⟩ := exists_of_extent hextent hs
  exact hseg ▸ h.strips t (mem_of_mem_take ht)

/-- Every published record keeps the copies disjoint, when a conversion is of a group on
disjoint segments. -/
theorem publishes {a : ChunkAction} (hpub : Publishes cfg c groups a c' groups')
    (hdisjoint : ∀ groupId fence update inputs, a = .mutate groupId fence update inputs →
      update.action = .publish → ∀ g, findGroup groups groupId = some g →
      DisjointCopies g.segments) : CopiesInv c' groups' := by
  cases hpub with
  | append hallocated happend =>
    obtain ⟨-, rfl⟩ := publishAppended_eq happend
    refine ⟨fun s hs => ?_, h.reserved⟩
    rcases mem_append.mp hs with hs | hs
    · exact h.strips s hs
    · obtain ⟨t, ht, o, rfl⟩ := mem_assignStripOffsets hs
      exact (allocatedFrom_mem hallocated ht).2
  | advance hadvance =>
    obtain ⟨-, -, ⟨-, rfl⟩ | ⟨sequence, -, -, rfl⟩⟩ := advanceChunkWrite_eq hadvance
    · exact ⟨h.strips, h.reserved⟩
    · exact h.of_extent (by
        rw [take_length]
        exact closeStrips_extent ..)
  | reserve hallocated _ hreserve =>
    obtain ⟨offset, -, rfl, rfl⟩ := publishNewGroup_eq hreserve
    refine ⟨h.strips, forall_mem_upsert h.reserved fun s hs => ?_⟩
    obtain ⟨t, ht, o, rfl⟩ := mem_assignStripOffsets (outstanding_subset _ hs)
    exact (allocatedFrom_mem hallocated ht).2
  | @confirm groupId _ _ _ g _ _ strip _ _ _ hg hstrip _ hstate _ _ hconfirm hgroups =>
    obtain ⟨-, -, -, rfl, rfl⟩ := confirmReservedStrip_eq hconfirm
    have hperm := outstanding_confirm_perm hstrip hstate
    have hre : Regroups groups groups' := by
      rcases hgroups with rfl | rfl
      · exact .rewrite (findGroup_mem hg) rfl rfl (outstanding_set_sublist hstrip hstate (by simp))
      · exact .drop groupId
    refine ⟨fun s hs => ?_, (h.regroup hre).reserved⟩
    rcases mem_append.mp hs with hs | hs
    · exact h.strips s hs
    · obtain rfl : s = strip := by simpa using hs
      exact h.reserved g (findGroup_mem hg) s (hperm.mem_iff.mpr mem_cons_self)
  | @publish groupId fence update inputs g _ haction hg _ hpublish =>
    obtain ⟨first, rest, start, selected, assessment, -, -, -, -, hselected, rfl⟩ :=
      publishConversionGroup_eq hpublish
    refine ⟨fun s hs => ?_, (h.regroup (.drop groupId)).reserved⟩
    rcases mem_splice hs with hs | hs
    · exact h.strips s hs
    · rw [mem_singleton.mp hs]
      exact (hdisjoint groupId fence update inputs rfl haction g hg).sublist
        (hselected.append_right _)
  | replace hreplace =>
    obtain ⟨next, -, -, -, hgeometry, -, rfl⟩ := replaceChunkStripRange_eq hreplace
    exact ⟨fun s hs => (mem_splice hs).elim (h.strips s)
      (validateReplacementGeometry_copies hgeometry s), h.reserved⟩
  | replaceReserved _ _ _ hg _ hreplace =>
    obtain ⟨hgeometry, -, rfl, rfl⟩ := replaceReservedStrip_eq hreplace
    refine ⟨h.strips, forall_mem_upsert h.reserved fun s hs => ?_⟩
    rcases mem_outstanding_replace hs with rfl | hs
    · exact validateReplacementGeometry_copies hgeometry s mem_cons_self
    · exact h.reserved _ hg s hs
  | sealAt hseal =>
    obtain ⟨-, -, -, rfl⟩ := sealChunkAtBoundary_eq hseal
    exact h.of_extent (((LayoutInv.closeAcknowledgedStrips_fields ..).1).trans
      (sealWrittenStrips_extent ..))
  | cleanup => exact ⟨h.strips, h.reserved⟩

end

end CopiesInv

/-! ## Runs -/

/-- The total capacity of the chunk fits its field. -/
def MetaState.bounded (m : MetaState) : Bool :=
  m.chunk.all fun c => total ChunkStrip.capacity c.strips < 2 ^ 32

/-- A conversion is published of a group whose strips and parity share no unit. -/
def disjointPublication (m : MetaState) : MetaAction → Bool
  | .operate (.mutate groupId _ update _) _ =>
    decide (update.action = .publish) → (findGroup m.groups groupId).all fun g =>
      DisjointCopies g.segments
  | _ => true

def carefulLayout (cfg : LifecycleConfig) (m : MetaState) (a : MetaAction) : Bool :=
  (metaStep cfg m a).all MetaState.bounded && disjointPublication m a

/-- The layout of a chunk together with the strips that are reserved for it. -/
structure ChunkLayout (c : Chunk) (groups : List StripReservationGroup) : Prop where
  contiguous : Tiles ChunkStrip.chunkOffset ChunkStrip.capacity 0 c.strips
  capacity_eq : c.capacity = total ChunkStrip.capacity c.strips
  distinct : ((c.strips ++ groups.flatMap outstanding).map ChunkStrip.stripSequence).Nodup
  below : ∀ s ∈ c.strips ++ groups.flatMap outstanding, s.stripSequence < c.nextStripSequence
  copies : ∀ s ∈ c.strips, DisjointCopies (extractSegments s)
  located : ∀ p < c.capacity * 1024, ∃! i : ℕ, ∃ s, c.strips[i]? = some s ∧
    s.chunkOffset * 1024 ≤ p ∧ p < s.stop * 1024

lemma flatMap_reservedSequences (groups : List StripReservationGroup) :
    groups.flatMap reservedSequences = (groups.flatMap outstanding).map stripSequence := by
  rw [map_flatMap]
  rfl

lemma LayoutInv.layout {c : Chunk} {groups : List StripReservationGroup} (h : LayoutInv c groups)
    (hcopies : CopiesInv c groups) : ChunkLayout c groups where
  contiguous := h.tiles
  capacity_eq := h.capacity_eq
  distinct := by
    rw [map_append, ← flatMap_reservedSequences]
    exact h.distinct
  below := by
    intro s hs
    refine h.below _ ?_
    rw [heldSequences, flatMap_reservedSequences, ← map_append]
    exact mem_map_of_mem hs
  copies := hcopies.strips
  located := by
    intro p hp
    rw [h.capacity_eq] at hp
    have hunique := h.tiles.existsUnique (Nat.zero_le (p / 1024)) (by omega)
    refine (existsUnique_congr fun i => exists_congr fun s => ?_).mp hunique
    unfold stop
    refine and_congr_right fun _ => ?_
    omega

def LayoutState (m : MetaState) : Prop :=
  match m.chunk with
  | none => m.groups = []
  | some c => LayoutInv c m.groups

/-- The layout without the copies needs only the bound on the capacity. -/
theorem LayoutState.step {m t : MetaState} {a : MetaAction} (hcache : CacheOk m) (h : LayoutState m)
    (hstep : metaStep cfg m a = some t) (hbounded : t.bounded = true) : LayoutState t := by
  unfold LayoutState at h ⊢
  unfold MetaState.bounded at hbounded
  cases (metaStep_moves hcache hstep).1 with
  | quiet hchunk hgroups => rwa [hchunk, hgroups]
  | allocate hnone hallocated hchunk hgroups =>
    rw [hnone] at h
    rw [hchunk] at hbounded
    rw [hchunk, hgroups, h]
    exact LayoutInv.newChunk hallocated (by simpa using hbounded)
  | publish hc _ _ hpub hchunk =>
    rw [hc] at h
    rw [hchunk] at hbounded ⊢
    exact h.publishes hpub (by simpa using hbounded)
  | regroup hchunk hre =>
    rw [hchunk]
    cases hc : m.chunk with
    | none =>
      rw [hc] at h
      rw [h] at hre
      generalize hgs : t.groups = groups' at hre
      cases hre with
      | rewrite hg => exact absurd hg not_mem_nil
      | drop => rfl
    | some =>
      rw [hc] at h
      exact h.regroup hre

def CopiesState (m : MetaState) : Prop := ∀ c, m.chunk = some c → CopiesInv c m.groups

lemma CopiesState.step {m t : MetaState} {a : MetaAction} (hcache : CacheOk m)
    (hlayout : LayoutState m) (h : CopiesState m) (hstep : metaStep cfg m a = some t)
    (hdisjoint : disjointPublication m a = true) : CopiesState t := by
  intro d hd
  cases (metaStep_moves hcache hstep).1 with
  | quiet hchunk hgroups => exact hgroups ▸ h d (hchunk ▸ hd)
  | allocate hnone hallocated hchunk hgroups =>
    unfold LayoutState at hlayout
    rw [hnone] at hlayout
    rw [hchunk, some.injEq] at hd
    rw [hgroups, hlayout, ← hd]
    refine ⟨fun s hs => ?_, fun g hg => absurd hg not_mem_nil⟩
    obtain ⟨t, ht, o, rfl⟩ := mem_assignStripOffsets hs
    exact (allocatedFrom_mem hallocated ht).2
  | publish hc _ _ hpub hchunk =>
    obtain rfl := some.inj (hchunk.symm.trans hd)
    refine (h _ hc).publishes hpub ?_
    rintro groupId fence update inputs rfl haction g hg
    simpa [disjointPublication, haction, hg] using hdisjoint
  | regroup hchunk hre => exact (h d (hchunk ▸ hd)).regroup hre

/-- In every run that keeps the capacity below `2 ^ 32` KB and publishes only conversions
of groups on disjoint segments, the chunk is laid out. -/
theorem chunk_layout_kept {cfg : LifecycleConfig} {m : MetaState} {c : Chunk}
    (h : (metaSystem cfg).Reach (fun m a => carefulLayout cfg m a = true) m)
    (hc : m.chunk = some c) : ChunkLayout c m.groups := by
  have hboth : LayoutState m ∧ CopiesState m := by
    refine h.invariant_of (J := fun m => LayoutState m ∧ CopiesState m)
      (fun s => cacheOk_of_reach) ?_ ?_
    · rintro s rfl
      exact ⟨rfl, fun c hc => by simp at hc⟩
    · intro s a t hcache _ hs hguard hstep
      simp only [carefulLayout, Bool.and_eq_true] at hguard
      have hbounded : t.bounded = true := by
        have hall := hguard.1
        rwa [show metaStep cfg s a = some t from hstep] at hall
      exact ⟨hs.1.step hcache hstep hbounded, hs.2.step hcache hs.1 hstep hguard.2⟩
  have hlayout := hboth.1
  unfold LayoutState at hlayout
  rw [hc] at hlayout
  exact hlayout.layout (hboth.2 c hc)

/-! ## A conversion of two strips -/

def exampleConfig : LifecycleConfig := ⟨none, 1000, false, false⟩

/-- The first units of the disk `n`. -/
def exampleSegment (n : ℕ) : Segment := ⟨some ⟨0, n⟩, 0, 0, 4, some ⟨1, 1⟩, 1⟩

/-- Five disks, each in a disk group, a node and a rack of its own. -/
def exampleTopology : TopologySnapshot :=
  { diskGroups := (range 5).map fun n => ⟨n, n, n, true⟩
    nodesUp := (range 5).map fun n => (n, n)
    racksUp := range 5
    diskioDeadlines := []
    disks := (range 5).map fun n => (⟨0, n⟩, ⟨n, n⟩)
    generation := 1
    dgForDisk := (range 5).map fun n => (⟨0, n⟩, n) }

def exampleStrip (sequence offset : ℕ) (segments : List Segment) : ChunkStrip :=
  { chunkOffset := offset
    stripSequence := sequence
    unitKb := 1
    capacity := 4
    createTsMs := 1
    sealedTsMs := 0
    sealedLength := 0
    stripType := .mirror
    strip := some (.mirrorStrip segments)
    usageBitmap := []
    unavailableSegments := []
    placementPriority := .rackFirst
    placementAssessment := none
    placementRepairRequired := false }

def exampleAllocation : AllocateRequest := ⟨⟨1, 1⟩, .stream, 1, 1000, []⟩

def exampleChunk : Chunk := newChunk exampleAllocation [exampleStrip 0 0 [exampleSegment 0]] 1

def exampleFence (revision : ℕ) : ReservationFence := ⟨revision, 1, 1, 1000⟩

def exampleMutation (revision sequence : ℕ) (action : StripReservationAction) (cursor : ℕ) :
    MetaAction :=
  .operate (.mutate ⟨2, 2⟩ (exampleFence revision) ⟨sequence, action, cursor, some sequence⟩
    ⟨exampleTopology, 1⟩) true

/-- A chunk of one strip and a group of two strips reserved for a conversion. -/
def reserveTwo : List MetaAction :=
  [.allocate exampleAllocation [exampleStrip 0 0 [exampleSegment 0]] 1 true,
   .planReserve ⟨2, 2⟩ (exampleFence 1) ⟨none, 4, 2, 1, 2, 2⟩,
   .operate (.reserve ⟨⟨2, 2⟩, exampleFence 1, ⟨none, 4, 2, 1, 2, 2⟩, exampleChunk⟩
     ⟨[exampleStrip 1 0 [exampleSegment 1], exampleStrip 2 0 [exampleSegment 2]],
      [exampleSegment 3, exampleSegment 4], [0, 0]⟩ 1) true]

/-- Both strips are written, attached from the given revision on, and converted. -/
def convertTwo (revision : ℕ) : List MetaAction :=
  [exampleMutation revision 1 .consume 8192, exampleMutation revision 1 .confirm 8192,
   exampleMutation (revision + 1) 2 .consume 12288,
   exampleMutation (revision + 1) 2 .confirm 12288,
   exampleMutation (revision + 2) 1 .publish 0]

theorem chunk_layout_kept_converted :
    ∃ m c, (metaSystem exampleConfig).Reach (fun m a => carefulLayout exampleConfig m a = true) m ∧
      m.chunk = some c ∧ c.strips.map ChunkStrip.capacity = [4, 8] ∧ ChunkLayout c m.groups := by
  have hreach := System.reach_runGuarded (S := metaSystem exampleConfig)
    (g := carefulLayout exampleConfig) (reserveTwo ++ convertTwo 2) rfl
  refine ⟨_, _, hreach, (some_get ?_).symm, ?_, chunk_layout_kept hreach (some_get _).symm⟩
  all_goals decide +kernel

/-- The second reserved strip is replaced by one on the segment of the first. -/
def replaceSecond : MetaAction :=
  .operate (.replace ⟨2, 2, [exampleStrip 2 8 [exampleSegment 2]],
    [exampleStrip 2 8 [exampleSegment 1]], ⟨3, 3⟩, true⟩ 1) true

/-- A published conversion lists a segment twice: the replacement of the reserved strip is
checked for itself, and the publication, which may lose two segments of a disk, does not
check that they are distinct. -/
theorem conversion_doubles_segment : ∃ m c s, (metaSystem exampleConfig).Reach
        (fun m a => (metaStep exampleConfig m a).all MetaState.bounded = true) m ∧
      m.chunk = some c ∧ s ∈ c.strips ∧ ¬ DisjointCopies (extractSegments s) := by
  refine ⟨_, _, getLast _ ?_, System.reach_runGuarded
    (reserveTwo ++ replaceSecond :: convertTwo 3) rfl,
    (some_get ?chunk).symm, getLast_mem _, ?_⟩
  case chunk => decide +kernel
  all_goals decide +kernel

end CrowDB.ChunkDb
