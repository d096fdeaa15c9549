import CrowDB.Wal.FooterSearch

/-!
# Recovering a segment

The reader sees the file through its read-ahead buffer, so every peek is a prefix of the
bytes from the read offset on. A frame cannot be taken for a text line: its fifth byte
belongs to the magic number. Hence the records come back in order, whatever the batches,
and what follows them (a footer, zeros, a cut frame) ends the reading.
-/
namespace CrowDB.Wal
open Paxos Lib List SegmentWriter

/-! ## The read-ahead buffer -/

/-- The buffer holds the bytes of the file from its offset on. -/
def SegmentReadBuffer.Sound (b : SegmentReadBuffer) (file : Bytes) : Prop :=
  b.bytes = (file.drop b.offset).take b.bytes.length

lemma SegmentReadBuffer.read_spec {b : SegmentReadBuffer} {file : Bytes} {offset length : ℕ}
    (hb : b.Sound file) (hoff : offset ≤ file.length) (hlen : length ≤ file.length - offset) :
    ∃ b' : SegmentReadBuffer, b.read file offset length =
      some ((file.drop offset).take length, b') ∧ b'.Sound file := by
  unfold SegmentReadBuffer.read
  split
  · next hin =>
    obtain ⟨hle, -, hfit⟩ := hin
    refine ⟨b, congrArg (fun x => some (x, b)) ?_, hb⟩
    rw [hb, drop_take, drop_drop, take_take, Nat.add_sub_cancel' hle, min_eq_left hfit]
  · rw [if_neg (not_lt.mpr hoff), if_neg (not_lt.mpr hlen)]
    refine ⟨_, congrArg (fun x => some (x, _)) ?_, ?_⟩
    · rw [take_take, min_eq_left (le_max_left _ _)]
    · change take _ _ = take (take _ _).length _
      rw [length_take, take_eq_take_min]

namespace SegmentReader
variable {C : Checksum} {R : SegmentReader} {rest : Bytes}

/-- The reader stands before `rest`, with a sound buffer. -/
structure Before (R : SegmentReader) (rest : Bytes) : Prop where
  offset_le : R.offset ≤ R.file.length
  rest_eq : R.file.drop R.offset = rest
  sound : R.buffer.Sound R.file

lemma Before.length_eq (h : R.Before rest) : R.file.length - R.offset = rest.length := by
  rw [← h.rest_eq, length_drop]

lemma Before.advance {l : Bytes} (h : R.Before (l ++ rest)) :
    Before { R with offset := R.offset + l.length } rest := by
  have hleft := h.length_eq
  have hle := h.offset_le
  rw [length_append] at hleft
  refine ⟨by show R.offset + _ ≤ R.file.length; omega, ?_, h.sound⟩
  rw [← drop_drop, h.rest_eq, drop_left]

lemma Before.peek {n : ℕ} (h : R.Before rest) (hn : n ≤ rest.length) :
    ∃ b, R.peek n = some (rest.take n, { R with buffer := b }) ∧
      Before { R with buffer := b } rest := by
  obtain ⟨b, hread, hsound⟩ := SegmentReadBuffer.read_spec h.sound h.offset_le
    (h.length_eq.symm ▸ hn)
  refine ⟨b, ?_, h.offset_le, h.rest_eq, hsound⟩
  rw [SegmentReader.peek, hread, h.rest_eq]
  rfl

lemma Before.nextIs (h : R.Before rest) (tag : Bytes) :
    ∃ b, R.nextIs tag = some (decide (tag <+: rest), { R with buffer := b }) ∧
      Before { R with buffer := b } rest := by
  unfold SegmentReader.nextIs
  split
  · next hlen =>
    rw [h.length_eq] at hlen
    rw [decide_eq_false fun hp => hp.length_le.not_gt hlen]
    exact ⟨R.buffer, rfl, h⟩
  · next hlen =>
    rw [h.length_eq, not_lt] at hlen
    obtain ⟨b, hpeek, hb⟩ := h.peek hlen
    refine ⟨b, ?_, hb⟩
    rw [hpeek]
    simp [prefix_iff_eq_take, eq_comm]

/-- Neither text tag comes next. -/
def Untagged (rest : Bytes) : Prop := ¬ textPrefix <+: rest ∧ ¬ footerTextPrefix <+: rest

/-- The tags agree on their first five bytes. -/
theorem untagged_of_ne {i : ℕ} (hi : i < 5) (h : rest.getD i 0 ≠ textPrefix.getD i 0) :
    Untagged rest := by
  have hsame : footerTextPrefix.getD i 0 = textPrefix.getD i 0 := by
    have : ∀ j < 5, footerTextPrefix.getD j 0 = textPrefix.getD j 0 := by decide
    exact this i hi
  have hat : ∀ {tag : Bytes}, 5 ≤ tag.length → tag <+: rest → rest.getD i 0 = tag.getD i 0 := by
    rintro tag hlen ⟨suffix, rfl⟩
    rw [getD_eq_getElem?_getD, getElem?_append_left (by omega), ← getD_eq_getElem?_getD]
  exact ⟨fun hp => h (hat (by decide) hp), fun hp => h ((hat (by decide) hp).trans hsame)⟩

lemma Before.nextRecord (h : R.Before rest) (hlen : 4 ≤ rest.length) (htag : Untagged rest) :
    ∃ b, R.nextRecord C = nextFrame C { R with buffer := b } ∧
      Before { R with buffer := b } rest := by
  have hleft := h.length_eq
  have hnext : ¬ R.file.length ≤ R.offset := by omega
  have hfour : ¬ R.file.length - R.offset < 4 := by omega
  obtain ⟨b₁, htext, h₁⟩ := h.nextIs textPrefix
  obtain ⟨b₂, hfooter, h₂⟩ := h₁.nextIs footerTextPrefix
  refine ⟨b₂, ?_, h₂⟩
  rw [SegmentReader.nextRecord, if_neg hnext, if_neg hfour, htext]
  simp [hfooter, htag.1, htag.2]

lemma Before.nextFrame (h : R.Before rest) (hlen : 4 ≤ rest.length) :
    ∃ b, Before { R with buffer := b } rest ∧
      (fromLeBytes (rest.take 4) = footerMagic ∨ fromLeBytes (rest.take 4) = 0 →
        R.nextFrame C = (.ok none, { R with buffer := b })) ∧
      (fromLeBytes (rest.take 4) ≠ footerMagic → fromLeBytes (rest.take 4) ≠ 0 →
        rest.length < 4 + fromLeBytes (rest.take 4) →
        R.nextFrame C = (.error (.truncated, R.offset), { R with buffer := b })) := by
  obtain ⟨b, hpeek, hb⟩ := h.peek hlen
  have hleft := h.length_eq
  refine ⟨b, hb, ?_, ?_⟩
  · rintro (hm | hm)
    · simp [SegmentReader.nextFrame, hpeek, hm]
    · simp [SegmentReader.nextFrame, hpeek, hm]
  · intro hm h0 hshort
    have hcut : R.file.length < R.offset + (4 + fromLeBytes (rest.take 4)) := by omega
    simp [SegmentReader.nextFrame, hpeek, hm, h0, hcut]

/-! ## Frames -/

section Frame
variable {r : WALRecord} {tail : Bytes}

lemma take_four_encode (C : Checksum) (r : WALRecord) (tail : Bytes) :
    (r.encode C ++ tail).take 4 = toLeBytes 4 r.frameLen := by
  rw [WALRecord.encode_eq, append_assoc, take_left' (length_toLeBytes 4 _)]

/-- The fifth byte of a frame starts the magic number. -/
theorem getD_four_encode (C : Checksum) (r : WALRecord) (tail : Bytes) :
    (r.encode C ++ tail).getD 4 0 = 0x57 := by
  rfl

lemma untagged_encode : Untagged (r.encode C ++ tail) := by
  refine untagged_of_ne (i := 4) (by decide) ?_
  rw [getD_four_encode]
  decide

lemma marker_encode (h : r.frameLen < 2 ^ 32) :
    fromLeBytes ((r.encode C ++ tail).take 4) = r.frameLen := by
  rw [take_four_encode, fromLeBytes_toLeBytes (by norm_num at h; exact h)]

lemma frameLen_ne_zero (r : WALRecord) : r.frameLen ≠ 0 := by
  rw [WALRecord.frameLen]
  omega

/-- A frame is read as its record, and the reader moves behind it. -/
theorem Before.frame (h : R.Before (r.encode C ++ tail)) (hr : r.Encodable)
    (hmagic : r.frameLen ≠ footerMagic) :
    ∃ R', R.nextRecord C = (.ok (some (r, R.offset)), R') ∧ R'.Before tail ∧
      R'.offset = R.offset + (r.encode C).length := by
  have hlen := WALRecord.length_encode C r
  have hmarker : fromLeBytes ((r.encode C ++ tail).take 4) = r.frameLen := marker_encode hr.frame
  have hmin : minRecordSize ≤ 4 + r.frameLen := by
    rw [minRecordSize, WALRecord.frameLen]
    omega
  have htotal : (r.encode C ++ tail).length = 4 + r.frameLen + tail.length := by
    rw [length_append, hlen]
  obtain ⟨b₁, hnext, h₁⟩ := h.nextRecord (by omega) untagged_encode
  obtain ⟨b₂, hpeek₂, h₂⟩ := h₁.peek (n := 4) (by omega)
  obtain ⟨b₃, hpeek₃, h₃⟩ := h₂.peek (n := 4 + r.frameLen) (by omega)
  have hleft := h.length_eq
  rw [← hlen, take_left] at hpeek₃
  have hsmall : ¬ R.file.length - R.offset < minRecordSize := by omega
  have hcut : ¬ R.file.length < R.offset + (r.encode C).length := by omega
  refine ⟨_, ?_, h₃.advance, rfl⟩
  rw [hnext, SegmentReader.nextFrame, hpeek₂]
  simp only [hmarker, hmagic, frameLen_ne_zero r, if_false, hsmall, ← hlen, hcut, hpeek₃,
    WALRecord.decode_encode C hr]

end Frame

/-! ## What follows the records -/

/-- The reader stops at `tail`: every call returns `last` and stays. -/
def Stops (C : Checksum) (tail : Bytes) (last : ℕ → Outcome) : Prop :=
  ∀ R : SegmentReader, R.Before tail →
    ∃ b, R.nextRecord C = (last R.offset, { R with buffer := b }) ∧
      Before { R with buffer := b } tail

lemma stops_of_length_lt (h : rest.length < 4) : Stops C rest fun _ => .ok none := by
  intro R hR
  refine ⟨R.buffer, ?_, hR⟩
  have hleft := hR.length_eq
  rw [nextRecord]
  split
  · rfl
  · rw [if_pos (by omega)]

lemma stops_of_marker (hlen : 4 ≤ rest.length) (htag : Untagged rest)
    (hmarker : fromLeBytes (rest.take 4) = footerMagic ∨ fromLeBytes (rest.take 4) = 0) :
    Stops C rest fun _ => .ok none := by
  intro R hR
  obtain ⟨b₁, hnext, h₁⟩ := hR.nextRecord hlen htag
  obtain ⟨b₂, h₂, hstop, -⟩ := h₁.nextFrame hlen
  exact ⟨b₂, hnext.trans (hstop hmarker), h₂⟩

lemma stops_zeros (C : Checksum) (n : ℕ) : Stops C (.replicate n 0) fun _ => .ok none := by
  rcases lt_or_ge n 4 with hn | hn
  · exact stops_of_length_lt (by rwa [length_replicate])
  · refine stops_of_marker (by rwa [length_replicate]) ?_ ?_
    · refine untagged_of_ne (i := 0) (by decide) ?_
      rw [getD_eq_getElem?_getD, getElem?_replicate_of_lt (by omega)]
      decide
    · right
      rw [take_replicate, min_eq_left hn]
      rfl

lemma stops_footer (C : Checksum) (f : SegmentFooter) (n : ℕ) :
    Stops C (encodeFooter C f ++ .replicate n 0) fun _ => .ok none := by
  refine stops_of_marker ?_ (untagged_of_ne (i := 0) (by decide) ?_) (.inl ?_)
  · rw [length_append, length_encodeFooter, footerLen]
    omega
  · rw [getD_eq_getElem?_getD, getElem?_append_left (by simp [footerLen]),
      ← getD_eq_getElem?_getD, encodeFooter_head]
    decide
  · rw [encodeFooter, footerBody, append_assoc, append_assoc, take_left' (length_toLeBytes 4 _)]
    rfl

/-- What a frame of which only `k` bytes are left is read as: nothing when not even its
length is there, else an error at its start. -/
def cutOutcome (k offset : ℕ) : Outcome :=
  if k < 4 then .ok none else .error (.truncated, offset)

lemma stops_cut {r : WALRecord} {k : ℕ} (hr : r.Encodable) (hmagic : r.frameLen ≠ footerMagic)
    (hk : k < (r.encode C).length) : Stops C ((r.encode C).take k) (cutOutcome k) := by
  have hlen : ((r.encode C).take k).length = k := by
    rw [length_take, min_eq_left hk.le]
  unfold cutOutcome
  split
  · next hlt => exact stops_of_length_lt (hlen.trans_lt hlt)
  · next hge =>
    intro R hR
    have hfour : 4 ≤ ((r.encode C).take k).length := by omega
    have htag : Untagged ((r.encode C).take k) := by
      refine untagged_of_ne (i := 4) (by decide) ?_
      rw [getD_eq_getElem?_getD, getElem?_take]
      split
      · rw [← getD_eq_getElem?_getD, ← append_nil (r.encode C), getD_four_encode]
        decide
      · decide
    have hmarker : fromLeBytes (((r.encode C).take k).take 4) = r.frameLen := by
      rw [take_take, min_eq_left (by omega), ← append_nil (r.encode C), marker_encode hr.frame]
    obtain ⟨b₁, hnext, h₁⟩ := hR.nextRecord hfour htag
    obtain ⟨b₂, h₂, -, herror⟩ := h₁.nextFrame hfour
    rw [hmarker, hlen, ← WALRecord.length_encode C r] at herror
    exact ⟨b₂, hnext.trans (herror hmagic (frameLen_ne_zero r) hk), h₂⟩

/-! ## Whole runs -/

/-- The records with the offsets of their frames. -/
def locate (C : Checksum) : ℕ → List WALRecord → List (WALRecord × ℕ)
  | _, [] => []
  | offset, r :: rs => (r, offset) :: locate C (offset + (r.encode C).length) rs

variable {last : ℕ → Outcome}

lemma calls_stopped (hstop : Stops C rest last) (h : R.Before rest) (m : ℕ) :
    calls C m R = .replicate m (last R.offset) := by
  induction m generalizing R with
  | zero => rfl
  | succ _ ih =>
    obtain ⟨b, hnext, hb⟩ := hstop R h
    rw [calls, hnext, ih hb]
    rfl

variable {rs : List WALRecord}

/-- The reader returns the records of the frames in front of it, then what it stops with. -/
theorem calls_frames (hstop : Stops C rest last)
    (hrs : ∀ r ∈ rs, r.Encodable ∧ r.frameLen ≠ footerMagic)
    (h : R.Before (rs.flatMap (·.encode C) ++ rest)) (m : ℕ) :
    calls C (rs.length + m) R = (locate C R.offset rs).map (fun x => .ok (some x)) ++
      .replicate m (last (R.offset + (rs.flatMap (·.encode C)).length)) := by
  induction rs generalizing R with
  | nil =>
    rw [length_nil, Nat.zero_add, calls_stopped hstop h]
    rfl
  | cons _ _ ih =>
    obtain ⟨⟨hr, hmagic⟩, hrs⟩ := forall_mem_cons.mp hrs
    rw [flatMap_cons, append_assoc] at h
    obtain ⟨R', hnext, h', hoff⟩ := h.frame hr hmagic
    rw [length_cons, Nat.succ_add, calls, hnext, ih hrs h', hoff, flatMap_cons,
      length_append, Nat.add_assoc]
    rfl

lemma length_locate (C : Checksum) (offset : ℕ) (rs : List WALRecord) :
    (locate C offset rs).length = rs.length := by
  induction rs generalizing offset with
  | nil => rfl
  | cons _ _ ih => rw [locate, length_cons, ih, length_cons]

lemma take_locate (C : Checksum) (offset k : ℕ) (rs : List WALRecord) :
    (locate C offset rs).take k = locate C offset (rs.take k) := by
  induction rs generalizing offset k with
  | nil => rw [take_nil, locate, take_nil]
  | cons _ _ ih =>
    cases k with
    | zero => rfl
    | succ => rw [locate, take_succ_cons, take_succ_cons, locate, ih]

lemma getElem?_locate {r : WALRecord} {k : ℕ} (h : rs[k]? = some r) (C : Checksum) (offset : ℕ) :
    (locate C offset rs)[k]? = some (r, offset + ((rs.take k).flatMap (·.encode C)).length) := by
  induction rs generalizing offset k with
  | nil => cases h
  | cons _ _ ih =>
    cases k with
    | zero => exact congrArg (fun x => some (x, offset)) (Option.some.inj h)
    | succ =>
      rw [locate, getElem?_cons_succ, ih h, take_succ_cons, flatMap_cons,
        length_append, Nat.add_assoc]

/-! ## Cutting the file -/

/-- The first `c` bytes of frames and padding: some whole frames, then padding when these
are all, else a part of the next one. -/
theorem take_frames (C : Checksum) (rs : List WALRecord) (pad c : ℕ) : ∃ k ≤ rs.length, ∃ tail,
      (rs.flatMap (·.encode C) ++ .replicate pad 0).take c =
        (rs.take k).flatMap (·.encode C) ++ tail ∧
      ((k = rs.length ∧ ∃ n, tail = .replicate n 0) ∨
        ∃ r j, rs[k]? = some r ∧ j < (r.encode C).length ∧ tail = (r.encode C).take j ∧
          c = ((rs.take k).flatMap (·.encode C)).length + j) := by
  induction rs generalizing c with
  | nil => exact ⟨0, le_rfl, _, take_replicate, .inl ⟨rfl, _, rfl⟩⟩
  | cons r _ ih =>
    rcases lt_or_ge c (r.encode C).length with hlt | hge
    · refine ⟨0, Nat.zero_le _, _, ?_, .inr ⟨r, c, rfl, hlt, rfl, (Nat.zero_add c).symm⟩⟩
      rw [flatMap_cons, append_assoc, take_append_of_le_length hlt.le]
      rfl
    · obtain ⟨k, hk, tail, htake, hrest⟩ := ih (c - (r.encode C).length)
      refine ⟨k + 1, Nat.succ_le_succ hk, tail, ?_, ?_⟩
      · rw [flatMap_cons, append_assoc, take_append, take_of_length_le hge,
          htake, take_succ_cons, flatMap_cons, append_assoc]
      · refine hrest.imp (fun h => ⟨congrArg Nat.succ h.1, h.2⟩) ?_
        rintro ⟨r', j, hr', hj, htail, hc⟩
        refine ⟨r', j, hr', hj, htail, ?_⟩
        rw [take_succ_cons, flatMap_cons, length_append]
        omega

lemma openFile_header (segmentId groupId : ℕ) (rest : Bytes) :
    ∃ R, openFile (encodeSegHeader segmentId groupId ++ rest) = some R ∧
      R.offset = segHeaderLen ∧ R.Before rest := by
  have hlen : (encodeSegHeader segmentId groupId).length = segHeaderLen := by
    simp [encodeSegHeader, segHeaderLen]
  have hlong : ¬ (encodeSegHeader segmentId groupId ++ rest).length < segHeaderLen := by
    rw [length_append]
    omega
  obtain ⟨header, hdec⟩ : ∃ header, decodeSegHeader (encodeSegHeader segmentId groupId) =
      some header := by
    unfold decodeSegHeader encodeSegHeader
    rw [readLe_append (by decide)]
    exact ⟨_, if_neg (not_not.mpr rfl)⟩
  refine ⟨⟨encodeSegHeader segmentId groupId ++ rest, header, segHeaderLen, ⟨[], 0⟩⟩, ?_, rfl,
    not_lt.mp hlong, drop_left' hlen, rfl⟩
  rw [openFile, take_left' hlen, hdec]
  rfl

/-- Frames behind a header, read from the start. -/
theorem opened_calls (hstop : Stops C rest last)
    (hrs : ∀ r ∈ rs, r.Encodable ∧ r.frameLen ≠ footerMagic) (segmentId groupId : ℕ) :
    ∃ R, openFile (encodeSegHeader segmentId groupId ++ (rs.flatMap (·.encode C) ++ rest)) =
      some R ∧ ∀ m, calls C (rs.length + m) R =
        (locate C segHeaderLen rs).map (fun x => .ok (some x)) ++
          .replicate m (last (segHeaderLen + (rs.flatMap (·.encode C)).length)) := by
  obtain ⟨R, hopen, hoff, hR⟩ := openFile_header segmentId groupId (rs.flatMap (·.encode C) ++ rest)
  exact ⟨R, hopen, fun m => by rw [calls_frames hstop hrs hR, hoff]⟩

/-- Frames and padding behind a header, cut somewhere and read from the start. -/
theorem opened_cut (hrs : ∀ r ∈ rs, r.Encodable ∧ r.frameLen ≠ footerMagic)
    (segmentId groupId pad : ℕ) {cut : ℕ} (hcut : segHeaderLen ≤ cut) :
    ∃ R k last, openFile ((encodeSegHeader segmentId groupId ++
        (rs.flatMap (·.encode C) ++ .replicate pad 0)).take cut) = some R ∧ k ≤ rs.length ∧
      (∀ m, calls C (k + m) R =
        ((locate C segHeaderLen rs).take k).map (fun x => .ok (some x)) ++ .replicate m last) ∧
      (k = rs.length ∧ last = .ok none ∨
        ∃ x, (locate C segHeaderLen rs)[k]? = some x ∧ cut < x.2 + (x.1.encode C).length ∧
          (last = .ok none ∨ last = .error (.truncated, x.2))) := by
  have hlen : (encodeSegHeader segmentId groupId).length = segHeaderLen := by
    simp [encodeSegHeader, segHeaderLen]
  obtain ⟨k, hk, tail, htake, hrest⟩ := take_frames C rs pad (cut - segHeaderLen)
  have hfirst : ∀ r ∈ rs.take k, r.Encodable ∧ r.frameLen ≠ footerMagic :=
    fun r hr => hrs r (mem_of_mem_take hr)
  have hfile : (encodeSegHeader segmentId groupId ++
      (rs.flatMap (·.encode C) ++ .replicate pad 0)).take cut =
        encodeSegHeader segmentId groupId ++ ((rs.take k).flatMap (·.encode C) ++ tail) := by
    rw [take_append, take_of_length_le (hlen.trans_le hcut), hlen, htake]
  have hread : ∀ {last}, Stops C tail last → ∃ R, openFile ((encodeSegHeader segmentId groupId ++
      (rs.flatMap (·.encode C) ++ .replicate pad 0)).take cut) = some R ∧
      ∀ m, calls C (k + m) R = ((locate C segHeaderLen rs).take k).map (fun x => .ok (some x)) ++
        .replicate m (last (segHeaderLen + ((rs.take k).flatMap (·.encode C)).length)) := by
    intro last hstop
    obtain ⟨R, hopen, hcalls⟩ := opened_calls hstop hfirst segmentId groupId
    refine ⟨R, hfile ▸ hopen, fun m => ?_⟩
    rw [take_locate, ← hcalls m, length_take, min_eq_left hk]
  rcases hrest with ⟨hall, n, rfl⟩ | ⟨r, j, hr, hj, rfl, hc⟩
  · obtain ⟨R, hopen, hcalls⟩ := hread (stops_zeros C n)
    exact ⟨R, k, _, hopen, hk, hcalls, .inl ⟨hall, rfl⟩⟩
  · obtain ⟨hok, hmagic⟩ := hrs r (mem_of_getElem? hr)
    obtain ⟨R, hopen, hcalls⟩ := hread (stops_cut hok hmagic hj)
    refine ⟨R, k, _, hopen, hk, hcalls, .inr ⟨_, getElem?_locate hr C segHeaderLen, ?_, ?_⟩⟩
    · show cut < segHeaderLen + _ + (r.encode C).length
      omega
    · unfold cutOutcome
      split
      · exact .inl rfl
      · exact .inr rfl

end SegmentReader

/-! ## The segment as a whole -/

open SegmentReader

/-- A segment is recovered. However its records were batched, padded or sealed, the reader
returns them in order and then nothing; when the file of an unsealed segment is cut behind
the header, it returns the records before the first incomplete one and then nothing or an
error there. The footer of a sealed segment is found exactly when it is reachable. -/
theorem segment_recovered (C : Checksum) (segmentId groupId : ℕ) (batches : List (List WALRecord))
    (h : ∀ r ∈ batches.flatten, r.Encodable ∧ r.frameLen ≠ footerMagic) :
    let w := SegmentWriter.ofBatches C segmentId groupId batches
    let located := locate C segHeaderLen batches.flatten
    (∀ pad, ∀ file ∈ [w.padded pad, (w.sealSegment C).padded pad],
      ∃ R, openFile file = some R ∧ ∀ m, calls C (located.length + m) R =
        located.map (fun x => .ok (some x)) ++ .replicate m (.ok none)) ∧
    (∀ pad, readFooter C ((w.sealSegment C).padded pad) = some w.footer ↔
      FooterReachable C ((w.sealSegment C).padded pad) w.footer pad) ∧
    ∀ pad cut, segHeaderLen ≤ cut → ∃ R k last,
      openFile ((w.padded pad).take cut) = some R ∧ k ≤ located.length ∧
      (∀ m, calls C (k + m) R = (located.take k).map (fun x => .ok (some x)) ++ .replicate m last) ∧
      (k = located.length ∧ last = .ok none ∨
        ∃ x, located[k]? = some x ∧ cut < x.2 + (x.1.encode C).length ∧
          (last = .ok none ∨ last = .error (.truncated, x.2))) := by
  intro w located
  have hw : w = _ := ofBatches_eq C segmentId groupId batches
  have hbytes : w.bytes = encodeSegHeader segmentId groupId ++
      batches.flatten.flatMap (·.encode C) := by rw [hw]
  have hclosed : w.closed = false := by
    rw [hw]
    exact foldl_note_closed batches.flatten segmentId groupId
  have hplain : ∀ pad, w.padded pad = encodeSegHeader segmentId groupId ++
      (batches.flatten.flatMap (·.encode C) ++ .replicate pad 0) := fun pad => by
    rw [padded, hbytes, append_assoc]
  have hsealed : ∀ pad, (w.sealSegment C).padded pad = footerFile C w.bytes w.footer pad := by
    intro pad
    rw [sealSegment, hclosed]
    exact append_assoc _ _ _
  refine ⟨fun pad file hfile => ?_, fun pad => ?_, fun pad cut hcut => ?_⟩
  · rw [length_locate]
    rcases mem_pair.mp hfile with rfl | rfl
    · rw [hplain]
      exact opened_calls (stops_zeros C pad) h segmentId groupId
    · rw [hsealed, hbytes]
      exact opened_calls (stops_footer C w.footer pad) h segmentId groupId
  · have hbounds := foldl_note_bounds (fun r hr => (h r hr).1.slot) segmentId groupId
    rw [hsealed]
    refine readFooter_iff ?_ ?_ ?_ w.recordCount.toNat_lt
    · rw [hbytes, length_append]
      simp [encodeSegHeader, segHeaderLen]
    · rw [hw]
      exact hbounds.1
    · rw [hw]
      exact hbounds.2
  · rw [length_locate, hplain]
    exact opened_cut h segmentId groupId pad hcut

def acceptedAt (slot : ℕ) (payload : Bytes) : WALRecord :=
  ⟨.accepted, 1, 1, slot, ⟨1, 1⟩, payload⟩

lemma acceptedAt_encodable {slot : ℕ} {payload : Bytes} (hslot : slot < 256)
    (h : payload.length < 256) : (acceptedAt slot payload).Encodable ∧
      (acceptedAt slot payload).frameLen ≠ footerMagic := by
  have hframe : (acceptedAt slot payload).frameLen < 2 ^ 9 := by
    show headerBodyLen + payload.length + 4 < _
    rw [headerBodyLen]
    omega
  refine ⟨⟨?_, ?_, hslot.trans (by norm_num), ?_, ?_, by omega⟩, ?_⟩
  iterate 4 exact Nat.lt_of_lt_of_le (Nat.lt_succ_self _) (by norm_num [acceptedAt])
  rw [footerMagic]
  omega

def twoBatches : List (List WALRecord) :=
  [[acceptedAt 5 [7], acceptedAt 6 []], [acceptedAt 7 [8, 9]]]

set_option maxRecDepth 4000 in
/-- Three records in two batches, sealed and padded to a block. -/
theorem segment_recovered_padded :
    let w := (SegmentWriter.ofBatches crc32c 1 1 twoBatches).sealSegment crc32c
    (∃ R, openFile (w.padded 282) = some R ∧ calls crc32c 4 R =
      [.ok (some (acceptedAt 5 [7], 22)), .ok (some (acceptedAt 6 [], 82)),
        .ok (some (acceptedAt 7 [8, 9], 141)), .ok none]) ∧
      readFooter crc32c (w.padded 282) = some ⟨5, 7, 3⟩ := by
  have h := segment_recovered crc32c 1 1 twoBatches fun r hr => by
    simp only [twoBatches, flatten_cons, flatten_nil, cons_append, nil_append, mem_cons,
      not_mem_nil, or_false] at hr
    rcases hr with rfl | rfl | rfl <;> exact acceptedAt_encodable (by decide) (by decide)
  obtain ⟨R, hR, hcalls⟩ := h.1 282 _ (mem_cons_of_mem _ (mem_singleton.mpr rfl))
  refine ⟨⟨R, hR, hcalls 1⟩, (h.2.1 282).mpr (.inr ⟨by decide +kernel, .inr ⟨?_, by decide,
    by decide +kernel, ?_⟩⟩)⟩
  · exact tryDecodeTextFooterFromTail_eq_none.mp (by decide +kernel)
  · exact fun e hle hlt => absurd (hle.trans_lt hlt) (by decide +kernel)

/-- The text form of a footer, here for other slots than the segment holds. -/
def footerLine : Bytes :=
  ascii "CROWDB_WAL_FOOTER min_slot=7 max_slot=9 record_count=3 crc32c=a0ed1567\n"

set_option maxRecDepth 4000 in
/-- A payload that holds such a line is taken for the footer of a sealed segment, here one
that was padded to a block of 512 bytes. -/
theorem payload_taken_for_footer :
    let w := SegmentWriter.ofBatches crc32c 1 1 [[acceptedAt 5 footerLine]]
    ((acceptedAt 5 footerLine).Encodable ∧ (acceptedAt 5 footerLine).frameLen ≠ footerMagic) ∧
      ((w.sealSegment crc32c).padded 332).length = 512 ∧ w.footer = ⟨5, 5, 1⟩ ∧
      readFooter crc32c ((w.sealSegment crc32c).padded 332) = some ⟨7, 9, 3⟩ :=
  ⟨acceptedAt_encodable (by decide) (by decide), by decide +kernel, by decide +kernel,
    by decide +kernel⟩

end CrowDB.Wal
