import CrowDB.Wal.SegmentFile
import Mathlib.Data.List.Induction

/-!
# What the writer leaves and where its footer is found

A segment is its header followed by its frames, however they were batched. The footer is
looked for at the end of the file, then as a text line anywhere in the tail, then behind
the last non-zero byte, and `FooterReachable` says exactly when that finds the one that
was written.
-/
namespace CrowDB.Wal
open Paxos Lib List

/-! ## What the writer leaves in the file -/

namespace SegmentWriter
variable {C : Checksum}

lemma writeChunks_eq {n : ℕ} {w : SegmentWriter} {bufs : List Bytes} (h : bufs.length ≤ n) :
    writeChunks n w bufs = w.writeRawVectored bufs := by
  induction n generalizing w bufs with
  | zero =>
    rw [length_eq_zero_iff.mp (Nat.le_zero.mp h)]
    simp [writeChunks, writeRawVectored]
  | succ n ih =>
    cases bufs with
    | nil => simp [writeChunks, writeRawVectored]
    | cons b bufs =>
      have hdrop : ((b :: bufs).drop maxIov).length ≤ n := by
        have : 0 < maxIov := by decide
        rw [length_drop]
        omega
      show writeChunks n _ ((b :: bufs).drop maxIov) = _
      rw [ih hdrop]
      simp only [writeRawVectored, append_assoc, ← flatten_append, take_append_drop]

lemma foldl_note_bytes (rs : List WALRecord) (w : SegmentWriter) (b : Bytes) :
    rs.foldl note { w with bytes := b } = { rs.foldl note w with bytes := b } := by
  induction rs generalizing w with
  | nil => rfl
  | cons r _ ih => exact ih (w.note r)

/-- The batches only matter by the records they hold. -/
theorem ofBatches_eq (C : Checksum) (segmentId groupId : ℕ) (batches : List (List WALRecord)) :
    ofBatches C segmentId groupId batches =
      { batches.flatten.foldl note (create segmentId groupId) with
        bytes := encodeSegHeader segmentId groupId ++ batches.flatten.flatMap (·.encode C) } := by
  induction batches using reverseRecOn with
  | nil => simp [ofBatches, create]
  | append_singleton _ batch ih =>
    have hflat : (batch.flatMap (·.ioSlices C)).flatten = batch.flatMap (·.encode C) := by
      simp [flatMap, flatten_flatten, WALRecord.encode, Function.comp_def]
    rw [ofBatches, foldl_append, ← ofBatches, ih]
    simp only [foldl_cons, writeBatch]
    rw [writeChunks_eq le_rfl, writeRawVectored, foldl_note_bytes, foldl_note_bytes, hflat]
    simp

lemma foldl_note_bounds {rs : List WALRecord} (h : ∀ r ∈ rs, r.slot < 2 ^ 64)
    (segmentId groupId : ℕ) :
    (rs.foldl note (create segmentId groupId)).minSlot < 2 ^ 64 ∧
      (rs.foldl note (create segmentId groupId)).maxSlot < 2 ^ 64 := by
  induction rs using reverseRecOn with
  | nil => exact ⟨by simp [create], by simp [create]⟩
  | append_singleton _ r ih =>
    obtain ⟨hmin, hmax⟩ := ih fun x hx => h x (mem_append_left _ hx)
    have hr := h r (by simp)
    simp only [foldl_append, foldl_cons, foldl_nil, note]
    constructor <;> split <;> assumption

lemma foldl_note_closed (rs : List WALRecord) (segmentId groupId : ℕ) :
    (rs.foldl note (create segmentId groupId)).closed = false := by
  induction rs using reverseRecOn with
  | nil => rfl
  | append_singleton _ _ ih => rw [foldl_append]; exact ih

end SegmentWriter

/-! ## Footers -/

variable {tail : Bytes}

section Footer
variable {C : Checksum} {f : SegmentFooter}

@[simp] lemma length_encodeFooter (C : Checksum) (f : SegmentFooter) :
    (encodeFooter C f).length = footerLen := by
  simp [encodeFooter, footerBody, footerLen]

lemma decodeFooter_encodeFooter (hmin : f.minSlot < 2 ^ 64) (hmax : f.maxSlot < 2 ^ 64)
    (hcount : f.recordCount < 2 ^ 32) : decodeFooter C (encodeFooter C f) = some f := by
  have hbody : (footerBody f).length = 24 := by simp [footerBody]
  have hcrc : (C.of (footerBody f)).toNat < 256 ^ 4 := by
    have := (C.of (footerBody f)).toNat_lt
    exact this
  have htake : (encodeFooter C f).take 24 = footerBody f := take_left' hbody
  unfold decodeFooter
  simp only [htake]
  rw [encodeFooter, ← append_nil (toLeBytes 4 (C.of (footerBody f)).toNat)]
  generalize (C.of (footerBody f)).toNat = crc at hcrc
  simp only [footerBody, append_assoc, readLe_append (show footerMagic < 256 ^ 4 by decide),
    readLe_append (show f.minSlot < 256 ^ 8 by norm_num at hmin; exact hmin),
    readLe_append (show f.maxSlot < 256 ^ 8 by norm_num at hmax; exact hmax),
    readLe_append (show f.recordCount < 256 ^ 4 by norm_num at hcount; exact hcount),
    readLe_append hcrc, ne_eq, not_true_eq_false, if_false]

/-- The bytes a field was read from. -/
theorem toLeBytes_take {w : ℕ} {bs : Bytes} (h : w ≤ bs.length) :
    toLeBytes w (fromLeBytes (bs.take w)) = bs.take w := by
  have := toLeBytes_fromLeBytes (bs.take w)
  rwa [length_take, min_eq_left h] at this

/-- Only its own encoding decodes to a footer. -/
theorem encodeFooter_of_decodeFooter {buf : Bytes} (hlen : buf.length = footerLen)
    (h : decodeFooter C buf = some f) : encodeFooter C f = buf := by
  have hlen' : buf.length = 28 := hlen
  unfold decodeFooter readLe at h
  simp only [drop_drop] at h
  split at h
  · cases h
  · next hmagic =>
    split at h
    · cases h
    · next hcrc =>
      cases h
      have hbody : footerBody ⟨fromLeBytes ((buf.drop 4).take 8),
          fromLeBytes ((buf.drop 12).take 8), fromLeBytes ((buf.drop 20).take 4)⟩ =
          buf.take 24 := by
        have hfields : buf.take (4 + (8 + (8 + 4))) = buf.take 4 ++ ((buf.drop 4).take 8 ++
            ((buf.drop 12).take 8 ++ (buf.drop 20).take 4)) := by
          rw [take_add, take_add, take_add, drop_drop, drop_drop]
        have h4 : toLeBytes 4 (fromLeBytes (buf.take 4)) = buf.take 4 := toLeBytes_take (by omega)
        rw [not_not.mp hmagic] at h4
        rw [footerBody, h4, toLeBytes_take (by simp; omega), toLeBytes_take (by simp; omega),
          toLeBytes_take (by simp; omega), ← hfields]
      have hsplit : buf = buf.take 24 ++ (buf.drop 24).take 4 := by
        rw [← take_add, take_of_length_le (by omega)]
      rw [encodeFooter, hbody, ← not_not.mp hcrc, toLeBytes_take (by simp; omega), ← hsplit]

/-- A sequence that ends in zeros and repeats itself at a distance is zero. -/
theorem eq_zero_of_periodic {g : ℕ → UInt8} {j n : ℕ} (hj : 0 < j) (hend : ∀ i, n ≤ i → g i = 0)
    (hper : ∀ i < n, g i = g (i + j)) (i : ℕ) : g i = 0 := by
  by_cases h : n ≤ i
  · exact hend i h
  · rw [hper i (not_le.mp h)]
    exact eq_zero_of_periodic hj hend hper (i + j)
termination_by n - i

lemma exists_trimZeros (l : Bytes) : ∃ k, l = trimZeros l ++ .replicate k 0 := by
  have hall : l.reverse.takeWhile (· = 0) = .replicate (l.reverse.takeWhile (· = 0)).length 0 := by
    refine eq_replicate_of_mem fun b hb => ?_
    simpa using all_eq_true.mp all_takeWhile b hb
  refine ⟨(l.reverse.takeWhile (· = 0)).length, ?_⟩
  have hrev := congrArg reverse
    (takeWhile_append_dropWhile (p := fun b : UInt8 => b = 0) (l := l.reverse))
  rw [reverse_append, reverse_reverse, hall, reverse_replicate] at hrev
  exact hrev.symm

lemma getD_of_trimZeros_le {l : Bytes} {i : ℕ} (h : (trimZeros l).length ≤ i) :
    l.getD i 0 = 0 := by
  obtain ⟨k, hk⟩ := exists_trimZeros l
  rw [hk, getD_eq_getElem?_getD, getElem?_append_right h, getElem?_replicate]
  split <;> rfl

lemma length_trimZeros_le (l : Bytes) (pad : ℕ) :
    (trimZeros (l ++ .replicate pad 0)).length ≤ l.length := by
  have hdrop : (l ++ .replicate pad (0 : UInt8)).reverse.dropWhile (· = 0) =
      l.reverse.dropWhile (· = 0) := by
    rw [reverse_append]
    induction pad with
    | zero => rfl
    | succ => simp
  rw [trimZeros, hdrop, length_reverse]
  exact (dropWhile_suffix _).length_le.trans_eq length_reverse

lemma candidate_bytes {e : ℕ} (he : e ≤ tail.length) (h : candidate C tail e = some f) :
    footerLen ≤ e ∧
      ∀ i < footerLen, tail.getD (e - footerLen + i) 0 = (encodeFooter C f).getD i 0 := by
  unfold candidate at h
  split at h
  · cases h
  · next hlt =>
    have hle := not_lt.mp hlt
    have hlen : ((tail.take e).drop (e - footerLen)).length = footerLen := by
      rw [length_drop, length_take]
      omega
    refine ⟨hle, fun i hi => ?_⟩
    rw [encodeFooter_of_decodeFooter hlen h, getD_eq_getElem?_getD,
      getD_eq_getElem?_getD, getElem?_drop, getElem?_take_of_lt (by omega)]

/-- The text that the search reads as a footer line: from the last marker in the tail to the
line break behind it. -/
def FooterLine (tail line : Bytes) : Prop :=
  ∃ rest, line ++ newline :: rest <:+ trimZeros tail ∧ newline ∉ line ∧
    footerTextPrefix <+: line ++ newline :: rest ∧ ∀ text, text <:+ trimZeros tail →
      footerTextPrefix <+: text → line ++ newline :: rest <:+ text

lemma splitOnce_eq_some {sep : UInt8} {l a b : Bytes} :
    splitOnce sep l = some (a, b) ↔ l = a ++ sep :: b ∧ sep ∉ a := by
  induction l generalizing a with
  | nil => simp [splitOnce]
  | cons c l ih =>
    rw [splitOnce]
    split
    · cases a <;> grind
    · simp only [Option.map_eq_some_iff, Prod.exists]
      cases a <;> grind

/-- The last occurrence of a pattern starts the shortest end of the text that begins with it. -/
theorem fromLast_spec {pat : Bytes} (hpat : pat ≠ []) (l : Bytes) :
    match fromLast pat l with
    | some r => r <:+ l ∧ pat <+: r ∧ ∀ text, text <:+ l → pat <+: text → r <:+ text
    | none => ∀ text, text <:+ l → ¬ pat <+: text := by
  induction l with
  | nil => simpa [fromLast] using hpat
  | cons b l ih =>
    rw [fromLast]
    cases hlast : fromLast pat l with
    | some r =>
      rw [hlast] at ih
      refine ⟨ih.1.trans (suffix_cons b l), ih.2.1, fun text htext hp => ?_⟩
      rcases suffix_cons_iff.mp htext with rfl | htext
      · exact ih.1.trans (suffix_cons b l)
      · exact ih.2.2 text htext hp
    | none =>
      rw [hlast] at ih
      split_ifs with hp
      · refine ⟨suffix_rfl, isPrefixOf_iff_prefix.mp hp, fun text htext hq => ?_⟩
        rcases suffix_cons_iff.mp htext with rfl | htext
        · exact suffix_rfl
        · exact absurd hq (ih text htext)
      · intro text htext
        rcases suffix_cons_iff.mp htext with rfl | htext
        · exact mt isPrefixOf_iff_prefix.mpr hp
        · exact ih text htext

lemma FooterLine.decodes {line : Bytes} (h : FooterLine tail line) :
    tryDecodeTextFooterFromTail C tail =
      if validUtf8 line then decodeTextFooter C line else none := by
  obtain ⟨rest, hrest, hline, hmark, hlast⟩ := h
  have hspec := fromLast_spec (show footerTextPrefix ≠ [] by decide) (trimZeros tail)
  rw [tryDecodeTextFooterFromTail]
  cases hfrom : fromLast footerTextPrefix (trimZeros tail) with
  | none =>
    rw [hfrom] at hspec
    exact absurd hmark (hspec _ hrest)
  | some text =>
    rw [hfrom] at hspec
    have hle := (hlast _ hspec.1 hspec.2.1).length_le
    rw [Option.bind_some, (hspec.2.2 _ hrest hmark).eq_of_length_le hle,
      splitOnce_eq_some.mpr ⟨rfl, hline⟩, Option.bind_some]

lemma exists_footerLine (h : tryDecodeTextFooterFromTail C tail = some f) :
    ∃ line, FooterLine tail line := by
  obtain ⟨text, hfrom, h⟩ := Option.bind_eq_some_iff.mp h
  obtain ⟨⟨line, rest⟩, hsplit, -⟩ := Option.bind_eq_some_iff.mp h
  have hspec := fromLast_spec (show footerTextPrefix ≠ [] by decide) (trimZeros tail)
  obtain ⟨rfl, hline⟩ := splitOnce_eq_some.mp hsplit
  rw [hfrom] at hspec
  exact ⟨line, rest, hspec.1, hline, hspec.2⟩

lemma tryDecodeTextFooterFromTail_eq_some : tryDecodeTextFooterFromTail C tail = some f ↔
    ∃ line, FooterLine tail line ∧ validUtf8 line ∧ decodeTextFooter C line = some f := by
  constructor
  · intro h
    obtain ⟨line, hline⟩ := exists_footerLine h
    rw [hline.decodes] at h
    exact ⟨line, hline, by simpa using h⟩
  · rintro ⟨line, hline, hvalid, h⟩
    rw [hline.decodes, if_pos hvalid, h]

lemma tryDecodeTextFooterFromTail_eq_none : tryDecodeTextFooterFromTail C tail = none ↔
    ∀ line, FooterLine tail line → validUtf8 line → decodeTextFooter C line = none := by
  constructor
  · intro h line hline hvalid
    rwa [hline.decodes, if_pos hvalid] at h
  · intro h
    refine Option.eq_none_iff_forall_not_mem.mpr fun g hg => ?_
    obtain ⟨line, hline, hvalid, hdecode⟩ := tryDecodeTextFooterFromTail_eq_some.mp hg
    rw [h line hline hvalid] at hdecode
    cases hdecode

/-- When the search finds the footer `f` that ends `pad` bytes before the end of `file`:
there is no padding; or no footer decodes at the very end and either a text line in the
tail reads like `f`, or no text line reads like a footer, the tail covers the footer, at
most four of its last bytes are zero and nothing decodes before its end. -/
def FooterReachable (C : Checksum) (file : Bytes) (f : SegmentFooter) (pad : ℕ) : Prop :=
  pad = 0 ∨ decodeFooter C (file.drop (file.length - footerLen)) = none ∧
    ((∃ line, FooterLine (footerTail file) line ∧ validUtf8 line ∧
        decodeTextFooter C line = some f) ∨
      (∀ line, FooterLine (footerTail file) line → validUtf8 line →
        decodeTextFooter C line = none) ∧
        pad + footerLen ≤ footerTailScanBytes ∧
        (footerTail file).length - pad ≤ (trimZeros (footerTail file)).length + 4 ∧
        ∀ e, (trimZeros (footerTail file)).length ≤ e → e < (footerTail file).length - pad →
          candidate C (footerTail file) e = none)

section Search
variable {front : Bytes} {pad : ℕ}

/-- A file that ends in a footer and padding. -/
def footerFile (C : Checksum) (front : Bytes) (f : SegmentFooter) (pad : ℕ) : Bytes :=
  front ++ (encodeFooter C f ++ .replicate pad 0)

@[simp] lemma length_footerFile :
    (footerFile C front f pad).length = front.length + (footerLen + pad) := by
  simp [footerFile]

lemma getD_footerFile (C : Checksum) (front : Bytes) (f : SegmentFooter) (pad i : ℕ) :
    (footerFile C front f pad).getD (front.length + i) 0 = (encodeFooter C f).getD i 0 := by
  rw [footerFile, getD_eq_getElem?_getD, getElem?_append_right (by omega),
    Nat.add_sub_cancel_left, getD_eq_getElem?_getD]
  by_cases h : i < (encodeFooter C f).length
  · rw [getElem?_append_left h]
  · rw [getElem?_append_right (not_lt.mp h), getElem?_eq_none (not_lt.mp h), getElem?_replicate]
    split <;> rfl

lemma encodeFooter_head : (encodeFooter C f).getD 0 0 = 0x54 := rfl

/-- The footer does not occur at another place with only zeros behind it. -/
theorem footer_place (C : Checksum) (front : Bytes) (f : SegmentFooter) (pad : ℕ) {s : ℕ}
    (hs : ∀ i < footerLen, (footerFile C front f pad).getD (s + i) 0 = (encodeFooter C f).getD i 0)
    (hzero : ∀ i, s + footerLen ≤ i → (footerFile C front f pad).getD i 0 = 0) :
    s = front.length := by
  have hend : ∀ i, footerLen ≤ i → (encodeFooter C f).getD i 0 = 0 := fun i hi => by
    rw [getD_eq_getElem?_getD, getElem?_eq_none (by exact hi), Option.getD_none]
  have hne : (encodeFooter C f).getD 0 0 ≠ 0 := by
    rw [encodeFooter_head]
    decide
  rcases lt_trichotomy s front.length with hlt | heq | hgt
  · obtain ⟨j, hj⟩ := Nat.exists_eq_add_of_lt hlt
    refine absurd (eq_zero_of_periodic (j := j + 1) (by omega) hend (fun i hi => ?_) 0) hne
    by_cases hij : i + (j + 1) < footerLen
    · rw [← hs _ hij, ← getD_footerFile C front f pad i]
      congr 1
      omega
    · rw [hend _ (not_lt.mp hij), ← getD_footerFile C front f pad i]
      exact hzero _ (by omega)
  · exact heq
  · obtain ⟨j, hj⟩ := Nat.exists_eq_add_of_lt hgt
    refine absurd (eq_zero_of_periodic (j := j + 1) (by omega) hend (fun i hi => ?_) 0) hne
    rw [← hs i hi, ← getD_footerFile C front f pad (i + (j + 1))]
    congr 1
    omega

lemma getD_of_length_le {l : Bytes} {i : ℕ} (h : l.length ≤ i) : l.getD i 0 = 0 := by
  rw [getD_eq_getElem?_getD, getElem?_eq_none h, Option.getD_none]

lemma getD_drop (l : Bytes) (t i : ℕ) : (l.drop t).getD i 0 = l.getD (t + i) 0 := by
  rw [getD_eq_getElem?_getD, getD_eq_getElem?_getD, getElem?_drop]

/-- Padding hides the footer from the first look. -/
theorem decodeFooter_end_ne (hpad : pad ≠ 0) : decodeFooter C ((footerFile C front f pad).drop
      ((footerFile C front f pad).length - footerLen)) ≠ some f := by
  intro h
  have hlen := encodeFooter_of_decodeFooter (by rw [length_drop, length_footerFile]; omega) h
  have hplace := footer_place C front f pad (fun i _ => by rw [← getD_drop, ← hlen])
    fun i hi => getD_of_length_le (by rw [length_footerFile] at hi ⊢; omega)
  rw [length_footerFile] at hplace
  omega

/-- The tail of the file starts here. -/
def tailStart (file : Bytes) : ℕ := max (file.length - footerTailScanBytes) segHeaderLen

lemma candidate_place {e : ℕ} (he : e ≤ (footerTail (footerFile C front f pad)).length)
    (htrim : (trimZeros (footerTail (footerFile C front f pad))).length ≤ e)
    (h : candidate C (footerTail (footerFile C front f pad)) e = some f) :
    tailStart (footerFile C front f pad) + e = front.length + footerLen := by
  obtain ⟨hle, hbytes⟩ := candidate_bytes he h
  have hplace := footer_place C front f pad
    (s := tailStart (footerFile C front f pad) + (e - footerLen)) (fun i hi => ?_) fun i hi => ?_
  · omega
  · rw [← hbytes i hi, footerTail, getD_drop, tailStart, Nat.add_assoc]
  · have hi' : tailStart (footerFile C front f pad) ≤ i := by omega
    obtain ⟨k, rfl⟩ := Nat.exists_eq_add_of_le hi'
    rw [← getD_drop]
    exact getD_of_trimZeros_le (htrim.trans (by omega))

lemma candidate_footerEnd (hmin : f.minSlot < 2 ^ 64) (hmax : f.maxSlot < 2 ^ 64)
    (hcount : f.recordCount < 2 ^ 32) (ht : tailStart (footerFile C front f pad) ≤ front.length) :
    candidate C (footerTail (footerFile C front f pad))
      (front.length + footerLen - tailStart (footerFile C front f pad)) = some f := by
  have htail : footerTail (footerFile C front f pad) =
      front.drop (tailStart (footerFile C front f pad)) ++
        (encodeFooter C f ++ .replicate pad 0) := drop_append_of_le_length ht
  have hend : front.length + footerLen - tailStart (footerFile C front f pad) =
      (front.drop (tailStart (footerFile C front f pad)) ++ encodeFooter C f).length := by
    rw [length_append, length_drop, length_encodeFooter]
    omega
  unfold candidate
  rw [if_neg (by omega), htail, ← append_assoc, take_left' hend.symm, drop_left',
    decodeFooter_encodeFooter hmin hmax hcount]
  rw [length_drop]
  omega

/-- The first hit of a search over consecutive ends. -/
theorem findSome?_range'_eq_some {g : ℕ → Option SegmentFooter} {a n : ℕ} :
    (range' a n).findSome? g = some f ↔
      ∃ e, a ≤ e ∧ e < a + n ∧ g e = some f ∧ ∀ k, a ≤ k → k < e → g k = none := by
  induction n generalizing a with
  | zero =>
    simp only [range'_zero, findSome?_nil, reduceCtorEq, false_iff]
    omega
  | succ _ ih =>
    rw [range'_succ, findSome?_cons]
    cases hg : g a with
    | some =>
      constructor
      · intro h
        exact ⟨a, le_rfl, by omega, hg.trans h, fun k h1 h2 => absurd h1 (by omega)⟩
      · rintro ⟨e, h1, -, he, hbefore⟩
        rcases h1.eq_or_lt with rfl | hlt
        · exact hg.symm.trans he
        · rw [hbefore a le_rfl hlt] at hg
          cases hg
    | none =>
      simp only [ih]
      constructor
      · rintro ⟨e, h1, h2, he, hbefore⟩
        refine ⟨e, by omega, by omega, he, fun k h3 h4 => ?_⟩
        rcases h3.eq_or_lt with rfl | hlt
        · exact hg
        · exact hbefore k hlt h4
      · rintro ⟨e, h1, h2, he, hbefore⟩
        have hne : a ≠ e := by
          rintro rfl
          rw [he] at hg
          cases hg
        exact ⟨e, by omega, by omega, he, fun k h3 => hbefore k (by omega)⟩

/-- The search behind the last non-zero byte. -/
theorem slowSearch_iff (hfront : segHeaderLen ≤ front.length) (hmin : f.minSlot < 2 ^ 64)
    (hmax : f.maxSlot < 2 ^ 64) (hcount : f.recordCount < 2 ^ 32)
    (htail : footerTail (footerFile C front f pad) = tail) : (range' (trimZeros tail).length
        (min ((trimZeros tail).length + 4) tail.length + 1 - (trimZeros tail).length)).findSome?
        (candidate C tail) = some f ↔
      pad + footerLen ≤ footerTailScanBytes ∧ tail.length - pad ≤ (trimZeros tail).length + 4 ∧
        ∀ e, (trimZeros tail).length ≤ e → e < tail.length - pad → candidate C tail e = none := by
  have hlen : tail.length =
      front.length + (footerLen + pad) - tailStart (footerFile C front f pad) := by
    rw [← htail, footerTail, length_drop, tailStart, length_footerFile]
  have hstart : tailStart (footerFile C front f pad) ≤ front.length ↔
      pad + footerLen ≤ footerTailScanBytes := by
    rw [tailStart, length_footerFile]
    omega
  rw [findSome?_range'_eq_some]
  constructor
  · rintro ⟨e, h1, h2, he, hbefore⟩
    have hle : e ≤ tail.length := by omega
    have hplace : tailStart (footerFile C front f pad) + e = front.length + footerLen := by
      subst htail
      exact candidate_place hle h1 he
    have hfit := (candidate_bytes hle he).1
    refine ⟨hstart.mp (by omega), by omega, fun k h3 h4 => hbefore k h3 (by omega)⟩
  · rintro ⟨hreach, hzeros, hbefore⟩
    have ht := hstart.mpr hreach
    have hfound := candidate_footerEnd hmin hmax hcount ht
    rw [htail] at hfound
    have hsplit : tail = (front.drop (tailStart (footerFile C front f pad)) ++
        encodeFooter C f) ++ .replicate pad 0 := by
      rw [append_assoc, ← htail]
      exact drop_append_of_le_length ht
    generalize tailStart (footerFile C front f pad) = t at *
    have hend : front.length + footerLen - t = tail.length - pad := by omega
    have htrim : (trimZeros tail).length ≤ tail.length - pad := by
      conv_lhs => rw [hsplit]
      refine (length_trimZeros_le _ pad).trans ?_
      rw [length_append, length_drop, length_encodeFooter]
      omega
    exact ⟨_, htrim, by omega, hend ▸ hfound, hbefore⟩

/-- What the search under padding finds, with the empty tail included: nothing fits
before its end. -/
theorem scanTail_iff : scanTail C tail = some f ↔ tryDecodeTextFooterFromTail C tail = some f ∨
      tryDecodeTextFooterFromTail C tail = none ∧ (range' (trimZeros tail).length
          (min ((trimZeros tail).length + 4) tail.length + 1 -
            (trimZeros tail).length)).findSome? (candidate C tail) = some f := by
  unfold scanTail
  cases htext : tryDecodeTextFooterFromTail C tail with
  | some => simp
  | none =>
    simp only [true_and, reduceCtorEq, false_or]
    split
    · next hzero =>
      rw [findSome?_range'_eq_some]
      refine ⟨nofun, ?_⟩
      rintro ⟨e, -, h2, he, -⟩
      have hshort : e < footerLen := by
        simp only [footerLen]
        omega
      rw [candidate, if_pos hshort] at he
      cases he
    · rfl

/-- The search finds the footer of a sealed file exactly when it is reachable. -/
theorem readFooter_iff (hfront : segHeaderLen ≤ front.length) (hmin : f.minSlot < 2 ^ 64)
    (hmax : f.maxSlot < 2 ^ 64) (hcount : f.recordCount < 2 ^ 32) :
    readFooter C (footerFile C front f pad) = some f ↔
      FooterReachable C (footerFile C front f pad) f pad := by
  have hlong : ¬ (footerFile C front f pad).length < segHeaderLen + footerLen := by
    rw [length_footerFile]
    omega
  rw [readFooter, if_neg hlong, FooterReachable]
  by_cases hpad : pad = 0
  · subst hpad
    have hdec : decodeFooter C ((footerFile C front f 0).drop
        ((footerFile C front f 0).length - footerLen)) = some f := by
      rw [length_footerFile, footerFile, replicate_zero, append_nil,
        drop_left' (by omega), decodeFooter_encodeFooter hmin hmax hcount]
    simp only [hdec, true_or]
  · cases hdec : decodeFooter C ((footerFile C front f pad).drop
        ((footerFile C front f pad).length - footerLen)) with
    | some g =>
      have hne : g ≠ f := fun h => decodeFooter_end_ne hpad (h ▸ hdec)
      simp [hne, hpad]
    | none =>
      simp only [hpad, false_or, true_and]
      rw [scanTail_iff, slowSearch_iff hfront hmin hmax hcount rfl,
        tryDecodeTextFooterFromTail_eq_some, tryDecodeTextFooterFromTail_eq_none]

end Search

end Footer
end CrowDB.Wal
