import CrowDB.Wal.TextLine

/-!
# Segment files

The writer appends batches of frames and keeps a summary of their slots and terms;
sealing appends a footer. The reader goes over the file through a read-ahead buffer and
tells frames, text lines, footers and zero padding apart by peeking at the next bytes.
-/
namespace CrowDB.Wal
open Paxos Lib

def segMagic : ℕ := 0x5345474D
def segVersion : ℕ := 1
def segHeaderLen : ℕ := 4 + 2 + 8 + 8
def footerMagic : ℕ := 0x464F4F54
def footerLen : ℕ := 4 + 8 + 8 + 4 + 4
def footerTailScanBytes : ℕ := 64 * 1024
def readAhead : ℕ := 1024 * 1024
def maxIov : ℕ := 1024

def encodeSegHeader (segmentId groupId : ℕ) : Bytes :=
  toLeBytes 4 segMagic ++ (toLeBytes 2 segVersion ++ (toLeBytes 8 segmentId ++ toLeBytes 8 groupId))

def decodeSegHeader (buf : Bytes) : Option SegmentHeader :=
  let (magic, buf) := readLe 4 buf
  let (_, buf) := readLe 2 buf
  let (segmentId, buf) := readLe 8 buf
  let (groupId, _) := readLe 8 buf
  if magic ≠ segMagic then none else some ⟨segmentId, groupId⟩

def footerBody (f : SegmentFooter) : Bytes :=
  toLeBytes 4 footerMagic ++ (toLeBytes 8 f.minSlot ++
    (toLeBytes 8 f.maxSlot ++ toLeBytes 4 f.recordCount))

def encodeFooter (C : Checksum) (f : SegmentFooter) : Bytes :=
  footerBody f ++ toLeBytes 4 (C.of (footerBody f)).toNat

def decodeFooter (C : Checksum) (buf : Bytes) : Option SegmentFooter :=
  let (magic, rest) := readLe 4 buf
  let (minSlot, rest) := readLe 8 rest
  let (maxSlot, rest) := readLe 8 rest
  let (recordCount, rest) := readLe 4 rest
  let (crcStored, _) := readLe 4 rest
  if magic ≠ footerMagic then none
  else if crcStored ≠ (C.of (buf.take 24)).toNat then none
  else some ⟨minSlot, maxSlot, recordCount⟩

/-! ## Writing -/

/-- The write side of one segment; `bytes` is the file up to the write offset. -/
structure SegmentWriter where
  bytes : Bytes
  minSlot : ℕ
  maxSlot : ℕ
  recordCount : UInt32
  maxTerm : ℕ
  voteTerm : Option ℕ
  closed : Bool

namespace SegmentWriter

def create (segmentId groupId : ℕ) : SegmentWriter :=
  ⟨encodeSegHeader segmentId groupId, 2 ^ 64 - 1, 0, 0, 0, none, false⟩

def writeRawVectored (w : SegmentWriter) (bufs : List Bytes) : SegmentWriter :=
  { w with bytes := w.bytes ++ bufs.flatten }

/-- Vectored writes of at most `maxIov` buffers each; the first argument bounds their
number. -/
def writeChunks : ℕ → SegmentWriter → List Bytes → SegmentWriter
  | 0, w, _ => w
  | _ + 1, w, [] => w
  | n + 1, w, bufs => writeChunks n (w.writeRawVectored (bufs.take maxIov)) (bufs.drop maxIov)

/-- The summary after one more record. -/
def note (w : SegmentWriter) (r : WALRecord) : SegmentWriter :=
  { w with
    minSlot := if r.slot ≠ 0 ∧ r.slot < w.minSlot then r.slot else w.minSlot
    maxSlot := if r.slot ≠ 0 ∧ w.maxSlot < r.slot then r.slot else w.maxSlot
    recordCount := w.recordCount + 1
    maxTerm := max w.maxTerm r.term
    voteTerm := if r.recordType = .voteGranted then
      some (w.voteTerm.elim r.term fun term => max term r.term) else w.voteTerm }

def writeBatch (C : Checksum) (w : SegmentWriter) (batch : List WALRecord) : SegmentWriter :=
  let bufs := batch.flatMap (·.ioSlices C)
  batch.foldl note (writeChunks bufs.length w bufs)

def footer (w : SegmentWriter) : SegmentFooter := ⟨w.minSlot, w.maxSlot, w.recordCount.toNat⟩

def sealSegment (C : Checksum) (w : SegmentWriter) : SegmentWriter :=
  if w.closed then w
  else { w with bytes := w.bytes ++ encodeFooter C w.footer, closed := true }

/-- A segment that was written in these batches. -/
def ofBatches (C : Checksum) (segmentId groupId : ℕ) (batches : List (List WALRecord)) :
    SegmentWriter :=
  batches.foldl (writeBatch C) (create segmentId groupId)

/-- The file: a block device pads the last write with zeros. -/
def padded (w : SegmentWriter) (pad : ℕ) : Bytes := w.bytes ++ .replicate pad 0

end SegmentWriter

/-! ## Reading -/

structure SegmentReadBuffer where
  bytes : Bytes
  offset : ℕ

/-- `none` stands for the end-of-file error. -/
def SegmentReadBuffer.read (b : SegmentReadBuffer) (file : Bytes) (offset length : ℕ) :
    Option (Bytes × SegmentReadBuffer) :=
  if b.offset ≤ offset ∧ offset - b.offset ≤ b.bytes.length ∧
      length ≤ b.bytes.length - (offset - b.offset) then
    some ((b.bytes.drop (offset - b.offset)).take length, b)
  else if file.length < offset then none
  else if file.length - offset < length then none
  else
    let bytes := (file.drop offset).take (max length (min (file.length - offset) readAhead))
    some (bytes.take length, ⟨bytes, offset⟩)

structure SegmentReader where
  file : Bytes
  header : SegmentHeader
  offset : ℕ
  buffer : SegmentReadBuffer

namespace SegmentReader

/-- `none` stands for every error of opening. -/
def openFile (file : Bytes) : Option SegmentReader :=
  if file.length < segHeaderLen then none
  else if file.take segTextPrefix.length = segTextPrefix then
    (splitOnce newline file).bind fun x =>
      if validUtf8 x.1 then
        (decodeTextSegHeader x.1).map fun header => ⟨file, header, x.1.length + 1, ⟨[], 0⟩⟩
      else none
  else (decodeSegHeader (file.take segHeaderLen)).map fun header =>
    ⟨file, header, segHeaderLen, ⟨[], 0⟩⟩

/-- The next `length` bytes, and the reader with its buffer. -/
def peek (R : SegmentReader) (length : ℕ) : Option (Bytes × SegmentReader) :=
  (R.buffer.read R.file R.offset length).map fun x => (x.1, { R with buffer := x.2 })

/-- Whether the tag comes next; `none` stands for a failed read. -/
def nextIs (R : SegmentReader) (tag : Bytes) : Option (Bool × SegmentReader) :=
  if R.file.length - R.offset < tag.length then some (false, R)
  else (R.peek tag.length).map fun x => (x.1 = tag, x.2)

/-- What a call of `next_record` returns. -/
abbrev Outcome := Except (RecordError × ℕ) (Option (WALRecord × ℕ))

section
variable (C : Checksum) (R : SegmentReader)

def nextTextRecord : Outcome × SegmentReader :=
  match splitOnce newline (R.file.drop R.offset) with
  | none => (.error (.truncated, R.offset), R)
  | some (line, _) =>
    if validUtf8 line then
      match WALRecord.decodeTextLine C line with
      | .ok r => (.ok (some (r, R.offset)), { R with offset := R.offset + (line.length + 1) })
      | .error e => (.error (e, R.offset), R)
    else (.error (.badText, R.offset), R)

/-- A frame at the read offset, after the markers have been ruled out. -/
def nextFrame : Outcome × SegmentReader :=
  match R.peek 4 with
  | none => (.error (.truncated, R.offset), R)
  | some (head, R) =>
    let marker := fromLeBytes head
    if marker = footerMagic then (.ok none, R)
    else if marker = 0 then (.ok none, R)
    else if R.file.length - R.offset < minRecordSize then (.error (.truncated, R.offset), R)
    else if R.file.length < R.offset + (4 + marker) then (.error (.truncated, R.offset), R)
    else match R.peek (4 + marker) with
      | none => (.error (.truncated, R.offset), R)
      | some (buf, R) => match WALRecord.decode C buf with
        | .ok (r, consumed) =>
          (.ok (some (r, R.offset)), { R with offset := R.offset + consumed })
        | .error e => (.error (e, R.offset), R)

def nextRecord : Outcome × SegmentReader :=
  if R.file.length ≤ R.offset then (.ok none, R)
  else if R.file.length - R.offset < 4 then (.ok none, R)
  else match R.nextIs textPrefix with
    | none => (.error (.truncated, R.offset), R)
    | some (true, R) => R.nextTextRecord C
    | some (false, R) => match R.nextIs footerTextPrefix with
      | none => (.error (.truncated, R.offset), R)
      | some (true, R) => (.ok none, R)
      | some (false, R) => R.nextFrame C

end

/-- What the first `n` calls return. -/
def calls (C : Checksum) : ℕ → SegmentReader → List Outcome
  | 0, _ => []
  | n + 1, R => (R.nextRecord C).1 :: calls C n (R.nextRecord C).2

end SegmentReader

/-- The bytes that are searched for a footer under padding. -/
def footerTail (file : Bytes) : Bytes :=
  file.drop (max (file.length - footerTailScanBytes) segHeaderLen)

/-- The footer candidate that ends at `e`, if it fits. -/
def candidate (C : Checksum) (tail : Bytes) (e : ℕ) : Option SegmentFooter :=
  if e < footerLen then none else decodeFooter C ((tail.take e).drop (e - footerLen))

/-- The search under padding: a text line anywhere in the tail, then a binary footer at
or up to four bytes behind the last non-zero byte. -/
def scanTail (C : Checksum) (tail : Bytes) : Option SegmentFooter :=
  match tryDecodeTextFooterFromTail C tail with
  | some f => some f
  | none =>
    let firstEnd := (trimZeros tail).length
    if firstEnd = 0 then none
    else (List.range' firstEnd (min (firstEnd + 4) tail.length + 1 - firstEnd)).findSome?
      (candidate C tail)

def readFooter (C : Checksum) (file : Bytes) : Option SegmentFooter :=
  if file.length < segHeaderLen + footerLen then none
  else match decodeFooter C (file.drop (file.length - footerLen)) with
    | some f => some f
    | none => scanTail C (footerTail file)

end CrowDB.Wal
