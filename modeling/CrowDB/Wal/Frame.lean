import CrowDB.Lib.Checksum
import CrowDB.Wal.Record

/-!
# Binary record frames

A record is written as its frame length, a fixed header, the payload and a checksum
of header and payload, all integers little-endian. Everything here holds for any
checksum; `crc32c` is the one the log uses.
-/
namespace CrowDB.Wal
open Paxos Lib

/-- One byte of the Castagnoli CRC, reflected, without inversion. -/
def crcByte (crc : UInt32) (b : UInt8) : UInt32 :=
  (List.range 8).foldl (fun c _ => if c &&& 1 = 1 then (c >>> 1) ^^^ 0x82F63B78 else c >>> 1)
    (crc ^^^ b.toUInt32)

def crc32c : Checksum := ⟨crcByte⟩

def walMagic : ℕ := 0x43524F57
def walVersion : ℕ := 1
def headerBodyLen : ℕ := 4 + 2 + 1 + 8 + 8 + 8 + 8 + 8 + 4
def minRecordSize : ℕ := 4 + headerBodyLen + 4

namespace RecordType

def toU8 : RecordType → ℕ
  | .promised => 0
  | .accepted => 1
  | .voteGranted => 2

def fromU8 : ℕ → Option RecordType
  | 0 => some .promised
  | 1 => some .accepted
  | 2 => some .voteGranted
  | _ => none

lemma fromU8_toU8 (t : RecordType) : fromU8 t.toU8 = some t := by cases t <;> rfl

lemma toU8_lt (t : RecordType) : t.toU8 < 256 ^ 1 := by cases t <;> decide

end RecordType

/-- The text of `BadText` is only ever logged and is left out. -/
inductive RecordError
  | truncated
  | badCrc (expected got : ℕ)
  | badMagic (magic : ℕ)
  | badVersion (version : ℕ)
  | badRecordType (raw : ℕ)
  | badText
  deriving DecidableEq, Repr

namespace WALRecord

def frameLen (r : WALRecord) : ℕ := headerBodyLen + r.payload.length + 4

/-- What `encode_frame` does not panic on: the integers have their widths. -/
structure Encodable (r : WALRecord) : Prop where
  groupId : r.groupId < 2 ^ 64
  term : r.term < 2 ^ 64
  slot : r.slot < 2 ^ 64
  round : r.ballot.round < 2 ^ 64
  leaderId : r.ballot.leaderId < 2 ^ 64
  frame : r.frameLen < 2 ^ 32

def headerBody (r : WALRecord) : Bytes :=
  toLeBytes 4 walMagic ++ (toLeBytes 2 walVersion ++ (toLeBytes 1 r.recordType.toU8 ++
    (toLeBytes 8 r.groupId ++ (toLeBytes 8 r.term ++ (toLeBytes 8 r.slot ++
      (toLeBytes 8 r.ballot.round ++ (toLeBytes 8 r.ballot.leaderId ++
        toLeBytes 4 r.payload.length)))))))

section
variable (C : Checksum) (r : WALRecord)

def frameCrc : UInt32 := C.update (C.of r.headerBody) r.payload

/-- The four buffers of `append_io_slices`. -/
def ioSlices : List Bytes :=
  [toLeBytes 4 r.frameLen, r.headerBody, r.payload, toLeBytes 4 (r.frameCrc C).toNat]

def encode : Bytes := (r.ioSlices C).flatten

end

def decode (C : Checksum) (data : Bytes) : Except RecordError (WALRecord × ℕ) :=
  if data.length < minRecordSize then .error .truncated
  else
    let frameLen := (readLe 4 data).1
    if frameLen < headerBodyLen + 4 then .error .truncated
    else if data.length < 4 + frameLen then .error .truncated
    else
      let body := (data.take (4 + frameLen)).drop 4
      let crcStored := (readLe 4 (body.drop (frameLen - 4))).1
      let crcComputed := (C.of (body.take (frameLen - 4))).toNat
      if crcStored ≠ crcComputed then .error (.badCrc crcComputed crcStored)
      else
        let (magic, body) := readLe 4 body
        let (version, body) := readLe 2 body
        let (rtRaw, body) := readLe 1 body
        let (groupId, body) := readLe 8 body
        let (term, body) := readLe 8 body
        let (slot, body) := readLe 8 body
        let (round, body) := readLe 8 body
        let (leaderId, body) := readLe 8 body
        let (payloadLen, body) := readLe 4 body
        if magic ≠ walMagic then .error (.badMagic magic)
        else if version ≠ walVersion then .error (.badVersion version)
        else match RecordType.fromU8 rtRaw with
          | none => .error (.badRecordType rtRaw)
          | some recordType =>
            if body.length < payloadLen + 4 then .error .truncated
            else .ok (⟨recordType, groupId, term, slot, ⟨round, leaderId⟩,
              body.take payloadLen⟩, 4 + frameLen)

@[simp] lemma length_headerBody (r : WALRecord) : r.headerBody.length = headerBodyLen := by
  simp [headerBody, headerBodyLen]

lemma length_encode (C : Checksum) (r : WALRecord) : (r.encode C).length = 4 + r.frameLen := by
  simp [encode, ioSlices, frameLen]
  omega

lemma encode_eq (C : Checksum) (r : WALRecord) : r.encode C = toLeBytes 4 r.frameLen ++
    (r.headerBody ++ r.payload ++ toLeBytes 4 (r.frameCrc C).toNat) := by
  simp [encode, ioSlices]

/-- A frame is read back as the record it was made from. -/
theorem decode_encode (C : Checksum) {r : WALRecord} (h : r.Encodable) :
    decode C (r.encode C) = .ok (r, (r.encode C).length) := by
  have hlen := length_encode C r
  have hframe : headerBodyLen + 4 ≤ r.frameLen := by
    rw [frameLen]
    omega
  have hmin : ¬ 4 + r.frameLen < minRecordSize := by
    rw [minRecordSize]
    omega
  have hread : (readLe 4 (r.encode C)).1 = r.frameLen := by
    rw [encode_eq, readLe_append (by have := h.frame; norm_num at this; exact this)]
  have hbody : ((r.encode C).take (4 + r.frameLen)).drop 4 =
      r.headerBody ++ r.payload ++ toLeBytes 4 (r.frameCrc C).toNat := by
    rw [← hlen, List.take_length, encode_eq, List.drop_left' (length_toLeBytes 4 _)]
  have hsplit : (r.headerBody ++ r.payload).length = r.frameLen - 4 := by
    simp [frameLen]
  have hcrc : (r.frameCrc C).toNat < 256 ^ 4 := by
    have := (r.frameCrc C).toNat_lt
    exact this
  have hstored : (readLe 4 ((r.headerBody ++ r.payload ++
      toLeBytes 4 (r.frameCrc C).toNat).drop (r.frameLen - 4))).1 = (r.frameCrc C).toNat := by
    rw [List.drop_left' hsplit, ← List.append_nil (toLeBytes 4 _), readLe_append hcrc]
  have hcomputed : C.of ((r.headerBody ++ r.payload ++
      toLeBytes 4 (r.frameCrc C).toNat).take (r.frameLen - 4)) = r.frameCrc C := by
    rw [List.take_left' hsplit, frameCrc, C.update_of]
  have hpayload : r.payload.length < 256 ^ 4 := by
    have := h.frame
    rw [frameLen] at this
    omega
  have hwide : ∀ {v : ℕ}, v < 2 ^ 64 → v < 256 ^ 8 := fun hv => by norm_num at ⊢; exact hv
  unfold decode
  simp only [hmin, hread, not_lt.mpr hframe, hlen, hbody, hstored, hcomputed]
  simp only [headerBody, List.append_assoc, readLe_append (show walMagic < 256 ^ 4 by decide),
    readLe_append (show walVersion < 256 ^ 2 by decide), readLe_append r.recordType.toU8_lt,
    readLe_append (hwide h.groupId), readLe_append (hwide h.term), readLe_append (hwide h.slot),
    readLe_append (hwide h.round), readLe_append (hwide h.leaderId), readLe_append hpayload,
    RecordType.fromU8_toU8]
  simp

end WALRecord
end CrowDB.Wal
