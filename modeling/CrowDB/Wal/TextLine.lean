import CrowDB.Wal.Frame

/-!
# Text lines

The text format writes headers, records and footers as lines of `key=value` fields. A
reader of binary segments meets it too: it looks for the text markers before it looks
at a frame, and for a text footer before it looks for a binary one under padding.
-/
namespace CrowDB.Wal
open Paxos Lib

/-- The bytes of an ASCII string. -/
def ascii (s : String) : Bytes := s.toList.map fun c => UInt8.ofNat c.toNat

def newline : UInt8 := 10

def segTextPrefix : Bytes := ascii "CROWDB_WAL_SEG"
def textPrefix : Bytes := ascii "CROWDB_WAL_TEXT"
def footerTextPrefix : Bytes := ascii "CROWDB_WAL_FOOTER"

/-- Both sides of the first separator. -/
def splitOnce (sep : UInt8) : Bytes → Option (Bytes × Bytes)
  | [] => none
  | b :: bs =>
    if b = sep then some ([], bs) else (splitOnce sep bs).map fun x => (b :: x.1, x.2)

/-- Both sides of the last occurrence of a non-empty pattern. -/
def rsplitOnce (pat : Bytes) : Bytes → Option (Bytes × Bytes)
  | [] => none
  | b :: bs => match rsplitOnce pat bs with
    | some x => some (b :: x.1, x.2)
    | none => if pat.isPrefixOf (b :: bs) then some ([], (b :: bs).drop pat.length) else none

/-- The text from the last occurrence of a non-empty pattern on. -/
def fromLast (pat : Bytes) : Bytes → Option Bytes
  | [] => none
  | b :: bs => (fromLast pat bs).or (if pat.isPrefixOf (b :: bs) then some (b :: bs) else none)

def trimLineEnd (bs : Bytes) : Bytes :=
  (bs.reverse.dropWhile fun b => b = newline ∨ b = 13).reverse

def digit (radix : ℕ) (b : UInt8) : Option ℕ :=
  let n := b.toNat
  if 48 ≤ n ∧ n ≤ 57 then some (n - 48)
  else if radix = 16 ∧ 97 ≤ n ∧ n ≤ 102 then some (n - 87)
  else if radix = 16 ∧ 65 ≤ n ∧ n ≤ 70 then some (n - 55)
  else none

/-- An unsigned integer below `bound`; a leading plus sign is allowed. -/
def parseUint (radix bound : ℕ) (bs : Bytes) : Option ℕ :=
  let ds := if bs.head? = some 43 then bs.tail else bs
  if ds = [] then none
  else ds.foldlM (fun acc b => (digit radix b).bind fun d =>
    if acc * radix + d < bound then some (acc * radix + d) else none) 0

def decodeHex : Bytes → Option Bytes
  | [] => some []
  | [_] => none
  | high :: low :: bs => (digit 16 high).bind fun h => (digit 16 low).bind fun l =>
    (decodeHex bs).map fun out => UInt8.ofNat (h * 16 + l) :: out

def isContinuation (b : UInt8) : Bool := 0x80 ≤ b ∧ b ≤ 0xBF

/-- Well-formed UTF-8. -/
def validUtf8 : Bytes → Bool
  | [] => true
  | a :: l =>
    if a < 0x80 then validUtf8 l
    else match l with
      | [] => false
      | b :: l =>
        if 0xC2 ≤ a ∧ a ≤ 0xDF then isContinuation b && validUtf8 l
        else match l with
          | [] => false
          | c :: l =>
            if 0xE0 ≤ a ∧ a ≤ 0xEF then
              isContinuation b && isContinuation c && (a ≠ 0xE0 || 0xA0 ≤ b) &&
                (a ≠ 0xED || b ≤ 0x9F) && validUtf8 l
            else match l with
              | [] => false
              | d :: l =>
                0xF0 ≤ a && a ≤ 0xF4 && isContinuation b && isContinuation c &&
                  isContinuation d && (a ≠ 0xF0 || 0x90 ≤ b) && (a ≠ 0xF4 || b ≤ 0x8F) &&
                  validUtf8 l

/-- The part of a line that its checksum covers, once that checksum is verified. -/
def checkedBody (C : Checksum) (line : Bytes) : Except RecordError Bytes :=
  match rsplitOnce (ascii " crc32c=") (trimLineEnd line) with
  | none => .error .badText
  | some (body, hex) => match parseUint 16 (2 ^ 32) hex with
    | none => .error .badText
    | some got =>
      if got ≠ (C.of body).toNat then .error (.badCrc (C.of body).toNat got) else .ok body

/-- The fields after the tag of a line, in order, each given to `set`. -/
def foldFields {σ : Type} (tag : Bytes) (set : σ → Bytes → Bytes → Option σ) (init : σ)
    (body : Bytes) : Option σ :=
  match body.splitOn 32 with
  | [] => none
  | head :: fields =>
    if head ≠ tag then none
    else fields.foldlM (fun s field => (splitOnce 61 field).bind fun kv => set s kv.1 kv.2) init

structure TextFields where
  version : Option ℕ
  recordType : Option RecordType
  groupId : Option ℕ
  term : Option ℕ
  slot : Option ℕ
  round : Option ℕ
  leaderId : Option ℕ
  payload : Option Bytes

def RecordType.fromName (value : Bytes) : Option RecordType :=
  if value = ascii "Promised" then some .promised
  else if value = ascii "Accepted" then some .accepted
  else if value = ascii "VoteGranted" then some .voteGranted
  else none

def TextFields.set (F : TextFields) (key value : Bytes) : Option TextFields :=
  let parseU64 := parseUint 10 (2 ^ 64) value
  if key = ascii "v" then
    (parseUint 10 (2 ^ 16) value).map fun x => { F with version := some x }
  else if key = ascii "type" then
    (RecordType.fromName value).map fun x => { F with recordType := some x }
  else if key = ascii "group_id" then parseU64.map fun x => { F with groupId := some x }
  else if key = ascii "term" then parseU64.map fun x => { F with term := some x }
  else if key = ascii "slot" then parseU64.map fun x => { F with slot := some x }
  else if key = ascii "ballot_round" then parseU64.map fun x => { F with round := some x }
  else if key = ascii "ballot_leader_id" then parseU64.map fun x => { F with leaderId := some x }
  else if key = ascii "payload_hex" then
    (decodeHex value).map fun x => { F with payload := some x }
  else none

/-- The record of a complete set of fields. -/
def TextFields.record (F : TextFields) : Option WALRecord :=
  F.recordType.bind fun recordType => F.groupId.bind fun groupId => F.term.bind fun term =>
    F.slot.bind fun slot => F.round.bind fun round => F.leaderId.bind fun leaderId =>
      F.payload.map fun payload =>
        ⟨recordType, groupId, term, slot, ⟨round, leaderId⟩, payload⟩

def WALRecord.decodeTextLine (C : Checksum) (line : Bytes) : Except RecordError WALRecord :=
  (checkedBody C line).bind fun body =>
    match foldFields textPrefix TextFields.set ⟨none, none, none, none, none, none, none, none⟩
      body with
    | none => .error .badText
    | some F => match F.version with
      | none => .error .badText
      | some version =>
        if version ≠ walVersion then .error (.badVersion version)
        else match F.record with
          | none => .error .badText
          | some r => .ok r

structure SegmentHeader where
  segmentId : ℕ
  groupId : ℕ
  deriving DecidableEq, Repr

structure SegmentFooter where
  minSlot : ℕ
  maxSlot : ℕ
  recordCount : ℕ
  deriving DecidableEq, Repr

/-- A header line: the version field is accepted and ignored. -/
def decodeTextSegHeader (line : Bytes) : Option SegmentHeader :=
  (foldFields segTextPrefix (fun (s : Option ℕ × Option ℕ) key value =>
    if key = ascii "v" then some s
    else if key = ascii "segment_id" then
      (parseUint 10 (2 ^ 64) value).map fun x => (some x, s.2)
    else if key = ascii "group_id" then
      (parseUint 10 (2 ^ 64) value).map fun x => (s.1, some x)
    else none) (none, none) line).bind fun s =>
  s.1.bind fun segmentId => s.2.map fun groupId => ⟨segmentId, groupId⟩

def decodeTextFooter (C : Checksum) (line : Bytes) : Option SegmentFooter :=
  match checkedBody C line with
  | .error _ => none
  | .ok body =>
    (foldFields footerTextPrefix (fun (s : Option ℕ × Option ℕ × Option ℕ) key value =>
      if key = ascii "min_slot" then
        (parseUint 10 (2 ^ 64) value).map fun x => (some x, s.2)
      else if key = ascii "max_slot" then
        (parseUint 10 (2 ^ 64) value).map fun x => (s.1, some x, s.2.2)
      else if key = ascii "record_count" then
        (parseUint 10 (2 ^ 32) value).map fun x => (s.1, s.2.1, some x)
      else none) (none, none, none) body).bind fun s =>
    s.1.bind fun minSlot => s.2.1.bind fun maxSlot => s.2.2.map fun recordCount =>
      ⟨minSlot, maxSlot, recordCount⟩

def trimZeros (bs : Bytes) : Bytes := (bs.reverse.dropWhile (· = 0)).reverse

def tryDecodeTextFooterFromTail (C : Checksum) (tail : Bytes) : Option SegmentFooter :=
  (fromLast footerTextPrefix (trimZeros tail)).bind fun rest =>
    (splitOnce newline rest).bind fun x =>
      if validUtf8 x.1 then decodeTextFooter C x.1 else none

end CrowDB.Wal
