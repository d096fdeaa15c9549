import CrowDB.Lib.LittleEndian
import CrowDB.Paxos.Roles

/-!
# Write-ahead log records

A promise carries no payload, an accepted entry carries its own, and a granted
vote is filed under slot 0 with the candidate as eight payload bytes.
-/
namespace CrowDB.Wal
open Paxos Lib

inductive RecordType
  | promised
  | accepted
  | voteGranted
  deriving DecidableEq, Repr

structure WALRecord where
  recordType : RecordType
  groupId : ℕ
  term : ℕ
  slot : ℕ
  ballot : PxBallot
  payload : Bytes
  deriving DecidableEq, Repr

namespace WALRecord

def fromAccepted (group : ℕ) (entry : PxLogEntry) : WALRecord :=
  ⟨.accepted, group, entry.term, entry.slot, entry.ballot, entry.payload⟩

def fromPromised (group term slot : ℕ) (ballot : PxBallot) : WALRecord :=
  ⟨.promised, group, term, slot, ballot, []⟩

def fromVoteGranted (group term votedForId : ℕ) : WALRecord :=
  ⟨.voteGranted, group, term, 0, .zero, toLeBytes 8 votedForId⟩

/-- The accepted entry of a record: header fields and payload put together. -/
def toLogEntry (r : WALRecord) : Option PxLogEntry :=
  if r.recordType = .accepted then some ⟨r.slot, r.ballot, r.term, r.payload⟩ else none

/-- The candidate of a vote; a payload below eight bytes names none. -/
def votedForId (r : WALRecord) : Option ℕ :=
  if r.recordType ≠ .voteGranted then none
  else if r.payload.length < 8 then none
  else some (fromLeBytes (r.payload.take 8))

/-- A vote read back names the candidate it was cast for. -/
theorem votedForId_fromVoteGranted (g t : ℕ) {v : ℕ} (h : v < 2 ^ 64) :
    (fromVoteGranted g t v).votedForId = some v := by
  have hlen : (toLeBytes 8 v).length = 8 := length_toLeBytes 8 v
  have htake : (toLeBytes 8 v).take 8 = toLeBytes 8 v := List.take_of_length_le hlen.le
  have hv : fromLeBytes (toLeBytes 8 v) = v := fromLeBytes_toLeBytes (by norm_num at h; exact h)
  simp [votedForId, fromVoteGranted, htake, hv]

end WALRecord
end CrowDB.Wal
