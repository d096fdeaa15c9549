import CrowDB.ChunkStream.Records

/-!
# The record store of a stream

Attached records, candidates and read pins of one stream share a KV group. A batch is atomic and
compares the revision of one guard key. Every batch that is fenced by a captured tail rewrites
the tail record, so that its revision moves and what was captured before cannot guard again.
-/
namespace CrowDB.ChunkStream
open Lib

/-- A record with the revision of its key. -/
structure Snapshot where
  record : StreamChunkRecord
  revision : ℕ
  deriving DecidableEq

/-- A leased interval and the chunk that was active when it was captured. -/
structure PinRecord where
  id : ℕ
  start : ℕ
  stop : ℕ
  active : Option ChunkId
  expires : ℕ
  deriving DecidableEq

inductive RecordKey
  | attached (start : ℕ)
  | candidate (sequence : ℕ)
  deriving DecidableEq

def recordKey (r : StreamChunkRecord) : RecordKey :=
  if r.state = .candidate then .candidate r.sequence else .attached r.start

inductive BatchOp
  | put (record : StreamChunkRecord)
  | delete (key : RecordKey)
  | putPin (pin : PinRecord)
  | deletePin (id : ℕ)
  deriving DecidableEq

def Snapshot.start (sn : Snapshot) : ℕ := sn.record.start

def Snapshot.sequence (sn : Snapshot) : ℕ := sn.record.sequence

structure Store where
  attached : List Snapshot := []
  candidates : List Snapshot := []
  pins : List PinRecord := []
  revision : ℕ := 0
  deriving DecidableEq

namespace Store

/-- `load_tail`: the attached record with the greatest key. -/
def loadTail (st : Store) : Option Snapshot := st.attached.getLast?

/-- `load_key`. -/
def loadKey (st : Store) : RecordKey → Option Snapshot
  | .attached start => findRow Snapshot.start start st.attached
  | .candidate sequence => findRow Snapshot.sequence sequence st.candidates

def loadPin (st : Store) (id : ℕ) : Option PinRecord := findRow PinRecord.id id st.pins

/-- Zero for a missing key. -/
def revisionOf (st : Store) (key : RecordKey) : ℕ := (st.loadKey key).elim 0 Snapshot.revision

def applyOp (revision : ℕ) (st : Store) : BatchOp → Store
  | .put r =>
    if r.state = .candidate then
      { st with candidates := insertRow Snapshot.sequence ⟨r, revision⟩ st.candidates }
    else { st with attached := insertRow Snapshot.start ⟨r, revision⟩ st.attached }
  | .delete (.attached start) => { st with attached := eraseRow Snapshot.start start st.attached }
  | .delete (.candidate sequence) =>
    { st with candidates := eraseRow Snapshot.sequence sequence st.candidates }
  | .putPin p => { st with pins := insertRow PinRecord.id p st.pins }
  | .deletePin id => { st with pins := eraseRow PinRecord.id id st.pins }

def batch (st : Store) (ops : List BatchOp) (guard : RecordKey) (revision : ℕ) : Option Store :=
  if st.revisionOf guard = revision then
    some (ops.foldl (applyOp (st.revision + 1)) { st with revision := st.revision + 1 })
  else none

end Store

/-! ## Answers -/

/-- What becomes of a batch on its way: it is executed and answered, refused because the key is
busy, left without an answer, or fails for another reason. -/
inductive Reply
  | delivered
  | busy
  | lost (executed : Bool)
  | refused
  deriving DecidableEq

inductive Answer
  | ok (revision : ℕ)
  | casFailed
  | casBusy
  | outcomeUnknown
  | failed
  deriving DecidableEq

namespace Store

def send (st : Store) (ops : List BatchOp) (guard : RecordKey) (revision : ℕ) :
    Reply → Store × Answer
  | .delivered =>
    match st.batch ops guard revision with
    | some next => (next, .ok next.revision)
    | none => (st, .casFailed)
  | .busy => (st, .casBusy)
  | .lost executed =>
    (if executed then (st.batch ops guard revision).getD st else st, .outcomeUnknown)
  | .refused => (st, .failed)

/-- `fenced_batch`: the captured tail is written back. -/
def sendFenced (st : Store) (expected : Snapshot) (ops : List BatchOp) : Reply → Store × Answer :=
  st.send (ops ++ [.put expected.record]) (recordKey expected.record) expected.revision

lemma send_eq (st : Store) (ops : List BatchOp) (guard : RecordKey) (revision : ℕ)
    (reply : Reply) :
    (st.send ops guard revision reply).1 = st ∨
      st.batch ops guard revision = some (st.send ops guard revision reply).1 := by
  cases reply with
  | delivered =>
    simp only [send]
    cases h : st.batch ops guard revision with
    | none => exact .inl rfl
    | some => exact .inr rfl
  | busy => exact .inl rfl
  | refused => exact .inl rfl
  | lost executed =>
    simp only [send]
    cases executed with
    | false => exact .inl rfl
    | true =>
      cases h : st.batch ops guard revision with
      | none => exact .inl rfl
      | some => exact .inr rfl

lemma send_ok {st next : Store} {ops : List BatchOp} {guard : RecordKey} {revision v : ℕ}
    {reply : Reply} (h : st.send ops guard revision reply = (next, .ok v)) :
    st.batch ops guard revision = some next ∧ v = next.revision := by
  cases reply with
  | delivered =>
    simp only [send] at h
    split at h
    next st' hst' =>
      cases h
      exact ⟨hst', rfl⟩
    · cases h
  | busy => cases h
  | refused => cases h
  | lost => cases h

end Store
end CrowDB.ChunkStream
