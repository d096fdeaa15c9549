import CrowDB.Lib.LittleEndian
import CrowDB.Paxos.Roles

/-!
# Batches of operations

The payload of a log entry is an operation count and the operations one after the other.
Decoding never fails: it stops where the bytes end. What the encoders write is read back,
and several bodies one after the other are read back as one batch.
-/
namespace CrowDB.Kv
open Lib Paxos List

inductive Op where
  | put (value : Bytes)
  | delete
  deriving DecidableEq, Repr

structure BatchOp where
  key : Bytes
  op : Op
  deriving DecidableEq, Repr

/-- The four bytes at the front, or zero when they are not all there. -/
def readU32Le (buf : Bytes) : ℕ := if buf.length < 4 then 0 else fromLeBytes (buf.take 4)

/-- At most `n` bytes off the front: all of them, or none when they are not all there. -/
def sliceOr (n : ℕ) (buf : Bytes) : Bytes := if n ≤ buf.length then buf.take n else []

/-- The loop of `Batch::decode` over the bytes behind its offset. -/
def decodeOps : ℕ → Bytes → List BatchOp
  | 0, _ => []
  | _ + 1, [] => []
  | n + 1, kind :: rest =>
    let keyLen := readU32Le rest
    let key := sliceOr keyLen (rest.drop 4)
    let rest := (rest.drop 4).drop keyLen
    let valueLen := readU32Le rest
    let value := sliceOr valueLen (rest.drop 4)
    let rest := (rest.drop 4).drop valueLen
    ⟨key, if kind = 0 then .put value else .delete⟩ :: decodeOps n rest

/-- The operation count at the front of a payload. -/
def opCount (payload : Bytes) : ℕ := fromLeBytes [payload.getD 0 0, payload.getD 1 0]

def Batch.decode (payload : Bytes) : List BatchOp :=
  if payload = [] then [] else decodeOps (opCount payload) (payload.drop 2)

/-! ## Encoding -/

/-- One operation on the wire. -/
def encodeOp (kind : UInt8) (key value : Bytes) : Bytes :=
  kind :: (toLeBytes 4 key.length ++ (key ++ (toLeBytes 4 value.length ++ value)))

def encodeKvPayload (ops : List (Bytes × Option Bytes)) : Bytes :=
  toLeBytes 2 ops.length ++
    ops.flatMap fun x => encodeOp (if x.2.isNone then 1 else 0) x.1 (x.2.getD [])

/-- An operation whose lengths the wire format can hold. -/
def BatchOp.Fits (o : BatchOp) : Prop :=
  o.key.length < 2 ^ 32 ∧ ∀ value, o.op = .put value → value.length < 2 ^ 32

def encodeBatchOp : BatchOp → Bytes
  | ⟨key, .put value⟩ => encodeOp 0 key value
  | ⟨key, .delete⟩ => encodeOp 1 key []

/-- The operations of a request to `encode_kv_payload`. -/
def payloadOp (x : Bytes × Option Bytes) : BatchOp := ⟨x.1, x.2.elim .delete .put⟩

lemma encodeKvPayload_eq (ops : List (Bytes × Option Bytes)) : encodeKvPayload ops =
      toLeBytes 2 (ops.map payloadOp).length ++ (ops.map payloadOp).flatMap encodeBatchOp := by
  rw [encodeKvPayload, length_map, flatMap_map]
  congr 2
  funext x
  obtain ⟨key, _ | value⟩ := x <;> rfl

/-! ## Decoding what was encoded -/

lemma readU32Le_append {v : ℕ} (h : v < 2 ^ 32) (rest : Bytes) :
    readU32Le (toLeBytes 4 v ++ rest) = v := by
  rw [readU32Le, if_neg (by rw [length_append, length_toLeBytes]; omega),
    take_left' (length_toLeBytes 4 v), fromLeBytes_toLeBytes (by norm_num at h; exact h)]

lemma sliceOr_append (bs rest : Bytes) : sliceOr bs.length (bs ++ rest) = bs := by
  rw [sliceOr, if_pos (by rw [length_append]; omega), take_left]

lemma decodeOps_encodeOp {kind : UInt8} {key value : Bytes} (hkey : key.length < 2 ^ 32)
    (hvalue : value.length < 2 ^ 32) (n : ℕ) (rest : Bytes) :
    decodeOps (n + 1) (encodeOp kind key value ++ rest) =
      ⟨key, if kind = 0 then .put value else .delete⟩ :: decodeOps n rest := by
  simp only [encodeOp, cons_append, append_assoc, decodeOps, readU32Le_append hkey,
    drop_left' (length_toLeBytes 4 _), sliceOr_append, drop_left,
    readU32Le_append hvalue]

/-- The operations of a body come first, whatever follows it. -/
theorem decodeOps_append {ops : List BatchOp} (h : ∀ o ∈ ops, o.Fits) (n : ℕ) (rest : Bytes) :
    decodeOps (ops.length + n) (ops.flatMap encodeBatchOp ++ rest) = ops ++ decodeOps n rest := by
  induction ops with
  | nil => simp
  | cons o _ ih =>
    obtain ⟨ho, h⟩ := forall_mem_cons.mp h
    rw [flatMap_cons, append_assoc, length_cons, Nat.succ_add, cons_append, ← ih h]
    obtain ⟨key, value | _⟩ := o
    · exact decodeOps_encodeOp ho.1 (ho.2 value rfl) _ _
    · exact decodeOps_encodeOp ho.1 (by norm_num) _ _

lemma length_decodeOps_le (n : ℕ) (rest : Bytes) : (decodeOps n rest).length ≤ n := by
  induction n generalizing rest with
  | zero => exact le_rfl
  | succ _ ih =>
    cases rest with
    | nil => exact Nat.zero_le _
    | cons => exact Nat.succ_le_succ (ih _)

/-- No payload decodes to more operations than its count can say. -/
theorem length_decode_lt (payload : Bytes) : (Batch.decode payload).length < 2 ^ 16 := by
  have hcount : opCount payload < 2 ^ 16 := by
    have := fromLeBytes_lt [payload.getD 0 0, payload.getD 1 0]
    norm_num at this
    exact this
  rw [Batch.decode]
  split
  · norm_num
  · exact (length_decodeOps_le _ _).trans_lt hcount

/-- The payload of a request: the operations it stands for, in number at most what the
count can hold. -/
structure Encodes (payload : Bytes) (ops : List BatchOp) : Prop where
  payload_eq : payload = toLeBytes 2 ops.length ++ ops.flatMap encodeBatchOp
  length_lt : ops.length < 2 ^ 16
  fits : ∀ o ∈ ops, o.Fits

namespace Encodes
variable {payload : Bytes} {ops : List BatchOp}

lemma drop_two (h : Encodes payload ops) : payload.drop 2 = ops.flatMap encodeBatchOp := by
  rw [h.payload_eq, drop_left' (length_toLeBytes 2 _)]

lemma opCount_eq (h : Encodes payload ops) : opCount payload = ops.length := by
  have hlen := h.length_lt
  rw [← fromLeBytes_toLeBytes (w := 2) (v := ops.length) (by norm_num at hlen; exact hlen),
    h.payload_eq]
  rfl

/-- What was encoded is decoded again. -/
theorem decode_eq (h : Encodes payload ops) : Batch.decode payload = ops := by
  have hne : payload ≠ [] := by
    rw [h.payload_eq]
    exact nofun
  have hops := decodeOps_append h.fits 0 []
  rw [append_nil, Nat.add_zero] at hops
  rw [Batch.decode, if_neg hne, h.drop_two, h.opCount_eq, hops]
  exact append_nil ops

end Encodes
end CrowDB.Kv
