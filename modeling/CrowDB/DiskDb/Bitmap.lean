import CrowDB.Lib.BitWords
import CrowDB.Lib.LittleEndian
import CrowDB.Paxos.Roles
import Mathlib.Order.Interval.Finset.Nat

/-!
# Usage bitmaps of zones

`UsageBitmap` keeps one bit per block unit in 64-bit words; `ZoneBitmap` leaves
the words of an empty zone out. `range_set` and `range_clear` take a range one bit
at a time and undo everything at the first bit that already has the wanted value,
so each of them is an all-or-nothing update of the set of used units. The bit
operations are given here as one caller sees them that is not disturbed by another.
-/
namespace CrowDB.DiskDb
open Lib BitWords Paxos Finset

/-- `UsageBitmap`: one bit per block, in as many words as the blocks need. -/
structure UsageBitmap (blockCount : ℕ) where
  words : Words
  words_length : words.length = (blockCount + 63) / 64

variable {offset i count : ℕ}

namespace UsageBitmap
variable {n : ℕ}

def new (n : ℕ) : UsageBitmap n := ⟨List.replicate ((n + 63) / 64) 0, by simp⟩

section
variable (b : UsageBitmap n)

def isSet (i : ℕ) : Bool := test b.words i

/-- The used units. -/
def units : Finset ℕ := members b.words

def countSet : ℕ := BitWords.countSet b.words

/-- One `fetch_or` or `fetch_and`. -/
def putBit (i : ℕ) (set : Bool) : UsageBitmap n :=
  if set then ⟨setBit b.words i, by simp [b.words_length]⟩
  else ⟨clearBit b.words i, by simp [b.words_length]⟩

/-- `cas_bit`: fails when the bit already has the wanted value. -/
def casBit (i : ℕ) (set : Bool) : UsageBitmap n × Bool :=
  if set = b.isSet i then (b, false) else (b.putBit i set, true)

/-- The inner loop of both range operations: give the first `i` bits their old
value back. -/
def rollback (offset i : ℕ) (set : Bool) : UsageBitmap n :=
  (List.range i).foldl (fun b j => b.putBit (offset + j) !set) b

/-- The outer loop of both range operations, at index `i` with `k` bits left. -/
def rangeFrom (b : UsageBitmap n) (offset : ℕ) (set : Bool) (i : ℕ) : ℕ → UsageBitmap n × Bool
  | 0 => (b, true)
  | k + 1 =>
    if b.isSet (offset + i) = set then ((b.putBit (offset + i) set).rollback offset i set, false)
    else (b.putBit (offset + i) set).rangeFrom offset set (i + 1) k

def rangeSet (offset count : ℕ) : UsageBitmap n × Bool :=
  b.rangeFrom offset true 0 count

def rangeClear (offset count : ℕ) : UsageBitmap n × Bool :=
  b.rangeFrom offset false 0 count

end

/-- `restore`: the last word is padded with zeros. -/
def restoreWords (bytes : Bytes) : Words :=
  (List.range ((bytes.length + 7) / 8)).map fun i =>
    BitVec.ofNat 64 (fromLeBytes ((bytes.drop (8 * i)).take 8))

/-- `restore_for_block_count`: words beyond the geometry are dropped, and the
unused high bits of the last word are cleared. -/
def restoreForBlockCount (bytes : Bytes) (n : ℕ) : UsageBitmap n where
  words := (List.range ((n + 63) / 64)).map fun i =>
    let word := (restoreWords bytes).getD i 0
    if i + 1 = (n + 63) / 64 ∧ n % 64 ≠ 0 then word &&& BitVec.ofNat 64 (2 ^ (n % 64) - 1) else word
  words_length := by simp

variable {b : UsageBitmap n}

lemma mem_units : i ∈ b.units ↔ b.isSet i = true := mem_members

lemma card_units (b : UsageBitmap n) : b.units.card = b.countSet := card_members b.words

@[simp] lemma units_new : (new n).units = ∅ := members_replicate_zero _

lemma isSet_putBit (hi : i < n) (set : Bool) (j : ℕ) :
    (b.putBit i set).isSet j = if j = i then set else b.isSet j := by
  have hlen : i < 64 * b.words.length := by
    rw [b.words_length]
    omega
  cases set with
  | true => by_cases hj : j = i <;> simp [putBit, isSet, test_setBit hlen]
  | false => by_cases hj : j = i <;> simp [putBit, isSet, test_clearBit]

lemma isSet_rollback (hi : offset + i ≤ n) (set : Bool) (j : ℕ) :
    (b.rollback offset i set).isSet j =
      if offset ≤ j ∧ j < offset + i then !set else b.isSet j := by
  induction i with
  | zero =>
    simp [rollback]
  | succ i ih =>
    have hlast : offset + i < n := by omega
    have hstep : b.rollback offset (i + 1) set =
        (b.rollback offset i set).putBit (offset + i) !set := by
      simp only [rollback, List.range_succ, List.foldl_append, List.foldl_cons, List.foldl_nil]
    rw [hstep, isSet_putBit hlast, ih (by omega)]
    by_cases hj : j = offset + i
    · have hin : offset ≤ j ∧ j < offset + (i + 1) := by omega
      rw [if_pos hj, if_pos hin]
    · have hiff : (offset ≤ j ∧ j < offset + i) ↔ (offset ≤ j ∧ j < offset + (i + 1)) := by omega
      rw [if_neg hj]
      simp [hiff]

/-- What is left of the loop: from a bitmap in which the first `i` bits were taken
out of `b₀`, it either takes the others too or restores `b₀`. -/
theorem isSet_rangeFrom (b₀ : UsageBitmap n) (set : Bool) {k : ℕ} (hin : offset + i + k ≤ n)
    (htaken : ∀ j, b.isSet j = if offset ≤ j ∧ j < offset + i then set else b₀.isSet j)
    (hnew : ∀ j, offset ≤ j → j < offset + i → b₀.isSet j = !set) :
    (b.rangeFrom offset set i k).2 =
        decide (∀ j, offset ≤ j → j < offset + i + k → b₀.isSet j = !set) ∧
      ∀ j, (b.rangeFrom offset set i k).1.isSet j =
        if (b.rangeFrom offset set i k).2 = true ∧ offset ≤ j ∧ j < offset + i + k then set
        else b₀.isSet j := by
  induction k generalizing b i with
  | zero => exact ⟨(decide_eq_true hnew).symm, fun j => by simpa [rangeFrom] using htaken j⟩
  | succ k ih =>
    have hfirst : b.isSet (offset + i) = b₀.isSet (offset + i) := by
      rw [htaken, if_neg (by omega)]
    have hput := isSet_putBit (b := b) (i := offset + i) (by omega) set
    by_cases hhit : b.isSet (offset + i) = set
    · have hfail : ¬∀ j, offset ≤ j → j < offset + i + (k + 1) → b₀.isSet j = !set := by
        intro hall
        have hbit := hall (offset + i) (by omega) (by omega)
        rw [← hfirst, hhit] at hbit
        simp at hbit
      simp only [rangeFrom, if_pos hhit]
      refine ⟨(decide_eq_false hfail).symm, fun j => ?_⟩
      rw [isSet_rollback (by omega), hput, htaken]
      by_cases hj : offset ≤ j ∧ j < offset + i
      · simp [hj, hnew j hj.1 hj.2]
      · by_cases hji : j = offset + i
        · simp [hji, ← hfirst, hhit]
        · simp [hj, hji]
    · simp only [rangeFrom, if_neg hhit]
      have hbit : b₀.isSet (offset + i) = !set := by
        rw [← hfirst]
        revert hhit
        cases b.isSet (offset + i) <;> simp
      have hrest := ih (i := i + 1) (by omega) (fun j => by
          rw [hput, htaken]
          by_cases hji : j = offset + i
          · simp [hji]
          · have hiff : (offset ≤ j ∧ j < offset + i) ↔ (offset ≤ j ∧ j < offset + (i + 1)) := by
              omega
            simp only [if_neg hji, hiff])
        (fun j h1 h2 => by
          by_cases hji : j = offset + i
          · rw [hji]; exact hbit
          · exact hnew j h1 (by omega))
      have hend : offset + (i + 1) + k = offset + i + (k + 1) := by omega
      rwa [hend] at hrest

/-- `range_set` adds the whole range, or nothing when a unit of it is in use. -/
theorem mem_units_rangeFrom (h : offset + count ≤ n) (set : Bool) {j : ℕ} :
    j ∈ (b.rangeFrom offset set 0 count).1.units ↔
      if (∀ i, offset ≤ i → i < offset + count → b.isSet i = !set) ∧ offset ≤ j ∧
        j < offset + count then set = true else j ∈ b.units := by
  obtain ⟨hres, hbits⟩ := isSet_rangeFrom b set (i := 0) (by omega)
    (fun j => by rw [if_neg (by omega)]) (fun j h1 h2 => by omega)
  rw [mem_units, hbits, hres, mem_units]
  simp only [Nat.add_zero, decide_eq_true_eq]
  split <;> rfl

lemma units_rangeSet (h : offset + count ≤ n) :
    (b.rangeSet offset count).1.units = claimAll b.units (Ico offset (offset + count)) := by
  have hdisj : Disjoint b.units (Ico offset (offset + count)) ↔
      ∀ j, offset ≤ j → j < offset + count → b.isSet j = false := by
    simp only [disjoint_right, mem_Ico, mem_units, Bool.not_eq_true, and_imp]
  ext j
  simp only [rangeSet, mem_units_rangeFrom h, Bool.not_true, ← hdisj, claimAll]
  by_cases hd : Disjoint b.units (Ico offset (offset + count))
  · by_cases hj : offset ≤ j ∧ j < offset + count <;> simp [hd, hj]
  · simp [hd]

/-- `range_clear` removes the whole range, or nothing when a unit of it is free. -/
theorem units_rangeClear (h : offset + count ≤ n) : (b.rangeClear offset count).1.units =
      releaseAll b.units (Ico offset (offset + count)) := by
  have hsub : Ico offset (offset + count) ⊆ b.units ↔
      ∀ j, offset ≤ j → j < offset + count → b.isSet j = true := by
    simp only [subset_iff, mem_Ico, mem_units, and_imp]
  ext j
  simp only [rangeClear, mem_units_rangeFrom h, Bool.not_false, ← hsub, releaseAll]
  by_cases hd : Ico offset (offset + count) ⊆ b.units <;> simp [hd, and_comm]

lemma units_casBit_true (hi : i < n) : (b.casBit i true).1.units = insert i b.units := by
  ext j
  rw [mem_insert, mem_units, mem_units, casBit]
  split
  · next h => exact ⟨.inr, fun hj => hj.elim (fun e => e ▸ h.symm) id⟩
  · rw [isSet_putBit hi]
    by_cases hj : j = i <;> simp

/-- A restored bitmap has no unit outside its geometry. -/
theorem lt_of_mem_restoreForBlockCount {bytes : Bytes}
    (h : i ∈ (restoreForBlockCount bytes n).units) : i < n := by
  rw [mem_units, isSet, test_eq, restoreForBlockCount] at h
  simp only [List.getD_eq_getElem?_getD, List.getElem?_map] at h
  by_cases hword : i / 64 < (n + 63) / 64
  · rw [List.getElem?_range hword] at h
    simp only [Option.map_some, Option.getD_some] at h
    split at h
    · next hlast =>
      have hmask : (BitVec.ofNat 64 (2 ^ (n % 64) - 1)).getLsbD (i % 64) = true :=
        (Bool.and_eq_true_iff.mp (by simpa only [BitVec.getLsbD_and] using h)).2
      rw [BitVec.getLsbD_ofNat, Bool.and_eq_true, Nat.testBit_two_pow_sub_one,
        decide_eq_true_eq, decide_eq_true_eq] at hmask
      omega
    · next hlast =>
      omega
  · rw [List.getElem?_eq_none (by simpa using hword)] at h
    simp at h

end UsageBitmap

/-- `ZoneBitmap`: the words of a zone without used units are not allocated. -/
structure ZoneBitmap (blockCount : ℕ) where
  bitmap : Option (UsageBitmap blockCount)

namespace ZoneBitmap
variable {n : ℕ}

def new (n : ℕ) : ZoneBitmap n := ⟨none⟩

def restore (bytes : Bytes) (n : ℕ) : ZoneBitmap n :=
  if bytes.all (· == 0) then new n else ⟨some (UsageBitmap.restoreForBlockCount bytes n)⟩

section
variable (z : ZoneBitmap n)

def materialize : UsageBitmap n := z.bitmap.getD (UsageBitmap.new n)

def rangeSet (offset count : ℕ) : ZoneBitmap n × Bool :=
  let (b, done) := z.materialize.rangeSet offset count
  (⟨some b⟩, done)

def rangeClear (offset count : ℕ) : ZoneBitmap n × Bool :=
  match z.bitmap with
  | none => (z, count == 0)
  | some b =>
    let (b, done) := b.rangeClear offset count
    (⟨some b⟩, done)

def casBit (i : ℕ) (set : Bool) : ZoneBitmap n × Bool :=
  let (b, done) := z.materialize.casBit i set
  (⟨some b⟩, done)

def countSet : ℕ := (z.bitmap.map UsageBitmap.countSet).getD 0

/-- The used units; none when the words are not allocated. -/
def units : Finset ℕ := z.materialize.units

end

@[simp] lemma units_new : (new n).units = ∅ := UsageBitmap.units_new

variable {z : ZoneBitmap n}

lemma units_rangeSet (h : offset + count ≤ n) :
    (z.rangeSet offset count).1.units = claimAll z.units (Ico offset (offset + count)) :=
  UsageBitmap.units_rangeSet h

lemma units_rangeClear (h : offset + count ≤ n) : (z.rangeClear offset count).1.units =
      releaseAll z.units (Ico offset (offset + count)) := by
  obtain ⟨_ | b⟩ := z
  · have hempty : releaseAll ∅ (Ico offset (offset + count)) = ∅ :=
      subset_empty.mp (releaseAll_subset _ _)
    change (UsageBitmap.new n).units = releaseAll (UsageBitmap.new n).units _
    rw [UsageBitmap.units_new, hempty]
  · exact UsageBitmap.units_rangeClear h

lemma units_casBit_true (hi : i < n) : (z.casBit i true).1.units = insert i z.units :=
  UsageBitmap.units_casBit_true hi

lemma card_units (z : ZoneBitmap n) : z.units.card = z.countSet := by
  obtain ⟨_ | b⟩ := z
  · exact congrArg card UsageBitmap.units_new
  · exact b.card_units

lemma lt_of_mem_restore {bytes : Bytes} (h : i ∈ (restore bytes n).units) : i < n := by
  unfold restore at h
  split at h
  · simp at h
  · exact UsageBitmap.lt_of_mem_restoreForBlockCount h

end ZoneBitmap
end CrowDB.DiskDb
