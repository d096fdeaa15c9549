import Mathlib.Algebra.Ring.Nat
import Mathlib.Data.Nat.Count

/-!
# Sets of numbers kept as 64-bit words

A sequence of words stands for the set of the positions of its one bits. Setting
or clearing one bit inserts or erases that position, and the popcount is the size
of the set. The last part is about updates of a whole range that either take
effect everywhere or not at all.
-/
namespace CrowDB.Lib.BitWords

abbrev Words := List (BitVec 64)

/-- The bit of position `i` inside its word. -/
def mask (i : ℕ) : BitVec 64 := BitVec.twoPow 64 (i % 64)

def test (ws : Words) (i : ℕ) : Bool := ws.getD (i / 64) 0 &&& mask i != 0

def setBit (ws : Words) (i : ℕ) : Words := ws.modify (i / 64) (· ||| mask i)

def clearBit (ws : Words) (i : ℕ) : Words := ws.modify (i / 64) (· &&& ~~~mask i)

def countOnes (w : BitVec 64) : ℕ := Nat.count (fun j => w.getLsbD j = true) 64

/-- The popcount of all words together. -/
def countSet (ws : Words) : ℕ := (ws.map countOnes).sum

/-- The positions of the one bits. -/
def members (ws : Words) : Finset ℕ := (Finset.range (64 * ws.length)).filter (test ws ·)

@[simp] lemma length_setBit (ws : Words) (i : ℕ) : (setBit ws i).length = ws.length := by
  simp [setBit]

@[simp] lemma length_clearBit (ws : Words) (i : ℕ) : (clearBit ws i).length = ws.length := by
  simp [clearBit]

lemma and_mask_ne_zero (w : BitVec 64) (i : ℕ) : (w &&& mask i != 0) = w.getLsbD (i % 64) := by
  have hi : i % 64 < 64 := Nat.mod_lt _ (by decide)
  rw [mask, BitVec.and_twoPow]
  by_cases h : w.getLsbD (i % 64) = true
  · have hne : BitVec.twoPow 64 (i % 64) ≠ 0 := by
      intro hz
      have hbit := congrArg (fun w => w.getLsbD (i % 64)) hz
      simp [hi] at hbit
    rw [h]
    exact bne_iff_ne.mpr hne
  · rw [Bool.eq_false_of_not_eq_true h]
    rfl

lemma test_eq (ws : Words) (i : ℕ) : test ws i = (ws.getD (i / 64) 0).getLsbD (i % 64) :=
  and_mask_ne_zero _ i

variable {i : ℕ}

lemma mem_members {ws : Words} : i ∈ members ws ↔ test ws i = true := by
  rw [members, Finset.mem_filter, Finset.mem_range, and_iff_right_iff_imp]
  intro h
  by_contra hlen
  have hout : ws.length ≤ i / 64 := by omega
  simp [test_eq, List.getElem?_eq_none hout] at h

/-- The words of two positions differ, or their bits do. -/
theorem div_ne_or_mod_ne {j : ℕ} (h : i ≠ j) : i / 64 ≠ j / 64 ∨ i % 64 ≠ j % 64 := by
  omega

lemma getD_modify (ws : Words) (f : BitVec 64 → BitVec 64) (k n : ℕ) :
    (ws.modify k f).getD n 0 = if k = n ∧ n < ws.length then f (ws.getD n 0) else ws.getD n 0 := by
  by_cases hn : n < ws.length
  · by_cases hk : k = n <;> simp [hn, hk]
  · simp [hn]

lemma set_or_mask (ws : Words) (i : ℕ) :
    ws.set (i / 64) (ws.getD (i / 64) 0 ||| mask i) = setBit ws i := by
  rw [setBit, List.modify_eq_set]
  rfl

lemma set_and_mask (ws : Words) (i : ℕ) :
    ws.set (i / 64) (ws.getD (i / 64) 0 &&& ~~~mask i) = clearBit ws i := by
  rw [clearBit, List.modify_eq_set]
  rfl

lemma test_setBit {ws : Words} (hi : i < 64 * ws.length) (j : ℕ) :
    test (setBit ws i) j = (decide (j = i) || test ws j) := by
  have hmod : j % 64 < 64 := Nat.mod_lt _ (by decide)
  have hlen : i / 64 < ws.length := by omega
  rw [test_eq, test_eq, setBit, getD_modify]
  by_cases hij : j = i
  · subst hij
    simp [mask, hlen, hmod]
  · rcases div_ne_or_mod_ne hij with hword | hbit
    · simp [hij, Ne.symm hword]
    · split
      · simp [mask, hij, Ne.symm hbit]
      · simp [hij]

lemma test_clearBit (ws : Words) (i j : ℕ) :
    test (clearBit ws i) j = (!decide (j = i) && test ws j) := by
  have hmod : j % 64 < 64 := Nat.mod_lt _ (by decide)
  rw [test_eq, test_eq, clearBit, getD_modify]
  by_cases hij : j = i
  · subst hij
    by_cases hlen : j / 64 < ws.length
    · simp [mask, hlen]
    · simp [hlen]
  · rcases div_ne_or_mod_ne hij with hword | hbit
    · simp [hij, Ne.symm hword]
    · split
      · simp [mask, hij, hbit, hmod]
      · simp [hij]

lemma members_replicate_zero (n : ℕ) : members (List.replicate n 0) = ∅ := by
  ext j
  rw [mem_members, test_eq]
  by_cases hj : j / 64 < n <;> simp [hj]

lemma count_test (ws : Words) :
    Nat.count (fun i => test ws i = true) (64 * ws.length) = countSet ws := by
  induction ws with
  | nil => rfl
  | cons w ws ih =>
    have hlen : 64 * (w :: ws).length = 64 + 64 * ws.length := by
      simp only [List.length_cons]
      omega
    have hhead : Nat.count (fun i => test (w :: ws) i = true) 64 = countOnes w := by
      rw [countOnes, Nat.count_eq_card_filter_range, Nat.count_eq_card_filter_range]
      congr 1
      apply Finset.filter_congr
      intro j hj
      have hj' := Finset.mem_range.mp hj
      simp [test_eq, Nat.div_eq_of_lt hj', Nat.mod_eq_of_lt hj']
    have htail : ∀ j, test (w :: ws) (64 + j) = test ws j := by
      intro j
      simp [test_eq]
    rw [hlen, Nat.count_add, hhead]
    simp [htail, ih, countSet]

/-- The popcount is the size of the set that the words stand for. -/
theorem card_members (ws : Words) : (members ws).card = countSet ws := by
  rw [← count_test, Nat.count_eq_card_filter_range, members]

/-- Add a range only when none of it is there yet. -/
def claimAll (bits r : Finset ℕ) : Finset ℕ := if Disjoint bits r then bits ∪ r else bits

/-- Remove a range only when all of it is there. -/
def releaseAll (bits r : Finset ℕ) : Finset ℕ := if r ⊆ bits then bits \ r else bits

lemma subset_claimAll (bits r : Finset ℕ) : bits ⊆ claimAll bits r := by
  unfold claimAll
  split
  · exact Finset.subset_union_left
  · exact subset_rfl

lemma claimAll_subset (bits r : Finset ℕ) : claimAll bits r ⊆ bits ∪ r := by
  unfold claimAll
  split
  · exact subset_rfl
  · exact Finset.subset_union_left

/-- A range that is nowhere or everywhere present is present afterwards. -/
theorem claimAll_eq_union {bits r : Finset ℕ} (h : r ⊆ bits ∨ Disjoint bits r) :
    claimAll bits r = bits ∪ r := by
  unfold claimAll
  split
  · rfl
  · next hd => exact (Finset.union_eq_left.mpr (h.resolve_right hd)).symm

lemma releaseAll_subset (bits r : Finset ℕ) : releaseAll bits r ⊆ bits := by
  unfold releaseAll
  split
  · exact Finset.sdiff_subset
  · exact subset_rfl

end CrowDB.Lib.BitWords
