import Mathlib.Tactic.NormNum

/-!
# A counter with a close bit in one word

The top bit of the word says closed, the other bits count who is inside. Entering
needs the open word, leaving and closing do not look at each other's part. `Packed`
reads a word back as the pair.
-/
namespace CrowDB.Lib

namespace GateWord

def closedBit : UInt64 := (1 : UInt64) <<< 63

/-- Enter an open gate; the count never reaches the close bit. -/
def enter (w : UInt64) : Option UInt64 := if w < closedBit - 1 then some (w + 1) else none

def leave (w : UInt64) : UInt64 := w - 1

def close (w : UInt64) : UInt64 := w ||| closedBit

def reopen (w : UInt64) : UInt64 := w &&& ~~~closedBit

/-- The word is closed or not, and `n` are inside. -/
structure Packed (w : UInt64) (closed : Bool) (n : ℕ) : Prop where
  lt : n < 2 ^ 63
  eq : w.toNat = (if closed then 2 ^ 63 else 0) + n

lemma closedBit_toNat : closedBit.toNat = 2 ^ 63 := by decide

lemma packed_zero : Packed 0 false 0 := ⟨by norm_num, rfl⟩

variable {w : UInt64} {closed : Bool} {n : ℕ}

lemma Packed.enter (h : Packed w closed n) {w' : UInt64} (he : enter w = some w') :
    closed = false ∧ Packed w' false (n + 1) := by
  unfold GateWord.enter at he
  split at he
  · next hlt =>
    cases he
    have hlt' : w.toNat < 2 ^ 63 - 1 := by
      have := UInt64.lt_iff_toNat_lt.mp hlt
      rwa [show (closedBit - 1).toNat = 2 ^ 63 - 1 by decide] at this
    have hw := h.eq
    cases closed with
    | true =>
      simp only [reduceIte] at hw
      omega
    | false =>
      simp only [Bool.false_eq_true, reduceIte] at hw
      refine ⟨rfl, by omega, ?_⟩
      rw [UInt64.toNat_add, hw]
      simp only [UInt64.reduceToNat, Bool.false_eq_true, reduceIte, Nat.zero_add]
      exact Nat.mod_eq_of_lt (by omega)
  · cases he

lemma Packed.leave (h : Packed w closed (n + 1)) : Packed (leave w) closed n := by
  have hlt := h.lt
  have hw := h.eq
  refine ⟨by omega, ?_⟩
  have hle : (1 : UInt64) ≤ w := UInt64.le_iff_toNat_le.mpr (by rw [UInt64.toNat_one]; omega)
  rw [GateWord.leave, UInt64.toNat_sub_of_le _ _ hle, UInt64.toNat_one]
  omega

section
variable (h : Packed w closed n)
include h

lemma Packed.close : Packed (close w) true n := by
  have hlt := h.lt
  have hw := h.eq
  refine ⟨h.lt, ?_⟩
  rw [GateWord.close, UInt64.toNat_or, closedBit_toNat, hw]
  have hor : 2 ^ 63 ||| n = 2 ^ 63 + n := by
    exact (Nat.two_pow_add_eq_or_of_lt hlt 1).symm
  cases closed with
  | true =>
    simp only [reduceIte]
    rw [← hor, Nat.or_comm (2 ^ 63) n, Nat.or_assoc, Nat.or_self]
  | false =>
    simp only [Bool.false_eq_true, reduceIte, Nat.zero_add]
    rw [Nat.or_comm, hor]

lemma Packed.reopen : Packed (reopen w) false n := by
  have hlt := h.lt
  have hw := h.eq
  refine ⟨h.lt, ?_⟩
  have hmask : (~~~closedBit).toNat = 2 ^ 63 - 1 := by decide
  rw [GateWord.reopen, UInt64.toNat_and, hmask, Nat.and_two_pow_sub_one_eq_mod, hw]
  cases closed with
  | true => simp only [reduceIte, Bool.false_eq_true]; omega
  | false => simp only [Bool.false_eq_true, reduceIte]; omega

/-- The word is the bare close bit exactly when the gate is closed and empty. -/
theorem Packed.eq_closedBit_iff : w = closedBit ↔ closed = true ∧ n = 0 := by
  have hlt := h.lt
  have hw := h.eq
  rw [← UInt64.toNat_inj, closedBit_toNat, hw]
  cases closed with
  | true => simp
  | false =>
    simp only [Bool.false_eq_true, reduceIte, false_and, iff_false]
    omega

/-- Leaving returns the old word, which tells the last one out of a closed gate. -/
theorem Packed.eq_closedBit_add_one_iff : w = closedBit + 1 ↔ closed = true ∧ n = 1 := by
  have hlt := h.lt
  have hw := h.eq
  rw [← UInt64.toNat_inj, show (closedBit + 1).toNat = 2 ^ 63 + 1 by decide, hw]
  cases closed with
  | true =>
    simp only [reduceIte, true_and]
    omega
  | false =>
    simp only [Bool.false_eq_true, reduceIte, false_and, iff_false]
    omega

/-- The close bit read back. -/
theorem Packed.lt_closedBit_iff : w < closedBit ↔ closed = false := by
  have hlt := h.lt
  have hw := h.eq
  rw [UInt64.lt_iff_toNat_lt, closedBit_toNat, hw]
  cases closed with
  | true => simp
  | false => simpa using hlt

end

end GateWord
end CrowDB.Lib
