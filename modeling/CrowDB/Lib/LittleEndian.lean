import Mathlib.Data.Nat.Digits.Defs

/-!
# Fixed-width little-endian integers

A number below `256 ^ width` is written as `width` bytes, lowest byte first, and
read back from a longer buffer by its first `width` bytes.
-/
namespace CrowDB.Lib

/-- The `width` lowest bytes of `v`, lowest first. -/
def toLeBytes : (width : ℕ) → (v : ℕ) → List UInt8
  | 0, _ => []
  | w + 1, v => UInt8.ofNat v :: toLeBytes w (v / 256)

def fromLeBytes (bs : List UInt8) : ℕ := Nat.ofDigits 256 (bs.map UInt8.toNat)

@[simp] lemma length_toLeBytes (w v : ℕ) : (toLeBytes w v).length = w := by
  induction w generalizing v with
  | zero => rfl
  | succ _ ih => simp [toLeBytes, ih]

/-- A number that fits its width survives the round trip. -/
theorem fromLeBytes_toLeBytes {w v : ℕ} (h : v < 256 ^ w) : fromLeBytes (toLeBytes w v) = v := by
  induction w generalizing v with
  | zero =>
    have hv : v = 0 := by simpa using h
    subst v
    rfl
  | succ w ih =>
    have hq : v / 256 < 256 ^ w := by
      omega
    have ih' := ih hq
    unfold fromLeBytes at ih' ⊢
    simp only [toLeBytes, List.map_cons, Nat.ofDigits_cons, ih']
    have hmod := Nat.mod_add_div v 256
    exact hmod

lemma fromLeBytes_lt (bs : List UInt8) : fromLeBytes bs < 256 ^ bs.length := by
  induction bs with
  | nil => simp [fromLeBytes]
  | cons b _ ih =>
    have hb := b.toNat_lt
    simp only [fromLeBytes, List.map_cons, Nat.ofDigits_cons, List.length_cons] at ih ⊢
    omega

/-- Bytes are determined by the number they stand for and their count. -/
theorem toLeBytes_fromLeBytes (bs : List UInt8) : toLeBytes bs.length (fromLeBytes bs) = bs := by
  induction bs with
  | nil => rfl
  | cons b bs ih =>
    have hb := b.toNat_lt
    have hcons : fromLeBytes (b :: bs) = b.toNat + 256 * fromLeBytes bs := by
      simp [fromLeBytes, Nat.ofDigits_cons]
    have hdiv : (b.toNat + 256 * fromLeBytes bs) / 256 = fromLeBytes bs := by omega
    have hmod : UInt8.ofNat (b.toNat + 256 * fromLeBytes bs) = b := by
      apply UInt8.toNat_inj.mp
      rw [UInt8.toNat_ofNat']
      omega
    rw [hcons, List.length_cons, toLeBytes, hdiv, ih, hmod]

/-- Read an integer off the front of a buffer. -/
def readLe (width : ℕ) (bs : List UInt8) : ℕ × List UInt8 :=
  (fromLeBytes (bs.take width), bs.drop width)

lemma readLe_append {w v : ℕ} (h : v < 256 ^ w) (rest : List UInt8) :
    readLe w (toLeBytes w v ++ rest) = (v, rest) := by
  have htake : (toLeBytes w v ++ rest).take w = toLeBytes w v := by
    rw [List.take_append_of_le_length (length_toLeBytes w v).ge,
      List.take_of_length_le (length_toLeBytes w v).le]
  have hdrop : (toLeBytes w v ++ rest).drop w = rest := List.drop_left' (length_toLeBytes w v)
  rw [readLe, htake, hdrop, fromLeBytes_toLeBytes h]

end CrowDB.Lib
