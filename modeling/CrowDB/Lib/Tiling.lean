import Mathlib.Algebra.BigOperators.Group.List.Basic
import Mathlib.Algebra.Ring.Nat

/-!
# Lists of extents that tile an interval

An item of the list has an offset and a size. The list tiles from `a` when the
first item starts at `a` and every later one starts where its predecessor ends.
Tilings are closed under appending and under replacing a run of items by another
run of the same total size, and every position of the interval lies in exactly one
item.
-/
namespace CrowDB.Lib.Tiling
variable {α : Type*} (offset size : α → ℕ)

def Tiles (a : ℕ) : List α → Prop
  | [] => True
  | x :: xs => offset x = a ∧ Tiles (a + size x) xs

def total (l : List α) : ℕ := (l.map size).sum

variable {offset size}

@[simp] lemma total_nil : total size ([] : List α) = 0 := rfl

@[simp] lemma total_cons (x : α) (xs : List α) :
    total size (x :: xs) = size x + total size xs := by
  simp [total]

@[simp] lemma total_append (xs ys : List α) :
    total size (xs ++ ys) = total size xs + total size ys := by
  simp [total]

lemma total_take_le (n : ℕ) (l : List α) : total size (l.take n) ≤ total size l := by
  have h : total size (l.take n ++ l.drop n) = total size l := by rw [List.take_append_drop]
  rw [total_append] at h
  omega

@[simp] lemma tiles_nil (a : ℕ) : Tiles offset size a [] := trivial

@[simp] lemma tiles_cons (a : ℕ) (x : α) (xs : List α) :
    Tiles offset size a (x :: xs) ↔ offset x = a ∧ Tiles offset size (a + size x) xs := Iff.rfl

@[simp] lemma tiles_append (a : ℕ) (xs ys : List α) : Tiles offset size a (xs ++ ys) ↔
      Tiles offset size a xs ∧ Tiles offset size (a + total size xs) ys := by
  induction xs generalizing a with
  | nil => simp
  | cons _ _ ih => simp [ih, and_assoc, Nat.add_assoc]

variable {a : ℕ}

lemma tiles_map {β : Type*} {f : β → α} {l : List β} :
    Tiles offset size a (l.map f) ↔ Tiles (fun x => offset (f x)) (fun x => size (f x)) a l := by
  induction l generalizing a with
  | nil => simp
  | cons _ _ ih => simp [ih]

lemma total_map {β : Type*} {f : β → α} {l : List β} :
    total size (l.map f) = total (fun x => size (f x)) l := by
  simp [total, Function.comp_def]

/-- A run of items may be replaced by a run that tiles the same interval. -/
theorem Tiles.replace {pre old new post : List α} (h : Tiles offset size a (pre ++ old ++ post))
    (hnew : Tiles offset size (a + total size pre) new) (htotal : total size new = total size old) :
    Tiles offset size a (pre ++ new ++ post) := by
  simp only [tiles_append, total_append] at h ⊢
  rw [htotal]
  exact ⟨⟨h.1.1, hnew⟩, h.2⟩

variable {l : List α}

section
variable (h : Tiles offset size a l)
include h

/-- Every item lies inside the tiled interval. -/
theorem Tiles.le_offset {x : α} (hx : x ∈ l) : a ≤ offset x := by
  induction l generalizing a with
  | nil => simp at hx
  | cons _ _ ih =>
    simp only [tiles_cons] at h
    rcases List.mem_cons.mp hx with rfl | hx
    · omega
    · have := ih h.2 hx
      omega

lemma Tiles.stop_le {x : α} (hx : x ∈ l) : offset x + size x ≤ a + total size l := by
  obtain ⟨front, back, rfl⟩ := List.append_of_mem hx
  simp only [tiles_append, tiles_cons] at h
  simp only [total_append, total_cons]
  omega

/-- The item at a position starts where the items before it end. -/
theorem Tiles.offset_eq {i : ℕ} {x : α} (hx : l[i]? = some x) :
    offset x = a + total size (l.take i) := by
  induction l generalizing a i with
  | nil => simp at hx
  | cons _ _ ih =>
    cases i with
    | zero =>
      simp only [List.getElem?_cons_zero, Option.some.injEq] at hx
      simp [← hx, h.1]
    | succ =>
      rw [ih h.2 hx, List.take_succ_cons, total_cons]
      omega

/-- The last item ends where the tiled interval ends. -/
theorem Tiles.end_eq {x : α} (hx : l.getLast? = some x) :
    offset x + size x = a + total size l := by
  obtain ⟨front, rfl⟩ := List.getLast?_eq_some_iff.mp hx
  simp only [tiles_append, tiles_cons] at h
  simp only [total_append, total_cons, total_nil]
  omega

/-- Every position of the tiled interval lies in exactly one item. -/
theorem Tiles.existsUnique {p : ℕ} (ha : a ≤ p) (hp : p < a + total size l) :
    ∃! i : ℕ, ∃ x, l[i]? = some x ∧ offset x ≤ p ∧ p < offset x + size x := by
  induction l generalizing a with
  | nil => simp only [total_nil] at hp; omega
  | cons y _ ih =>
    simp only [tiles_cons] at h
    rw [total_cons] at hp
    by_cases hy : p < a + size y
    · -- the head holds the position, and every later item starts behind it
      refine ⟨0, ⟨y, rfl, by omega, by omega⟩, ?_⟩
      rintro (_ | i) ⟨x, hx, hxp, -⟩
      · rfl
      · have := h.2.le_offset (List.mem_of_getElem? hx)
        omega
    · obtain ⟨i, hi, hunique⟩ := ih h.2 (by omega) (by omega)
      refine ⟨i + 1, hi, ?_⟩
      rintro (_ | j) ⟨x, hx, hxp, hpx⟩
      · simp only [List.getElem?_cons_zero, Option.some.injEq] at hx
        subst hx
        omega
      · exact congrArg (· + 1) (hunique j ⟨x, hx, hxp, hpx⟩)

/-- Cutting the list at the first item that starts at or behind `n` keeps `n`
inside the tiled interval. -/
theorem Tiles.cover_of_cut {n : ℕ} (hn : n ≤ a + total size l) {k : ℕ}
    (hk : ∀ x, l[k]? = some x → n ≤ offset x) : n ≤ a + total size (l.take k) := by
  rcases hx : l[k]? with - | x
  · rw [List.take_of_length_le (List.getElem?_eq_none_iff.mp hx)]
    exact hn
  · rw [← h.offset_eq hx]
    exact hk x hx

end

end CrowDB.Lib.Tiling
