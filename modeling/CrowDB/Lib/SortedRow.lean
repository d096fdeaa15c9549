import Mathlib.Order.Lattice
import Mathlib.Data.List.Nodup

/-!
# Rows sorted by key

A table kept as a list, in the order of its keys. `insertRow` puts a row in its place and
replaces the row with the same key; `eraseRow` takes the row of a key out. What happens to the
members and to the last row is all that the users of a table need to know.
-/
namespace CrowDB.Lib

open List
variable {α κ : Type*} [LinearOrder κ] (key : α → κ)

/-- Each key once, in ascending order. -/
def SortedRows (rows : List α) : Prop := rows.Pairwise fun a b => key a < key b

def insertRow (x : α) : List α → List α
  | [] => [x]
  | a :: rows =>
    if key x < key a then x :: a :: rows
    else if key x = key a then x :: rows
    else a :: insertRow x rows

def eraseRow (k : κ) (rows : List α) : List α := rows.filter fun a => key a ≠ k

def findRow (k : κ) (rows : List α) : Option α := rows.find? fun a => key a = k

variable {key} {rows : List α} {x : α}

lemma mem_of_mem_insertRow {y : α} (h : y ∈ insertRow key x rows) : y = x ∨ y ∈ rows := by
  induction rows with
  | nil => exact .inl (mem_singleton.mp h)
  | cons a _ ih =>
    simp only [insertRow] at h
    split at h
    · exact mem_cons.mp h
    · split at h
      · exact (mem_cons.mp h).imp_right (mem_cons_of_mem a)
      · rcases mem_cons.mp h with rfl | h
        · exact .inr mem_cons_self
        · exact (ih h).imp_right (mem_cons_of_mem a)

section
variable (h : SortedRows key rows)
include h

lemma SortedRows.insertRow : SortedRows key (insertRow key x rows) := by
  induction rows with
  | nil => exact pairwise_singleton _ _
  | cons _ _ ih =>
    obtain ⟨hlt, htail⟩ := pairwise_cons.mp h
    simp only [Lib.insertRow]
    split
    next hxa =>
      refine pairwise_cons.mpr ⟨fun b hb => ?_, h⟩
      rcases mem_cons.mp hb with rfl | hb
      · exact hxa
      · exact hxa.trans (hlt b hb)
    next hxa =>
      split
      next heq => exact pairwise_cons.mpr ⟨fun b hb => heq ▸ hlt b hb, htail⟩
      next hne =>
        refine pairwise_cons.mpr ⟨fun b hb => ?_, ih htail⟩
        rcases mem_of_mem_insertRow hb with rfl | hb
        · exact lt_of_le_of_ne (not_lt.mp hxa) (Ne.symm hne)
        · exact hlt b hb

lemma mem_insertRow {y : α} : y ∈ insertRow key x rows ↔ y = x ∨ y ∈ rows ∧ key y ≠ key x := by
  induction rows with
  | nil => simp [insertRow]
  | cons _ _ ih =>
    obtain ⟨hlt, htail⟩ := pairwise_cons.mp h
    simp only [insertRow]
    split
    next hxa =>
      rw [mem_cons]
      refine or_congr_right ⟨fun hy => ⟨hy, ?_⟩, And.left⟩
      rcases mem_cons.mp hy with rfl | hy
      · exact hxa.ne'
      · exact (hxa.trans (hlt y hy)).ne'
    next hxa =>
      split
      next heq =>
        rw [mem_cons, mem_cons]
        refine or_congr_right ⟨fun hy => ⟨.inr hy, ?_⟩, ?_⟩
        · exact heq ▸ (hlt y hy).ne'
        · rintro ⟨rfl | hy, hne⟩
          · exact absurd heq.symm hne
          · exact hy
      next hne =>
        rw [mem_cons, ih htail, mem_cons]
        constructor
        · rintro (rfl | rfl | ⟨hy, hyne⟩)
          · exact .inr ⟨.inl rfl, Ne.symm hne⟩
          · exact .inl rfl
          · exact .inr ⟨.inr hy, hyne⟩
        · rintro (rfl | ⟨rfl | hy, hyne⟩)
          · exact .inr (.inl rfl)
          · exact .inl rfl
          · exact .inr (.inr ⟨hy, hyne⟩)

lemma SortedRows.eraseRow (k : κ) :
    SortedRows key (eraseRow key k rows) := h.sublist filter_sublist

end

@[simp] lemma mem_eraseRow {k : κ} {y : α} : y ∈ eraseRow key k rows ↔ y ∈ rows ∧ key y ≠ k := by
  simp [eraseRow]

lemma SortedRows.eq_of_key (h : SortedRows key rows) {a b : α} (ha : a ∈ rows) (hb : b ∈ rows)
    (hab : key a = key b) : a = b :=
  inj_on_of_nodup_map (pairwise_map.mpr (h.imp ne_of_lt)) ha hb hab

/-- The last row is the one with the greatest key. -/
theorem SortedRows.getLast?_eq_some_iff (h : SortedRows key rows) {a : α} :
    rows.getLast? = some a ↔ a ∈ rows ∧ ∀ b ∈ rows, key b ≤ key a := by
  constructor
  · intro hlast
    obtain ⟨front, rfl⟩ := List.getLast?_eq_some_iff.mp hlast
    refine ⟨mem_append_right _ mem_cons_self, fun b hb => ?_⟩
    rcases mem_append.mp hb with hb | hb
    · exact ((pairwise_append.mp h).2.2 b hb a mem_cons_self).le
    · rw [mem_singleton.mp hb]
  · rintro ⟨ha, hmax⟩
    cases hlast : rows.getLast? with
    | none =>
      rw [getLast?_eq_none_iff.mp hlast] at ha
      cases ha
    | some b =>
      obtain ⟨front, rfl⟩ := List.getLast?_eq_some_iff.mp hlast
      have hb := hmax b (mem_append_right _ mem_cons_self)
      rcases mem_append.mp ha with ha | ha
      · exact absurd ((pairwise_append.mp h).2.2 a ha b mem_cons_self) hb.not_gt
      · rw [mem_singleton.mp ha]

end CrowDB.Lib
