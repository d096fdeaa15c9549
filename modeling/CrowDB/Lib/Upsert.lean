import Mathlib.Data.List.Flatten

/-!
# Keyed records in a list

`upsert` replaces the records with the key of the new one. Each record stands for a list of
things it holds, and what all of them hold is counted.
-/
namespace CrowDB.Lib
variable {α β κ : Type*} [DecidableEq κ] (key : α → κ)

def upsert (x : α) (l : List α) : List α := (l.filter fun y => key y ≠ key x) ++ [x]

def dropKey (k : κ) (l : List α) : List α := l.filter fun y => key y ≠ k

variable {key} {l : List α}

@[simp] lemma mem_upsert {x y : α} : y ∈ upsert key x l ↔ y = x ∨ (y ∈ l ∧ key y ≠ key x) := by
  simp [upsert, or_comm]

@[simp] lemma mem_dropKey {k : κ} {y : α} : y ∈ dropKey key k l ↔ y ∈ l ∧ key y ≠ k := by
  simp [dropKey]

section Forall
variable {P : α → Prop} (h : ∀ y ∈ l, P y)
include h

lemma forall_mem_upsert {x : α} (hx : P x) : ∀ y ∈ upsert key x l, P y := by
  intro y hy
  rcases mem_upsert.mp hy with rfl | ⟨hy, -⟩
  · exact hx
  · exact h y hy

lemma forall_mem_dropKey {k : κ} : ∀ y ∈ dropKey key k l, P y :=
  fun y hy => h y (mem_dropKey.mp hy).1

end Forall

section Held
variable [DecidableEq β] {f : α → List β}

/-- A record leaves with what it holds. -/
theorem count_dropKey_add_le (key : α → κ) {y : α} (hy : y ∈ l) (b : β) :
    ((dropKey key (key y) l).flatMap f).count b + (f y).count b ≤ (l.flatMap f).count b := by
  obtain ⟨before, after, rfl⟩ := List.append_of_mem hy
  have hle : ∀ m : List α, ((dropKey key (key y) m).flatMap f).count b ≤ (m.flatMap f).count b :=
    fun m => (List.filter_sublist.flatMap f).count_le b
  have hbefore := hle before
  have hafter := hle after
  simp only [dropKey, List.filter_append, List.flatMap_append, List.count_append,
    List.flatMap_cons] at hbefore hafter ⊢
  rw [List.filter_cons_of_neg (by simp)]
  omega

lemma count_upsert (x : α) (l : List α) (b : β) : ((upsert key x l).flatMap f).count b =
      ((dropKey key (key x) l).flatMap f).count b + (f x).count b := by
  simp [upsert, dropKey]

lemma count_dropKey_le (key : α → κ) (k : κ) (l : List α) (b : β) :
    ((dropKey key k l).flatMap f).count b ≤ (l.flatMap f).count b :=
  (List.filter_sublist.flatMap f).count_le b

end Held
end CrowDB.Lib
