import Mathlib.Data.List.Induction
import Mathlib.Data.List.Sort

/-!
# Scans of sorted blocks

Blocks are sorted by a key, stably, and read one after the other. Dropping blocks
before the sort drops them from the sorted list and leaves the order of the others;
the last item read stays when the last block that has one stays. A page of a sorted scan
that ends between two keys is the scan up to its last key.
-/
namespace CrowDB.Lib

open List
variable {α β κ : Type*}

variable [LinearOrder κ] (key : α → κ) (p : α → Bool) {l : List α}

lemma filter_orderedInsert (a : α) (hl : l.Pairwise fun a b => key a ≤ key b) :
    (l.orderedInsert (fun a b => key a ≤ key b) a).filter p =
      if p a then (l.filter p).orderedInsert (fun a b => key a ≤ key b) a else l.filter p := by
  induction l with
  | nil => cases h : p a <;> simp [h]
  | cons b l ih =>
    obtain ⟨hb, hl'⟩ := pairwise_cons.mp hl
    by_cases hab : key a ≤ key b
    · rw [orderedInsert_cons_of_le _ l hab]
      cases ha : p a with
      | false => simp [ha]
      | true =>
        -- what is left of the list still starts above `a`
        have hfront : ∀ x ∈ (b :: l).filter p, key a ≤ key x := by
          intro x hx
          rcases mem_cons.mp (mem_of_mem_filter hx) with rfl | hx
          · exact hab
          · exact hab.trans (hb x hx)
        rw [filter_cons_of_pos (by exact ha), if_pos rfl]
        cases hrest : (b :: l).filter p with
        | nil => rfl
        | cons x xs =>
          rw [orderedInsert_cons_of_le _ xs (hfront x (by simp [hrest]))]
    · rw [orderedInsert_of_not_le _ l hab, filter_cons, ih hl']
      cases ha : p a <;> cases hpb : p b <;> simp [hpb, hab]

/-- A stable sort commutes with dropping elements. -/
theorem filter_insertionSort (l : List α) : (l.insertionSort fun a b => key a ≤ key b).filter p =
      (l.filter p).insertionSort fun a b => key a ≤ key b := by
  induction l with
  | nil => rfl
  | cons a l ih =>
    rw [insertionSort_cons, filter_orderedInsert key p a (pairwise_insertionSort _ l), ih]
    cases ha : p a <;> simp [ha]

variable {p} {f : α → List β}

/-- The last item of a scan stays when a block that is dropped and has items is
followed by one that has items too. -/
theorem getLast?_flatMap_filter (hl : l.Pairwise fun a b => key a ≤ key b)
    (h : ∀ g ∈ l, f g ≠ [] → p g = false → ∃ b ∈ l, f b ≠ [] ∧ key g < key b) :
    ((l.filter p).flatMap f).getLast? = (l.flatMap f).getLast? := by
  induction l using reverseRecOn with
  | nil => rfl
  | append_singleton l x ih =>
    obtain ⟨hl', -, hx⟩ := pairwise_append.mp hl
    have hle : ∀ b ∈ l ++ [x], key b ≤ key x :=
      forall_mem_append.mpr ⟨fun b hb => hx b hb x (by simp), forall_mem_singleton.mpr le_rfl⟩
    by_cases hfx : f x = []
    · have hrest := ih hl' fun g hg hfg hpg => by
        obtain ⟨b, hb, hfb, hlt⟩ := h g (mem_append_left _ hg) hfg hpg
        rcases mem_append.mp hb with hb | hb
        · exact ⟨b, hb, hfb, hlt⟩
        · exact absurd (mem_singleton.mp hb ▸ hfx) hfb
      have hnil : ([x].filter p).flatMap f = [] := by
        cases hp : p x <;> simp [hfx]
      simp [hnil, hfx, hrest]
    · have hp : p x = true := by
        by_contra hp
        obtain ⟨b, hb, -, hlt⟩ := h x (by simp) hfx (by simpa using hp)
        exact absurd (hle b hb) hlt.not_ge
      have hlast : (f x).getLast?.isSome = true := by simpa using hfx
      obtain ⟨y, hy⟩ := Option.isSome_iff_exists.mp hlast
      simp [hp, hy]

/-- Dropping blocks without items changes no scan. -/
theorem flatMap_filter_eq (h : ∀ g ∈ l, p g = false → f g = []) :
    (l.filter p).flatMap f = l.flatMap f := by
  induction l with
  | nil => rfl
  | cons a _ ih =>
    have hrest := ih fun g hg => h g (mem_cons_of_mem _ hg)
    cases ha : p a with
    | false => simp [ha, hrest, h a (by simp) ha]
    | true => simp [ha, hrest]

/-- A sorted list that is cut between two keys is cut by a bound on the key. -/
theorem take_eq_filter (hl : l.Pairwise fun a b => key a ≤ key b) {n : ℕ} {a : α}
    (ha : (l.take n).getLast? = some a) (hcut : ∀ b, (l.drop n).head? = some b → key a ≠ key b) :
    l.take n = l.filter fun x => key x ≤ key a := by
  obtain ⟨front, hfront⟩ := getLast?_eq_some_iff.mp ha
  rw [← take_append_drop n l] at hl
  obtain ⟨htake, hdrop, hacross⟩ := pairwise_append.mp hl
  have hle : ∀ x ∈ l.take n, key x ≤ key a := by
    intro x hx
    rw [hfront] at htake hx
    rcases mem_append.mp hx with hx | hx
    · exact (pairwise_append.mp htake).2.2 x hx a (mem_singleton_self a)
    · exact (mem_singleton.mp hx ▸ le_rfl)
  have hlt : ∀ x ∈ l.drop n, ¬ key x ≤ key a := by
    intro x hx
    cases hd : l.drop n with
    | nil => exact absurd (hd ▸ hx) not_mem_nil
    | cons b =>
      have hb : key a < key b := (hacross a (mem_of_mem_getLast? ha) b (by simp [hd])).lt_of_ne
        (hcut b (by simp [hd]))
      rw [hd] at hx hdrop
      rcases mem_cons.mp hx with rfl | hx
      · exact hb.not_ge
      · exact (hb.trans_le (rel_of_pairwise_cons hdrop hx)).not_ge
  conv_rhs => rw [← take_append_drop n l, filter_append]
  rw [filter_eq_self.mpr fun x hx => decide_eq_true (hle x hx),
    filter_eq_nil_iff.mpr fun x hx => by simpa using hlt x hx, append_nil]

end CrowDB.Lib
