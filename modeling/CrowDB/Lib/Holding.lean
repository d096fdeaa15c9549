import Mathlib.Data.Finset.Basic

/-!
# Exclusive holding

Concurrent holders take elements out of a common pool and give them back one at a time.
`taken` is the set of elements that count as taken, `held` lists the elements that some
holder answers for; an element may stay taken without a holder. The moves of one holder
keep the holdings of all holders together disjoint and taken.
-/
namespace CrowDB.Lib

open List

section Holders
variable {α β : Type*} {l : List β} {k : ℕ} {a : β}

/-- The holdings of one holder, apart from those of the others. -/
theorem perm_flatMap_eraseIdx (f : β → List α) (h : l[k]? = some a) :
    (l.flatMap f).Perm (f a ++ (l.eraseIdx k).flatMap f) := by
  obtain ⟨hk, rfl⟩ := List.getElem?_eq_some_iff.mp h
  exact ((getElem_cons_eraseIdx_perm hk).symm.flatMap_right f).trans (by simp)

lemma perm_flatMap_set (f : β → List α) (h : l[k]? = some a) (b : β) :
    ((l.set k b).flatMap f).Perm (f b ++ (l.eraseIdx k).flatMap f) := by
  obtain ⟨hk, rfl⟩ := List.getElem?_eq_some_iff.mp h
  exact ((set_perm_cons_eraseIdx hk b).flatMap_right f).trans (by simp)

variable {f : β → List α}

/-- Exclusive holdings have one holder per element. -/
theorem eq_of_mem_flatMap (h : (l.flatMap f).Nodup) {b c : β} (hb : b ∈ l) (hc : c ∈ l) {u : α}
    (hub : u ∈ f b) (huc : u ∈ f c) : b = c := by
  induction l with
  | nil => cases hb
  | cons d l ih =>
    rw [flatMap_cons, nodup_append] at h
    have hapart : ∀ x ∈ l, u ∈ f x → u ∉ f d := fun x hx hux hud =>
      h.2.2 u hud u (mem_flatMap.mpr ⟨x, hx, hux⟩) rfl
    rcases mem_cons.mp hb with rfl | hb' <;> rcases mem_cons.mp hc with rfl | hc'
    · rfl
    · exact absurd hub (hapart c hc' huc)
    · exact absurd huc (hapart b hb' hub)
    · exact ih h.2.1 hb' hc'

lemma nodup_of_flatMap (h : (l.flatMap f).Nodup) (hne : ∀ b ∈ l, f b ≠ []) : l.Nodup := by
  induction l with
  | nil => exact nodup_nil
  | cons d _ ih =>
    obtain ⟨u, hu⟩ := exists_mem_of_ne_nil _ (hne d mem_cons_self)
    have hsplit := h
    rw [flatMap_cons, nodup_append] at hsplit
    refine nodup_cons.mpr ⟨fun hd => ?_, ih hsplit.2.1 fun b hb => hne b (mem_cons_of_mem _ hb)⟩
    exact hsplit.2.2 u hu u (mem_flatMap.mpr ⟨d, hd, hu⟩) rfl

end Holders

variable {α : Type*}

structure Holds (taken : Finset α) (held : List α) : Prop where
  nodup : held.Nodup
  taken : ∀ u ∈ held, u ∈ taken

lemma Holds.perm {taken : Finset α} {held held' : List α} (h : Holds taken held)
    (hp : held.Perm held') : Holds taken held' :=
  ⟨hp.nodup_iff.mp h.nodup, fun u hu => h.taken u (hp.mem_iff.mpr hu)⟩

lemma Holds.right {taken : Finset α} {held other : List α} (h : Holds taken (held ++ other)) :
    Holds taken other :=
  ⟨(nodup_append.mp h.nodup).2.1, fun u hu => h.taken u (mem_append_right _ hu)⟩

variable [DecidableEq α]

/-- What one holder may do. -/
inductive HoldMove (taken : Finset α) (held : List α) : Finset α → List α → Prop
  | take (u : α) {held' : List α} (hu : u ∉ taken) (h : held'.Perm (u :: held)) :
    HoldMove taken held (insert u taken) held'
  | give (u : α) {held' : List α} (h : held.Perm (u :: held')) :
    HoldMove taken held (taken.erase u) held'
  | keep {taken' : Finset α} {held' : List α} (ht : taken ⊆ taken') (h : held'.Subperm held) :
    HoldMove taken held taken' held'

namespace HoldMove
variable {taken taken' : Finset α} {held held' other : List α}

lemma refl : HoldMove taken held taken held := keep subset_rfl (Subperm.refl _)

section
variable (m : HoldMove taken held taken' held')
include m

/-- A move keeps the holdings exclusive, those of the other holders included. -/
theorem holds (h : Holds taken (held ++ other)) : Holds taken' (held' ++ other) := by
  cases m with
  | take u hu hp =>
    have hperm : (held' ++ other).Perm (u :: (held ++ other)) := hp.append_right other
    have hfresh : u ∉ held ++ other := fun hmem => hu (h.taken u hmem)
    refine ⟨hperm.nodup_iff.mpr (nodup_cons.mpr ⟨hfresh, h.nodup⟩), fun x hx => ?_⟩
    rcases mem_cons.mp (hperm.mem_iff.mp hx) with rfl | hx
    · exact Finset.mem_insert_self _ _
    · exact Finset.mem_insert_of_mem (h.taken x hx)
  | give u hp =>
    have hperm : (held ++ other).Perm (u :: (held' ++ other)) := hp.append_right other
    have hnodup := nodup_cons.mp (hperm.nodup_iff.mp h.nodup)
    refine ⟨hnodup.2, fun x hx => Finset.mem_erase.mpr ⟨?_, ?_⟩⟩
    · rintro rfl
      exact hnodup.1 hx
    · exact h.taken x (hperm.mem_iff.mpr (mem_cons_of_mem _ hx))
  | keep ht hs =>
    have hsub : (held' ++ other).Subperm (held ++ other) := hs.append (Subperm.refl other)
    refine ⟨?_, fun x hx => ht (h.taken x (hsub.subset hx))⟩
    obtain ⟨l, hl, hsl⟩ := hsub
    exact hl.nodup_iff.mp (h.nodup.sublist hsl)

/-- What stops being taken was held by the mover. -/
theorem of_taken {u : α} (hu : u ∈ taken) : u ∈ taken' ∨ u ∈ held := by
  cases m with
  | take => exact .inl (Finset.mem_insert_of_mem hu)
  | give v hp =>
    by_cases huv : u = v
    · exact .inr (hp.mem_iff.mpr (huv ▸ mem_cons_self))
    · exact .inl (Finset.mem_erase.mpr ⟨huv, hu⟩)
  | keep ht => exact .inl (ht hu)

/-- What the mover holds afterwards it held before, or it was not taken. -/
theorem of_held {u : α} (hu : u ∈ held') : u ∈ held ∨ u ∉ taken := by
  cases m with
  | take _ hv hp =>
    rcases mem_cons.mp (hp.mem_iff.mp hu) with rfl | hu
    · exact .inr hv
    · exact .inl hu
  | give _ hp => exact .inl (hp.mem_iff.mpr (mem_cons_of_mem _ hu))
  | keep _ hs => exact .inl (hs.subset hu)

end

end HoldMove
end CrowDB.Lib
