import Mathlib.Data.Finset.Card

/-!
# Majorities and single-decree agreement

`Majority V Q` says that `Q` holds more than half of the voters `V`, in the
form a running count compares with: `V.card / 2 + 1 ≤ Q.card`. Two majorities
meet. `proposed_above_chosen` is the ballot argument on its own: keys are any
well-founded linear order, and a proposal above a chosen one must repeat the
value of some proposal at or above the chosen one.
-/
namespace CrowDB.Lib
variable {ι κ ν : Type*}

structure Majority (V Q : Finset ι) : Prop where
  subset : Q ⊆ V
  card_le : V.card / 2 + 1 ≤ Q.card

variable {V : Finset ι}

lemma Majority.inter_nonempty [DecidableEq ι] {Q R : Finset ι} (hQ : Majority V Q)
    (hR : Majority V R) : ∃ a, a ∈ Q ∧ a ∈ R := by
  by_contra h
  have hd : Disjoint Q R := Finset.disjoint_left.mpr fun a hq hr => h ⟨a, hq, hr⟩
  have hu := Finset.card_le_card (Finset.union_subset hQ.subset hR.subset)
  rw [Finset.card_union_of_disjoint hd] at hu
  have := hQ.card_le
  have := hR.card_le
  omega

/-- Some majority of `V` satisfies `p` throughout. -/
def ByMajority (V : Finset ι) (p : ι → Prop) : Prop := ∃ Q, Majority V Q ∧ ∀ a ∈ Q, p a

lemma ByMajority.mono {p q : ι → Prop} (h : ByMajority V p) (hpq : ∀ a, p a → q a) :
    ByMajority V q := by
  obtain ⟨Q, hQ, hp⟩ := h
  exact ⟨Q, hQ, fun a ha => hpq a (hp a ha)⟩

lemma ByMajority.meet [DecidableEq ι] {p q : ι → Prop} (hp : ByMajority V p)
    (hq : ByMajority V q) :
    ∃ a, p a ∧ q a := by
  obtain ⟨Q, hQ, hp⟩ := hp
  obtain ⟨R, hR, hq⟩ := hq
  obtain ⟨a, ha, ha'⟩ := hQ.inter_nonempty hR
  exact ⟨a, hp a ha, hq a ha'⟩

/-- A duplicate-free list of voters that is long enough is a majority. -/
theorem ByMajority.of_list [DecidableEq ι] {p : ι → Prop} (l : List ι) (hn : l.Nodup)
    (hV : ∀ a ∈ l, a ∈ V) (hl : V.card / 2 + 1 ≤ l.length) (hp : ∀ a ∈ l, p a) :
    ByMajority V p := by
  refine ⟨l.toFinset, ⟨?_, ?_⟩, ?_⟩
  · intro a ha; exact hV a (List.mem_toFinset.mp ha)
  · rw [List.toFinset_card_of_nodup hn]; exact hl
  · intro a ha; exact hp a (List.mem_toFinset.mp ha)

section Agreement
variable [LinearOrder κ] [WellFoundedLT κ]

/-- Every proposal above a chosen key carries the chosen value. -/
theorem proposed_above_chosen (proposed chosen : κ → ν → Prop)
    (unique : ∀ k v v', proposed k v → proposed k v' → v = v')
    (chosen_proposed : ∀ k v, chosen k v → proposed k v)
    (support : ∀ k v k' v', chosen k v → proposed k' v' → k < k' →
      ∃ j, k ≤ j ∧ j < k' ∧ proposed j v')
    {k : κ} {v : ν} (hc : chosen k v) {k' : κ} {v' : ν} (hp : proposed k' v')
    (hle : k ≤ k') : v' = v := by
  induction k' using WellFoundedLT.induction with
  | ind k' ih =>
    rcases hle.eq_or_lt with rfl | hlt
    · exact unique _ _ _ hp (chosen_proposed _ _ hc)
    · obtain ⟨j, hkj, hjk, hj⟩ := support k v k' v' hc hp hlt
      exact ih j hjk hj hkj

end Agreement
end CrowDB.Lib
