import Mathlib.Data.List.Nodup
import Mathlib.Order.Bounds.Basic

/-!
# Contiguous frontiers

A frontier counts the numbers known from one upwards: everything up to
`contiguous` is known, and `pending` holds what is known above a gap. Noting a
number inserts it and drains the pending set from the front. The structure
carries the shape that draining restores, so `contiguous` is always the length
of the longest known prefix, whatever the order of the reports (`IsReached`).
-/
namespace CrowDB.Lib

structure Frontier where
  contiguous : ℕ
  pending : List ℕ
  nodup : pending.Nodup
  gap : ∀ s ∈ pending, contiguous + 1 < s

namespace Frontier

def seed (c : ℕ) : Frontier := ⟨c, [], List.nodup_nil, by simp⟩

/-- Move the frontier over the pending numbers that follow it. -/
def drain : (fuel : ℕ) → ℕ → List ℕ → ℕ × List ℕ
  | 0, c, p => (c, p)
  | fuel + 1, c, p => if c + 1 ∈ p then drain fuel (c + 1) (p.erase (c + 1)) else (c, p)

/-- With enough fuel draining stops at a gap and loses nothing. -/
theorem drain_spec {fuel c : ℕ} {p : List ℕ} (hn : p.Nodup) (hp : ∀ s ∈ p, c < s)
    (hf : p.length ≤ fuel) :
    (drain fuel c p).2.Nodup ∧ (∀ s ∈ (drain fuel c p).2, (drain fuel c p).1 + 1 < s) ∧
      ∀ x, (x ≤ (drain fuel c p).1 ∨ x ∈ (drain fuel c p).2) ↔ (x ≤ c ∨ x ∈ p) := by
  induction fuel generalizing c p with
  | zero =>
    obtain rfl : p = [] := List.length_eq_zero_iff.mp (by omega)
    simp [drain]
  | succ fuel ih =>
    by_cases hc : c + 1 ∈ p
    · have hp' : ∀ s ∈ p.erase (c + 1), c + 1 < s := by
        intro s hs
        obtain ⟨hne, hs⟩ := (hn.mem_erase_iff).mp hs
        have := hp s hs
        omega
      have hf' : (p.erase (c + 1)).length ≤ fuel := by
        rw [List.length_erase_of_mem hc]; omega
      obtain ⟨h1, h2, h3⟩ := ih (hn.erase _) hp' hf'
      simp only [drain, hc]
      refine ⟨h1, h2, fun x => (h3 x).trans ?_⟩
      rw [hn.mem_erase_iff]
      constructor
      · rintro (h | h)
        · rcases (show x ≤ c ∨ x = c + 1 by omega) with h | rfl
          · exact .inl h
          · exact .inr hc
        · exact .inr h.2
      · rintro (h | h)
        · exact .inl (by omega)
        · by_cases hx : x = c + 1
          · exact .inl (by omega)
          · exact .inr ⟨hx, h⟩
    · simp only [drain, hc, if_false]
      refine ⟨hn, fun s hs => ?_, by simp⟩
      have hlt := hp s hs
      have hne : s ≠ c + 1 := fun h => hc (h ▸ hs)
      omega

lemma insert_spec (f : Frontier) {s : ℕ} (hs : f.contiguous < s) :
    (f.pending.insert s).Nodup ∧ (∀ x ∈ f.pending.insert s, f.contiguous < x) ∧
      (f.pending.insert s).length ≤ f.pending.length + 1 := by
  refine ⟨f.nodup.insert, fun x hx => ?_, ?_⟩
  · rcases List.mem_insert_iff.mp hx with rfl | hx
    · exact hs
    · have := f.gap x hx; omega
  · by_cases h : s ∈ f.pending
    · rw [List.insert_of_mem h]; omega
    · rw [List.insert_of_not_mem h]; simp

/-- Record that `s` is known. -/
def note (f : Frontier) (s : ℕ) : Frontier :=
  if h : s ≤ f.contiguous then f
  else
    have spec := drain_spec (f.insert_spec (Nat.lt_of_not_le h)).1
      (f.insert_spec (Nat.lt_of_not_le h)).2.1
      (f.insert_spec (Nat.lt_of_not_le h)).2.2
    ⟨(drain (f.pending.length + 1) f.contiguous (f.pending.insert s)).1,
      (drain (f.pending.length + 1) f.contiguous (f.pending.insert s)).2, spec.1, spec.2.1⟩

/-- What the frontier knows: the prefix and the pending numbers above it. -/
def covers (f : Frontier) (x : ℕ) : Prop := x ≤ f.contiguous ∨ x ∈ f.pending

instance (f : Frontier) (x : ℕ) : Decidable (f.covers x) :=
  inferInstanceAs (Decidable (x ≤ f.contiguous ∨ x ∈ f.pending))

lemma note_covers (f : Frontier) (s x : ℕ) : (f.note s).covers x ↔ f.covers x ∨ x = s := by
  unfold note
  split
  · next h =>
    refine ⟨.inl, ?_⟩
    rintro (hx | rfl)
    · exact hx
    · exact .inl h
  · next h =>
    obtain ⟨h1, h2, h3⟩ := f.insert_spec (Nat.lt_of_not_le h)
    refine ((drain_spec h1 h2 h3).2.2 x).trans ?_
    rw [List.mem_insert_iff]
    unfold covers
    tauto

@[simp] lemma seed_covers (c x : ℕ) : (seed c).covers x ↔ x ≤ c := by simp [covers, seed]

/-- Where the numbers `noted` lead from `c`: to the end of the longest run of them behind `c`,
with those above it pending. -/
structure IsReached (c : ℕ) (noted : List ℕ) (f : Frontier) : Prop where
  contiguous : IsGreatest {s | c ≤ s ∧ ∀ x, c < x → x ≤ s → x ∈ noted} f.contiguous
  pending : ∀ x, x ∈ f.pending ↔ x ∈ noted ∧ f.contiguous < x

/-- The same frontier, the pending set as a set. -/
def Same (f g : Frontier) : Prop := f.contiguous = g.contiguous ∧ f.pending.Perm g.pending

lemma covers_foldl_note (noted : List ℕ) (f : Frontier) (x : ℕ) :
    (noted.foldl note f).covers x ↔ f.covers x ∨ x ∈ noted := by
  induction noted generalizing f with
  | nil => simp
  | cons s _ ih => rw [List.foldl_cons, ih, note_covers, List.mem_cons, or_assoc]

lemma IsReached.of_seed (c : ℕ) (noted : List ℕ) :
    IsReached c noted (noted.foldl note (seed c)) := by
  have hcovers := covers_foldl_note noted (seed c)
  generalize noted.foldl note (seed c) = f at hcovers
  simp only [seed_covers] at hcovers
  have hmax : ∀ s, (∀ x ≤ s, x ≤ c ∨ x ∈ noted) → s ≤ f.contiguous := by
    intro s hs
    by_contra hlt
    rcases (hcovers (f.contiguous + 1)).mpr (hs _ (by omega)) with h | h
    · omega
    · exact lt_irrefl _ (f.gap _ h)
  have hc : c ≤ f.contiguous := hmax c fun _ => .inl
  refine ⟨⟨⟨hc, fun x hcx hx => ?_⟩, fun s hs => hmax s fun x hx => ?_⟩,
    fun x => ⟨fun hx => ?_, ?_⟩⟩
  · exact ((hcovers x).mp (.inl hx)).resolve_left (by omega)
  · exact (le_or_gt x c).imp_right fun hcx => hs.2 x hcx hx
  · have hgap := f.gap x hx
    exact ⟨((hcovers x).mp (.inr hx)).resolve_left (by omega), by omega⟩
  · rintro ⟨hx, hlt⟩
    exact ((hcovers x).mpr (.inr hx)).resolve_left (by omega)

/-- The order of the numbers does not matter. -/
theorem IsReached.same {c : ℕ} {noted noted' : List ℕ} {f g : Frontier}
    (hf : IsReached c noted f) (hg : IsReached c noted' g)
    (hmem : ∀ x, x ∈ noted ↔ x ∈ noted') : f.Same g := by
  have heq : f.contiguous = g.contiguous :=
    hf.contiguous.unique (by simpa only [hmem] using hg.contiguous)
  refine ⟨heq, (List.perm_ext_iff_of_nodup f.nodup g.nodup).mpr fun x => ?_⟩
  rw [hf.pending, hg.pending, hmem, heq]

end Frontier
end CrowDB.Lib
