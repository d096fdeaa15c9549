import Mathlib.Data.List.Nodup
import Mathlib.Order.Lattice
import Mathlib.Algebra.Ring.Nat

/-!
# Merging ascending streams

A stream lists elements by ascending key, each key once. Several streams may hold the same
key; then the element of the highest rank counts, and of equal ranks the one in the earlier
stream. `merge` takes the streams apart from the front, one key at a time. Its result is
characterised by its order and by its members, so restricting the streams restricts the merge
and a search from the other end finds the last element of it.
-/
namespace CrowDB.Lib

open List Option

section
variable {K E : Type*} [LinearOrder K] (key : E → K) (rank : E → ℕ)

/-- The keys ascend strictly. -/
def Ascending (es : List E) : Prop := es.Pairwise fun a b => key a < key b

/-- Of some candidates the first one in the order `before` of the keys; of those with the same
key the one of the highest rank, of these the first. -/
def pick (before : K → K → Bool) : List E → Option E
  | [] => none
  | a :: es =>
    match pick before es with
    | none => some a
    | some b =>
      if before (key b) (key a) then some b
      else if before (key a) (key b) then some a
      else if rank a < rank b then some b else some a

def ahead (a b : K) : Bool := decide (a < b)

def behind (a b : K) : Bool := decide (b < a)

def advance (k : K) (s : List E) : List E :=
  match s with
  | [] => []
  | e :: es => if key e = k then es else e :: es

/-- Take the lowest key off all streams, `n` times. -/
def merge : ℕ → List (List E) → List E
  | 0, _ => []
  | n + 1, ss =>
    match pick key rank ahead (ss.filterMap List.head?) with
    | none => []
    | some e => e :: merge n (ss.map (advance key (key e)))

def totalLength (ss : List (List E)) : ℕ := (ss.map List.length).sum

/-- The element that counts for a key. -/
def best (ss : List (List E)) (k : K) : Option E :=
  pick key rank ahead (ss.filterMap fun s => s.find? fun e => key e = k)

/-- A loop that stops when the step says so. -/
def loop {σ : Type*} (step : σ → E → Bool × σ) : List E → σ → σ
  | [], s => s
  | e :: es, s => if (step s e).1 then loop step es (step s e).2 else (step s e).2

/-- The same loop over streams that are merged as far as it runs. -/
def mergeLoop {σ : Type*} (step : σ → E → Bool × σ) : ℕ → List (List E) → σ → σ
  | 0, _, s => s
  | n + 1, ss, s =>
    match pick key rank ahead (ss.filterMap List.head?) with
    | none => s
    | some e =>
      if (step s e).1 then mergeLoop step n (ss.map (advance key (key e))) (step s e).2
      else (step s e).2

lemma mergeLoop_eq_loop {σ : Type*} (step : σ → E → Bool × σ) (n : ℕ) (ss : List (List E))
    (s : σ) : mergeLoop key rank step n ss s = loop step (merge key rank n ss) s := by
  induction n generalizing ss s with
  | zero => rfl
  | succ _ ih =>
    cases hp : pick key rank ahead (ss.filterMap head?) with
    | none => simp [mergeLoop, merge, hp, loop]
    | some => simp [mergeLoop, merge, hp, loop, ih]

end

section Pick
variable {K E : Type*} {key : E → K} {rank : E → ℕ}

/-- The orders in which candidates are compared. -/
structure Strict (before : K → K → Bool) : Prop where
  irrefl : ∀ a, before a a = false
  trans : ∀ a b c, before a b = true → before b c = true → before a c = true
  total : ∀ a b, before a b = true ∨ a = b ∨ before b a = true

lemma strict_ahead [LinearOrder K] : Strict (ahead : K → K → Bool) where
  irrefl a := by simp [ahead]
  trans a b c hab hbc := by
    simp only [ahead, decide_eq_true_eq] at *
    exact hab.trans hbc
  total a b := by
    simp only [ahead, decide_eq_true_eq]
    exact lt_trichotomy a b

lemma strict_behind [LinearOrder K] : Strict (behind : K → K → Bool) where
  irrefl a := by simp [behind]
  trans a b c hab hbc := by
    simp only [behind, decide_eq_true_eq] at *
    exact hbc.trans hab
  total a b := by
    simp only [behind, decide_eq_true_eq]
    rcases lt_trichotomy a b with h | h | h
    · exact .inr (.inr h)
    · exact .inr (.inl h)
    · exact .inl h

variable {before : K → K → Bool} {cs : List E} {e : E}

lemma pick_eq_none_iff : pick key rank before cs = none ↔ cs = [] := by
  cases cs with
  | nil => simp [pick]
  | cons =>
    simp only [pick]
    split
    · simp
    · split_ifs <;> simp

lemma pick_mem (h : pick key rank before cs = some e) : e ∈ cs := by
  induction cs with
  | nil => cases h
  | cons _ _ ih =>
    simp only [pick] at h
    split at h
    · exact some.inj h ▸ mem_cons_self
    next b hb =>
      split_ifs at h <;> cases h
      · exact mem_cons_of_mem _ (ih hb)
      · exact mem_cons_self
      · exact mem_cons_of_mem _ (ih hb)
      · exact mem_cons_self

section
variable (hs : Strict before) (h : pick key rank before cs = some e)
include hs h

/-- No candidate comes before the one that is picked. -/
theorem pick_first : ∀ c ∈ cs, before (key c) (key e) = false := by
  induction cs generalizing e with
  | nil => cases h
  | cons a es ih =>
    simp only [pick] at h
    intro c hc
    split at h
    next hnone =>
      cases h
      rw [pick_eq_none_iff] at hnone
      rw [hnone, mem_singleton] at hc
      exact hc ▸ hs.irrefl _
    next b hb =>
      have hfirst := ih hb
      -- what is before the winner is before every candidate behind it
      have hcarry : before (key b) (key a) = false → ∀ c ∈ es, before (key c) (key a) = false := by
        intro hba c hc
        by_contra hca
        rw [Bool.not_eq_false] at hca
        rcases hs.total (key a) (key b) with hab | hab | hab
        · have := hs.trans _ _ _ hca hab
          rw [hfirst c hc] at this
          cases this
        · rw [hab, hfirst c hc] at hca
          cases hca
        · rw [hba] at hab
          cases hab
      split_ifs at h with h1 h2 h3 <;> obtain rfl := some.inj h <;>
        rcases mem_cons.mp hc with rfl | hc
      · by_contra hcontra
        rw [Bool.not_eq_false] at hcontra
        have := hs.trans _ _ _ hcontra h1
        rw [hs.irrefl] at this
        cases this
      · exact hfirst c hc
      · exact hs.irrefl _
      · exact hcarry (by simpa using h1) c hc
      · simpa using h2
      · exact hfirst c hc
      · exact hs.irrefl _
      · exact hcarry (by simpa using h1) c hc

/-- Only the candidates with the key of the winner decide between them. -/
theorem pick_filter_key [LinearOrder K] {before' : K → K → Bool} (hs' : Strict before') :
    pick key rank before' (cs.filter fun c => key c = key e) = some e := by
  induction cs generalizing e with
  | nil => cases h
  | cons a es ih =>
    simp only [pick] at h
    split at h
    next hnone =>
      cases h
      rw [pick_eq_none_iff] at hnone
      simp [hnone, pick]
    next b hb =>
      by_cases hkey : key a = key b
      · -- both have the winning key
        rw [hkey] at h
        simp only [hs.irrefl, Bool.false_eq_true, if_false] at h
        have he : key e = key b := by
          split_ifs at h <;> cases h
          · rfl
          · exact hkey
        have hfilter : (a :: es).filter (fun c => key c = key e)
            = a :: es.filter fun c => key c = key b := by
          rw [filter_cons_of_pos (by simpa [he] using hkey), he]
        rw [hfilter]
        simp only [pick, ih hb, hkey, hs'.irrefl]
        exact h
      · have hsplit := hs.total (key a) (key b)
        by_cases hba : before (key b) (key a) = true
        · rw [if_pos hba] at h
          cases h
          rw [filter_cons_of_neg (by simpa using hkey)]
          exact ih hb
        · have hab : before (key a) (key b) = true :=
            (hsplit.resolve_right fun h => h.elim hkey hba)
          rw [if_neg hba, if_pos hab] at h
          cases h
          have hnil : es.filter (fun c => key c = key a) = [] := by
            refine filter_eq_nil_iff.mpr fun c hc hca => ?_
            have hca : key c = key a := by simpa using hca
            have := pick_first hs hb c hc
            rw [hca, hab] at this
            cases this
          rw [filter_cons_of_pos (by simp), hnil]
          rfl

end

end Pick

section Streams
variable {K E : Type*} [LinearOrder K] {key : E → K} {rank : E → ℕ}

/-! ## One stream -/

variable {s : List E}

lemma Ascending.filter (h : Ascending key s) (p : E → Bool) : Ascending key (s.filter p) :=
  h.sublist filter_sublist

lemma Ascending.eq_of_key (h : Ascending key s) {a b : E} (ha : a ∈ s) (hb : b ∈ s)
    (hkey : key a = key b) : a = b :=
  inj_on_of_nodup_map (pairwise_map.mpr (h.imp ne_of_lt)) ha hb hkey

/-- Streams in ascending order are equal when they have the same elements. -/
theorem Ascending.ext {t : List E} (hs : Ascending key s) (ht : Ascending key t)
    (h : ∀ e, e ∈ s ↔ e ∈ t) : s = t := by
  have hnodup : ∀ {l : List E}, Ascending key l → l.Nodup :=
    fun hl => hl.imp fun hlt heq => absurd (congrArg key heq) hlt.ne
  refine ((perm_ext_iff_of_nodup (hnodup hs) (hnodup ht)).mpr h).eq_of_pairwise ?_ hs ht
  intro a b _ _ hab hba
  exact absurd hba hab.asymm

variable {k : K}

lemma find?_key_iff (h : Ascending key s) {e : E} :
    s.find? (fun e => key e = k) = some e ↔ e ∈ s ∧ key e = k := by
  constructor
  · intro hf
    exact ⟨mem_of_find?_eq_some hf, by simpa using find?_some hf⟩
  · rintro ⟨he, rfl⟩
    obtain ⟨a, ha⟩ := isSome_iff_exists.mp
      (find?_isSome.mpr ⟨e, he, by simp⟩ : (s.find? fun a => key a = key e).isSome)
    have hkey : key a = key e := by simpa using find?_some ha
    rw [ha, h.eq_of_key (mem_of_find?_eq_some ha) he hkey]

lemma find?_filter_key {p : K → Bool} : (s.filter fun e => p (key e)).find? (fun e => key e = k) =
      if p k then s.find? (fun e => key e = k) else none := by
  rw [find?_filter]
  split
  next hp =>
    congr 1
    funext e
    by_cases hk : key e = k <;> simp [hk, hp]
  next hp =>
    refine find?_eq_none.mpr fun e _ => ?_
    by_cases hk : key e = k <;> simp [hk, hp]

lemma advance_eq_filter (h : Ascending key s) (hk : ∀ e ∈ s, k ≤ key e) :
    advance key k s = s.filter fun e => ahead k (key e) := by
  cases s with
  | nil => rfl
  | cons a s =>
    obtain ⟨ha, -⟩ := pairwise_cons.mp h
    have hrest : s.filter (fun e => ahead k (key e)) = s := filter_eq_self.mpr fun e he =>
        decide_eq_true ((hk a mem_cons_self).trans_lt (ha e he))
    simp only [advance]
    split
    next hkey => rw [filter_cons_of_neg (by simp [ahead, hkey]), hrest]
    next hkey =>
      have hlt : k < key a := lt_of_le_of_ne (hk a mem_cons_self) (Ne.symm hkey)
      rw [filter_cons_of_pos (by simpa [ahead] using hlt), hrest]

lemma Ascending.getLast?_eq_some_iff (h : Ascending key s) {e : E} :
    s.getLast? = some e ↔ e ∈ s ∧ ∀ a ∈ s, key a ≤ key e := by
  have hlast : ∀ b, s.getLast? = some b → ∀ a ∈ s, key a ≤ key b := by
    intro b hb a ha
    obtain ⟨t, rfl⟩ := List.getLast?_eq_some_iff.mp hb
    rcases mem_append.mp ha with ha | ha
    · exact ((pairwise_append.mp h).2.2 a ha b mem_cons_self).le
    · rw [mem_singleton.mp ha]
  constructor
  · intro he
    exact ⟨mem_of_getLast? he, hlast e he⟩
  · rintro ⟨he, hmax⟩
    obtain ⟨b, hb⟩ := isSome_iff_exists.mp (getLast?_isSome.mpr (ne_nil_of_mem he))
    have hkey : key e = key b := le_antisymm (hlast b hb e he) (hmax b (mem_of_getLast? hb))
    rw [hb, h.eq_of_key he (mem_of_getLast? hb) hkey]

/-! ## Several streams -/

variable {ss : List (List E)}

lemma best_filter (ss : List (List E)) (p : K → Bool) (k : K) :
    best key rank (ss.map fun s => s.filter fun e => p (key e)) k =
      if p k then best key rank ss k else none := by
  simp only [best, filterMap_map, Function.comp_def, find?_filter_key]
  split
  · rfl
  · rw [pick_eq_none_iff]
    simp

lemma best_mem {e : E} (h : best key rank ss k = some e) : ∃ s ∈ ss, e ∈ s := by
  obtain ⟨s, hs, he⟩ := mem_filterMap.mp (pick_mem h)
  exact ⟨s, hs, mem_of_find?_eq_some he⟩

section
variable (hs : ∀ s ∈ ss, Ascending key s)
include hs

/-- Of streams without a key below `k`, the heads at `k` are the elements of that key. -/
theorem heads_at (hk : ∀ s ∈ ss, ∀ e ∈ s, k ≤ key e) :
    (ss.filterMap head?).filter (fun e => key e = k) =
      ss.filterMap fun s => s.find? fun e => key e = k := by
  induction ss with
  | nil => rfl
  | cons s _ ih =>
    have hrest := ih (fun t ht => hs t (mem_cons_of_mem _ ht))
      fun t ht => hk t (mem_cons_of_mem _ ht)
    cases s with
    | nil => exact hrest
    | cons a s =>
      obtain ⟨ha, -⟩ := pairwise_cons.mp (hs _ mem_cons_self)
      have hfind : key a ≠ k → s.find? (fun e => key e = k) = none := by
        intro hne
        refine find?_eq_none.mpr fun e he => ?_
        have hlt := (hk _ mem_cons_self a mem_cons_self).trans_lt (ha e he)
        simpa using hlt.ne'
      by_cases hkey : key a = k
      · simp [hkey, hrest]
      · simp [hkey, hrest, hfind hkey]

/-- The winner among the heads is what counts for the lowest key. -/
theorem pick_heads {e : E} (h : pick key rank ahead (ss.filterMap head?) = some e) :
    best key rank ss (key e) = some e ∧ ∀ s ∈ ss, ∀ a ∈ s, key e ≤ key a := by
  have hlow : ∀ s ∈ ss, ∀ a ∈ s, key e ≤ key a := by
    intro s hmem a ha
    cases s with
    | nil => cases ha
    | cons b =>
      have hb := pick_first strict_ahead h b (mem_filterMap.mpr ⟨_, hmem, rfl⟩)
      have hb : key e ≤ key b := by simpa [ahead] using hb
      rcases mem_cons.mp ha with rfl | ha
      · exact hb
      · exact hb.trans ((pairwise_cons.mp (hs _ hmem)).1 a ha).le
  refine ⟨?_, hlow⟩
  rw [best, ← heads_at hs hlow]
  exact pick_filter_key strict_ahead h strict_ahead

lemma map_advance (hk : ∀ s ∈ ss, ∀ e ∈ s, k ≤ key e) :
    ss.map (advance key k) = ss.map fun s => s.filter fun e => ahead k (key e) :=
  map_congr_left fun s hmem => advance_eq_filter (hs s hmem) (hk s hmem)

end

lemma total_advance_lt {e : E} (h : pick key rank ahead (ss.filterMap head?) = some e) :
    totalLength (ss.map (advance key (key e))) < totalLength ss := by
  have hle : ∀ s : List E, (advance key (key e) s).length ≤ s.length := by
    intro s
    cases s with
    | nil => exact le_rfl
    | cons =>
      simp only [advance]
      split <;> simp
  obtain ⟨s, hmem, hhead⟩ := mem_filterMap.mp (pick_mem h)
  clear h
  induction ss with
  | nil => cases hmem
  | cons t ss ih =>
    have hsum : totalLength (ss.map (advance key (key e))) ≤ totalLength ss := by
      clear ih hmem
      induction ss with
      | nil => exact le_rfl
      | cons u _ ih => exact Nat.add_le_add (hle u) ih
    simp only [totalLength, map_cons, sum_cons] at *
    rcases mem_cons.mp hmem with rfl | hmem
    · cases s with
      | nil => cases hhead
      | cons a s =>
        obtain rfl := some.inj hhead
        have : (advance key (key a) (a :: s)).length = s.length := by simp [advance]
        simp only [length_cons] at *
        omega
    · have := ih hmem
      have := hle t
      omega

/-- The merge lists what counts for each key, by ascending keys. -/
theorem merge_spec (n : ℕ) (hs : ∀ s ∈ ss, Ascending key s) (hn : totalLength ss ≤ n) :
    Ascending key (merge key rank n ss) ∧
      ∀ e, e ∈ merge key rank n ss ↔ best key rank ss (key e) = some e := by
  induction n generalizing ss with
  | zero =>
    refine ⟨Pairwise.nil, fun e => ?_⟩
    have hempty : ∀ s ∈ ss, s = [] := by
      intro s hmem
      have hzero : ∀ l ∈ ss.map length, l = 0 :=
        List.sum_eq_zero_iff_forall_eq_nat.mp (Nat.le_zero.mp hn)
      exact length_eq_zero_iff.mp (hzero _ (mem_map_of_mem hmem))
    simp only [merge, not_mem_nil, false_iff]
    intro hbest
    obtain ⟨s, hmem, he⟩ := best_mem hbest
    rw [hempty s hmem] at he
    cases he
  | succ n ih =>
    cases hp : pick key rank ahead (ss.filterMap head?) with
    | none =>
      refine ⟨by simp only [merge, hp]; exact Pairwise.nil, fun e => ?_⟩
      simp only [merge, hp, not_mem_nil, false_iff]
      intro hbest
      obtain ⟨s, hmem, he⟩ := best_mem hbest
      rw [pick_eq_none_iff, filterMap_eq_nil_iff] at hp
      rw [head?_eq_none_iff.mp (hp s hmem)] at he
      cases he
    | some w =>
      obtain ⟨hbest, hlow⟩ := pick_heads hs hp
      have hadvance := map_advance hs hlow
      have hs' : ∀ s ∈ ss.map (advance key (key w)), Ascending key s := by
        rw [hadvance]
        intro s hmem
        obtain ⟨t, ht, rfl⟩ := mem_map.mp hmem
        exact (hs t ht).filter _
      have hlt := total_advance_lt hp
      obtain ⟨hasc, hmem⟩ := ih hs' (by omega)
      have hrest : ∀ e, e ∈ merge key rank n (ss.map (advance key (key w))) ↔
          key w < key e ∧ best key rank ss (key e) = some e := by
        intro e
        rw [hmem, hadvance, best_filter ss (ahead (key w))]
        by_cases h : key w < key e <;> simp [ahead]
      simp only [merge, hp]
      refine ⟨pairwise_cons.mpr ⟨fun e he => ((hrest e).mp he).1, hasc⟩, fun e => ?_⟩
      rw [mem_cons, hrest]
      constructor
      · rintro (rfl | ⟨-, h⟩)
        · exact hbest
        · exact h
      · intro he
        obtain ⟨s, hmem', hes⟩ := best_mem he
        rcases (hlow s hmem' e hes).eq_or_lt with heq | hlt
        · rw [← heq, hbest] at he
          exact .inl (some.inj he).symm
        · exact .inr ⟨hlt, he⟩

lemma length_merge_le (n : ℕ) (ss : List (List E)) : (merge key rank n ss).length ≤ n := by
  induction n generalizing ss with
  | zero => exact le_rfl
  | succ _ ih =>
    simp only [merge]
    split
    · exact Nat.zero_le _
    · exact Nat.succ_le_succ (ih _)

/-! ## The merge as a whole -/

/-- All keys of the streams with what counts for them. -/
def contents (key : E → K) (rank : E → ℕ) (ss : List (List E)) : List E :=
  merge key rank (totalLength ss) ss

section
variable (hs : ∀ s ∈ ss, Ascending key s)
include hs

lemma contents_ascending : Ascending key (contents key rank ss) := (merge_spec _ hs le_rfl).1

lemma mem_contents {e : E} : e ∈ contents key rank ss ↔ best key rank ss (key e) = some e :=
  (merge_spec _ hs le_rfl).2 e

lemma merge_eq_contents {n : ℕ} (hn : totalLength ss ≤ n) :
    merge key rank n ss = contents key rank ss := by
  obtain ⟨hasc, hmem⟩ : Ascending key (merge key rank n ss) ∧ _ := merge_spec n hs hn
  refine hasc.ext (contents_ascending hs) fun e => ?_
  rw [hmem, mem_contents hs]

/-- Restricting every stream to some keys restricts the merge. -/
theorem contents_filter (p : K → Bool) :
    contents key rank (ss.map fun s => s.filter fun e => p (key e)) =
      (contents key rank ss).filter fun e => p (key e) := by
  have hs' : ∀ s ∈ ss.map fun s => s.filter fun e => p (key e), Ascending key s := by
    intro s hmem
    obtain ⟨t, ht, rfl⟩ := mem_map.mp hmem
    exact (hs t ht).filter _
  refine (contents_ascending hs').ext ((contents_ascending hs).filter _) fun e => ?_
  rw [mem_contents hs', best_filter, mem_filter, mem_contents hs]
  by_cases hp : p (key e) = true <;> simp [hp]

/-- Of streams without a key above `k`, the last elements at `k` are the elements of that key. -/
theorem lasts_at (hk : ∀ s ∈ ss, ∀ e ∈ s, key e ≤ k) :
    (ss.filterMap getLast?).filter (fun e => key e = k) =
      ss.filterMap fun s => s.find? fun e => key e = k := by
  induction ss with
  | nil => rfl
  | cons s _ ih =>
    have hrest := ih (fun t ht => hs t (mem_cons_of_mem _ ht))
      fun t ht => hk t (mem_cons_of_mem _ ht)
    have hasc := hs s mem_cons_self
    have hle := hk s mem_cons_self
    have hone : s.getLast?.filter (fun e => key e = k) = s.find? fun e => key e = k := by
      ext e
      rw [filter_eq_some_iff, find?_key_iff hasc, hasc.getLast?_eq_some_iff]
      constructor
      · rintro ⟨⟨he, -⟩, hkey⟩
        exact ⟨he, by simpa using hkey⟩
      · rintro ⟨he, rfl⟩
        exact ⟨⟨he, hle⟩, by simp⟩
    rw [filterMap_cons, filterMap_cons, ← hone]
    cases hl : s.getLast? with
    | none => exact hrest
    | some b =>
      by_cases hkey : key b = k
      · simp [Option.filter, hkey, hrest]
      · simp [Option.filter, hkey, hrest]

/-- The winner among the last elements is the last element of the merge. -/
theorem pick_lasts :
    pick key rank behind (ss.filterMap getLast?) = (contents key rank ss).getLast? := by
  have hasc : Ascending key (contents key rank ss) := contents_ascending hs
  cases hp : pick key rank behind (ss.filterMap getLast?) with
  | none =>
    rw [pick_eq_none_iff, filterMap_eq_nil_iff] at hp
    refine (getLast?_eq_none_iff.mpr (eq_nil_iff_forall_not_mem.mpr fun e he => ?_)).symm
    obtain ⟨s, hmem, hes⟩ := best_mem ((mem_contents hs).mp he)
    rw [getLast?_eq_none_iff.mp (hp s hmem)] at hes
    cases hes
  | some e =>
    have hhigh : ∀ s ∈ ss, ∀ a ∈ s, key a ≤ key e := by
      intro s hmem a ha
      obtain ⟨b, hb⟩ := isSome_iff_exists.mp (getLast?_isSome.mpr (ne_nil_of_mem ha))
      have hbe := pick_first strict_behind hp b (mem_filterMap.mpr ⟨s, hmem, hb⟩)
      have hbe : key b ≤ key e := by simpa [behind] using hbe
      exact (((hs s hmem).getLast?_eq_some_iff.mp hb).2 a ha).trans hbe
    have hbest : best key rank ss (key e) = some e := by
      rw [best, ← lasts_at hs hhigh]
      exact pick_filter_key strict_behind hp strict_ahead
    symm
    rw [hasc.getLast?_eq_some_iff, mem_contents hs]
    refine ⟨hbest, fun a ha => ?_⟩
    obtain ⟨s, hmem, has⟩ := best_mem ((mem_contents hs).mp ha)
    exact hhigh s hmem a has

end

end Streams
end CrowDB.Lib
