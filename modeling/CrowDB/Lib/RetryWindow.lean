import Mathlib.Data.List.Sublists

/-!
# A bounded memory of the results of recent keys

The window remembers the results of the last `limit` keys. A key that leaves it raises the
floor of its class to its rank, and a key at or below the floor of its class is expired. A
key is admitted when it is neither remembered nor expired. `Covers w r` says that `w` has
forgotten no more than `r`: what `w` admits, `r` admits. It survives adding a key to both
windows, and adding one to `w` alone.
-/
namespace CrowDB.Lib

open List Option Function

structure RetryWindow (κ ν γ : Type*) where
  results : κ → Option ν
  resultOrder : List κ
  expiredFloor : γ → Option ℕ

namespace RetryWindow
variable {κ ν γ : Type*} (cls : κ → γ) (rank : κ → ℕ)

def empty : RetryWindow κ ν γ := ⟨fun _ => none, [], fun _ => none⟩

def expired (w : RetryWindow κ ν γ) (k : κ) : Bool :=
  (w.expiredFloor (cls k)).any fun floor => decide (rank k ≤ floor)

def admits (w : RetryWindow κ ν γ) (k : κ) : Bool :=
  (w.results k).isNone && !expired cls rank w k

/-- The order lists the remembered keys, each once, and no more than `limit`. -/
structure Coherent (limit : ℕ) (w : RetryWindow κ ν γ) : Prop where
  nodup : w.resultOrder.Nodup
  mem_iff : ∀ k, (w.results k).isSome = true ↔ k ∈ w.resultOrder
  bounded : w.resultOrder.length ≤ limit

/-- `w` has forgotten no more than `r`: the older keys of `r` have expired in `w`, the younger
ones are remembered by `w` in the same order, and the floors of `w` are no lower. -/
structure Covers (w r : RetryWindow κ ν γ) : Prop where
  order : ∃ older younger, r.resultOrder = older ++ younger ∧
    (∀ k ∈ older, expired cls rank w k = true) ∧ younger.Sublist w.resultOrder
  floors : ∀ c floor, r.expiredFloor c = some floor →
    ∃ floor', w.expiredFloor c = some floor' ∧ floor ≤ floor'

section Basic
variable {cls rank} {limit : ℕ} {w r : RetryWindow κ ν γ} {k : κ}

lemma Coherent.empty : Coherent limit (empty : RetryWindow κ ν γ) :=
  ⟨nodup_nil, fun k => by simp [RetryWindow.empty], Nat.zero_le _⟩

lemma Coherent.notMem (h : Coherent limit w) (hk : w.results k = none) : k ∉ w.resultOrder := by
  rw [← h.mem_iff, hk]
  simp

lemma admits_iff : admits cls rank w k = true ↔
    w.results k = none ∧ expired cls rank w k = false := by
  simp [admits]

lemma expired_iff : expired cls rank w k = true ↔
    ∃ floor, w.expiredFloor (cls k) = some floor ∧ rank k ≤ floor := by
  simp [expired, Option.any_eq_true]

lemma Covers.empty (w : RetryWindow κ ν γ) : Covers cls rank w empty :=
  ⟨⟨[], [], rfl, nofun, nil_sublist _⟩, nofun⟩

lemma Covers.refl (w : RetryWindow κ ν γ) : Covers cls rank w w :=
  ⟨⟨[], _, rfl, nofun, Sublist.refl _⟩, fun _ floor hf => ⟨floor, hf, le_rfl⟩⟩

lemma Covers.admits (h : Covers cls rank w r) (hw : Coherent limit w) (hr : Coherent limit r)
    (hk : admits cls rank w k = true) : admits cls rank r k = true := by
  obtain ⟨hnone, hlive⟩ := admits_iff.mp hk
  obtain ⟨older, younger, horder, hold, hyoung⟩ := h.order
  refine admits_iff.mpr ⟨?_, ?_⟩
  · by_contra hsome
    have hmem := (hr.mem_iff k).mp (isSome_iff_ne_none.mpr hsome)
    rw [horder] at hmem
    rcases mem_append.mp hmem with hmem | hmem
    · simp [hold k hmem] at hlive
    · exact hw.notMem hnone (hyoung.subset hmem)
  · refine Bool.eq_false_iff.mpr fun hexp => ?_
    obtain ⟨floor, hf, hle⟩ := expired_iff.mp hexp
    obtain ⟨floor', hf', hle'⟩ := h.floors _ _ hf
    have : expired cls rank w k = true := expired_iff.mpr ⟨floor', hf', hle.trans hle'⟩
    simp [hlive] at this

end Basic

variable [DecidableEq κ] [DecidableEq γ]

/-- The oldest key leaves the window. -/
def evict (w : RetryWindow κ ν γ) : RetryWindow κ ν γ :=
  match w.resultOrder with
  | [] => w
  | k :: rest =>
    { results := Function.update w.results k none
      resultOrder := rest
      expiredFloor := Function.update w.expiredFloor (cls k)
        (some (max ((w.expiredFloor (cls k)).getD 0) (rank k))) }

section
variable (limit : ℕ) (w : RetryWindow κ ν γ)

/-- Keys leave while there are more than `limit` of them. -/
def evictTo : RetryWindow κ ν γ :=
  (evict cls rank)^[w.resultOrder.length - limit] w

def retain (k : κ) (v : ν) : RetryWindow κ ν γ :=
  evictTo cls rank limit
    { w with results := Function.update w.results k (some v), resultOrder := w.resultOrder ++ [k] }

/-- Retain entries one after another. -/
def retainAll (entries : List (κ × ν)) : RetryWindow κ ν γ :=
  entries.foldl (fun w e => retain cls rank limit w e.1 e.2) w

end

/-- Each entry is admitted in its turn, behind the evictions of the entries before it. -/
def admitsAll (limit : ℕ) (w : RetryWindow κ ν γ) : List (κ × ν) → Bool
  | [] => true
  | e :: rest => admits cls rank w e.1 && admitsAll limit (retain cls rank limit w e.1 e.2) rest

/-- What retaining a key does: the keys `gone` leave, at most one, and the floors of their
classes rise to their ranks. -/
structure Shift (limit : ℕ) (w : RetryWindow κ ν γ) (k : κ) (v : ν) (w' : RetryWindow κ ν γ)
    (gone rest : List κ) : Prop where
  before : w.resultOrder = gone ++ rest
  behind : w'.resultOrder = rest ++ [k]
  length : gone.length = w.resultOrder.length + 1 - limit
  results : ∀ j, w'.results j = if j ∈ gone then none else update w.results k (some v) j
  expired : ∀ j ∈ gone, expired cls rank w' j = true
  raised : ∀ c floor, w.expiredFloor c = some floor →
    ∃ floor', w'.expiredFloor c = some floor' ∧ floor ≤ floor'
  least : ∀ c floor, w'.expiredFloor c = some floor → w.expiredFloor c = some floor ∨
    ∃ j ∈ gone, cls j = c ∧ floor = max ((w.expiredFloor c).getD 0) (rank j)

variable {limit : ℕ} {w r : RetryWindow κ ν γ} {k j : κ} {v : ν}

/-! ## One retained key -/

section
variable (hlimit : 0 < limit)
include hlimit

lemma exists_shift (h : w.resultOrder.length ≤ limit) (k : κ) (v : ν) :
    ∃ gone rest, Shift cls rank limit w k v (retain cls rank limit w k v) gone rest := by
  rcases h.lt_or_eq with hlt | heq
  · -- below the limit nothing leaves
    have hzero : (w.resultOrder ++ [k]).length - limit = 0 := by simp; omega
    refine ⟨[], w.resultOrder, ?_⟩
    simp only [retain, evictTo, hzero, iterate_zero, id_eq]
    exact ⟨rfl, rfl, by simp; omega, fun j => rfl, nofun, fun _ floor hf => ⟨floor, hf, le_rfl⟩,
      fun _ _ => .inl⟩
  · obtain ⟨oldest, rest, ho⟩ := exists_cons_of_length_pos (heq ▸ hlimit)
    have hone : (oldest :: rest ++ [k]).length - limit = 1 := by
      rw [← heq, ho, length_append, length_singleton]
      omega
    refine ⟨[oldest], rest, ?_⟩
    simp only [retain, evictTo, ho, hone]
    refine ⟨ho, rfl, by rw [heq]; simp, fun j => ?_, forall_mem_singleton.mpr ?_,
      fun c floor hf => ?_, fun c floor hf => ?_⟩
    · by_cases hj : j = oldest <;> simp [evict, hj]
    · exact expired_iff.mpr ⟨_, update_self .., le_max_right _ _⟩
    · by_cases hc : c = cls oldest
      · subst hc
        exact ⟨_, update_self .., by rw [hf]; exact le_max_left _ _⟩
      · exact ⟨floor, by simpa [evict, hc] using hf, le_rfl⟩
    · by_cases hc : c = cls oldest
      · subst hc
        exact .inr ⟨oldest, by simp, rfl, by simpa [evict, eq_comm] using hf⟩
      · exact .inl (by simpa [evict, hc] using hf)

variable {cls rank}

/-- A retained key is the last of the order, and at most the oldest one has left. -/
theorem retain_order (h : w.resultOrder.length ≤ limit) : (retain cls rank limit w k v).resultOrder
      = (w.resultOrder ++ [k]).drop (w.resultOrder.length + 1 - limit) := by
  obtain ⟨gone, rest, hs⟩ := exists_shift cls rank hlimit h k v
  rw [hs.behind, ← hs.length, hs.before, append_assoc, drop_left]

lemma retain_length (h : w.resultOrder.length ≤ limit) :
    (retain cls rank limit w k v).resultOrder.length ≤ limit := by
  rw [retain_order hlimit h, length_drop, length_append, length_singleton]
  omega

lemma Coherent.retain (h : Coherent limit w) (hk : w.results k = none) :
    Coherent limit (retain cls rank limit w k v) := by
  obtain ⟨gone, rest, hs⟩ := exists_shift cls rank hlimit h.bounded k v
  have hnew := h.notMem hk
  have hnodup := h.nodup
  rw [hs.before] at hnew hnodup
  obtain ⟨-, hrest, hapart⟩ := nodup_append.mp hnodup
  rw [mem_append, not_or] at hnew
  refine ⟨?_, fun j => ?_, retain_length hlimit h.bounded⟩
  · rw [hs.behind, ← concat_eq_append]
    exact hrest.concat hnew.2
  · have hmem := h.mem_iff j
    rw [hs.before] at hmem
    rw [hs.results, hs.behind]
    by_cases hj : j ∈ gone
    · have hjr : j ∉ rest := fun hr => hapart j hj j hr rfl
      have hjk : j ≠ k := fun heq => hnew.1 (heq ▸ hj)
      simp [hj, hjr, hjk]
    · by_cases hjk : j = k
      · simp [hjk, hnew.1]
      · simpa [hj, hjk] using hmem

/-- The new key has its result, if the limit lets it stay. -/
theorem retain_results_self (h : Coherent limit w) (hk : w.results k = none) :
    (retain cls rank limit w k v).results k = some v := by
  obtain ⟨gone, rest, hs⟩ := exists_shift cls rank hlimit h.bounded k v
  have hnew := h.notMem hk
  rw [hs.before, mem_append, not_or] at hnew
  simp [hs.results, hnew.1]

/-- A key that stays keeps its result. -/
theorem retain_results_of_mem (h : Coherent limit w)
    (hj : j ∈ (retain cls rank limit w k v).resultOrder) (hjk : j ≠ k) :
    (retain cls rank limit w k v).results j = w.results j := by
  obtain ⟨gone, rest, hs⟩ := exists_shift cls rank hlimit h.bounded k v
  have hjr : j ∈ rest := by simpa [hs.behind, hjk] using hj
  have hstay : j ∉ gone := fun hg => (nodup_append.mp (hs.before ▸ h.nodup)).2.2 j hg j hjr rfl
  simp [hs.results, hstay, hjk]

/-- Floors only rise. -/
theorem retain_floor (h : w.resultOrder.length ≤ limit) {c : γ} {floor : ℕ}
    (hc : w.expiredFloor c = some floor) :
    ∃ floor', (retain cls rank limit w k v).expiredFloor c = some floor' ∧
      floor ≤ floor' := by
  obtain ⟨gone, rest, hs⟩ := exists_shift cls rank hlimit h k v
  exact hs.raised c floor hc

lemma expired_retain (h : w.resultOrder.length ≤ limit) (hj : expired cls rank w j = true) :
    expired cls rank (retain cls rank limit w k v) j = true := by
  obtain ⟨floor, hf, hle⟩ := expired_iff.mp hj
  obtain ⟨floor', hf', hle'⟩ := retain_floor hlimit h hf
  exact expired_iff.mpr ⟨floor', hf', hle.trans hle'⟩

/-- A key that leaves is expired. -/
theorem expired_of_left (h : w.resultOrder.length ≤ limit) (hj : j ∈ w.resultOrder)
    (hleft : j ∉ (retain cls rank limit w k v).resultOrder) :
    expired cls rank (retain cls rank limit w k v) j = true := by
  obtain ⟨gone, rest, hs⟩ := exists_shift cls rank hlimit h k v
  rw [hs.before] at hj
  rw [hs.behind] at hleft
  exact hs.expired j ((mem_append.mp hj).resolve_right fun hr => hleft (mem_append_left _ hr))

end

variable {cls rank}
variable {u : ν}

/-- A key that was remembered is still remembered or has expired. -/
theorem recalled_retain (hlimit : 0 < limit) (h : Coherent limit w) (hk : w.results k = none)
    (hj : w.results j = some u ∨ expired cls rank w j = true) :
    (retain cls rank limit w k v).results j = some u ∨
      expired cls rank (retain cls rank limit w k v) j = true := by
  rcases hj with hj | hj
  · have hjk : j ≠ k := by
      rintro rfl
      simp [hk] at hj
    by_cases hstay : j ∈ (retain cls rank limit w k v).resultOrder
    · exact .inl ((retain_results_of_mem hlimit h hstay hjk).trans hj)
    · exact .inr (expired_of_left hlimit h.bounded ((h.mem_iff j).mp (by simp [hj])) hstay)
  · exact .inr (expired_retain hlimit h.bounded hj)

/-! ## Runs of entries -/

@[simp] lemma retainAll_nil : retainAll cls rank limit w [] = w := rfl

@[simp] lemma retainAll_cons (e : κ × ν) (entries : List (κ × ν)) :
    retainAll cls rank limit w (e :: entries)
      = retainAll cls rank limit (retain cls rank limit w e.1 e.2) entries := rfl

lemma retainAll_append (l m : List (κ × ν)) : retainAll cls rank limit w (l ++ m)
    = retainAll cls rank limit (retainAll cls rank limit w l) m := by
  simp [retainAll]

variable {entries : List (κ × ν)} {e : κ × ν}

lemma admitsAll_cons :
    admitsAll cls rank limit w (e :: entries) = true ↔ admits cls rank w e.1 = true ∧
      admitsAll cls rank limit (retain cls rank limit w e.1 e.2) entries = true := by
  simp [admitsAll]

lemma admitsAll_append {l m : List (κ × ν)} : admitsAll cls rank limit w (l ++ m) = true ↔
    admitsAll cls rank limit w l = true ∧
      admitsAll cls rank limit (retainAll cls rank limit w l) m = true := by
  induction l generalizing w with
  | nil => simp [admitsAll]
  | cons _ _ ih => rw [cons_append, admitsAll_cons, admitsAll_cons, ih, retainAll_cons, and_assoc]

variable {fewer : List (κ × ν)}

section
variable (hlimit : 0 < limit)
include hlimit

/-- The order of a run: the last `limit` keys. -/
theorem retainAll_order (h : w.resultOrder.length ≤ limit) :
    (retainAll cls rank limit w entries).resultOrder
      = (w.resultOrder ++ entries.map Prod.fst).drop
        (w.resultOrder.length + entries.length - limit) := by
  induction entries generalizing w with
  | nil => simp [show w.resultOrder.length - limit = 0 by omega]
  | cons e _ ih =>
    have horder : (retain cls rank limit w e.1 e.2).resultOrder = _ :=
      retain_order hlimit h
    have hlen : (retain cls rank limit w e.1 e.2).resultOrder.length
        = min (w.resultOrder.length + 1) limit := by
      rw [horder, length_drop, length_append, length_singleton]
      omega
    rw [retainAll_cons, ih (by omega), hlen, horder, length_cons]
    rw [← drop_append_of_le_length (by
        rw [length_append]
        omega),
      drop_drop, append_assoc]
    congr 1
    omega

/-! ## Covering -/

section
variable (h : Covers cls rank w r)
include h

section
variable (hw : w.resultOrder.length ≤ limit)
include hw

/-- Once the window in front has the key, the younger keys of the other one stand before
it, and the key that left, if any, counts as old. -/
theorem Covers.split : ∃ older younger, r.resultOrder = older ++ younger ∧
      (∀ j ∈ older, expired cls rank (retain cls rank limit w k v) j = true) ∧
      (younger ++ [k]).Sublist (retain cls rank limit w k v).resultOrder := by
  obtain ⟨older, younger, horder, hold, hyoung⟩ := h.order
  obtain ⟨gone, rest, hs⟩ := exists_shift cls rank hlimit hw k v
  obtain ⟨left, stay, rfl, hleft, hstay⟩ := sublist_append_iff.mp (hs.before ▸ hyoung)
  refine ⟨older ++ left, stay, by rw [horder, append_assoc], forall_mem_append.mpr ⟨?_, ?_⟩, ?_⟩
  · exact fun j hj => expired_retain hlimit hw (hold j hj)
  · exact fun j hj => hs.expired j (hleft.subset hj)
  · rw [hs.behind]
    exact hstay.append (Sublist.refl _)

lemma Covers.retain_floors (c : γ) (floor : ℕ) (hf : r.expiredFloor c = some floor) :
    ∃ floor', (retain cls rank limit w k v).expiredFloor c = some floor' ∧
      floor ≤ floor' := by
  obtain ⟨floor₁, h₁, hle₁⟩ := h.floors c floor hf
  obtain ⟨floor₂, h₂, hle₂⟩ := retain_floor hlimit hw h₁
  exact ⟨floor₂, h₂, hle₁.trans hle₂⟩

/-- The window in front remembers a key that the other one does not get. -/
theorem Covers.retain_left : Covers cls rank (retain cls rank limit w k v) r := by
  obtain ⟨older, younger, horder, hold, hyoung⟩ := h.split hlimit hw
  exact ⟨⟨older, younger, horder, hold, (sublist_append_left _ _).trans hyoung⟩,
    h.retain_floors hlimit hw⟩

/-- Both windows get the key. -/
theorem Covers.retain (hr : r.resultOrder.length ≤ limit) :
    Covers cls rank (retain cls rank limit w k v)
      (retain cls rank limit r k v) := by
  obtain ⟨older, younger, horder, hold, hyoung⟩ := h.split (k := k) (v := v) hlimit hw
  obtain ⟨gone, rest, hs⟩ := exists_shift cls rank hlimit hr k v
  -- the younger keys and the new one are remembered, so what leaves is one of the older keys
  have hlen := hyoung.length_le.trans (retain_length hlimit hw)
  have hgone := hs.length
  rw [horder, length_append] at hgone
  rw [length_append, length_singleton] at hlen
  obtain ⟨older, rfl⟩ : gone <+: older :=
    prefix_of_prefix_length_le ⟨rest, hs.before.symm⟩ ⟨younger, horder.symm⟩ (by omega)
  have hrest : rest = older ++ younger := by
    rw [hs.before, append_assoc] at horder
    exact append_cancel_left horder
  refine ⟨⟨older, younger ++ [k], by rw [hs.behind, hrest, append_assoc],
    fun j hj => hold j (mem_append_right _ hj), hyoung⟩, fun c floor hf => ?_⟩
  rcases hs.least c floor hf with hf | ⟨j, hj, rfl, rfl⟩
  · exact h.retain_floors hlimit hw c floor hf
  · obtain ⟨floor₁, h₁, hle₁⟩ := expired_iff.mp (hold j (mem_append_left _ hj))
    refine ⟨floor₁, h₁, max_le ?_ hle₁⟩
    cases hfl : r.expiredFloor (cls j) with
    | none => exact Nat.zero_le _
    | some =>
      obtain ⟨floor₂, h₂, hle₂⟩ := h.retain_floors hlimit hw _ _ hfl
      exact some.inj (h₁.symm.trans h₂) ▸ hle₂

end

/-- What the covering window admits in turn, the other one admits, and it also admits some
of the entries only. -/
theorem Covers.admitsAll (hw : Coherent limit w) (hr : Coherent limit r)
    (hsub : fewer.Sublist entries) (ha : admitsAll cls rank limit w entries = true) :
    admitsAll cls rank limit r fewer = true := by
  induction hsub generalizing w r with
  | slnil => rfl
  | cons _ _ ih =>
    obtain ⟨he, ha⟩ := admitsAll_cons.mp ha
    exact ih (h.retain_left hlimit hw.bounded) (hw.retain hlimit (admits_iff.mp he).1) hr ha
  | cons_cons _ _ ih =>
    obtain ⟨he, ha⟩ := admitsAll_cons.mp ha
    have he' := h.admits hw hr he
    exact admitsAll_cons.mpr ⟨he', ih (h.retain hlimit hw.bounded hr.bounded)
      (hw.retain hlimit (admits_iff.mp he).1) (hr.retain hlimit (admits_iff.mp he').1) ha⟩

/-- The other window may miss some of the entries. -/
theorem Covers.retainAll (hsub : fewer.Sublist entries) (hw : w.resultOrder.length ≤ limit)
    (hr : r.resultOrder.length ≤ limit) : Covers cls rank (retainAll cls rank limit w entries)
      (retainAll cls rank limit r fewer) := by
  induction hsub generalizing w r with
  | slnil => exact h
  | cons _ _ ih => exact ih (h.retain_left hlimit hw) (retain_length hlimit hw) hr
  | cons_cons _ _ ih =>
    exact ih (h.retain hlimit hw hr) (retain_length hlimit hw) (retain_length hlimit hr)

end

/-- A key that is admitted behind another one was admitted before. -/
theorem admits_of_retain (h : Coherent limit w) (hk : w.results k = none)
    (hj : admits cls rank (retain cls rank limit w k v) j = true) :
    admits cls rank w j = true :=
  ((Covers.refl w).retain_left hlimit h.bounded).admits (h.retain hlimit hk) h hj

/-! ## Entries with new keys -/

/-- The keys are distinct, and the window remembers none of them. -/
structure Fresh (w : RetryWindow κ ν γ) (entries : List (κ × ν)) : Prop where
  distinct : (entries.map Prod.fst).Nodup
  unknown : ∀ e ∈ entries, w.results e.1 = none

/-- A key that is not remembered is not remembered behind another one. -/
theorem retain_results_none (h : Coherent limit w) (hj : w.results j = none) (hjk : j ≠ k) :
    (retain cls rank limit w k v).results j = none := by
  obtain ⟨gone, rest, hs⟩ := exists_shift cls rank hlimit h.bounded k v
  simp [hs.results, hjk, hj]

lemma Fresh.tail (hw : Coherent limit w) (h : Fresh w (e :: entries)) :
    Fresh (retain cls rank limit w e.1 e.2) entries := by
  obtain ⟨hhead, htail⟩ := nodup_cons.mp h.distinct
  refine ⟨htail, fun x hx => retain_results_none hlimit hw (h.unknown x (.tail _ hx)) ?_⟩
  rintro heq
  exact hhead (heq ▸ mem_map_of_mem hx)

lemma Coherent.retainAll (h : Coherent limit w) (hfresh : Fresh w entries) :
    Coherent limit (retainAll cls rank limit w entries) := by
  induction entries generalizing w with
  | nil => exact h
  | cons e _ ih =>
    exact ih (h.retain hlimit (hfresh.unknown e (.head _))) (hfresh.tail hlimit h)

/-- Every entry is remembered with its result behind the run, or has expired. -/
theorem recalled_retainAll (h : Coherent limit w) (hfresh : Fresh w entries)
    (hj : (w.results j = some u ∨ expired cls rank w j = true) ∨ (j, u) ∈ entries) :
    (retainAll cls rank limit w entries).results j = some u ∨
      expired cls rank (retainAll cls rank limit w entries) j = true := by
  induction entries generalizing w with
  | nil => exact hj.resolve_right not_mem_nil
  | cons e _ ih =>
    have hnone := hfresh.unknown e (.head _)
    refine ih (h.retain hlimit hnone) (hfresh.tail hlimit h) ?_
    rcases hj with hj | hj
    · exact .inl (recalled_retain hlimit h hnone hj)
    · rcases mem_cons.mp hj with rfl | hj
      · exact .inl (.inl (retain_results_self hlimit h hnone))
      · exact .inr hj

end

lemma evict_results (h : (evict cls rank w).results j = some u) : w.results j = some u := by
  unfold evict at h
  split at h
  · exact h
  · next oldest rest ho =>
    by_cases hj : j = oldest
    · simp [hj] at h
    · simpa [update_of_ne hj] using h

lemma mem_of_retain (h : (retain cls rank limit w k v).results j = some u) :
    w.results j = some u ∨ (j, u) = (k, v) := by
  have hback : ∀ n (w' : RetryWindow κ ν γ),
      ((evict cls rank)^[n] w').results j = some u → w'.results j = some u := by
    intro n
    induction n with
    | zero => exact fun w' h => h
    | succ _ ih => exact fun w' h => evict_results (ih _ h)
  have hkept : update w.results k (some v) j = some u := hback _ _ h
  by_cases hj : j = k
  · subst hj
    rw [update_self] at hkept
    exact .inr (by rw [some.inj hkept])
  · rw [update_of_ne hj] at hkept
    exact .inl hkept

/-- What is remembered behind the run was remembered before it or is one of its entries. -/
theorem mem_of_retainAll (hj : (retainAll cls rank limit w entries).results j = some u) :
    w.results j = some u ∨ (j, u) ∈ entries := by
  induction entries generalizing w with
  | nil => exact .inl hj
  | cons _ _ ih =>
    rcases ih hj with hj | hj
    · rcases mem_of_retain hj with hj | heq
      · exact .inl hj
      · exact .inr (heq ▸ .head _)
    · exact .inr (.tail _ hj)

section
variable (hlimit : 0 < limit) (h : Coherent limit w)
include hlimit h

/-- A key that is admitted behind a run was admitted before it. -/
theorem admits_of_retainAll (hfresh : Fresh w entries)
    (hj : admits cls rank (retainAll cls rank limit w entries) j = true) :
    admits cls rank w j = true := by
  induction entries generalizing w with
  | nil => exact hj
  | cons e _ ih =>
    have hnone := hfresh.unknown e (.head _)
    exact admits_of_retain hlimit h hnone (ih (h.retain hlimit hnone) (hfresh.tail hlimit h) hj)

/-- A run that is admitted in turn is admitted at its start. -/
theorem admits_of_admitsAll (ha : admitsAll cls rank limit w entries = true) (he : e ∈ entries) :
    admits cls rank w e.1 = true := by
  induction entries generalizing w with
  | nil => cases he
  | cons _ _ ih =>
    obtain ⟨hx, ha⟩ := admitsAll_cons.mp ha
    have hnone := (admits_iff.mp hx).1
    rcases mem_cons.mp he with rfl | he
    · exact hx
    · exact admits_of_retain hlimit h hnone (ih (h.retain hlimit hnone) ha he)

lemma Fresh.of_admitsAll (ha : admitsAll cls rank limit w entries = true) : Fresh w entries := by
  refine ⟨?_, fun e he => (admits_iff.mp (admits_of_admitsAll hlimit h ha he)).1⟩
  induction entries generalizing w with
  | nil => exact nodup_nil
  | cons _ _ ih =>
    obtain ⟨he, ha⟩ := admitsAll_cons.mp ha
    have hnone := (admits_iff.mp he).1
    refine nodup_cons.mpr ⟨fun hmem => ?_, ih (h.retain hlimit hnone) ha⟩
    obtain ⟨x, hx, hkey⟩ := mem_map.mp hmem
    have hlater := (admits_iff.mp (admits_of_admitsAll hlimit (h.retain hlimit hnone) ha hx)).1
    rw [hkey, retain_results_self hlimit h hnone] at hlater
    cases hlater

end

/-! ## Agreement -/

/-- Keys that both windows remember have the same result in both. -/
def Agrees (w r : RetryWindow κ ν γ) : Prop :=
  ∀ k, k ∈ w.resultOrder → k ∈ r.resultOrder → w.results k = r.results k

lemma mem_order_of_retain (hlimit : 0 < limit) (h : w.resultOrder.length ≤ limit)
    (hj : j ∈ (retain cls rank limit w k v).resultOrder) (hjk : j ≠ k) :
    j ∈ w.resultOrder := by
  rw [retain_order hlimit h] at hj
  exact (mem_append.mp (mem_of_mem_drop hj)).resolve_right fun hk => hjk (mem_singleton.mp hk)

lemma Agrees.retain (hlimit : 0 < limit) (h : Agrees w r) (hw : Coherent limit w)
    (hr : Coherent limit r) (hkw : w.results k = none) (hkr : r.results k = none) :
    Agrees (retain cls rank limit w k v) (retain cls rank limit r k v) := by
  intro j hjw hjr
  by_cases hjk : j = k
  · subst hjk
    rw [retain_results_self hlimit hw hkw, retain_results_self hlimit hr hkr]
  · rw [retain_results_of_mem hlimit hw hjw hjk, retain_results_of_mem hlimit hr hjr hjk]
    exact h j (mem_order_of_retain hlimit hw.bounded hjw hjk)
      (mem_order_of_retain hlimit hr.bounded hjr hjk)

lemma Agrees.retainAll (hlimit : 0 < limit) (h : Agrees w r) (hw : Coherent limit w)
    (hr : Coherent limit r) (haw : admitsAll cls rank limit w entries = true)
    (har : admitsAll cls rank limit r entries = true) : Agrees (retainAll cls rank limit w entries)
      (retainAll cls rank limit r entries) := by
  induction entries generalizing w r with
  | nil => exact h
  | cons _ _ ih =>
    obtain ⟨hew, haw⟩ := admitsAll_cons.mp haw
    obtain ⟨her, har⟩ := admitsAll_cons.mp har
    have hkw := (admits_iff.mp hew).1
    have hkr := (admits_iff.mp her).1
    exact ih (h.retain hlimit hw hr hkw hkr) (hw.retain hlimit hkw) (hr.retain hlimit hkr) haw har

omit [DecidableEq κ] [DecidableEq γ] in
/-- Windows with the same order that agree have the same results. -/
theorem Agrees.results_eq (h : Agrees w r) (hw : Coherent limit w) (hr : Coherent limit r)
    (ho : w.resultOrder = r.resultOrder) : w.results = r.results := by
  funext k
  by_cases hk : k ∈ w.resultOrder
  · exact h k hk (ho ▸ hk)
  · have hnone (u : RetryWindow κ ν γ) (hu : Coherent limit u) (hmem : k ∉ u.resultOrder) :
        u.results k = none := by
      rw [← hu.mem_iff, Bool.not_eq_true, Option.isSome_eq_false_iff] at hmem
      exact Option.isNone_iff_eq_none.mp hmem
    rw [hnone w hw hk, hnone r hr (ho ▸ hk)]

/-- A window that has taken the entries from some point on has the results of one that has
taken all of them, once its order is as long. -/
theorem results_retainAll_drop {older : List (κ × ν)} (hlimit : 0 < limit)
    (ha : admitsAll cls rank limit empty (older ++ entries) = true)
    (hlen : older = [] ∨ limit ≤ entries.length) :
    (retainAll cls rank limit empty (older ++ entries)).results
      = (retainAll cls rank limit empty entries).results := by
  rcases hlen with rfl | hlen
  · rfl
  obtain ⟨hold, hnew⟩ := admitsAll_append.mp ha
  have hw : Coherent limit (retainAll cls rank limit empty older) :=
    Coherent.empty.retainAll hlimit (.of_admitsAll hlimit .empty hold)
  have hnew' := (Covers.empty _).admitsAll hlimit hw Coherent.empty (Sublist.refl _) hnew
  have hagree : Agrees (retainAll cls rank limit empty older)
      empty := fun _ _ hk => absurd hk not_mem_nil
  rw [retainAll_append]
  refine (hagree.retainAll hlimit hw Coherent.empty hnew hnew').results_eq
    (hw.retainAll hlimit (.of_admitsAll hlimit hw hnew))
    (Coherent.empty.retainAll hlimit (.of_admitsAll hlimit .empty hnew')) ?_
  have hall : (retainAll cls rank limit
      (retainAll cls rank limit empty older) entries).resultOrder = _ :=
    retainAll_order hlimit hw.bounded
  have hrecent : (retainAll cls rank limit empty entries).resultOrder
      = (entries.map Prod.fst).drop (0 + entries.length - limit) :=
    retainAll_order hlimit (Nat.zero_le _)
  rw [hall, hrecent, drop_append, drop_eq_nil_of_le (by omega), nil_append]
  congr 1
  omega

end RetryWindow
end CrowDB.Lib
