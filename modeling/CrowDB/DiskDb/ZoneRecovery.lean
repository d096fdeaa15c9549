import CrowDB.DiskDb.ZoneLoad

/-!
# Live units after a load

Replaying a journal keeps every unit of every live record used exactly when no Put of
the journal finds its range partly used. The validation of retained media needs no
such condition.
-/
namespace CrowDB.DiskDb
open Lib BitWords ZoneBitmap
open List hiding Disjoint

variable {n : ℕ}

/-- What a load owes to the live records: their units are used, so is everything that
a full scan of them would find used, and the counter is the popcount. -/
structure KeepsLive (live : List BusyRecord) (zone : DdbZone n) : Prop where
  covers : ∀ r ∈ live, r.units ⊆ zone.usageBits.units
  contains_scan : ∀ kv records scanned stats, kv.readZoneRecords = .ok records →
    records.busy.Perm live → rebuildZoneBitmapFullScan kv n = .ok (scanned, stats) →
    scanned.usageBits.units ⊆ zone.usageBits.units
  counts : zone.usedCount = zone.usageBits.countSet

/-- The units that a replay makes of a set of used units. -/
def replayUnits (bits : Finset ℕ) (ops : List BusyOp) : Finset ℕ :=
  ops.foldl (fun bits op => match op with
    | .put r => claimAll bits r.units
    | .delete .. => bits) bits

/-- Every Put finds its range wholly used or wholly unused, given the units that were
used before and the ranges of the Puts before it. -/
def Unsplit : Finset ℕ → List BusyOp → Prop
  | _, [] => True
  | bits, .delete .. :: ops => Unsplit bits ops
  | bits, .put r :: ops => (r.units ⊆ bits ∨ Disjoint bits r.units) ∧ Unsplit (bits ∪ r.units) ops

def Unsplit.decidable : (bits : Finset ℕ) → (ops : List BusyOp) → Decidable (Unsplit bits ops)
  | _, [] => inferInstanceAs (Decidable True)
  | bits, .delete .. :: ops => Unsplit.decidable bits ops
  | bits, .put r :: ops =>
    have := Unsplit.decidable (bits ∪ r.units) ops
    inferInstanceAs (Decidable ((r.units ⊆ bits ∨ Disjoint bits r.units) ∧ _))

instance (bits : Finset ℕ) (ops : List BusyOp) : Decidable (Unsplit bits ops) :=
  Unsplit.decidable bits ops

lemma subset_replayUnits (bits : Finset ℕ) (ops : List BusyOp) : bits ⊆ replayUnits bits ops := by
  induction ops generalizing bits with
  | nil => exact subset_rfl
  | cons op _ ih =>
    cases op with
    | put => exact (subset_claimAll _ _).trans (ih _)
    | delete => exact ih bits

variable {bits : Finset ℕ} {r : BusyRecord} {live : List BusyRecord}

namespace Unsplit

variable {ops : List BusyOp}

/-- Without split ranges every Put is used afterwards. -/
theorem put_subset (h : Unsplit bits ops) (hr : .put r ∈ ops) : r.units ⊆ replayUnits bits ops := by
  induction ops generalizing bits with
  | nil => cases hr
  | cons op _ ih =>
    cases op with
    | delete => exact ih h ((mem_cons.mp hr).resolve_left nofun)
    | put =>
      have hclaim := claimAll_eq_union h.1
      simp only [replayUnits, foldl_cons, hclaim]
      rcases mem_cons.mp hr with hrx | hr
      · cases hrx
        exact Finset.subset_union_right.trans (subset_replayUnits _ _)
      · exact ih h.2 hr

lemma take (h : Unsplit bits ops) (k : ℕ) : Unsplit bits (ops.take k) := by
  induction ops generalizing bits k with
  | nil => simp [Unsplit]
  | cons op _ ih =>
    cases k with
    | zero => simp [Unsplit]
    | succ k =>
      cases op with
      | put => exact ⟨h.1, ih h.2 k⟩
      | delete => exact ih h k

/-- Without split ranges the live records stay used. -/
theorem covers (h : Unsplit bits ops) (hlive : ∀ r ∈ live, r.units ⊆ bits) :
    ∀ r ∈ BusyOp.applyAll live ops, r.units ⊆ replayUnits bits ops := by
  induction ops generalizing bits live with
  | nil => exact hlive
  | cons op _ ih =>
    cases op with
    | delete => exact ih h fun r hr => hlive r (BusyOp.mem_apply_delete hr)
    | put x =>
      have hclaim := claimAll_eq_union h.1
      have hnext : ∀ r ∈ BusyOp.apply live (.put x), r.units ⊆ bits ∪ x.units := by
        intro r hr
        rcases BusyOp.mem_apply_put hr with hr | rfl
        · exact (hlive r hr).trans Finset.subset_union_left
        · exact Finset.subset_union_right
      have hrest := ih h.2 hnext
      simp only [replayUnits, foldl_cons, hclaim]
      exact hrest

/-- A split range is not used after its Put. -/
theorem of_covers (live : List BusyRecord)
    (h : ∀ k, ∀ r ∈ BusyOp.applyAll live (ops.take k), r.units ⊆ replayUnits bits (ops.take k)) :
    Unsplit bits ops := by
  induction ops generalizing bits live with
  | nil => trivial
  | cons op _ ih =>
    have hnext := fun k => h (k + 1)
    cases op with
    | delete => exact ih _ hnext
    | put x =>
      have hx : x.units ⊆ claimAll bits x.units := by
        have hfirst := hnext 0 x
        exact hfirst (mem_append_right _ (mem_singleton_self x))
      have hside : x.units ⊆ bits ∨ Disjoint bits x.units := by
        by_cases hd : Disjoint bits x.units
        · exact .inr hd
        · rw [claimAll, if_neg hd] at hx
          exact .inl hx
      refine ⟨hside, ?_⟩
      rw [← claimAll_eq_union hside]
      exact ih _ hnext

end Unsplit

variable {C : ZoneCodec} {z : ZoneBitmap n} {offset count i : ℕ}

namespace ZoneBitmap

lemma units_markBusy (hn : n < 2 ^ 32) (z : ZoneBitmap n)
    (h : r.key.unitOffset + r.value.unitCount ≤ n) :
    (z.markBusy r).units = claimAll z.units r.units := by
  have hoff : toU32 r.key.unitOffset = r.key.unitOffset := if_pos (by omega)
  have hin : r.key.unitOffset + r.value.unitCount < 2 ^ 32 ∧
      r.key.unitOffset + r.value.unitCount ≤ n := ⟨by omega, h⟩
  rw [markBusy, hoff, if_pos hin]
  exact units_rangeSet h

/-- Whatever its range, a record adds nothing but its own units. -/
theorem units_markBusy_subset (z : ZoneBitmap n) (r : BusyRecord) :
    (z.markBusy r).units ⊆ z.units ∪ r.units := by
  simp only [markBusy]
  split
  · next hin =>
    rw [units_rangeSet hin.2]
    refine (claimAll_subset _ _).trans (Finset.union_subset_union_right ?_)
    by_cases hoff : r.key.unitOffset < 2 ^ 32
    · rw [toU32, if_pos hoff]
      exact subset_rfl
    · rw [toU32, if_neg hoff] at hin
      have hzero : r.value.unitCount = 0 := by omega
      simp [hzero]
  · exact Finset.subset_union_left

lemma units_rangeClear_subset (z : ZoneBitmap n) (h : offset + count ≤ n ∨ count = 0) :
    (z.rangeClear offset count).1.units ⊆ z.units := by
  rcases h with h | rfl
  · rw [units_rangeClear h]
    exact releaseAll_subset _ _
  · obtain ⟨_ | b⟩ := z <;> exact subset_rfl

lemma units_mergeRange (z : ZoneBitmap n) (h : offset + count ≤ n) :
    (mergeRange z offset count).units = z.units ∪ Finset.Ico offset (offset + count) := by
  induction count with
  | zero => simp [mergeRange]
  | succ count ih =>
    have hstep : mergeRange z offset (count + 1) =
        ((mergeRange z offset count).casBit (offset + count) true).1 := by
      simp only [mergeRange, range'_concat, foldl_append, foldl_cons, foldl_nil, one_mul]
    have hico : Finset.Ico offset (offset + (count + 1)) =
        insert (offset + count) (Finset.Ico offset (offset + count)) := by
      ext j
      simp only [Finset.mem_Ico, Finset.mem_insert]
      omega
    rw [hstep, units_casBit_true (by omega), ih (by omega), hico, Finset.union_insert]

/-- The counter of a bitmap inside a 32-bit geometry is exact. -/
theorem toU32_countSet (hn : n < 2 ^ 32) (hz : ∀ i ∈ z.units, i < n) :
    toU32 z.countSet = z.countSet := by
  have hcard : z.units.card ≤ n := by
    have hsub : z.units ⊆ Finset.range n := fun i hi => Finset.mem_range.mpr (hz i hi)
    simpa using Finset.card_le_card hsub
  rw [card_units] at hcard
  exact if_pos (by omega)

lemma lt_of_fromValue {v : ZoneValue} (h : fromValue C v n = some z) (hi : i ∈ z.units) :
    i < n := by
  unfold fromValue at h
  split at h
  · cases h
    simp at hi
  · obtain ⟨bytes, -, rfl⟩ := Option.map_eq_some_iff.mp h
    exact lt_of_mem_restore hi

end ZoneBitmap

variable {busy : List BusyRecord} {records : ZoneRecords} {zone : DdbZone n}

section FullScan

variable {U : Finset ℕ}

/-- A scan finds nothing used outside the ranges of the records. -/
theorem units_foldl_markBusy_subset (hz : z.units ⊆ U) (hbusy : ∀ r ∈ busy, r.units ⊆ U) :
    (busy.foldl markBusy z).units ⊆ U := by
  induction busy generalizing z with
  | nil => exact hz
  | cons r _ ih =>
    have hr := hbusy r mem_cons_self
    exact ih ((z.units_markBusy_subset r).trans (Finset.union_subset hz hr))
      fun x hx => hbusy x (mem_cons_of_mem _ hx)

lemma units_clearFree_subset (hU : ∀ i ∈ U, i < n)
    (hbusy : ∀ r ∈ busy, r.units ⊆ U) (z : ZoneBitmap n) (f : FreeRecord) :
    (clearFree busy z f).units ⊆ z.units := by
  unfold clearFree
  split
  · next hmatch =>
    obtain ⟨b, hb, -, hoff, hfrees⟩ := f.exists_busy hmatch
    have hcount := (FreeRecord.frees_spec hfrees).2.1
    apply units_rangeClear_subset
    by_cases hzero : f.value.unitCount = 0
    · exact .inr hzero
    · have hlast : f.key.unitOffset + f.value.unitCount - 1 ∈ b.units := by
        rw [BusyRecord.units, Finset.mem_Ico]
        omega
      have hlt := hU _ (hbusy b hb hlast)
      omega
  · exact subset_rfl

lemma units_fullScanBits_subset (hU : ∀ i ∈ U, i < n)
    (hbusy : ∀ r ∈ records.busy, r.units ⊆ U) : (fullScanBits n records).units ⊆ U := by
  have hmarked : (records.busy.foldl markBusy (new n)).units ⊆ U :=
    units_foldl_markBusy_subset (by simp) hbusy
  unfold fullScanBits
  generalize records.busy.foldl markBusy (new n) = z at hmarked
  induction records.free generalizing z with
  | nil => exact hmarked
  | cons f _ ih => exact ih _ ((units_clearFree_subset hU hbusy z f).trans hmarked)

/-- Disjoint records are all marked. -/
theorem subset_units_foldl_markBusy (hn : n < 2 ^ 32)
    (hin : ∀ r ∈ busy, r.key.unitOffset + r.value.unitCount ≤ n)
    (hapart : busy.Pairwise fun a b => Disjoint a.units b.units)
    (hz : ∀ r ∈ busy, Disjoint z.units r.units) :
    z.units ⊆ (busy.foldl markBusy z).units ∧
      ∀ r ∈ busy, r.units ⊆ (busy.foldl markBusy z).units := by
  induction busy generalizing z with
  | nil => exact ⟨subset_rfl, by simp⟩
  | cons x busy ih =>
    rw [pairwise_cons] at hapart
    have hx := z.units_markBusy hn (hin x mem_cons_self)
    rw [claimAll_eq_union (.inr (hz x mem_cons_self))] at hx
    have hrest : ∀ r ∈ busy, Disjoint (z.markBusy x).units r.units := by
      intro r hr
      rw [hx, Finset.disjoint_union_left]
      exact ⟨hz r (mem_cons_of_mem _ hr), hapart.1 r hr⟩
    obtain ⟨hsub, hall⟩ := ih (fun r hr => hin r (mem_cons_of_mem _ hr)) hapart.2 hrest
    rw [hx] at hsub
    exact ⟨Finset.subset_union_left.trans hsub,
      forall_mem_cons.mpr ⟨Finset.subset_union_right.trans hsub, hall⟩⟩

lemma foldl_clearFree_of_none {free : List FreeRecord} (h : ∀ f ∈ free, f.hasBusy busy = false)
    (z : ZoneBitmap n) : free.foldl (clearFree busy) z = z := by
  induction free with
  | nil => rfl
  | cons f _ ih =>
    have hkeep : clearFree busy z f = z := by simp [clearFree, h f mem_cons_self]
    rw [foldl_cons, hkeep]
    exact ih fun x hx => h x (mem_cons_of_mem _ hx)

/-- Disjoint records are all used after a scan that finds no free fact to act on. -/
theorem subset_units_fullScanBits (hn : n < 2 ^ 32)
    (hin : ∀ r ∈ records.busy, r.key.unitOffset + r.value.unitCount ≤ n)
    (hapart : records.busy.Pairwise fun a b => Disjoint a.units b.units)
    (hfree : ∀ f ∈ records.free, f.hasBusy records.busy = false) :
    ∀ r ∈ records.busy, r.units ⊆ (fullScanBits n records).units := by
  rw [fullScanBits, foldl_clearFree_of_none hfree]
  exact (subset_units_foldl_markBusy hn hin hapart (by simp)).2

/-- A zone that covers its live records keeps all that a load owes to them. -/
theorem KeepsLive.of_covers (hn : n < 2 ^ 32) (hin : ∀ i ∈ zone.usageBits.units, i < n)
    (hcovers : ∀ r ∈ live, r.units ⊆ zone.usageBits.units)
    (hcount : zone.usedCount = toU32 zone.usageBits.countSet) : KeepsLive live zone where
  covers := hcovers
  contains_scan := by
    intro kv records scanned stats hrec hperm hscan
    simp only [rebuildZoneBitmapFullScan, hrec] at hscan
    cases hscan
    exact units_fullScanBits_subset hin fun r hr => hcovers r (hperm.mem_iff.mp hr)
  counts := hcount.trans (toU32_countSet hn hin)

end FullScan

variable {snapshot : Option ZoneValue} {base : SnapshotBase n}

section JournalReplay

lemma lt_of_snapshotBase (h : snapshotBase C n snapshot = .ok base)
    (hi : i ∈ base.usageBits.units) : i < n := by
  cases snapshot with
  | none =>
    cases h
    simp at hi
  | some =>
    simp only [snapshotBase] at h
    split at h
    · split at h
      · next hbits =>
        cases h
        exact lt_of_fromValue hbits hi
      · cases h
    · cases h

variable {ops : List BusyOp} (hops : ∀ r, .put r ∈ ops → r.key.unitOffset + r.value.unitCount ≤ n)
include hops

lemma units_foldl_replayOp (hn : n < 2 ^ 32) (z : ZoneBitmap n) :
    (ops.foldl replayOp z).units = replayUnits z.units ops := by
  induction ops generalizing z with
  | nil => rfl
  | cons op _ ih =>
    have hrest := ih fun r hr => hops r (mem_cons_of_mem _ hr)
    cases op with
    | delete => exact hrest z
    | put r =>
      have hmark := z.units_markBusy hn (hops r mem_cons_self)
      simp only [foldl_cons, replayUnits, ← hmark]
      exact hrest (z.markBusy r)

lemma lt_of_mem_replayUnits (hbits : ∀ i ∈ bits, i < n) : ∀ i ∈ replayUnits bits ops, i < n := by
  induction ops generalizing bits with
  | nil => exact hbits
  | cons op ops ih =>
    have hrest : ∀ r, .put r ∈ ops → r.key.unitOffset + r.value.unitCount ≤ n :=
      fun r hr => hops r (mem_cons_of_mem _ hr)
    cases op with
    | delete => exact ih hrest hbits
    | put r =>
      apply ih hrest
      intro i hi
      rcases Finset.mem_union.mp (claimAll_subset _ _ hi) with hi | hi
      · exact hbits i hi
      · have hr := hops r mem_cons_self
        have hlt := (Finset.mem_Ico.mp hi).2
        omega

omit hops

/-- What a successful load returns. -/
theorem loadZoneInner_ok {kv : ZoneKv} {ts : ℕ} {found : Bool}
    (hvalue : kv.getZoneValue = .ok snapshot) (hbase : snapshotBase C n snapshot = .ok base)
    (hscan : kv.journalScanBusy (base.snapshotSlot + 1) = .ok ops)
    (h : loadZoneInner C kv n = .ok (zone, ts, found)) :
    zone.usageBits = ops.foldl replayOp base.usageBits ∧
      zone.usedCount = toU32 zone.usageBits.countSet := by
  simp only [loadZoneInner, hvalue, bind, Except.bind, hbase, hscan] at h
  cases hfree : kv.journalScanFree (base.snapshotSlot + 1) with
  | error => simp [hfree] at h
  | ok =>
    simp only [hfree, pure, Except.pure, Except.ok.injEq, Prod.mk.injEq] at h
    rw [← h.1]
    exact ⟨rfl, rfl⟩

end JournalReplay

section Retained

lemma checkedRange_ok {o : ℕ} (h : checkedRange offset count n = .ok o) :
    o = offset ∧ offset + count ≤ n := by
  unfold checkedRange at h
  split at h
  · cases h
  · next hr =>
    split at h
    · cases h
      exact ⟨rfl, by omega⟩
    · cases h

variable {disk : DiskId} {zoneIndex unitSize cutoff : ℕ}

lemma retainBusy_ok {s s' : RetainedState n}
    (h : retainBusy disk zoneIndex n unitSize cutoff s r = .ok s') :
    r.key.unitOffset + r.value.unitCount ≤ n ∧
      s'.usageBits = mergeRange s.usageBits r.key.unitOffset r.value.unitCount := by
  simp only [retainBusy, bind, Except.bind] at h
  cases hr : checkedRange r.key.unitOffset r.value.unitCount n with
  | error => simp [hr] at h
  | ok =>
    obtain ⟨rfl, hle⟩ := checkedRange_ok hr
    simp only [hr] at h
    split at h
    · cases h
    · cases h
      exact ⟨hle, rfl⟩

lemma foldlM_retainBusy_ok {s s' : RetainedState n}
    (h : busy.foldlM (retainBusy disk zoneIndex n unitSize cutoff) s = .ok s') :
    s.usageBits.units ⊆ s'.usageBits.units ∧ (∀ r ∈ busy, r.units ⊆ s'.usageBits.units) ∧
      ((∀ i ∈ s.usageBits.units, i < n) → ∀ i ∈ s'.usageBits.units, i < n) := by
  induction busy generalizing s with
  | nil =>
    cases h
    exact ⟨subset_rfl, by simp, id⟩
  | cons r _ ih =>
    simp only [foldlM_cons, bind, Except.bind] at h
    cases hr : retainBusy disk zoneIndex n unitSize cutoff s r with
    | error => simp [hr] at h
    | ok m =>
      obtain ⟨hle, hm⟩ := retainBusy_ok hr
      have hunits : m.usageBits.units = s.usageBits.units ∪ r.units := by
        rw [hm, units_mergeRange _ hle, BusyRecord.units]
      obtain ⟨hsub, hall, hlt⟩ := ih (by simpa [hr] using h)
      rw [hunits] at hsub hlt
      refine ⟨Finset.subset_union_left.trans hsub,
        forall_mem_cons.mpr ⟨Finset.subset_union_right.trans hsub, hall⟩,
        fun hs => hlt fun i hi => ?_⟩
      · rcases Finset.mem_union.mp hi with hi | hi
        · exact hs i hi
        · have hi := (Finset.mem_Ico.mp hi).2
          omega

lemma lt_of_retainedBase (h : retainedBase n unitSize cutoff C records = .ok zone)
    (hi : i ∈ zone.usageBits.units) : i < n := by
  unfold retainedBase at h
  split at h
  · cases h
  split at h
  · cases h
  split at h
  · cases h
  split at h
  · cases h
  next bits hbits =>
    cases h
    split at hbits
    · exact lt_of_fromValue hbits hi
    · cases hbits

/-- An accepted retained zone keeps its live records, whatever its snapshot has set. -/
theorem keepsLive_of_retained (hn : n < 2 ^ 32) {ts : ℕ}
    (h : validateRetainedZone disk zoneIndex n unitSize cutoff C records = .ok (zone, ts)) :
    KeepsLive records.busy zone := by
  simp only [validateRetainedZone, bind, Except.bind] at h
  cases hbase : retainedBase n unitSize cutoff C records with
  | error => simp [hbase] at h
  | ok base =>
    simp only [hbase] at h
    generalize hsort : records.busy.insertionSort
      (fun a b => a.key.unitOffset ≤ b.key.unitOffset) = sorted at h
    cases hbusy : sorted.foldlM (retainBusy disk zoneIndex n unitSize cutoff)
        ⟨base.usageBits, 0, base.compactTs⟩ with
    | error => simp [hbusy] at h
    | ok merged =>
      simp only [hbusy] at h
      cases hfree : records.free.foldlM (retainFree disk zoneIndex n cutoff)
          merged.maxTimestamp with
      | error => simp [hfree] at h
      | ok =>
        simp only [hfree] at h
        obtain ⟨-, hall, hlt⟩ := foldlM_retainBusy_ok hbusy
        have hperm := hsort ▸ perm_insertionSort _ records.busy
        split at h
        · cases h
        split at h
        · cases h
        · cases h
          exact KeepsLive.of_covers hn (hlt fun i => lt_of_retainedBase hbase)
            (fun r hr => hall r (hperm.mem_iff.mpr hr)) rfl

end Retained

/-- Every load, of any prefix of the journal, keeps the live records exactly when no Put
finds its range partly used; the validation of retained media always does. -/
theorem zone_load_keeps_live_iff (C : ZoneCodec) (hn : n < 2 ^ 32) {snapshot : Option ZoneValue}
    {base : SnapshotBase n} (hbase : snapshotBase C n snapshot = .ok base)
    {live : List BusyRecord} (hlive : ∀ r ∈ live, r.units ⊆ base.usageBits.units)
    {ops : List BusyOp} (hops : ∀ r, .put r ∈ ops → r.key.unitOffset + r.value.unitCount ≤ n) :
    ((∀ k kv zone ts found, kv.getZoneValue = .ok snapshot →
        kv.journalScanBusy (base.snapshotSlot + 1) = .ok (ops.take k) →
        loadZoneInner C kv n = .ok (zone, ts, found) →
        KeepsLive (BusyOp.applyAll live (ops.take k)) zone) ∧
      (∀ disk zoneIndex unitSize cutoff records (zone : DdbZone n) ts,
        validateRetainedZone disk zoneIndex n unitSize cutoff C records = .ok (zone, ts) →
        KeepsLive records.busy zone)) ↔
    Unsplit base.usageBits.units ops := by
  have htake : ∀ k r, .put r ∈ ops.take k → r.key.unitOffset + r.value.unitCount ≤ n :=
    fun k r hr => hops r (mem_of_mem_take hr)
  constructor
  · intro h
    apply Unsplit.of_covers live
    intro k
    -- a journal whose scan stops after `k` entries and has no free facts
    let kv : ZoneKv :=
      { getZoneValue := .ok snapshot
        journalScanBusy := fun _ => .ok (ops.take k)
        journalScanFree := fun _ => .ok []
        readZoneRecords := .error .kv
        getAppliedSlot := none }
    obtain ⟨⟨zone, ts, found⟩, hload⟩ : ∃ res, loadZoneInner C kv n = .ok res := by
      simp only [loadZoneInner, kv, bind, Except.bind, hbase]
      exact ⟨_, rfl⟩
    have hcov := (h.1 k kv zone ts found rfl rfl hload).covers
    rwa [(loadZoneInner_ok rfl hbase rfl hload).1, units_foldl_replayOp (htake k) hn] at hcov
  · intro h
    refine ⟨fun k kv zone ts found hvalue hscan hload => ?_,
      fun disk zoneIndex unitSize cutoff records zone ts => keepsLive_of_retained hn⟩
    obtain ⟨hbits, hcount⟩ := loadZoneInner_ok hvalue hbase hscan hload
    have hunits : zone.usageBits.units = replayUnits base.usageBits.units (ops.take k) := by
      rw [hbits, units_foldl_replayOp (htake k) hn]
    apply KeepsLive.of_covers hn _ _ hcount
    · rw [hunits]
      exact lt_of_mem_replayUnits (htake k) fun i => lt_of_snapshotBase hbase
    · rw [hunits]
      exact (h.take k).covers hlive

section Examples

/-- A codec without compression, for zones of one word. -/
def plainCodec : ZoneCodec :=
  { crc32 := fun _ => 0
    decompressSizePrepended := fun bytes => some (bytes.drop 4) }

def firstDisk : DiskId := ⟨0, 1⟩

def rangeRecord (offset count slot : ℕ) : BusyRecord :=
  { key := ⟨firstDisk, 0, offset⟩
    value :=
      { unitCount := count
        ownerChunk := none
        unitSize := 4096
        state := BlockState.ok.toI32
        commitState := CommitState.committed.toI32
        allocationTs := slot }
    commitSlot := slot }

/-- A snapshot at slot 5 with units 0 and 1 used. -/
def twoUnitsUsed : ZoneValue :=
  { bitmapCodec := 1
    usageBitmap := [8, 0, 0, 0, 3, 0, 0, 0, 0, 0, 0, 0]
    snapshotSlot := 5
    crc32 := 0
    compactTs := 0
    compactSlot := 5 }

/-- A journal of whole ranges: one that the snapshot has, a new one, and its retry. -/
def wholeRanges : List BusyOp :=
  [.put (rangeRecord 0 2 6), .put (rangeRecord 2 3 7), .put (rangeRecord 2 3 8)]

def twoUnitsBase : SnapshotBase 64 :=
  { usageBits := ⟨some (.restoreForBlockCount [3, 0, 0, 0, 0, 0, 0, 0] 64)⟩
    snapshotSlot := 5
    compactSlot := 5
    found := true }

lemma twoUnitsBase_units : twoUnitsBase.usageBits.units = {0, 1} := by decide +kernel

theorem zone_load_keeps_live_whole_ranges : Unsplit {0, 1} wholeRanges ∧
      ∀ k kv (zone : DdbZone 64) ts found, kv.getZoneValue = .ok (some twoUnitsUsed) →
        kv.journalScanBusy 6 = .ok (wholeRanges.take k) →
        loadZoneInner plainCodec kv 64 = .ok (zone, ts, found) →
        KeepsLive (BusyOp.applyAll [rangeRecord 0 2 4] (wholeRanges.take k)) zone := by
  have hsplit : Unsplit {0, 1} wholeRanges := by decide
  have hlive : ∀ r ∈ [rangeRecord 0 2 4], r.units ⊆ twoUnitsBase.usageBits.units := by
    decide
  have hops : ∀ r, .put r ∈ wholeRanges → r.key.unitOffset + r.value.unitCount ≤ 64 := by
    intro r hr
    simp only [wholeRanges, mem_cons, BusyOp.put.injEq, not_mem_nil, or_false] at hr
    rcases hr with rfl | rfl | rfl <;> decide
  have hbase : snapshotBase plainCodec 64 (some twoUnitsUsed) = .ok twoUnitsBase := rfl
  exact ⟨hsplit, ((zone_load_keeps_live_iff plainCodec (by decide) hbase hlive hops).mpr
    (twoUnitsBase_units ▸ hsplit)).1⟩

/-- A range of one unit is allocated, freed and consolidated; then a range over it and
its neighbour is allocated. -/
def grownRange : List BusyOp :=
  [.put (rangeRecord 5 1 1), .delete ⟨firstDisk, 0, 5⟩ 2, .put (rangeRecord 4 2 3)]

def grownRangeKv : ZoneKv :=
  { getZoneValue := .ok none
    journalScanBusy := fun _ => .ok grownRange
    journalScanFree := fun _ => .ok []
    readZoneRecords := .error .kv
    getAppliedSlot := none }

/-- The loaded zone has a unit of the live record free. -/
theorem live_unit_free_after_load : BusyOp.applyAll [] grownRange = [rangeRecord 4 2 3] ∧
      4 ∈ (rangeRecord 4 2 3).units ∧
      ∃ zone : DdbZone 64, loadZoneInner plainCodec grownRangeKv 64 = .ok (zone, 3, false) ∧
        4 ∉ zone.usageBits.units := by
  refine ⟨by decide, by decide, _, rfl, ?_⟩
  decide

end Examples
end CrowDB.DiskDb
