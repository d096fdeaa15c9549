import CrowDB.DiskDb.ZoneWrites

/-!
# Runs of a zone

The phases of a compaction and the loads keep what a working zone keeps, given that a load
meets no split range and no free fact that it would act on. With the writes of the zone this
makes an invariant of every run: the segments that are out are disjoint, and no incarnation loses
its record but by the consolidation of its own free.
-/
namespace CrowDB.DiskDb
open Lib BitWords ZoneState ZoneMemory
open List hiding Disjoint

variable {v : Snapshot}

section Steps
variable {cfg : ZoneConfig} {s t : ZoneState} {m : ZoneMemory} {k : ℕ} {a : ZoneAction}

variable {requested : List Segment} {bits : Finset ℕ}

section Compact

/-- A phase of the compaction that holds no bits. -/
theorem ZoneInv.setCompaction (h : ZoneInv cfg s) (hm : s.memory = some m) (c : Compaction)
    (hheld : c.held = []) (hok : ∀ lost, MemoryOk cfg s.store s.freeRequested m lost →
      c.Ok cfg s.store s.freeRequested lost) :
    ZoneStep cfg s a (s.setMemory { m with compaction := c }) := by
  obtain ⟨lost, hmem⟩ := h.memory m hm
  refine ⟨h.setMemory (hmem.setCompaction (.keep subset_rfl ?_) (hok lost hmem) rfl rfl id rfl rfl),
    fun _ => .frame hm rfl⟩
  rw [hheld]
  exact nil_subperm

lemma ZoneInv.scanFree (h : ZoneInv cfg s) (hm : s.memory = some m)
    (ht : s.scanFree m = some t) : ZoneStep cfg s a t := by
  unfold ZoneState.scanFree at ht
  split at ht
  · cases ht
    refine h.setCompaction hm _ rfl fun _ _ => ⟨le_rfl, h.store.free_nodup, fun f hf => ?_⟩
    exact ⟨h.store.free_keyed f hf, h.ledger.requested f hf⟩
  · cases ht

variable {st : ZoneStore}

/-- The plan is about records that are there, one for each matched fact. -/
theorem planOk_plan (hst : BusyOk cfg st.busy) {free : List FreeRecord} {cutoff : ℕ}
    (hcut : cutoff ≤ st.slot) (hnodup : (free.map FreeRecord.key).Nodup)
    (hfree : ∀ f ∈ free, f.key = cfg.freeKey f.segment ∧ f.segment ∈ requested) :
    PlanOk cfg st requested
      (Compaction.plan (st.busy.filter fun r => r.commitSlot ≤ cutoff) free cutoff) := by
  set busy := st.busy.filter fun r => r.commitSlot ≤ cutoff with hbusy
  have hmem : ∀ f ∈ matchingFreeRecords busy free cutoff, f ∈ free ∧
      ∃ b ∈ st.busy, busyByOffset busy f.key.unitOffset = some b ∧ b.segment = f.segment ∧
        b.key = cfg.busyKey f.key.unitOffset := by
    intro f hf
    obtain ⟨hf, hmatch⟩ := mem_filter.mp hf
    simp only [Bool.and_eq_true] at hmatch
    obtain ⟨b, hb, hat, hoff, hfrees⟩ := f.exists_busy hmatch.2
    have hb := mem_of_mem_filter hb
    obtain ⟨hts, hcount, howner⟩ := FreeRecord.frees_spec hfrees
    refine ⟨hf, b, hb, hat, ?_, hoff ▸ hst.keyed b hb⟩
    simp [BusyRecord.segment, FreeRecord.segment, hoff, hcount, howner, hts]
  refine ⟨hcut, ?_, fun f hf => ?_, ?_, fun f hf => (hfree f (hmem f hf).1).2⟩
  · have hmap : ∀ l : List FreeRecord, (∀ f ∈ l, ∃ b ∈ st.busy,
        busyByOffset busy f.key.unitOffset = some b ∧ b.segment = f.segment ∧
          b.key = cfg.busyKey f.key.unitOffset) →
        l.filterMap (fun f => (busyByOffset busy f.key.unitOffset).map BusyRecord.key) =
          l.map fun f => cfg.busyKey f.key.unitOffset := by
      intro l
      induction l with
      | nil => simp
      | cons f _ ih =>
        intro hl
        obtain ⟨b, -, hat, -, hkey⟩ := hl f mem_cons_self
        simp [hat, hkey, ih fun x hx => hl x (mem_cons_of_mem _ hx)]
    exact hmap _ fun f hf => (hmem f hf).2
  · obtain ⟨-, b, hb, -, hseg, -⟩ := hmem f hf
    exact ⟨b, hb, hseg⟩
  · have hsub : (matchingFreeRecords busy free cutoff).Nodup :=
      (Nodup.of_map _ hnodup).filter _
    refine hsub.map_on fun f hf g hg hoff => ?_
    -- facts of one offset are matched with one record, so their keys agree
    obtain ⟨hf, b, -, hat, hseg, -⟩ := hmem f hf
    obtain ⟨hg, b', -, hat', hseg', -⟩ := hmem g hg
    rw [hoff, hat'] at hat
    cases hat
    apply inj_on_of_nodup_map hnodup hf hg
    rw [(hfree f hf).1, (hfree g hg).1, ← hseg, ← hseg']

lemma ZoneInv.scanBusy (h : ZoneInv cfg s) (hm : s.memory = some m)
    (ht : s.scanBusy m = some t) : ZoneStep cfg s a t := by
  unfold ZoneState.scanBusy at ht
  split at ht
  · next free cutoff hscan =>
    cases ht
    split
    · exact h.setCompaction hm _ rfl fun _ _ => trivial
    · refine h.setCompaction hm _ rfl fun lost hok => ?_
      have hcomp := hok.compaction
      rw [hscan] at hcomp
      obtain ⟨hcut, hnodup, hfree⟩ := hcomp
      exact ⟨planOk_plan h.store.busy hcut hnodup hfree, fun r hr hslot u hu hw => by omega⟩
  · cases ht

lemma ZoneInv.copyWord (h : ZoneInv cfg s) (hm : s.memory = some m)
    (ht : s.copyWord cfg m = some t) : ZoneStep cfg s a t := by
  unfold ZoneState.copyWord at ht
  split at ht
  · next plan word bits hcopy =>
    split at ht
    · cases ht
      refine h.setCompaction hm _ rfl fun lost hok => ?_
      have hcomp := hok.compaction
      rw [hcopy] at hcomp
      refine ⟨hcomp.1, fun r hr hslot u hu hw => ?_⟩
      by_cases hold : u / 64 < word
      · exact (hcomp.2 r hr hslot u hu hold).imp_left (Finset.mem_union_left _)
      · have hword : u / 64 = word := by omega
        exact (hok.covers r hr u hu).imp_left fun hub =>
          Finset.mem_union_right _ (Finset.mem_filter.mpr ⟨hub, hword⟩)
    · cases ht
  · cases ht

/-- The range that a matched fact clears is that of its record. -/
theorem range_bits_of_segment {busy : List BusyRecord} (hst : BusyOk cfg busy) {r : BusyRecord}
    (hr : r ∈ busy) {f : FreeRecord} (hseg : r.segment = f.segment) : f.range.bits = r.bits := by
  have hoff : r.key.unitOffset = f.key.unitOffset := congrArg Segment.unitOffset hseg
  have hcount : r.value.unitCount = f.value.unitCount := congrArg Segment.unitCount hseg
  have hlt : f.key.unitOffset < 2 ^ 32 := by
    have hsize := (hst.sized r hr).2
    have hcap := cfg.unitCapacity_lt
    omega
  rw [FreeRecord.range, AllocatedRange.bits, BusyRecord.bits, hoff, hcount, Nat.mod_eq_of_lt hlt]

variable {plan : CompactionPlan}

section
variable (hp : PlanOk cfg st requested plan) (hst : BusyOk cfg st.busy)
include hp hst

/-- The record that a matched fact deletes. -/
theorem PlanOk.record {f : FreeRecord} (hf : f ∈ plan.matched) :
    ∃ r ∈ st.busy, f.range.bits = r.bits ∧ r.key ∈ plan.busyKeys ∧
      r.key.unitOffset = f.key.unitOffset := by
  obtain ⟨r, hr, hseg⟩ := hp.present f hf
  have hoff : r.key.unitOffset = f.key.unitOffset := congrArg Segment.unitOffset hseg
  refine ⟨r, hr, range_bits_of_segment hst hr hseg, ?_, hoff⟩
  rw [hp.keys, hst.keyed r hr, hoff]
  exact mem_map_of_mem hf

/-- A plan deletes the records of the incarnations it consolidates. -/
theorem PlanOk.mem_busyKeys {r : BusyRecord} (hr : r ∈ st.busy) :
    r.key ∈ plan.busyKeys ↔ r.segment ∈ plan.matched.map FreeRecord.segment := by
  constructor
  · intro hkey
    obtain ⟨f, hf, x, hx, hseg, hoff⟩ := hp.of_key hkey
    rw [hst.eq_of_offset hx hr hoff] at hseg
    exact hseg ▸ mem_map_of_mem hf
  · intro hseg
    obtain ⟨f, hf, hseg⟩ := mem_map.mp hseg
    obtain ⟨x, hx, -, hkey, hoff⟩ := hp.record hst hf
    have hxr : x = r := hst.eq_of_offset hx hr (hoff.trans (congrArg Segment.unitOffset hseg))
    exact hxr ▸ hkey

end

/-- Clearing matched ranges keeps every other bit of the copy. -/
theorem CompactionPlan.mem_clear {u : ℕ} (hu : u ∈ bits)
    (h : ∀ f ∈ plan.matched, u ∉ f.range.bits) : u ∈ plan.clear bits := by
  unfold clear
  generalize plan.matched = matched at h
  induction matched generalizing bits with
  | nil => exact hu
  | cons f _ ih =>
    refine ih ?_ fun x hx => h x (mem_cons_of_mem _ hx)
    change u ∈ releaseAll bits f.range.bits.toFinset
    unfold releaseAll
    split
    · exact Finset.mem_sdiff.mpr ⟨hu, fun hf => h f mem_cons_self (mem_toFinset.mp hf)⟩
    · exact hu

section
variable (h : ZoneInv cfg s) (hm : s.memory = some m)
include h hm

lemma ZoneInv.prepare (ht : s.prepare cfg m = some t) : ZoneStep cfg s a t := by
  unfold ZoneState.prepare at ht
  split at ht
  · next plan word bits hcopy =>
    split at ht
    · next hword =>
      cases ht
      refine h.setCompaction hm _ rfl fun lost hok => ?_
      have hcomp := hok.compaction
      rw [hcopy] at hcomp
      refine ⟨hcomp.1, fun r hr hslot hkey u hu => ?_⟩
      have hlast : u / 64 < word := by
        have hsize := (h.store.busy.sized r hr).2
        have hmem := mem_range'_1.mp hu
        rw [hword, ZoneConfig.wordCount]
        omega
      refine (hcomp.2 r hr hslot u hu hlast).imp_left fun hub => CompactionPlan.mem_clear hub ?_
      intro f hf huf
      obtain ⟨x, hx, hbits, hxkey, -⟩ := hcomp.1.record h.store.busy hf
      have hxr : x = r := eq_of_mem_flatMap h.store.busy.apart hx hr (hbits ▸ huf) hu
      exact hkey (hxr ▸ hxkey)
    · cases ht
  · cases ht

lemma ZoneInv.admitCompaction (ht : s.admitCompaction m = some t) : ZoneStep cfg s a t := by
  unfold ZoneState.admitCompaction at ht
  split at ht
  · next plan bits hprep =>
    cases ht
    split
    · exact h.setCompaction hm _ rfl fun _ _ => trivial
    · next hgate =>
      refine h.setCompaction hm _ rfl fun lost hok => ?_
      have hcomp := hok.compaction
      rw [hprep] at hcomp
      have hlost : lost = ∅ := hok.gate.resolve_right hgate
      refine ⟨hcomp.1, fun r hr hslot hkey u hu => ?_, fun r hr hkey u hu => ?_⟩
      · simpa [hlost] using hcomp.2 r hr hslot hkey u hu
      · simp [hlost]
  · cases ht

lemma ZoneInv.publish (ht : s.publish m = some t) : ZoneStep cfg s a t := by
  obtain ⟨lost, hok⟩ := h.memory m hm
  unfold ZoneState.publish at ht
  split at ht
  · next plan sweep hpub =>
    have hheld : m.compaction.held = sweep.held := by rw [hpub]; rfl
    cases ht
    split
    · next bits sweep' hstep =>
      exact ⟨h.setMemory (hok.setCompaction (c := .publishing plan sweep')
        (hheld ▸ Sweep.step_move hstep) trivial rfl rfl id rfl rfl), fun _ => .frame hm rfl⟩
    · exact ⟨h.setMemory (hok.setCompaction (c := .idle) (.keep subset_rfl nil_subperm) trivial
        rfl rfl id rfl rfl), fun _ => .frame hm rfl⟩
  · cases ht

end

/-- The ranges of a plan are those of different records. -/
theorem PlanOk.nodup_ranges (hp : PlanOk cfg st requested plan) (hst : BusyOk cfg st.busy) :
    (plan.matched.flatMap fun f => f.range.bits).Nodup := by
  rw [nodup_flatMap]
  refine ⟨fun f _ => nodup_range', ?_⟩
  refine (pairwise_map.mp hp.nodup).imp_of_mem fun {f g} hf hg hne u huf hug => hne ?_
  obtain ⟨x, hx, hxbits, -, hxoff⟩ := hp.record hst hf
  obtain ⟨y, hy, hybits, -, hyoff⟩ := hp.record hst hg
  change u ∈ f.range.bits at huf
  change u ∈ g.range.bits at hug
  rw [hxbits] at huf
  rw [hybits] at hug
  rw [← hxoff, ← hyoff, eq_of_mem_flatMap hst.apart hx hy huf hug]

lemma ZoneStore.busy_compactZoneBatch (st : ZoneStore) (v : Snapshot)
    (busyKeys : List BusyBlockKey) (freeKeys : List FreeBlockKey) :
    (st.compactZoneBatch v busyKeys freeKeys).busy = st.busy.filter fun r => r.key ∉ busyKeys :=
  BusyOp.applyAll_delete st.busy busyKeys (st.slot + 1)

lemma StoreOk.compactZoneBatch (h : StoreOk cfg st) {busyKeys : List BusyBlockKey}
    (freeKeys : List FreeBlockKey) (hslot : v.snapshotSlot ≤ st.slot)
    (hbits : ∀ r ∈ st.busy, r.commitSlot ≤ v.snapshotSlot → r.key ∉ busyKeys →
      ∀ u ∈ r.bits, u ∈ v.bits) :
    StoreOk cfg (st.compactZoneBatch v busyKeys freeKeys) := by
  have hlog : StoreOk cfg (st.log (busyKeys.map fun key => .delete key (st.slot + 1))) := by
    refine h.log ?_ fun r hr => ?_
    · rw [BusyOp.applyAll_delete]
      exact h.busy.filter _
    · simp at hr
  refine
    { hlog with
      snapshot := hslot.trans (Nat.le_succ _)
      covered := fun r hr hle u hu => ?_
      free_keyed := fun f hf => h.free_keyed f (mem_of_mem_filter hf)
      free_nodup := h.free_nodup.sublist (filter_sublist.map _) }
  rw [ZoneStore.busy_compactZoneBatch, mem_filter] at hr
  exact hbits r hr.1 hle (by simpa using hr.2) u (BusyRecord.mem_bits.mpr hu)

/-- After the batch the compaction holds the bits of the records it has deleted. -/
theorem MemoryOk.compacted {lost : Finset ℕ} (h : MemoryOk cfg st requested m lost)
    (hst : BusyOk cfg st.busy) (hcomp : m.compaction = .admitted plan bits) {next : Compaction}
    (hnext : next.held.Sublist (plan.matched.flatMap fun f => f.range.bits))
    (hok : ∀ st, next.Ok cfg st requested lost) (o : WriteOutcome) :
    MemoryOk cfg (st.compactZoneBatch v plan.busyKeys plan.freeKeys) requested
      (({ m with compaction := next }).settle o) lost := by
  have hplan := h.compaction
  rw [hcomp] at hplan
  obtain ⟨hp, -, hkept⟩ := hplan
  have hold : ∀ r ∈ (st.compactZoneBatch v plan.busyKeys plan.freeKeys).busy,
      r ∈ st.busy ∧ r.key ∉ plan.busyKeys := by
    intro r hr
    rw [ZoneStore.busy_compactZoneBatch, mem_filter] at hr
    exact ⟨hr.1, by simpa using hr.2⟩
  have halloc : Holds m.bits (m.allocs.flatMap AllocCall.held) := by
    have hempty : m.compaction.held = [] := by rw [hcomp]; rfl
    have hall := h.holds
    rwa [held, hempty, append_nil] at hall
  have hheld : ∀ u ∈ m.allocs.flatMap AllocCall.held, u ∈ m.held := fun u => mem_append_left _
  have hrange : ∀ u ∈ next.held, ∃ r ∈ st.busy, r.key ∈ plan.busyKeys ∧ u ∈ r.bits := by
    intro u hu
    obtain ⟨f, hf, huf⟩ := mem_flatMap.mp (hnext.subset hu)
    obtain ⟨r, hr, hbits, hkey, -⟩ := hp.record hst hf
    exact ⟨r, hr, hkey, hbits ▸ huf⟩
  refine
    { gate := h.gate.imp_right (gate_settle o)
      covers := fun r hr => h.covers r (hold r hr).1
      holds := ⟨?_, fun u hu => ?_⟩
      held_free := fun u hu r hr hur => ?_
      admitted_free := fun u hu r hr => h.admitted_free u hu r (hold r hr).1
      allocs := h.allocs
      marks := fun c hc v revision hread => ?_
      frees := h.frees
      compaction := hok _ }
  · refine nodup_append.mpr ⟨halloc.nodup, (hp.nodup_ranges hst).sublist hnext, ?_⟩
    rintro u hu _ hv rfl
    obtain ⟨r, hr, hkey, hur⟩ := hrange u hv
    exact hkept r hr hkey u hur (h.held_free u (hheld u hu) r hr hur)
  · rcases mem_append.mp hu with hu | hu
    · exact halloc.taken u hu
    · obtain ⟨r, hr, hkey, hur⟩ := hrange u hu
      exact (h.covers r hr u hur).resolve_right (hkept r hr hkey u hur)
  · obtain ⟨hr, hnot⟩ := hold r hr
    rcases mem_append.mp hu with hu | hu
    · exact h.held_free u (hheld u hu) r hr hur
    · obtain ⟨x, hx, hkey, hux⟩ := hrange u hu
      rw [eq_of_mem_flatMap hst.apart hx hr hux hur] at hkey
      exact absurd hkey hnot
  · obtain ⟨hseg, hle, hsame⟩ := h.marks c hc v revision hread
    exact ⟨hseg, hle.trans (Nat.le_succ _), fun r hr => hsame r (hold r hr).1⟩

/-- The batch of a compaction deletes the records of the incarnations it consolidates. -/
theorem PlanOk.effect (hp : PlanOk cfg s.store s.freeRequested plan) (hst : BusyOk cfg s.store.busy)
    (hm : s.memory = some m) {m' : ZoneMemory} (hallocs : m'.allocs = m.allocs) :
    ZoneEffect s (plan.matched.map FreeRecord.segment)
      { s with
        store := s.store.compactZoneBatch v plan.busyKeys plan.freeKeys
        memory := some m'
        consolidated := s.consolidated ++ plan.matched.map FreeRecord.segment } := by
  refine .consolidate ?_ ?_ (fun g => ?_) rfl ?_ rfl
  · intro g hg
    obtain ⟨f, hf, rfl⟩ := mem_map.mp hg
    exact mem_incarnations.mpr (hp.present f hf)
  · intro g hg
    obtain ⟨f, hf, rfl⟩ := mem_map.mp hg
    exact hp.requested f hf
  · simp only [mem_incarnations, ZoneStore.busy_compactZoneBatch, mem_filter,
      decide_eq_true_eq]
    constructor
    · rintro ⟨r, ⟨hr, hkey⟩, rfl⟩
      exact ⟨⟨r, hr, rfl⟩, fun hseg => hkey ((hp.mem_busyKeys hst hr).mpr hseg)⟩
    · rintro ⟨⟨r, hr, rfl⟩, hseg⟩
      exact ⟨r, ⟨hr, fun hkey => hseg ((hp.mem_busyKeys hst hr).mp hkey)⟩, rfl⟩
  · rw [inflight_of_memory hm, ← hallocs]
    rfl

lemma ZoneInv.writeCompaction (h : ZoneInv cfg s) (hm : s.memory = some m) {o : WriteOutcome}
    (ht : s.writeCompaction m o = some t) : ZoneStep cfg s (.writeCompaction o) t := by
  obtain ⟨lost, hok⟩ := h.memory m hm
  unfold ZoneState.writeCompaction at ht
  split at ht
  · next plan bits hadm =>
    have hplan := hok.compaction
    rw [hadm] at hplan
    obtain ⟨hp, hcovered, -⟩ := hplan
    cases ht
    by_cases happ : o.applied = true
    · simp only [if_pos happ]
      refine ⟨⟨h.store.compactZoneBatch plan.freeKeys hp.cutoff hcovered,
        ⟨fun f hf => h.ledger.requested f (mem_of_mem_filter hf), fun g hg hlive => ?_,
          h.ledger.apart⟩, fun _ hx => ?_⟩, fun _ => ?_⟩
      · obtain ⟨r, hr, rfl⟩ := h.ledger.present g hg hlive
        refine ⟨r, ?_, rfl⟩
        rw [ZoneStore.busy_compactZoneBatch, mem_filter]
        refine ⟨hr, by_contra fun hkey => ?_⟩
        -- a record that the plan deletes has been requested to be freed
        have hmatched := (hp.mem_busyKeys h.store.busy hr).mp (by simpa using hkey)
        obtain ⟨f, hf, hseg⟩ := mem_map.mp hmatched
        exact hlive (hseg ▸ hp.requested f hf)
      · cases hx
        refine ⟨lost, hok.compacted h.store.busy hadm ?_ (fun st => ?_) o⟩
        · split
          · simp [Compaction.held, Sweep.held, flatMap_map]
          · exact nil_sublist _
        · split <;> trivial
      · have hfreed : s.consolidates (.writeCompaction o) =
          plan.matched.map FreeRecord.segment := by
          simp [consolidates, hm, hadm, happ]
        rw [hfreed]
        exact hp.effect h.store.busy hm rfl
    · have hne : o ≠ .ok := fun ho => happ (by rw [ho]; rfl)
      simp only [if_neg happ, if_neg hne]
      exact ⟨h.setMemory (hok.setCompaction (c := .idle) (.keep subset_rfl nil_subperm) trivial
        rfl rfl (ZoneMemory.gate_settle o) rfl rfl), fun _ => .frame hm rfl⟩
  · cases ht

end Compact

section Load

/-- A freshly loaded zone: every record is covered, and nothing is held. -/
theorem MemoryOk.loaded (st : ZoneStore) (h : ∀ r ∈ st.busy, r.units ⊆ bits)
    (compactSlot lastTs : ℕ) : MemoryOk cfg st requested { bits, compactSlot, lastTs } ∅ where
  gate := .inl rfl
  covers r hr u hu := .inl (h r hr (BusyRecord.mem_bits.mp hu))
  holds := ⟨nodup_nil, by simp [held, Compaction.held]⟩
  held_free := by simp [ZoneMemory.held, Compaction.held]
  admitted_free := by simp [admittedBits]
  allocs := by simp
  marks c hc := by simp at hc
  frees c hc := by simp at hc
  compaction := trivial

/-- A replay that meets no split range covers every record. -/
theorem ZoneInv.loadReplay (h : ZoneInv cfg s)
    (hun : Unsplit (s.store.snapshot.getD {}).bits s.store.tail) (now : ℕ) :
    ZoneInv cfg (s.loadReplay now) := by
  refine h.setMemory (MemoryOk.loaded s.store (fun r hr => ?_) _ _)
  by_cases hslot : r.commitSlot ≤ (s.store.snapshot.getD {}).snapshotSlot
  · exact (h.store.covered r hr hslot).trans (subset_replayUnits _ _)
  · refine hun.put_subset (mem_filter.mpr ⟨h.store.logged r hr, ?_⟩)
    exact decide_eq_true (not_le.mp hslot)

lemma ZoneInv.loadFullScan (h : ZoneInv cfg s)
    (hfree : ∀ f ∈ s.store.free, f.hasBusy s.store.busy = false) (now : ℕ) (written : Bool) :
    ZoneInv cfg (s.loadFullScan cfg now written) := by
  have hcovers : ∀ r ∈ (⟨none, s.store.busy, s.store.free⟩ : ZoneRecords).busy, r.units ⊆
      (fullScanBits cfg.unitCapacity ⟨none, s.store.busy, s.store.free⟩).units := by
    apply subset_units_fullScanBits cfg.unitCapacity_lt
    · exact fun x hx => (h.store.busy.sized x hx).2
    · exact h.store.busy.pairwise_disjoint
    · exact hfree
  unfold ZoneState.loadFullScan
  split
  · refine ⟨h.store.putZone le_rfl hcovers, ⟨h.ledger.requested, h.ledger.present, h.ledger.apart⟩,
      fun _ hx => ?_⟩
    cases hx
    exact ⟨∅, MemoryOk.loaded (s.store.putZone _) hcovers _ _⟩
  · exact h.setMemory (MemoryOk.loaded _ hcovers _ _)

end Load

section Run

/-- What keeps a step from giving a unit away twice. A commit is carried out on the
incarnations that it has read; a replay meets no range that is used in part; a full scan
finds no free fact whose record is still there. -/
def ZoneState.careful (s : ZoneState) : ZoneAction → Bool
  | .writeCommit k o => !o.applied || s.memory.all fun m => m.commits[k]?.all fun c =>
      c.records.all fun x => s.store.busy.any fun r => r.segment = entrySegment x
  | .loadReplay _ => decide (Unsplit (s.store.snapshot.getD {}).bits s.store.tail)
  | .loadFullScan .. => s.store.free.all fun f => !f.hasBusy s.store.busy
  | _ => true

lemma ZoneInv.of_init (h : (zoneSystem cfg).init s) : ZoneInv cfg s := by
  obtain ⟨hbusy, hfree, hsnap, hjournal, hmem, hret, hreq, -⟩ := h
  refine ⟨⟨⟨?_, ?_, ?_⟩, ?_, ?_, ?_, ?_, ?_, ?_⟩, ⟨?_, ?_, ?_⟩, ?_⟩ <;>
    simp [hbusy, hfree, hsnap, hmem, hret]

lemma ZoneInv.startAlloc (h : ZoneInv cfg s) (hm : s.memory = some m) (owner : Option ChunkId) :
    ZoneStep cfg s a (s.setMemory { m with allocs := m.allocs ++ [{ owner }] }) := by
  obtain ⟨lost, hok⟩ := h.memory m hm
  have hheld : ({ m with allocs := m.allocs ++ [{ owner }] } : ZoneMemory).held = m.held := by
    simp [held, AllocCall.held]
  have hadm : ({ m with allocs := m.allocs ++ [{ owner }] } : ZoneMemory).admittedBits =
      m.admittedBits := by
    simp [admittedBits, AllocCall.admittedBits]
  have hcalls : ∀ c ∈ m.allocs ++ [({ owner } : AllocCall)], c.Ok cfg :=
    forall_mem_concat hok.allocs ⟨by simp, trivial⟩
  have hok' : MemoryOk cfg s.store s.freeRequested
      { m with allocs := m.allocs ++ [{ owner }] } lost :=
    { hok with
      holds := hheld ▸ hok.holds
      held_free := hheld ▸ hok.held_free
      admitted_free := hadm ▸ hok.admitted_free
      allocs := hcalls }
  refine ⟨h.setMemory hok', fun _ => .of_busy rfl rfl rfl ?_⟩
  rw [ZoneState.inflight_of_memory hm]
  exact Perm.subperm (by simp [inflight, ZoneState.setMemory, AllocCall.stamps])

/-- Writes of other zones advance the slot. -/
theorem ZoneInv.otherWrite (h : ZoneInv cfg s) :
    ZoneStep cfg s a { s with store := { s.store with slot := s.store.slot + 1 } } := by
  refine ⟨⟨h.store.tick, ⟨h.ledger.requested, h.ledger.present, h.ledger.apart⟩, fun m hm => ?_⟩,
    fun _ => .of_busy rfl rfl rfl (Subperm.refl _)⟩
  obtain ⟨lost, hok⟩ := h.memory m hm
  have hl : Later s.store { s.store with slot := s.store.slot + 1 } [] :=
    Later.of_busy (Nat.le_succ _) rfl
  exact ⟨lost, hok.later h.store.busy h.store.busy hl (Subset.refl _) ⟨rfl, rfl, rfl, id⟩
    (hok.marks.later hl) hok.frees⟩

lemma ZoneInv.startMark (h : ZoneInv cfg s) (hm : s.memory = some m) (segment : Segment) :
    ZoneStep cfg s a (s.setMemory { m with marks := m.marks ++ [{ segment }] }) := by
  exact h.frame hm ⟨rfl, rfl, rfl, id⟩ (fun hmarks => forall_mem_concat hmarks nofun) id

/-- What the guard says about the write of a commit. -/
theorem ZoneState.careful_writeCommit {o : WriteOutcome} (hm : s.memory = some m)
    (h : s.careful (.writeCommit k o) = true) (happ : o.applied = true) (c : CommitCall)
    (hk : m.commits[k]? = some c) :
    ∀ x ∈ c.records, ∃ r ∈ s.store.busy, r.segment = entrySegment x := by
  simpa [careful, happ, hm, hk] using h

lemma ZoneInv.step (h : ZoneInv cfg s) (hg : s.careful a = true)
    (ht : (zoneSystem cfg).step s a = some t) : ZoneStep cfg s a t := by
  change s.step cfg a = some t at ht
  unfold ZoneState.step at ht
  split at ht
  · next hmem =>
    cases a with
    | loadReplay now =>
      cases ht
      exact ⟨h.loadReplay (by simpa [careful] using hg) now,
        fun _ => .of_busy rfl rfl rfl nil_subperm⟩
    | loadFullScan now written =>
      cases ht
      refine ⟨h.loadFullScan (by simpa [careful] using hg) now written,
        fun _ => .of_busy ?_ rfl rfl nil_subperm⟩
      unfold ZoneState.loadFullScan
      split <;> rfl
    | otherWrite =>
      cases ht
      exact h.otherWrite
    | _ => cases ht
  · next m hm =>
    cases a with
    | startAlloc owner =>
      cases ht
      exact h.startAlloc hm owner
    | alloc => exact h.stepAlloc hm ht
    | admitAlloc => exact h.admitAlloc hm ht
    | writeAlloc => exact h.writeAlloc hm ht
    | startCommit =>
      cases ht
      exact h.frame hm ⟨rfl, rfl, rfl, id⟩ id id
    | readCommit => exact h.readCommit hm ht
    | admitCommit => exact h.admitCommit hm ht
    | writeCommit =>
      exact h.writeCommit hm (careful_writeCommit hm hg) ht
    | startMark segment =>
      cases ht
      exact h.startMark hm segment
    | readMark => exact h.readMark hm ht
    | admitMark => exact h.admitMark hm ht
    | writeMark => exact h.writeMark hm ht
    | requestFree records =>
      cases ht
      exact h.requestFree hm records
    | admitFree => exact h.admitFree hm ht
    | writeFree => exact h.writeFree hm ht
    | trimTentative =>
      cases ht
      obtain ⟨tentative, -, heq⟩ := m.trimTentative_forgets
      rw [heq]
      exact h.frame hm ⟨rfl, rfl, rfl, id⟩ id id
    | scanFree => exact h.scanFree hm ht
    | scanBusy => exact h.scanBusy hm ht
    | copyWord => exact h.copyWord hm ht
    | prepare => exact h.prepare hm ht
    | admitCompaction => exact h.admitCompaction hm ht
    | writeCompaction => exact h.writeCompaction hm ht
    | publish => exact h.publish hm ht
    | otherWrite =>
      cases ht
      exact h.otherWrite
    | closeGate =>
      cases ht
      exact h.frame hm ⟨rfl, rfl, rfl, fun _ => rfl⟩ id id
    | crash =>
      cases ht
      exact ⟨⟨h.store, ⟨h.ledger.requested, h.ledger.present, h.ledger.apart⟩,
        nofun⟩, fun _ => .of_busy rfl rfl rfl nil_subperm⟩
    | loadReplay => cases ht
    | loadFullScan => cases ht

lemma zoneInv_of_reach (h : (zoneSystem cfg).Reach (fun s a => s.careful a = true) s) :
    ZoneInv cfg s :=
  h.invariant (fun _ => ZoneInv.of_init) fun _ _ _ hs hg ht => (hs.step hg ht).inv

/-- In every run whose steps are careful, the segments that were returned and whose free was
not requested are disjoint. -/
theorem live_segments_disjoint (h : (zoneSystem cfg).Reach (fun s a => s.careful a = true) s) :
    (s.returned.filter (· ∉ s.freeRequested)).Pairwise fun a b => Disjoint a.units b.units :=
  (zoneInv_of_reach h).ledger.apart

end Run
end Steps

section Examples

def zone64 : ZoneConfig := ⟨firstDisk, 0, 4096, 64, by decide⟩

def newZone : ZoneState := { store := { slot := 1 } }

lemma init_newZone : (zoneSystem zone64).init newZone := by
  simp [zoneSystem, newZone]

open ZoneAction in
/-- All steps of an allocation that claims one range and is acknowledged. -/
def allocateRange (k offset count : ℕ) : List ZoneAction :=
  [startAlloc none, alloc k (.tryRange ⟨offset, count⟩)] ++
    List.replicate count (alloc k (.casBit true)) ++
    [alloc k (.stamp [0]), admitAlloc k, writeAlloc k .ok]

/-- A compaction of a zone of one word, up to its acknowledged batch. -/
def compactOneWord : List ZoneAction :=
  [.scanFree, .scanBusy, .copyWord, .prepare, .admitCompaction, .writeCompaction .ok]

open ZoneAction in
/-- Two allocations, a commit of the first, a free of the second and its compaction, an
allocation that reuses its unit, a crash, and one more allocation. -/
def carefulRun : List ZoneAction :=
  [loadReplay 0] ++ allocateRange 0 0 2 ++ allocateRange 0 2 1 ++
    [startCommit [⟨0, 2, none, 2⟩], readCommit 0, admitCommit 0, writeCommit 0 .ok,
      requestFree [(⟨2, 1, none, 3⟩, 0)], admitFree 0, writeFree 0 .ok] ++
    compactOneWord ++ List.replicate 3 ZoneAction.publish ++ allocateRange 0 2 3 ++
    [crash, loadReplay 0] ++ allocateRange 0 5 1

theorem live_segments_disjoint_after_reload : ∃ s,
    (zoneSystem zone64).Reach (fun s a => s.careful a = true) s ∧
      s.returned.filter (· ∉ s.freeRequested) =
        [⟨0, 2, none, 2⟩, ⟨2, 3, none, 4⟩, ⟨5, 1, none, 6⟩] ∧
      (s.returned.filter (· ∉ s.freeRequested)).Pairwise fun a b => Disjoint a.units b.units := by
  have hreach := System.reach_runGuarded (g := careful) carefulRun init_newZone
  exact ⟨_, hreach, by decide +kernel, live_segments_disjoint hreach⟩

open ZoneAction in
/-- A snapshot takes the unit of an allocation whose write then fails. The next allocation
of that unit and the one after it is split by the snapshot, and a replay gives the second
unit away again. -/
def splitRun : List ZoneAction :=
  [loadReplay 0, startAlloc none, alloc 0 (.tryRange ⟨0, 1⟩), alloc 0 (.casBit true),
      alloc 0 (.stamp [0])] ++
    compactOneWord ++
    [ZoneAction.publish, admitAlloc 0, writeAlloc 0 .failed, alloc 0 (.sweep true),
      alloc 0 (.sweep true)] ++
    allocateRange 1 0 2 ++ [crash, loadReplay 0] ++ allocateRange 0 1 1

theorem unit_allocated_twice : ∃ s, (zoneSystem zone64).Reach System.Free s ∧
    ¬(s.returned.filter (· ∉ s.freeRequested)).Pairwise fun a b => Disjoint a.units b.units :=
  ⟨_, System.reach_run splitRun init_newZone, by decide +kernel⟩

end Examples

/-! ## Incarnations -/

section Incarnations
variable {cfg : ZoneConfig} {s t : ZoneState} {m m' : ZoneMemory} {k : ℕ} {a : ZoneAction}

namespace ZoneState

/-- The incarnations that commits have read and not written yet. -/
def committing (s : ZoneState) : List Segment :=
  (s.memory.elim [] ZoneMemory.commits).flatMap fun c => c.records.map entrySegment

/-- The incarnations in the cache of tentative blocks. -/
def cached (s : ZoneState) : List Segment :=
  (s.memory.elim [] ZoneMemory.tentative).map entrySegment

/-- The segment whose cached value the next read of a commit takes. -/
def hit (s : ZoneState) (k : ℕ) : Option Segment :=
  s.memory.bind fun m => m.commits[k]?.bind fun c =>
    c.todo.head?.filter fun seg => (m.matchingTentative seg).isSome

/-- A commit reads the incarnation, from the store or from the cache. -/
def Reads (s : ZoneState) (a : ZoneAction) (g : Segment) : Prop :=
  ∃ k, a = .readCommit k ∧ (g ∈ s.incarnations ∨ s.hit k = some g ∧ g ∈ s.cached)

end ZoneState

/-- What a step does to the incarnations that commits and the cache hold. -/
structure CacheMove (s : ZoneState) (a : ZoneAction) (t : ZoneState) : Prop where
  committing : ∀ g ∈ t.committing, g ∈ s.committing ∨ s.Reads a g
  cached : ∀ g ∈ t.cached, g ∈ s.cached ∨ g ∈ t.incarnations

lemma subset_commits (commits : List CommitCall) :
    ∀ c ∈ commits, c.records ⊆ commits.flatMap CommitCall.records :=
  fun c hc _ hx => mem_flatMap.mpr ⟨c, hc, hx⟩

lemma subset_commits_erase (commits : List CommitCall) (k : ℕ) :
    ∀ c ∈ commits.eraseIdx k, c.records ⊆ commits.flatMap CommitCall.records :=
  fun c hc => subset_commits commits c (mem_of_mem_eraseIdx hc)

namespace CacheMove

section
variable (hm : s.memory = some m) (ht : t.memory = some m')
include hm ht

lemma of_memory (hcommits : ∀ c ∈ m'.commits, ∀ x ∈ c.records,
      x ∈ m.commits.flatMap CommitCall.records ∨ s.Reads a (entrySegment x))
    (htentative : m'.tentative ⊆ m.tentative) : CacheMove s a t := by
  constructor
  · intro g hg
    simp only [ZoneState.committing, hm, ht, mem_flatMap, mem_map] at hg ⊢
    obtain ⟨c, hc, x, hx, rfl⟩ := hg
    refine (hcommits c hc x hx).imp_left fun hold => ?_
    obtain ⟨c₀, hc₀, hx⟩ := mem_flatMap.mp hold
    exact ⟨c₀, hc₀, x, hx, rfl⟩
  · intro g hg
    simp only [ZoneState.cached, hm, ht] at hg ⊢
    exact .inl (map_subset _ htentative hg)

lemma shrink (hcommits : ∀ c ∈ m'.commits, c.records ⊆ m.commits.flatMap CommitCall.records)
    (htentative : m'.tentative ⊆ m.tentative) : CacheMove s a t :=
  of_memory hm ht (fun c hc _ hx => .inl (hcommits c hc hx)) htentative

lemma same (hcommits : m'.commits = m.commits) (htentative : m'.tentative = m.tentative) :
    CacheMove s a t :=
  shrink hm ht (hcommits ▸ subset_commits _) (htentative ▸ Subset.refl _)

end

lemma matchingTentative_mem {seg : Segment} {v : BusyBlockValue}
    (h : m.matchingTentative seg = some v) : ∃ x ∈ m.tentative, entrySegment x = seg := by
  obtain ⟨x, hx, hv⟩ := Option.bind_eq_some_iff.mp h
  have hts := find?_some hx
  split at hv <;> cases hv
  next hsame =>
  obtain ⟨hoffset, howner, hcount⟩ := hsame
  refine ⟨x, mem_of_find?_eq_some hx, ?_⟩
  simp only [entrySegment, hoffset, howner, hcount, of_decide_eq_true hts]

/-- The incarnation check makes the value that is read one of the segment. -/
theorem read_source {c : CommitCall} {seg : Segment} {todo : List Segment} {v : BusyBlockValue}
    (hm : s.memory = some m) (hk : m.commits[k]? = some c) (htodo : c.todo = seg :: todo)
    (hv : (m.matchingTentative seg).or ((s.store.busyAt seg.unitOffset).map BusyRecord.value)
      = some v) (hheld : seg.isHeldBy v = true) : s.Reads (.readCommit k) seg := by
  refine ⟨k, rfl, ?_⟩
  cases hhit : m.matchingTentative seg with
  | some =>
    obtain ⟨x, hx, hseg⟩ := matchingTentative_mem hhit
    refine .inr ⟨by simp [hit, hm, hk, htodo, hhit], mem_map.mpr ⟨x, ?_, hseg⟩⟩
    rwa [hm]
  | none =>
    rw [hhit] at hv
    obtain ⟨r, hr, rfl⟩ := Option.map_eq_some_iff.mp hv
    obtain ⟨hmem, hoffset⟩ := ZoneStore.busyAt_some hr
    simp only [Segment.isHeldBy, Bool.and_eq_true, beq_iff_eq] at hheld
    obtain ⟨⟨hts, hcount⟩, howner⟩ := hheld
    refine .inl (mem_incarnations.mpr ⟨r, hmem, ?_⟩)
    rw [BusyRecord.segment, hoffset, hcount, howner, hts]

section
variable (hm : s.memory = some m)
include hm

lemma readCommit (ht : s.readCommit m k = some t) : CacheMove s (.readCommit k) t := by
  obtain ⟨c, hk, ht⟩ := Option.bind_eq_some_iff.mp ht
  have hold := subset_commits m.commits
  have hc := hold c (mem_of_getElem? hk)
  have herase : CacheMove s (.readCommit k)
      (s.setMemory { m with commits := m.commits.eraseIdx k }) :=
    shrink hm rfl (subset_commits_erase _ k) (Subset.refl _)
  split at ht
  · cases ht
  · next seg todo htodo =>
    cases ht
    split
    · exact herase
    · next v hv =>
      split
      · next hheld =>
        split
        · refine of_memory hm rfl (forall_mem_set (fun c hc x hx => .inl (hold c hc hx)) ?_)
            (Subset.refl _)
          refine forall_mem_concat (fun x hx => .inl (hc hx)) (.inr ?_)
          have hseg : entrySegment (seg.unitOffset, v) = seg := by
            simp only [Segment.isHeldBy, Bool.and_eq_true, beq_iff_eq] at hheld
            simp only [entrySegment, hheld]
          exact hseg.symm ▸ read_source hm hk htodo hv hheld
        · refine shrink hm rfl (forall_mem_set hold ?_) (Subset.refl _)
          exact hc
      · exact herase

lemma admitCommit (ht : s.admitCommit m k = some t) : CacheMove s a t := by
  obtain ⟨c, hk, ht⟩ := Option.bind_eq_some_iff.mp ht
  obtain ⟨tentative, hsub, heq⟩ := foldl_forget removeTentative_forgets c.cached
    { m with commits := m.commits.eraseIdx k }
  split at ht
  · split at ht
    · cases ht
      exact shrink hm (congrArg some heq) (subset_commits_erase _ k) hsub
    · split at ht <;> cases ht
      · exact shrink hm rfl (subset_commits_erase _ k) (Subset.refl _)
      · refine shrink hm rfl (forall_mem_set (subset_commits _) ?_) (Subset.refl _)
        exact subset_commits _ c (mem_of_getElem? hk)
  · cases ht

lemma writeCommit {o : WriteOutcome} (ht : s.writeCommit cfg m k o = some t) :
    CacheMove s a t := by
  obtain ⟨c, hk, ht⟩ := Option.bind_eq_some_iff.mp ht
  obtain ⟨tentative, hsub, heq⟩ := foldl_forget removeTentative_forgets c.cached
    (({ m with commits := m.commits.eraseIdx k }).settle o)
  split at ht <;> cases ht
  refine shrink hm rfl ?_ ?_ <;> rw [heq] <;> split
  · exact subset_commits_erase _ k
  · exact subset_commits_erase _ k
  · exact hsub
  · exact Subset.refl _

lemma writeFree {o : WriteOutcome} (ht : s.writeFree cfg m k o = some t) : CacheMove s a t := by
  obtain ⟨c, hk, ht⟩ := Option.bind_eq_some_iff.mp ht
  obtain ⟨tentative, hsub, heq⟩ := foldl_forget removeMatchingTentative_forgets c.records
    (({ m with frees := m.frees.eraseIdx k }).settle o)
  split at ht <;> cases ht
  refine shrink hm rfl ?_ ?_ <;> rw [heq] <;> split
  · exact subset_commits _
  · exact subset_commits _
  · exact hsub
  · exact Subset.refl _

/-- An acknowledged allocation puts the records that it has written into the cache. -/
theorem writeAlloc {o : WriteOutcome} (h : ZoneInv cfg s)
    (ht : s.writeAlloc cfg m k o = some t) : CacheMove s a t := by
  obtain ⟨c, hk, ht⟩ := Option.bind_eq_some_iff.mp ht
  obtain ⟨lost, hok⟩ := h.memory m hm
  split at ht
  · next xs hphase =>
    have w := hok.admittedWrite h.store hk hphase
    cases o with
    | ok =>
      cases ht
      refine ⟨fun g hg => .inl (by simpa [ZoneState.committing, hm] using hg), fun g hg => ?_⟩
      simp only [ZoneState.cached, hm, Option.elim_some, map_append, mem_append] at hg ⊢
      refine hg.imp_right fun hg => ?_
      obtain ⟨x, hx, rfl⟩ := mem_map.mp hg
      change _ ∈ (s.store.persistBusy cfg xs).busy.map BusyRecord.segment
      rw [ZoneStore.persistBusy_eq, w.busy_eq, newRecords, map_append, List.map_map]
      exact mem_append_right _ (mem_map_of_mem hx)
    | failed | unknown =>
      cases ht
      exact same hm rfl rfl rfl
  · cases ht

end

lemma of_step (h : ZoneInv cfg s) (ht : (zoneSystem cfg).step s a = some t) :
    CacheMove s a t := by
  change s.step cfg a = some t at ht
  unfold ZoneState.step at ht
  split at ht
  · next hm =>
    have hnone : t.memory.elim [] ZoneMemory.commits = [] ∧
        t.memory.elim [] ZoneMemory.tentative = [] := by
      cases a <;> cases ht <;> simp [loadReplay, loadFullScan, setMemory, hm]
    constructor <;> simp [ZoneState.committing, ZoneState.cached, hnone]
  · next m hm =>
    cases a with
    | startAlloc | startMark | requestFree | closeGate =>
      cases ht
      exact same hm rfl rfl rfl
    | otherWrite =>
      cases ht
      exact same hm hm rfl rfl
    | alloc =>
      obtain ⟨c, -, ht⟩ := Option.bind_eq_some_iff.mp ht
      obtain ⟨x, -, rfl⟩ := Option.map_eq_some_iff.mp ht
      exact same hm rfl rfl rfl
    | admitAlloc | readMark | admitMark | admitFree =>
      obtain ⟨c, -, ht⟩ := Option.bind_eq_some_iff.mp ht
      split at ht <;> cases ht
      exact same hm rfl rfl rfl
    | writeMark =>
      obtain ⟨c, -, ht⟩ := Option.bind_eq_some_iff.mp ht
      split at ht
      · split at ht <;> cases ht
        exact same hm rfl rfl rfl
      · cases ht
    | startCommit =>
      cases ht
      exact shrink hm rfl (forall_mem_concat (subset_commits _) (nil_subset _)) (Subset.refl _)
    | readCommit => exact readCommit hm ht
    | admitCommit => exact admitCommit hm ht
    | writeCommit => exact writeCommit hm ht
    | writeFree => exact writeFree hm ht
    | writeAlloc => exact writeAlloc hm h ht
    | trimTentative =>
      cases ht
      obtain ⟨tentative, hsub, heq⟩ := m.trimTentative_forgets
      rw [heq]
      exact shrink hm rfl (subset_commits _) hsub
    | scanFree | scanBusy | admitCompaction | writeCompaction =>
      simp only [scanFree, scanBusy, admitCompaction, writeCompaction] at ht
      split at ht <;> cases ht
      exact same hm rfl rfl rfl
    | copyWord | prepare =>
      simp only [copyWord, prepare] at ht
      split at ht
      · split at ht <;> cases ht
        exact same hm rfl rfl rfl
      · cases ht
    | publish =>
      simp only [publish] at ht
      split at ht <;> cases ht
      exact same hm rfl (by split <;> rfl) (by split <;> rfl)
    | crash =>
      cases ht
      constructor <;> simp [ZoneState.committing, ZoneState.cached]
    | loadReplay | loadFullScan => cases ht

end CacheMove

/-- No compaction consolidates a segment while a commit that has read it is in flight, and no
commit takes a cached value of a consolidated incarnation. Loads are as in a careful run, and
allocations are of later incarnations. -/
def ZoneState.undisturbed (s : ZoneState) (a : ZoneAction) : Bool :=
  s.stampsLater a && match a with
    | .writeCompaction o => (s.consolidates (.writeCompaction o)).all (· ∉ s.committing)
    | .readCommit k => (s.hit k).all (· ∉ s.consolidated)
    | .writeCommit .. => true
    | a => s.careful a

/-- Commits in flight have read incarnations that still have their record. -/
structure CachesOk (s : ZoneState) : Prop where
  committing : s.committing ⊆ s.incarnations
  cached : ∀ g ∈ s.cached, g ∈ s.incarnations ∨ g ∈ s.consolidated

lemma CachesOk.careful (h : CachesOk s) (hg : s.undisturbed a = true) : s.careful a = true := by
  obtain ⟨-, hg⟩ := Bool.and_eq_true_iff.mp hg
  cases a with
  | writeCommit k o =>
    simp only [ZoneState.careful, Bool.or_eq_true, Option.all_eq_true, all_eq_true, any_eq_true,
      decide_eq_true_eq]
    refine .inr fun m hm c hk x hx => mem_incarnations.mp (h.committing ?_)
    refine mem_flatMap.mpr ⟨c, ?_, mem_map_of_mem hx⟩
    rw [hm]
    exact mem_of_getElem? hk
  | loadReplay | loadFullScan => exact hg
  | _ => rfl

lemma CachesOk.step (h : CachesOk s) (hinv : ZoneInv cfg s) (hg : s.undisturbed a = true)
    (ht : (zoneSystem cfg).step s a = some t) : CachesOk t := by
  obtain ⟨hlater, hdisturb⟩ := Bool.and_eq_true_iff.mp hg
  have heffect := (hinv.step (h.careful hg) ht).effect hlater
  have hmove := CacheMove.of_step hinv ht
  constructor
  · intro g hgt
    rcases hmove.committing g hgt with hold | ⟨k, rfl, hread⟩
    · refine (heffect.kept (h.committing hold)).resolve_right fun hfreed => ?_
      cases a with
      | writeCompaction o => exact absurd hold (by simpa using all_eq_true.mp hdisturb g hfreed.1)
      | _ => exact absurd hfreed.1 not_mem_nil
    · have hthere : g ∈ s.incarnations := by
        rcases hread with hstored | ⟨hhit, hcached⟩
        · exact hstored
        · refine (h.cached g hcached).resolve_right ?_
          simpa [hhit] using hdisturb
      exact (heffect.kept hthere).resolve_right fun hfreed => not_mem_nil hfreed.1
  · intro g hgt
    rcases hmove.cached g hgt with hold | hnew
    · rcases h.cached g hold with hthere | hgone
      · exact (heffect.kept hthere).imp_right fun hfreed => hfreed.2.2
      · exact .inr (heffect.consolidated_subset hgone)
    · exact .inl hnew

lemma incarnations_of_reach
    (h : (zoneSystem cfg).Reach (fun s a => s.undisturbed a = true) s) :
    ZoneInv cfg s ∧ StampsOk s ∧ CachesOk s := by
  refine h.invariant (I := fun s => ZoneInv cfg s ∧ StampsOk s ∧ CachesOk s)
    (fun s hinit => ⟨.of_init hinit, ?_, ?_⟩) ?_
  · obtain ⟨hbusy, -, -, -, hmem, -, -, hcons⟩ := hinit
    constructor <;> simp [incarnations, inflight, hbusy, hmem, hcons]
  · obtain ⟨-, -, -, -, hmem, -⟩ := hinit
    constructor <;> simp [ZoneState.committing, ZoneState.cached, hmem]
  · rintro s a t ⟨hinv, hstamps, hcaches⟩ hg ht
    have hstep := hinv.step (hcaches.careful hg) ht
    have hlater := (Bool.and_eq_true_iff.mp hg).1
    exact ⟨hstep.inv, (hstep.effect hlater).stampsOk hstamps, hcaches.step hinv hg ht⟩

/-- In every undisturbed run, a step keeps the record of each incarnation unless it consolidates
the free of that incarnation, and no record has the timestamp of an incarnation whose free was
consolidated. -/
theorem incarnations_kept (h : (zoneSystem cfg).Reach (fun s a => s.undisturbed a = true) s) :
    (∀ a t, s.undisturbed a = true → (zoneSystem cfg).step s a = some t → ∀ g ∈ s.incarnations,
      g ∈ t.incarnations ∨ g ∈ s.freeRequested ∧ g ∈ t.consolidated) ∧
    ∀ g ∈ s.consolidated, ∀ r ∈ s.store.busy, r.value.allocationTs ≠ g.allocationTs := by
  obtain ⟨hinv, hstamps, hcaches⟩ := incarnations_of_reach h
  refine ⟨fun a t hg ht g hinc => ?_, fun g hg r hr => ?_⟩
  · have heffect := (hinv.step (hcaches.careful hg) ht).effect (Bool.and_eq_true_iff.mp hg).1
    exact (heffect.kept hinc).imp_right And.right
  · exact hstamps.gone g hg r.segment (mem_map_of_mem hr)

open ZoneAction in
/-- A commit has read its record, and after the given actions the segment is freed,
compacted and allocated again. -/
def reuseRun (actions : List ZoneAction) : List ZoneAction :=
  [loadReplay 0] ++ allocateRange 0 0 1 ++
    [startCommit [⟨0, 1, none, 2⟩], readCommit 0, admitCommit 0] ++ actions ++
    [requestFree [(⟨0, 1, none, 2⟩, 0)], admitFree 0, writeFree 0 .ok] ++
    compactOneWord ++ List.replicate 3 ZoneAction.publish ++ allocateRange 0 0 1

theorem incarnations_kept_reused : ∃ s,
    (zoneSystem zone64).Reach (fun s a => s.undisturbed a = true) s ∧
      s.incarnations = [⟨0, 1, none, 3⟩] ∧ s.consolidated = [⟨0, 1, none, 2⟩] ∧
      ∀ g ∈ s.consolidated, ∀ r ∈ s.store.busy, r.value.allocationTs ≠ g.allocationTs := by
  have hreach := System.reach_runGuarded (g := undisturbed) (reuseRun [.writeCommit 0 .ok])
    init_newZone
  exact ⟨_, hreach, by decide +kernel, by decide +kernel, (incarnations_kept hreach).2⟩

/-- The delayed write replaces the record of the later incarnation and brings back the one
whose free was consolidated. -/
theorem delayed_commit_overwrites : ∃ s t,
    (zoneSystem zone64).Reach (fun s a => s.stampsLater a = true) s ∧
      (zoneSystem zone64).step s (.writeCommit 0 .ok) = some t ∧
      (∃ g ∈ s.incarnations, g ∉ t.incarnations ∧ g ∉ t.consolidated) ∧
      ∃ g ∈ s.consolidated, g ∉ s.incarnations ∧ g ∈ t.incarnations :=
  ⟨_, _, System.reach_runGuarded (reuseRun []) init_newZone,
    (Option.some_get (by decide +kernel)).symm, by decide +kernel, by decide +kernel⟩

end Incarnations

/-- In every careful run the records of a zone are disjoint, inside it and in its journal. While
the write gate is open their units are set, and the claims of allocations that are under way are
set too, once each, and are no units of records. -/
theorem zone_records_set (h : (zoneSystem cfg).Reach (fun s a => s.careful a = true) s) :
    (s.store.busy.flatMap BusyRecord.bits).Nodup ∧
    (∀ r ∈ s.store.busy, .put r ∈ s.store.journal ∧
      r.key.unitOffset + r.value.unitCount ≤ cfg.unitCapacity) ∧
    ∀ m, s.memory = some m → m.gateClosed = false → m.held.Nodup ∧
      (∀ u ∈ m.held, u ∈ m.bits ∧ ∀ r ∈ s.store.busy, u ∉ r.bits) ∧
      ∀ r ∈ s.store.busy, ∀ u ∈ r.bits, u ∈ m.bits := by
  have hinv := zoneInv_of_reach h
  refine ⟨hinv.store.busy.apart,
    fun r hr => ⟨hinv.store.logged r hr, (hinv.store.busy.sized r hr).2⟩, fun m hm hopen => ?_⟩
  obtain ⟨lost, hok⟩ := hinv.memory m hm
  obtain rfl : lost = ∅ := hok.gate.resolve_right (by simp [hopen])
  refine ⟨?_, fun u hu => ⟨?_, fun r hr hur => ?_⟩, fun r hr u hu => ?_⟩
  · exact hok.holds.nodup
  · exact hok.holds.taken u hu
  · simpa using hok.held_free u hu r hr hur
  · simpa using hok.covers r hr u hu

theorem zone_records_set_after_reload : ∃ s,
    (zoneSystem zone64).Reach (fun s a => s.careful a = true) s ∧ s.store.busy.length = 3 ∧
      (s.store.busy.flatMap BusyRecord.bits).Nodup := by
  have hreach := System.reach_runGuarded (g := careful) carefulRun init_newZone
  exact ⟨_, hreach, by decide +kernel, (zone_records_set hreach).1⟩

end CrowDB.DiskDb
