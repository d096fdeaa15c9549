import CrowDB.DiskDb.Incarnation

/-!
# The writes of a working zone

Allocations, commits, corruption marks and frees keep what a working zone keeps, and have one
of the effects on its incarnations. A write either adds records on units that its allocation
holds, or writes an incarnation again that is there; a commit does the latter only while its
records are still those of its segments.
-/
namespace CrowDB.DiskDb
open Lib BitWords Option ZoneMemory AllocCall BusyRecord BusyOp ZoneStore ZoneState
open List hiding Disjoint

variable {r : BusyRecord} {st : ZoneStore} {slot : ℕ} {ops : List BusyOp}

section Records
variable {cfg : ZoneConfig} {busy busy' : List BusyRecord}

lemma BusyOp.mem_applyAll (h : r ∈ applyAll busy ops) : r ∈ busy ∨ .put r ∈ ops := by
  induction ops generalizing busy with
  | nil => exact .inl h
  | cons op _ ih =>
    rcases ih h with hr | hr
    · cases op with
      | put =>
        rcases mem_apply_put hr with hr | rfl
        · exact .inl hr
        · exact .inr mem_cons_self
      | delete => exact .inl (mem_apply_delete hr)
    · exact .inr (mem_cons_of_mem _ hr)

/-- Puts of new keys are appended. -/
theorem BusyOp.applyAll_new {recs : List BusyRecord} (hnew : ∀ r ∈ recs, ∀ x ∈ busy, x.key ≠ r.key)
    (hapart : recs.Pairwise fun a b => a.key ≠ b.key) :
    applyAll busy (recs.map .put) = busy ++ recs := by
  induction recs generalizing busy with
  | nil => simp [applyAll]
  | cons r recs ih =>
    rw [pairwise_cons] at hapart
    have hfilter : busy.filter (fun x => x.key ≠ r.key) = busy :=
      filter_eq_self.mpr fun x hx => by simpa using hnew r mem_cons_self x hx
    have hrest : applyAll (busy ++ [r]) (recs.map .put) = busy ++ [r] ++ recs := by
      refine ih (fun x hx y hy => ?_) hapart.2
      rcases mem_append.mp hy with hy | hy
      · exact hnew x (mem_cons_of_mem _ hx) y hy
      · rw [mem_singleton.mp hy]
        exact hapart.1 x hx
    simp only [applyAll, map_cons, foldl_cons, apply, hfilter] at hrest ⊢
    rw [hrest, append_assoc, singleton_append]

lemma BusyOp.applyAll_delete (busy : List BusyRecord) (keys : List BusyBlockKey) (slot : ℕ) :
    applyAll busy (keys.map fun key => .delete key slot) = busy.filter fun r => r.key ∉ keys := by
  induction keys generalizing busy with
  | nil => simp [applyAll]
  | cons key _ ih =>
    have hrest := ih (busy.filter fun r => r.key ≠ key)
    simp only [applyAll, map_cons, foldl_cons, apply] at hrest ⊢
    rw [hrest]
    simp [Bool.and_comm]

namespace BusyOk

section
variable (h : BusyOk cfg busy)
include h

lemma offset_mem (hr : r ∈ busy) : r.key.unitOffset ∈ r.bits := by
  have hsize := (h.sized r hr).1
  rw [BusyRecord.bits, mem_range'_1]
  omega

lemma eq_of_offset {a b : BusyRecord} (ha : a ∈ busy) (hb : b ∈ busy)
    (hoff : a.key.unitOffset = b.key.unitOffset) : a = b :=
  eq_of_mem_flatMap h.apart ha hb (h.offset_mem ha) (hoff ▸ h.offset_mem hb)

lemma nodup : busy.Nodup := nodup_of_flatMap h.apart fun _ hr => ne_nil_of_mem (h.offset_mem hr)

lemma filter (p : BusyRecord → Bool) : BusyOk cfg (busy.filter p) where
  keyed r hr := h.keyed r (mem_of_mem_filter hr)
  sized r hr := h.sized r (mem_of_mem_filter hr)
  apart := h.apart.sublist (Sublist.flatMap filter_sublist _)

lemma pairwise_disjoint : busy.Pairwise fun a b => Disjoint a.units b.units :=
  (nodup_flatMap.mp h.apart).2.imp fun hab => Finset.disjoint_left.mpr fun _ hua hub =>
    hab (mem_bits.mpr hua) (mem_bits.mpr hub)

/-- Only the record itself has its key. -/
theorem perm_filter (hr : r ∈ busy) : busy.Perm (r :: busy.filter fun x => x.key ≠ r.key) := by
  have hfilter : (busy.filter fun x => x.key ≠ r.key) = busy.erase r := by
    rw [h.nodup.erase_eq_filter]
    apply filter_congr
    intro x hx
    have hiff : x.key = r.key ↔ x = r :=
      ⟨fun hk => h.eq_of_offset hx hr (congrArg BusyBlockKey.unitOffset hk), fun hk => hk ▸ rfl⟩
    rw [Bool.eq_iff_iff]
    simp [hiff]
  rw [hfilter]
  exact perm_cons_erase hr

end

end BusyOk

lemma ZoneStore.busyAt_some {offset : ℕ} (h : st.busyAt offset = some r) :
    r ∈ st.busy ∧ r.key.unitOffset = offset :=
  ⟨mem_of_find?_eq_some h, by simpa using find?_some h⟩

/-- The records stand for the same incarnations as before; what was written has `slot`. -/
structure Rewrites (slot : ℕ) (busy busy' : List BusyRecord) : Prop where
  back : ∀ r' ∈ busy', r' ∈ busy ∨
    r'.commitSlot = slot ∧ ∃ r ∈ busy, r.segment = r'.segment ∧ r.key = r'.key
  forth : ∀ r ∈ busy, ∃ r' ∈ busy', r'.segment = r.segment
  perm : (busy'.flatMap BusyRecord.bits).Perm (busy.flatMap BusyRecord.bits)

namespace Rewrites

lemma refl (slot : ℕ) (busy : List BusyRecord) : Rewrites slot busy busy :=
  ⟨fun _ => .inl, fun r hr => ⟨r, hr, rfl⟩, Perm.refl _⟩

lemma trans {busy'' : List BusyRecord} (h : Rewrites slot busy busy')
    (h' : Rewrites slot busy' busy'') : Rewrites slot busy busy'' where
  back r hr := by
    rcases h'.back r hr with hr | ⟨hslot, x, hx, hseg, hkey⟩
    · exact h.back r hr
    · rcases h.back x hx with hx | ⟨-, y, hy, hseg', hkey'⟩
      · exact .inr ⟨hslot, x, hx, hseg, hkey⟩
      · exact .inr ⟨hslot, y, hy, hseg'.trans hseg, hkey'.trans hkey⟩
  forth r hr := by
    obtain ⟨x, hx, hseg⟩ := h.forth r hr
    obtain ⟨y, hy, hseg'⟩ := h'.forth x hx
    exact ⟨y, hy, hseg'.trans hseg⟩
  perm := h'.perm.trans h.perm

lemma busyOk (h : Rewrites slot busy busy') (hok : BusyOk cfg busy) : BusyOk cfg busy' where
  keyed r hr := by
    rcases h.back r hr with hr | ⟨-, x, hx, -, hkey⟩
    · exact hok.keyed r hr
    · rw [← hkey]
      exact hok.keyed x hx
  sized r hr := by
    rcases h.back r hr with hr | ⟨-, x, hx, hseg, -⟩
    · exact hok.sized r hr
    · simp only [BusyRecord.segment, Segment.mk.injEq] at hseg
      rw [← hseg.1, ← hseg.2.1]
      exact hok.sized x hx
  apart := h.perm.nodup_iff.mpr hok.apart

/-- A Put of the incarnation that is there. -/
theorem put (hok : BusyOk cfg busy) {x : BusyRecord} (hr : r ∈ busy) (hseg : x.segment = r.segment)
    (hkey : x.key = r.key) : Rewrites x.commitSlot busy (apply busy (.put x)) where
  back y hy := by
    rcases mem_apply_put hy with hy | rfl
    · exact .inl hy
    · exact .inr ⟨rfl, r, hr, hseg.symm, hkey.symm⟩
  forth y hy := by
    by_cases hk : y.key = x.key
    · have hyr : y = r := hok.eq_of_offset hy hr (congrArg BusyBlockKey.unitOffset (hk.trans hkey))
      exact ⟨x, mem_append_right _ (mem_singleton_self x), hyr ▸ hseg⟩
    · exact ⟨y, mem_append_left _ (mem_filter.mpr ⟨hy, by simpa using hk⟩), rfl⟩
  perm := by
    have hbits := bits_eq_of_segment hseg
    have hall := (hok.perm_filter hr).flatMap_right BusyRecord.bits
    simp only [apply, hkey, flatMap_append, flatMap_cons, flatMap_nil, append_nil, hbits]
    exact perm_append_comm.trans hall.symm

/-- A batch of Puts, each of an incarnation that is there. -/
theorem putAll (slot : ℕ) (hok : BusyOk cfg busy) (xs : List (ℕ × BusyBlockValue))
    (h : ∀ x ∈ xs, ∃ r ∈ busy, r.segment = entrySegment x) :
    Rewrites slot busy
      (applyAll busy (xs.map fun x => .put ⟨cfg.busyKey x.1, x.2, slot⟩)) := by
  induction xs generalizing busy with
  | nil => exact refl slot busy
  | cons x _ ih =>
    obtain ⟨r, hr, hseg⟩ := h x mem_cons_self
    have hkey : cfg.busyKey x.1 = r.key := by
      have hoff : r.key.unitOffset = x.1 := congrArg Segment.unitOffset hseg
      rw [← hoff]
      exact (hok.keyed r hr).symm
    have hfirst : Rewrites slot busy (apply busy (.put ⟨cfg.busyKey x.1, x.2, slot⟩)) :=
      put hok (x := ⟨cfg.busyKey x.1, x.2, slot⟩) hr hseg.symm hkey
    refine hfirst.trans (ih (hfirst.busyOk hok) fun y hy => ?_)
    obtain ⟨z, hz, hzseg⟩ := h y (mem_cons_of_mem _ hy)
    obtain ⟨w, hw, hwseg⟩ := hfirst.forth z hz
    exact ⟨w, hw, hwseg.trans hzseg⟩

end Rewrites
end Records

variable {u : ℕ} {marks : List MarkCall} {free : List FreeRecord} {plan : CompactionPlan}

section Store
variable {cfg : ZoneConfig} {st st' : ZoneStore} {requested requested' : List Segment}
  {lost lost' : Finset ℕ}

namespace StoreOk

/-- Entries of busy keys, provided that the records they leave are fine. -/
theorem log (h : StoreOk cfg st) (hbusy : BusyOk cfg (applyAll st.busy ops))
    (hnew : ∀ r, .put r ∈ ops → r.commitSlot = st.slot + 1) : StoreOk cfg (st.log ops) where
  busy := hbusy
  slots r hr := by
    change 0 < r.commitSlot ∧ r.commitSlot ≤ st.slot + 1
    rcases mem_applyAll hr with hr | hr
    · have hold := h.slots r hr
      omega
    · have hslot := hnew r hr
      omega
  logged r hr := by
    rcases mem_applyAll hr with hr | hr
    · exact mem_append_left _ (h.logged r hr)
    · exact mem_append_right _ hr
  snapshot := h.snapshot.trans (Nat.le_succ _)
  covered r hr hslot := by
    rcases mem_applyAll hr with hr | hr
    · exact h.covered r hr hslot
    · have hle : r.commitSlot ≤ st.slot := hslot.trans h.snapshot
      have hslot := hnew r hr
      omega
  free_keyed := h.free_keyed
  free_nodup := h.free_nodup

lemma tick (h : StoreOk cfg st) : StoreOk cfg { st with slot := st.slot + 1 } :=
  { h with
    slots := fun r hr => ⟨(h.slots r hr).1, (h.slots r hr).2.trans (Nat.le_succ _)⟩
    snapshot := h.snapshot.trans (Nat.le_succ _) }

lemma putZone (h : StoreOk cfg st) {v : Snapshot} (hslot : v.snapshotSlot ≤ st.slot)
    (hbits : ∀ r ∈ st.busy, r.units ⊆ v.bits) : StoreOk cfg (st.putZone v) :=
  { h with
    slots := h.tick.slots
    snapshot := hslot.trans (Nat.le_succ _)
    covered := fun r hr _ => hbits r hr }

/-- One more free fact. -/
theorem putFree (slot : ℕ) (hkeyed : ∀ f ∈ free, f.key = cfg.freeKey f.segment)
    (hnodup : (free.map FreeRecord.key).Nodup) (x : Segment × ℕ) :
    (∀ f ∈ putFree cfg slot free x, f.key = cfg.freeKey f.segment) ∧
      ((putFree cfg slot free x).map FreeRecord.key).Nodup := by
  constructor
  · exact forall_mem_concat (fun f hf => hkeyed f (mem_of_mem_filter hf)) rfl
  · rw [ZoneStore.putFree, map_append, nodup_append]
    refine ⟨hnodup.sublist (filter_sublist.map _), by simp, ?_⟩
    rintro a ha b hb rfl
    obtain ⟨f, hf, rfl⟩ := mem_map.mp ha
    have hne : f.key ≠ cfg.freeKey x.1 := by simpa using (mem_filter.mp hf).2
    exact hne (by simpa using hb)

lemma persistFree (h : StoreOk cfg st) (xs : List (Segment × ℕ)) :
    StoreOk cfg (st.persistFree cfg xs) := by
  have hfree : ∀ free : List FreeRecord, (∀ f ∈ free, f.key = cfg.freeKey f.segment) →
      (free.map FreeRecord.key).Nodup →
      (∀ f ∈ xs.foldl (ZoneStore.putFree cfg (st.slot + 1)) free, f.key = cfg.freeKey f.segment) ∧
        ((xs.foldl (ZoneStore.putFree cfg (st.slot + 1)) free).map FreeRecord.key).Nodup := by
    induction xs with
    | nil => exact fun free h1 h2 => ⟨h1, h2⟩
    | cons x _ ih =>
      intro free h1 h2
      obtain ⟨h1', h2'⟩ := putFree (st.slot + 1) h1 h2 x
      exact ih _ h1' h2'
  obtain ⟨hkeyed, hnodup⟩ := hfree st.free h.free_keyed h.free_nodup
  exact
    { h.tick with free_keyed := hkeyed, free_nodup := hnodup }

end StoreOk

/-- The facts that a batch of frees leaves are old ones or facts of its segments. -/
theorem segment_of_mem_putFree {xs : List (Segment × ℕ)} {f : FreeRecord}
    (h : f ∈ xs.foldl (putFree cfg slot) free) : f ∈ free ∨ ∃ x ∈ xs, f.segment = x.1 := by
  induction xs generalizing free with
  | nil => exact .inl h
  | cons x _ ih =>
    rcases ih h with hf | ⟨y, hy, hseg⟩
    · rcases mem_append.mp hf with hf | hf
      · exact .inl (mem_of_mem_filter hf)
      · rw [mem_singleton.mp hf]
        exact .inr ⟨x, mem_cons_self, rfl⟩
    · exact .inr ⟨y, mem_cons_of_mem _ hy, hseg⟩

/-- What a write may do to the busy records: keep them, write an incarnation again, or add
records on `fresh` units. -/
structure Later (st st' : ZoneStore) (fresh : List ℕ) : Prop where
  slot : st.slot ≤ st'.slot
  back : ∀ r' ∈ st'.busy, r' ∈ st.busy ∨ st.slot < r'.commitSlot ∧
    ((∃ r ∈ st.busy, r.segment = r'.segment ∧ r.key = r'.key) ∨ ∀ u ∈ r'.bits, u ∈ fresh)
  forth : ∀ r ∈ st.busy, ∃ r' ∈ st'.busy, r'.segment = r.segment

namespace Later

lemma of_busy (hslot : st.slot ≤ st'.slot) (hbusy : st'.busy = st.busy) : Later st st' [] :=
  ⟨hslot, fun _ hr => .inl (hbusy ▸ hr), fun r hr => ⟨r, hbusy ▸ hr, rfl⟩⟩

lemma of_rewrites (h : Rewrites (st.slot + 1) st.busy st'.busy)
    (hslot : st'.slot = st.slot + 1) : Later st st' [] where
  slot := by omega
  back r hr := by
    rcases h.back r hr with hr | ⟨hr, hsame⟩
    · exact .inl hr
    · exact .inr ⟨by omega, .inl hsame⟩
  forth := h.forth

variable {fresh : List ℕ}

lemma old (h : Later st st' fresh) (hr : r ∈ st'.busy) (hslot : r.commitSlot ≤ st.slot) :
    r ∈ st.busy := by
  rcases h.back r hr with hr | ⟨hlt, -⟩
  · exact hr
  · omega

/-- A bit of a later record is a bit of an earlier one with its key, or fresh. -/
theorem bit (h : Later st st' fresh) {r' : BusyRecord} (hr : r' ∈ st'.busy) (hu : u ∈ r'.bits) :
    (∃ r ∈ st.busy, r.key = r'.key ∧ u ∈ r.bits) ∨ ∀ v ∈ r'.bits, v ∈ fresh := by
  rcases h.back r' hr with hr | ⟨-, ⟨r, hr, hseg, hkey⟩ | hfresh⟩
  · exact .inl ⟨r', hr, rfl, hu⟩
  · exact .inl ⟨r, hr, hkey, bits_eq_of_segment hseg ▸ hu⟩
  · exact .inr hfresh

end Later

variable {fresh : List ℕ}

lemma MarksOk.later (h : Later st st' fresh) (hm : MarksOk st marks) : MarksOk st' marks := by
  intro c hc v revision hread
  obtain ⟨hheld, hle, hsame⟩ := hm c hc v revision hread
  refine ⟨hheld, hle.trans h.slot, fun r hr hoff hrev => ?_⟩
  exact hsame r (h.old hr (hrev ▸ hle)) hoff hrev

lemma PlanOk.later (h : Later st st' fresh) (hreq : requested ⊆ requested')
    (hp : PlanOk cfg st requested plan) : PlanOk cfg st' requested' plan :=
  { hp with
    cutoff := hp.cutoff.trans h.slot
    present := fun f hf => by
      obtain ⟨r, hr, hseg⟩ := hp.present f hf
      obtain ⟨r', hr', hseg'⟩ := h.forth r hr
      exact ⟨r', hr', hseg'.trans hseg⟩
    requested := fun f hf => hreq (hp.requested f hf) }

/-- The record of a key that the plan deletes is the one the free fact was matched with. -/
theorem PlanOk.of_key (hp : PlanOk cfg st requested plan) {key : BusyBlockKey}
    (hkey : key ∈ plan.busyKeys) : ∃ f ∈ plan.matched, ∃ r ∈ st.busy, r.segment = f.segment ∧
      r.key.unitOffset = key.unitOffset := by
  rw [hp.keys] at hkey
  obtain ⟨f, hf, rfl⟩ := mem_map.mp hkey
  obtain ⟨r, hr, hseg⟩ := hp.present f hf
  exact ⟨f, hf, r, hr, hseg, congrArg Segment.unitOffset hseg⟩

lemma Compaction.Ok.later (hst : BusyOk cfg st.busy) (hst' : BusyOk cfg st'.busy)
    (h : Later st st' fresh) (hreq : requested ⊆ requested')
    (hfresh : ∀ u ∈ fresh, ∀ r ∈ st.busy, u ∉ r.bits) (hlost : lost ⊆ lost')
    (hlost' : ∀ u ∈ lost', u ∈ lost ∨ u ∈ fresh) {c : Compaction}
    (hc : c.Ok cfg st requested lost) : c.Ok cfg st' requested' lost' := by
  cases c with
  | idle => trivial
  | freeScanned =>
    exact ⟨hc.1.trans h.slot, hc.2.1, fun f hf => ⟨(hc.2.2 f hf).1, hreq (hc.2.2 f hf).2⟩⟩
  | copying =>
    refine ⟨hc.1.later h hreq, fun r hr hslot u hu hw => ?_⟩
    exact (hc.2 r (h.old hr (hslot.trans hc.1.cutoff)) hslot u hu hw).imp_right (hlost ·)
  | prepared =>
    refine ⟨hc.1.later h hreq, fun r hr hslot hkey u hu => ?_⟩
    exact (hc.2 r (h.old hr (hslot.trans hc.1.cutoff)) hslot hkey u hu).imp_right (hlost ·)
  | admitted =>
    refine ⟨hc.1.later h hreq, fun r hr hslot => ?_, fun r' hr' hkey u hu hul => ?_⟩
    · exact hc.2.1 r (h.old hr (hslot.trans hc.1.cutoff)) hslot
    · rcases h.bit hr' hu with ⟨r, hr, hrkey, hur⟩ | hbits
      · rcases hlost' u hul with hul | hul
        · exact hc.2.2 r hr (hrkey ▸ hkey) u hur hul
        · exact hfresh u hul r hr hur
      · -- a fresh record cannot have the key of a matched one
        obtain ⟨f, hf, r, hr, -, hoff⟩ := hc.1.of_key hkey
        exact hfresh _ (hbits _ (hst'.offset_mem hr')) r hr (hoff ▸ hst.offset_mem hr)
  | publishing => trivial

end Store

variable {c c' : AllocCall}

section Memory
variable {cfg : ZoneConfig} {st st' : ZoneStore} {requested requested' : List Segment}
  {lost : Finset ℕ} {m m' : ZoneMemory}

lemma AllocCall.admittedBits_subset (h : u ∈ c.admittedBits) : u ∈ c.held := by
  unfold admittedBits at h
  split at h
  · exact mem_append_left _ h
  · cases h

variable {k : ℕ}

section
variable (hk : m.allocs[k]? = some c)
include hk

/-- The holdings of one allocation, apart from the others. -/
theorem ZoneMemory.perm_held : m.held.Perm
      (c.held ++ ((m.allocs.eraseIdx k).flatMap AllocCall.held ++ m.compaction.held)) := by
  rw [← append_assoc]
  exact (perm_flatMap_eraseIdx AllocCall.held hk).append_right _

lemma ZoneMemory.perm_held_set (c' : AllocCall) :
    ((m.allocs.set k c').flatMap AllocCall.held ++ m.compaction.held).Perm
      (c'.held ++ ((m.allocs.eraseIdx k).flatMap AllocCall.held ++ m.compaction.held)) := by
  rw [← append_assoc]
  exact (perm_flatMap_set AllocCall.held hk c').append_right _

lemma ZoneMemory.mem_admittedBits_set
    (h : u ∈ (m.allocs.set k c').flatMap AllocCall.admittedBits) :
    u ∈ c'.admittedBits ∨ u ∈ (m.allocs.eraseIdx k).flatMap AllocCall.admittedBits :=
  mem_append.mp ((perm_flatMap_set AllocCall.admittedBits hk c').mem_iff.mp h)

lemma ZoneMemory.admittedBits_erase
    (h : u ∈ (m.allocs.eraseIdx k).flatMap AllocCall.admittedBits) :
    u ∈ m.admittedBits :=
  (perm_flatMap_eraseIdx AllocCall.admittedBits hk).mem_iff.mpr (mem_append_right _ h)

end

lemma admittedBits_erase_subset {allocs : List AllocCall}
    (h : u ∈ allocs.flatMap AllocCall.admittedBits) : u ∈ allocs.flatMap AllocCall.held := by
  obtain ⟨c, hc, hu⟩ := mem_flatMap.mp h
  exact mem_flatMap.mpr ⟨c, hc, admittedBits_subset hu⟩

/-- The same bits, with the same holders. -/
structure ZoneMemory.SameHolders (m m' : ZoneMemory) : Prop where
  bits : m'.bits = m.bits
  allocs : m'.allocs = m.allocs
  compaction : m'.compaction = m.compaction
  gate : m.gateClosed = true → m'.gateClosed = true

lemma ZoneMemory.gate_settle (o : WriteOutcome) (h : m.gateClosed = true) :
    (m.settle o).gateClosed = true := by
  simp [settle, h]

namespace MemoryOk

section
variable (h : MemoryOk cfg st requested m lost)
include h

/-- A write that adds no records, seen by a memory that has the same bits and holders. -/
theorem later (hst : BusyOk cfg st.busy) (hst' : BusyOk cfg st'.busy) (hl : Later st st' [])
    (hreq : requested ⊆ requested') (hsame : m.SameHolders m') (hmarks : MarksOk st' m'.marks)
    (hfrees : FreesOk requested' m'.frees) : MemoryOk cfg st' requested' m' lost := by
  obtain ⟨hbits, hallocs, hcomp, hgate⟩ := hsame
  have hheld : m'.held = m.held := by rw [ZoneMemory.held, ZoneMemory.held, hallocs, hcomp]
  have hbit : ∀ r' ∈ st'.busy, ∀ u ∈ r'.bits, ∃ r ∈ st.busy, u ∈ r.bits := by
    intro r' hr' u hu
    rcases hl.bit hr' hu with ⟨r, hr, -, hur⟩ | hfresh
    · exact ⟨r, hr, hur⟩
    · exact absurd (hfresh u hu) (by simp)
  refine
    { gate := h.gate.imp_right hgate
      covers := fun r' hr' u hu => ?_
      holds := by rw [hbits, hheld]; exact h.holds
      held_free := fun u hu r' hr' hur => ?_
      admitted_free := fun u hu r' hr' hur => ?_
      allocs := hallocs ▸ h.allocs
      marks := hmarks
      frees := hfrees
      compaction := hcomp ▸ h.compaction.later hst hst' hl hreq (by simp) subset_rfl
        fun _ => .inl }
  · obtain ⟨r, hr, hur⟩ := hbit r' hr' u hu
    rw [hbits]
    exact h.covers r hr u hur
  · obtain ⟨r, hr, hur⟩ := hbit r' hr' u hur
    exact h.held_free u (hheld ▸ hu) r hr hur
  · obtain ⟨r, hr, hur⟩ := hbit r' hr' u hur
    rw [ZoneMemory.admittedBits, hallocs] at hu
    exact h.admitted_free u hu r hr hur

/-- One holder takes or gives back bits. -/
theorem move {own own' other : List ℕ} (hmove : HoldMove m.bits own m'.bits own')
    (hperm : m.held.Perm (own ++ other)) (hperm' : m'.held.Perm (own' ++ other)) :
    (∀ r ∈ st.busy, ∀ u ∈ r.bits, u ∈ m'.bits ∨ u ∈ lost) ∧ Holds m'.bits m'.held ∧
      ∀ u ∈ m'.held, ∀ r ∈ st.busy, u ∈ r.bits → u ∈ lost := by
  have hown : ∀ u ∈ own, ∀ r ∈ st.busy, u ∈ r.bits → u ∈ lost := fun u hu =>
    h.held_free u (hperm.mem_iff.mpr (mem_append_left _ hu))
  refine ⟨fun r hr u hu => ?_, (hmove.holds (h.holds.perm hperm)).perm hperm'.symm,
    fun u hu r hr hur => ?_⟩
  · rcases h.covers r hr u hu with hub | hul
    · exact (hmove.of_taken hub).imp_right fun huo => hown u huo r hr hu
    · exact .inr hul
  · rcases mem_append.mp (hperm'.mem_iff.mp hu) with huo | huo
    · rcases hmove.of_held huo with huo | hub
      · exact hown u huo r hr hur
      · exact (h.covers r hr u hur).resolve_left hub
    · exact h.held_free u (hperm.mem_iff.mpr (mem_append_right _ huo)) r hr hur

/-- One allocation takes or gives back bits, or passes the gate. -/
theorem setAlloc (hk : m.allocs[k]? = some c) (hmove : HoldMove m.bits c.held m'.bits c'.held)
    (hclear : ∀ u ∈ c'.admittedBits, ∀ r ∈ st.busy, u ∉ r.bits) (hok : c'.Ok cfg)
    (hallocs : m'.allocs = m.allocs.set k c') (hcomp : m'.compaction = m.compaction)
    (hgate : m.gateClosed = true → m'.gateClosed = true) (hmarks : m'.marks = m.marks)
    (hfrees : m'.frees = m.frees) : MemoryOk cfg st requested m' lost := by
  have hperm' : m'.held.Perm
      (c'.held ++ ((m.allocs.eraseIdx k).flatMap AllocCall.held ++ m.compaction.held)) := by
    rw [ZoneMemory.held, hallocs, hcomp]
    exact perm_held_set hk c'
  obtain ⟨hcovers, hholds, hfree⟩ := h.move hmove (perm_held hk) hperm'
  refine
    { gate := h.gate.imp_right hgate
      covers := hcovers
      holds := hholds
      held_free := hfree
      admitted_free := fun u hu r hr => ?_
      allocs := hallocs ▸ forall_mem_set h.allocs hok
      marks := hmarks ▸ h.marks
      frees := hfrees ▸ h.frees
      compaction := hcomp ▸ h.compaction }
  rw [ZoneMemory.admittedBits, hallocs] at hu
  rcases mem_admittedBits_set hk hu with hu | hu
  · exact hclear u hu r hr
  · exact h.admitted_free u (admittedBits_erase hk hu) r hr

/-- The compaction goes on. -/
theorem setCompaction {c : Compaction} (hmove : HoldMove m.bits m.compaction.held m'.bits c.held)
    (hok : c.Ok cfg st requested lost) (hallocs : m'.allocs = m.allocs) (hcomp : m'.compaction = c)
    (hgate : m.gateClosed = true → m'.gateClosed = true) (hmarks : m'.marks = m.marks)
    (hfrees : m'.frees = m.frees) : MemoryOk cfg st requested m' lost := by
  have hperm' : m'.held.Perm (c.held ++ m.allocs.flatMap AllocCall.held) := by
    rw [ZoneMemory.held, hallocs, hcomp]
    exact perm_append_comm
  obtain ⟨hcovers, hholds, hfree⟩ := h.move hmove perm_append_comm hperm'
  exact
    { gate := h.gate.imp_right hgate
      covers := hcovers
      holds := hholds
      held_free := hfree
      admitted_free := by rw [ZoneMemory.admittedBits, hallocs]; exact h.admitted_free
      allocs := hallocs ▸ h.allocs
      marks := hmarks ▸ h.marks
      frees := hfrees ▸ h.frees
      compaction := hcomp ▸ hok }

end

end MemoryOk
end Memory

variable {xs : List (ℕ × BusyBlockValue)}

section Steps
variable {cfg : ZoneConfig} {s t : ZoneState} {m m' : ZoneMemory} {k : ℕ} {a : ZoneAction}
  {o : WriteOutcome} {c : AllocCall} {freed : List Segment}

/-- A write of incarnations that are there. -/
theorem ZoneEffect.rewrite (hm : s.memory = some m) (hallocs : m'.allocs = m.allocs)
    {p : Prop} [Decidable p] {st : ZoneStore}
    (hst : p → StoreOk cfg st ∧ Later s.store st []) :
    ZoneEffect s freed
      { s with store := if p then st else s.store, memory := some m' } := by
  split
  · next hp =>
    obtain ⟨hok, hl⟩ := hst hp
    refine .keep (fun g => ?_) rfl ?_ le_rfl
    · simp only [mem_incarnations]
      constructor
      · rintro ⟨r', hr', rfl⟩
        rcases hl.back r' hr' with hr | ⟨-, ⟨r, hr, hseg, -⟩ | hfresh⟩
        · exact ⟨r', hr, rfl⟩
        · exact ⟨r, hr, hseg⟩
        · exact absurd (hfresh _ (hok.busy.offset_mem hr')) (by simp)
      · rintro ⟨r, hr, rfl⟩
        exact hl.forth r hr
    · rw [inflight_of_memory hm, ← hallocs]
      exact Subperm.refl _
  · exact .frame hm hallocs

/-- What a step keeps, and what it does to the incarnations if its timestamps are later ones. -/
structure ZoneStep (cfg : ZoneConfig) (s : ZoneState) (a : ZoneAction) (t : ZoneState) : Prop where
  inv : ZoneInv cfg t
  effect : s.stampsLater a = true → ZoneEffect s (s.consolidates a) t

/-- The memory takes a step of its own. -/
theorem ZoneInv.setMemory (h : ZoneInv cfg s) {lost : Finset ℕ}
    (hm : MemoryOk cfg s.store s.freeRequested m' lost) : ZoneInv cfg (s.setMemory m') :=
  ⟨h.store, ⟨h.ledger.requested, h.ledger.present, h.ledger.apart⟩,
    fun _ hx => by cases hx; exact ⟨lost, hm⟩⟩

/-- A step that leaves the bits, the allocations and the compaction alone. -/
theorem ZoneInv.frame (h : ZoneInv cfg s) (hm : s.memory = some m) (hsame : m.SameHolders m')
    (hmarks : MarksOk s.store m.marks → MarksOk s.store m'.marks)
    (hfrees : FreesOk s.freeRequested m.frees → FreesOk s.freeRequested m'.frees) :
    ZoneStep cfg s a (s.setMemory m') := by
  obtain ⟨lost, hok⟩ := h.memory m hm
  exact ⟨h.setMemory (hok.later h.store.busy h.store.busy (Later.of_busy le_rfl rfl)
    (Subset.refl _) hsame (hmarks hok.marks) (hfrees hok.frees)),
    fun _ => .frame hm hsame.allocs⟩

section Allocation

/-- Timestamps are issued with the stamp of a call, and only there. -/
theorem ZoneEffect.alloc {a : AllocAction} {bits : Finset ℕ} {lastTs : ℕ} (hm : s.memory = some m)
    (hk : m.allocs[k]? = some c) (hmoves : Moves cfg m.bits m.lastTs c a bits lastTs c')
    (hg : s.stampsLater (.alloc k a) = true) : ZoneEffect s freed
      { s with
        memory := some { m with bits, lastTs, allocs := m.allocs.set k c' }
        issuedTs := max s.issuedTs lastTs } := by
  obtain ⟨hold, hnew⟩ := hmoves.stamps
  have hflight := perm_inflight hm hk
  rw [hold] at hflight
  have hflight' := perm_flatMap_set stamps hk c'
  rcases hnew with hnil | ⟨clock, rfl, hstamps, rfl⟩
  · rw [hnil] at hflight'
    exact .keep (fun g => Iff.rfl) rfl (hflight'.trans hflight.symm).subperm (le_max_left _ _)
  · rw [hstamps] at hflight'
    have hlater : ∀ ts ∈ nextAllocationTs m.lastTs clock, s.issuedTs < ts := by
      simpa [stampsLater, hm] using hg
    refine .issue _ rfl rfl (hflight'.trans (hflight.symm.append_left _))
      (nodup_nextAllocationTs _ _) (fun ts hts => ⟨hlater ts hts, ?_⟩) (le_max_left _ _)
    exact (nextAllocationTs_le _ _ ts hts).trans (le_max_right _ _)

lemma ZoneInv.stepAlloc (h : ZoneInv cfg s) (hm : s.memory = some m) {a : AllocAction}
    (ht : s.stepAlloc cfg m k a = some t) : ZoneStep cfg s (.alloc k a) t := by
  obtain ⟨c, hk, ht⟩ := bind_eq_some_iff.mp ht
  obtain ⟨⟨bits, ts, c'⟩, hstep, ht⟩ := map_eq_some_iff.mp ht
  obtain ⟨lost, hok⟩ := h.memory m hm
  have hmoves := moves_of_step hstep
  have hc := hok.allocs c (mem_of_getElem? hk)
  have hclear : ∀ u ∈ c'.admittedBits, ∀ r ∈ s.store.busy, u ∉ r.bits := by
    rw [hmoves.admittedBits_eq]
    simp
  cases ht
  refine ⟨⟨h.store, ⟨h.ledger.requested, h.ledger.present, h.ledger.apart⟩, fun _ hx => ?_⟩,
    .alloc hm hk hmoves⟩
  cases hx
  exact ⟨lost, hok.setAlloc hk (hmoves.hold hc) hclear (hmoves.ok hc) rfl rfl id rfl rfl⟩

/-- The allocation goes on without timestamps that it did not have before. -/
theorem ZoneEffect.setAlloc (hm : s.memory = some m) (hk : m.allocs[k]? = some c)
    (hallocs : m'.allocs = m.allocs.set k c') (hsub : c'.stamps.Sublist c.stamps) :
    ZoneEffect s freed (s.setMemory m') := by
  refine .of_busy rfl rfl rfl ?_
  refine Subperm.trans ?_ (perm_inflight hm hk).symm.subperm
  simp only [inflight, setMemory, hallocs]
  exact (perm_flatMap_set stamps hk c').subperm.trans
    (Subperm.append hsub.subperm (Subperm.refl _))

/-- The claims of an allocation are undone. -/
theorem ZoneInv.rollBack (h : ZoneInv cfg s) (hm : s.memory = some m) (hk : m.allocs[k]? = some c)
    (hallocs : m'.allocs = m.allocs.set k c.rollBack) (hbits : m'.bits = m.bits)
    (hcomp : m'.compaction = m.compaction) (hgate : m.gateClosed = true → m'.gateClosed = true)
    (hmarks : m'.marks = m.marks) (hfrees : m'.frees = m.frees) :
    ZoneStep cfg s a (s.setMemory m') := by
  obtain ⟨lost, hok⟩ := h.memory m hm
  exact ⟨h.setMemory (hok.setAlloc hk (hbits ▸ .keep subset_rfl held_rollBack) (forall_mem_nil _)
    ok_rollBack hallocs hcomp hgate hmarks hfrees),
    fun _ => .setAlloc hm hk hallocs (nil_sublist _)⟩

lemma ZoneInv.admitAlloc (h : ZoneInv cfg s) (hm : s.memory = some m)
    (ht : s.admitAlloc m k = some t) : ZoneStep cfg s a t := by
  obtain ⟨c, hk, ht⟩ := bind_eq_some_iff.mp ht
  obtain ⟨lost, hok⟩ := h.memory m hm
  have hc := hok.allocs c (mem_of_getElem? hk)
  split at ht
  · next records hphase =>
    cases ht
    by_cases hgate : m.gateClosed = true
    · simp only [if_pos hgate]
      exact h.rollBack hm hk rfl rfl rfl id rfl rfl
    · simp only [if_neg hgate]
      have hlost : lost = ∅ := hok.gate.resolve_right hgate
      have hheld : c.held = c.claims.flatMap AllocatedRange.bits := by simp [AllocCall.held, hphase]
      have hclear : ∀ u ∈ { c with phase := .admitted records }.admittedBits,
          ∀ r ∈ s.store.busy, u ∉ r.bits := by
        intro u hu r hr hur
        have hul := hok.held_free u ((perm_held hk).mem_iff.mpr
          (mem_append_left _ (hheld ▸ hu))) r hr hur
        simp [hlost] at hul
      have hphaseOk := hc.phase
      rw [hphase] at hphaseOk
      have hc' : { c with phase := .admitted records }.Ok cfg := ⟨hc.claims, hphaseOk⟩
      refine ⟨h.setMemory (hok.setAlloc hk ?_ hclear hc' rfl rfl id rfl rfl),
        fun _ => .setAlloc hm hk rfl ?_⟩
      · rw [hheld]
        exact .keep subset_rfl (Perm.subperm (by simp [AllocCall.held]))
      · simp [stamps, hphase]
  · cases ht

/-- The records that a batch writes. -/
def newRecords (cfg : ZoneConfig) (slot : ℕ) (xs : List (ℕ × BusyBlockValue)) : List BusyRecord :=
  xs.map fun x => ⟨cfg.busyKey x.1, x.2, slot⟩

lemma flatMap_newRecords (slot : ℕ) (xs : List (ℕ × BusyBlockValue)) :
    (newRecords cfg slot xs).flatMap BusyRecord.bits =
      (xs.map fun x => (⟨x.1, x.2.unitCount⟩ : AllocatedRange)).flatMap AllocatedRange.bits := by
  rw [newRecords, flatMap_map, flatMap_map]
  rfl

/-- What an admitted allocation is about to write. -/
structure AdmittedWrite (cfg : ZoneConfig) (st : ZoneStore) (recs : List BusyRecord)
    (fresh : List ℕ) : Prop where
  bits : recs.flatMap BusyRecord.bits = fresh
  slot : ∀ r ∈ recs, r.commitSlot = st.slot + 1
  free : ∀ u ∈ fresh, ∀ r ∈ st.busy, u ∉ r.bits
  busy : BusyOk cfg (st.busy ++ recs)
  written : BusyOp.applyAll st.busy (recs.map .put) = st.busy ++ recs

lemma MemoryOk.admittedWrite {requested : List Segment} {lost : Finset ℕ}
    (h : MemoryOk cfg st requested m lost) (hst : StoreOk cfg st) (hk : m.allocs[k]? = some c)
    (hphase : c.phase = .admitted xs) :
    AdmittedWrite cfg st (newRecords cfg (st.slot + 1) xs) c.held := by
  have hc := h.allocs c (mem_of_getElem? hk)
  have hranges : xs.map (fun x => ⟨x.1, x.2.unitCount⟩) = c.claims := by
    simpa [hphase] using hc.phase
  have hheld : c.held = c.claims.flatMap AllocatedRange.bits := by simp [AllocCall.held, hphase]
  have hbits : (newRecords cfg (st.slot + 1) xs).flatMap BusyRecord.bits = c.held := by
    rw [flatMap_newRecords, hranges, hheld]
  have hfree : ∀ u ∈ c.held, ∀ r ∈ st.busy, u ∉ r.bits := by
    intro u hu
    apply h.admitted_free
    refine (perm_flatMap_eraseIdx AllocCall.admittedBits hk).mem_iff.mpr (mem_append_left _ ?_)
    rw [AllocCall.admittedBits, hphase, ← hheld]
    exact hu
  have hnew : BusyOk cfg (newRecords cfg (st.slot + 1) xs) :=
    { keyed := fun r hr => by
        obtain ⟨x, -, rfl⟩ := mem_map.mp hr
        rfl
      sized := fun r hr => by
        obtain ⟨x, hx, rfl⟩ := mem_map.mp hr
        exact hc.claims ⟨x.1, x.2.unitCount⟩ (hranges ▸ mem_map_of_mem hx)
      apart := by
        rw [hbits]
        exact (nodup_append.mp (h.holds.perm (perm_held hk)).nodup).1 }
  have hkeys : ∀ r ∈ newRecords cfg (st.slot + 1) xs, ∀ x ∈ st.busy, x.key ≠ r.key := by
    intro r hr x hx hkey
    have hoff : r.key.unitOffset ∈ c.held := hbits ▸ mem_flatMap.mpr ⟨r, hr, hnew.offset_mem hr⟩
    exact hfree _ hoff x hx (hkey ▸ hst.busy.offset_mem hx)
  refine ⟨hbits, fun r hr => ?_, hfree, ?_, applyAll_new hkeys ?_⟩
  · obtain ⟨x, -, rfl⟩ := mem_map.mp hr
    rfl
  · refine ⟨fun r hr => ?_, fun r hr => ?_, ?_⟩
    · exact (mem_append.mp hr).elim (hst.busy.keyed r) (hnew.keyed r)
    · exact (mem_append.mp hr).elim (hst.busy.sized r) (hnew.sized r)
    · rw [flatMap_append, nodup_append]
      refine ⟨hst.busy.apart, hnew.apart, ?_⟩
      rintro u hu v hv rfl
      obtain ⟨r, hr, hur⟩ := mem_flatMap.mp hu
      exact hfree u (hbits ▸ hv) r hr hur
  · refine hnew.nodup.pairwise_of_forall_ne fun a ha b hb hne hkey => hne ?_
    exact hnew.eq_of_offset ha hb (congrArg BusyBlockKey.unitOffset hkey)

lemma ZoneStore.persistBusy_eq (st : ZoneStore) (xs : List (ℕ × BusyBlockValue)) :
    st.persistBusy cfg xs = st.log ((newRecords cfg (st.slot + 1) xs).map .put) := by
  rw [newRecords, List.map_map]
  rfl

namespace AdmittedWrite
variable {st : ZoneStore} {recs : List BusyRecord} {fresh : List ℕ}

section
variable (w : AdmittedWrite cfg st recs fresh)
include w

lemma busy_eq : (st.log (recs.map .put)).busy = st.busy ++ recs := w.written

lemma storeOk (h : StoreOk cfg st) : StoreOk cfg (st.log (recs.map .put)) := by
  refine h.log (by rw [w.written]; exact w.busy) fun r hr => w.slot r ?_
  simpa using hr

lemma mem_fresh (hr : r ∈ recs) (hu : u ∈ r.bits) : u ∈ fresh :=
  w.bits ▸ mem_flatMap.mpr ⟨r, hr, hu⟩

lemma later : Later st (st.log (recs.map .put)) fresh where
  slot := Nat.le_succ _
  back r hr := by
    rw [w.busy_eq] at hr
    rcases mem_append.mp hr with hr | hr
    · exact .inl hr
    · refine .inr ⟨?_, .inr fun u => w.mem_fresh hr⟩
      rw [w.slot r hr]
      exact Nat.lt_succ_self _
  forth r hr := ⟨r, w.busy_eq ▸ mem_append_left _ hr, rfl⟩

/-- A bit of a record after the write is an old one or fresh. -/
theorem bit (hr : r ∈ (st.log (recs.map .put)).busy) (hu : u ∈ r.bits) :
    r ∈ st.busy ∨ u ∈ fresh := by
  rw [w.busy_eq] at hr
  exact (mem_append.mp hr).imp_right fun hr => w.mem_fresh hr hu

end

/-- The new segments are apart from each other and from every live one. -/
theorem ledgerOk (w : AdmittedWrite cfg s.store recs fresh) (h : LedgerOk s)
    {memory : Option ZoneMemory} :
    LedgerOk
      { s with
        store := s.store.log (recs.map .put)
        memory
        returned := s.returned ++ recs.map BusyRecord.segment } where
  requested := h.requested
  present g hg hfree := by
    simp only [w.busy_eq]
    rcases mem_append.mp hg with hg | hg
    · obtain ⟨r, hr, hseg⟩ := h.present g hg hfree
      exact ⟨r, mem_append_left _ hr, hseg⟩
    · obtain ⟨r, hr, rfl⟩ := mem_map.mp hg
      exact ⟨r, mem_append_right _ hr, rfl⟩
  apart := by
    have hnew : (recs.map BusyRecord.segment).Pairwise fun a b => Disjoint a.units b.units :=
      pairwise_map.mpr (pairwise_append.mp w.busy.pairwise_disjoint).2.1
    rw [filter_append, pairwise_append]
    refine ⟨h.apart, hnew.filter _, fun a ha b hb => ?_⟩
    obtain ⟨ha, hlive⟩ := mem_filter.mp ha
    obtain ⟨r, hr, rfl⟩ := h.present a ha (by simpa using hlive)
    obtain ⟨x, hx, rfl⟩ := mem_map.mp (mem_of_mem_filter hb)
    exact Finset.disjoint_left.mpr fun u hur hux =>
      w.free u (w.mem_fresh hx (mem_bits.mpr hux)) r hr (mem_bits.mpr hur)

end AdmittedWrite

namespace MemoryOk
variable {st : ZoneStore} {requested : List Segment} {lost : Finset ℕ} {recs : List BusyRecord}

section
variable (h : MemoryOk cfg st requested m lost) (hst : StoreOk cfg st) (hk : m.allocs[k]? = some c)
  (w : AdmittedWrite cfg st recs c.held) (hbits : m'.bits = m.bits)
include h hst hk w hbits

/-- The claims of an acknowledged allocation belong to its records. -/
theorem written (hallocs : m'.allocs = m.allocs.eraseIdx k) (hcomp : m'.compaction = m.compaction)
    (hgate : m'.gateClosed = m.gateClosed) (hmarks : m'.marks = m.marks)
    (hfrees : m'.frees = m.frees) : MemoryOk cfg (st.log (recs.map .put)) requested m' lost := by
  have hheld : m'.held = (m.allocs.eraseIdx k).flatMap AllocCall.held ++ m.compaction.held := by
    rw [ZoneMemory.held, hallocs, hcomp]
  have hperm : m.held.Perm (c.held ++ m'.held) := hheld ▸ perm_held hk
  have hall := h.holds.perm hperm
  have hapart : ∀ u ∈ m'.held, u ∉ c.held := fun u hu huc =>
    (nodup_append.mp hall.nodup).2.2 u huc u hu rfl
  have hadm : ∀ u ∈ m'.admittedBits, u ∈ m'.held := fun u hu =>
    mem_append_left _ (admittedBits_erase_subset hu)
  refine
    { gate := hgate ▸ h.gate
      covers := fun r hr u hu => ?_
      holds := by rw [hbits]; exact hall.right
      held_free := fun u hu r hr hur => ?_
      admitted_free := fun u hu r hr hur => ?_
      allocs := fun x hx => h.allocs x (mem_of_mem_eraseIdx (hallocs ▸ hx))
      marks := hmarks ▸ h.marks.later w.later
      frees := hfrees ▸ h.frees
      compaction := hcomp ▸ h.compaction.later hst.busy (w.storeOk hst).busy w.later
        (Subset.refl _) w.free subset_rfl fun _ => .inl }
  · rw [hbits]
    rcases w.bit hr hu with hr | huc
    · exact h.covers r hr u hu
    · exact .inl (hall.taken u (mem_append_left _ huc))
  · rcases w.bit hr hur with hr | huc
    · exact h.held_free u (hperm.mem_iff.mpr (mem_append_right _ hu)) r hr hur
    · exact absurd huc (hapart u hu)
  · rcases w.bit hr hur with hr | huc
    · rw [ZoneMemory.admittedBits, hallocs] at hu
      exact h.admitted_free u (admittedBits_erase hk hu) r hr hur
    · exact hapart u (hadm u hu) huc

/-- The units of an applied write with an unknown outcome are lost; the gate is closed. -/
theorem lostWrite (hallocs : m'.allocs = m.allocs.set k c.rollBack)
    (hcomp : m'.compaction = m.compaction) (hgate : m'.gateClosed = true)
    (hmarks : m'.marks = m.marks) (hfrees : m'.frees = m.frees) :
    MemoryOk cfg (st.log (recs.map .put)) requested m' (lost ∪ c.held.toFinset) := by
  -- before the record counts, the claims are rolled back like after any other failure
  have hroll : MemoryOk cfg st requested m' lost :=
    h.setAlloc hk (hbits ▸ .keep subset_rfl held_rollBack) (forall_mem_nil _)
      ok_rollBack hallocs hcomp (fun _ => hgate) hmarks hfrees
  have hlost : ∀ u ∈ c.held, u ∈ lost ∪ c.held.toFinset := fun u hu =>
    Finset.mem_union_right _ (List.mem_toFinset.mpr hu)
  have hother : ∀ u ∈ m'.admittedBits, u ∉ c.held := by
    intro u hu huc
    rw [ZoneMemory.admittedBits, hallocs] at hu
    rcases mem_admittedBits_set hk hu with hu | hu
    · cases hu
    · have hnodup := (h.holds.perm (perm_held hk)).nodup
      exact (nodup_append.mp hnodup).2.2 u huc u
        (mem_append_left _ (admittedBits_erase_subset hu)) rfl
  refine
    { gate := .inr hgate
      covers := fun r hr u hu => ?_
      holds := hroll.holds
      held_free := fun u hu r hr hur => ?_
      admitted_free := fun u hu r hr hur => ?_
      allocs := hroll.allocs
      marks := hroll.marks.later w.later
      frees := hroll.frees
      compaction := hroll.compaction.later hst.busy (w.storeOk hst).busy w.later
        (Subset.refl _) w.free Finset.subset_union_left fun u hu => ?_ }
  · rcases w.bit hr hu with hr | huc
    · exact (hroll.covers r hr u hu).imp_right (Finset.mem_union_left _)
    · exact .inr (hlost u huc)
  · rcases w.bit hr hur with hr | huc
    · exact Finset.mem_union_left _ (hroll.held_free u hu r hr hur)
    · exact hlost u huc
  · rcases w.bit hr hur with hr | huc
    · exact hroll.admitted_free u hu r hr hur
    · exact hother u hu huc
  · exact (Finset.mem_union.mp hu).imp_right mem_toFinset.mp

end

end MemoryOk

/-- The records of an admitted allocation are written. -/
theorem AdmittedWrite.effect (hm : s.memory = some m) (hk : m.allocs[k]? = some c)
    (hphase : c.phase = .admitted xs)
    (w : AdmittedWrite cfg s.store (newRecords cfg (s.store.slot + 1) xs) c.held)
    (hstore : t.store = s.store.persistBusy cfg xs) (hcons : t.consolidated = s.consolidated)
    (hissued : t.issuedTs = s.issuedTs)
    (hflight : t.inflight.Perm ((m.allocs.eraseIdx k).flatMap stamps)) : ZoneEffect s freed t := by
  have hstamps : c.stamps =
      ((newRecords cfg (s.store.slot + 1) xs).map BusyRecord.segment).map Segment.allocationTs := by
    simp only [stamps, hphase, newRecords, List.map_map]
    rfl
  refine .write ((newRecords cfg (s.store.slot + 1) xs).map BusyRecord.segment) ?_ hcons ?_ hissued
  · rw [incarnations, hstore, persistBusy_eq, w.busy_eq, map_append]
    rfl
  · rw [← hstamps]
    exact (perm_inflight hm hk).trans (hflight.symm.append_left _)

lemma ZoneInv.writeAlloc (h : ZoneInv cfg s) (hm : s.memory = some m)
    (ht : s.writeAlloc cfg m k o = some t) : ZoneStep cfg s a t := by
  obtain ⟨c, hk, ht⟩ := bind_eq_some_iff.mp ht
  obtain ⟨lost, hok⟩ := h.memory m hm
  split at ht
  · next xs hphase =>
    have w := hok.admittedWrite h.store hk hphase
    have hfail : ∀ o, ZoneStep cfg s a
        (s.setMemory (({ m with allocs := m.allocs.set k c.rollBack }).settle o)) := fun o =>
      h.rollBack hm hk rfl rfl rfl (gate_settle o) rfl rfl
    cases o with
    | ok =>
      cases ht
      refine ⟨?_, fun _ => w.effect hm hk hphase rfl rfl rfl (Perm.refl _)⟩
      have hsegs : xs.map entrySegment =
          (newRecords cfg (s.store.slot + 1) xs).map BusyRecord.segment := by
        rw [newRecords, List.map_map]
        rfl
      simp only [persistBusy_eq, hsegs]
      refine ⟨w.storeOk h.store, w.ledgerOk h.ledger, fun _ hx => ?_⟩
      cases hx
      exact ⟨lost, hok.written h.store hk w rfl rfl rfl rfl rfl rfl⟩
    | failed =>
      cases ht
      exact hfail .failed
    | unknown applied =>
      cases applied with
      | false =>
        cases ht
        exact hfail (.unknown false)
      | true =>
        cases ht
        refine ⟨?_, fun _ => w.effect hm hk hphase rfl rfl rfl
          (perm_flatMap_set stamps hk c.rollBack)⟩
        simp only [persistBusy_eq]
        refine ⟨w.storeOk h.store, ⟨h.ledger.requested, fun g hg hfree => ?_, h.ledger.apart⟩,
          fun _ hx => ?_⟩
        · obtain ⟨r, hr, hseg⟩ := h.ledger.present g hg hfree
          exact ⟨r, w.busy_eq ▸ mem_append_left _ hr, hseg⟩
        · cases hx
          exact ⟨_, hok.lostWrite h.store hk w rfl rfl rfl (by simp [settle,
            WriteOutcome.isUnknown]) rfl rfl⟩
  · cases ht

end Allocation

section Updates

/-- Forgetting tentative blocks changes nothing else. -/
theorem ZoneMemory.foldl_forget {α : Type*} {f : ZoneMemory → α → ZoneMemory}
    (hf : ∀ m a, ∃ tentative ⊆ m.tentative, f m a = { m with tentative }) (l : List α)
    (m : ZoneMemory) : ∃ tentative ⊆ m.tentative, l.foldl f m = { m with tentative } := by
  induction l generalizing m with
  | nil => exact ⟨m.tentative, Subset.refl _, rfl⟩
  | cons a _ ih =>
    obtain ⟨x, hsub, hx⟩ := hf m a
    obtain ⟨y, hsub', hy⟩ := ih (f m a)
    rw [hx] at hsub'
    exact ⟨y, fun _ hz => hsub (hsub' hz), by rw [foldl_cons, hy, hx]⟩

lemma ZoneMemory.removeTentative_forgets (m : ZoneMemory) (ts : ℕ) :
    ∃ tentative ⊆ m.tentative, m.removeTentative ts = { m with tentative } :=
  ⟨_, filter_subset_self _, rfl⟩

lemma ZoneMemory.trimTentative_forgets (m : ZoneMemory) :
    ∃ tentative ⊆ m.tentative, m.trimTentative = { m with tentative } := by
  unfold trimTentative
  cases (m.tentative.map fun x => x.2.allocationTs).min? with
  | none => exact ⟨_, Subset.refl _, rfl⟩
  | some ts => exact m.removeTentative_forgets ts

lemma ZoneMemory.removeMatchingTentative_forgets (m : ZoneMemory) (x : Segment × ℕ) :
    ∃ tentative ⊆ m.tentative, m.removeMatchingTentative x.1 = { m with tentative } :=
  ⟨_, filter_subset_self _, rfl⟩

lemma MarksOk.erase (h : MarksOk st marks) (k : ℕ) : MarksOk st (marks.eraseIdx k) :=
  fun c hc => h c (mem_of_mem_eraseIdx hc)

lemma FreesOk.erase {requested : List Segment} {frees : List FreeCall}
    (h : FreesOk requested frees) (k : ℕ) : FreesOk requested (frees.eraseIdx k) :=
  fun c hc => h c (mem_of_mem_eraseIdx hc)

/-- A write that keeps every incarnation and adds free facts that were requested. -/
theorem ZoneInv.rewrite (h : ZoneInv cfg s) (hm : s.memory = some m) {st : ZoneStore}
    (hst : StoreOk cfg st) (hl : Later s.store st [])
    (hfree : ∀ f ∈ st.free, f ∈ s.store.free ∨ f.segment ∈ s.freeRequested)
    (hsame : m.SameHolders m') (hmarks : MarksOk s.store m.marks → MarksOk s.store m'.marks)
    (hfrees : FreesOk s.freeRequested m.frees → FreesOk s.freeRequested m'.frees) :
    ZoneInv cfg
      { s with store := st, memory := some m' } := by
  obtain ⟨lost, hok⟩ := h.memory m hm
  refine ⟨hst, ⟨fun f hf => (hfree f hf).elim (h.ledger.requested f) id, fun g hg hlive => ?_,
    h.ledger.apart⟩, fun _ hx => ?_⟩
  · obtain ⟨r, hr, hseg⟩ := h.ledger.present g hg hlive
    obtain ⟨r', hr', hseg'⟩ := hl.forth r hr
    exact ⟨r', hr', hseg'.trans hseg⟩
  · cases hx
    exact ⟨lost, hok.later h.store.busy hst.busy hl (Subset.refl _) hsame
      ((hmarks hok.marks).later hl) (hfrees hok.frees)⟩

/-- A batch of Puts of incarnations that are there. -/
theorem StoreOk.persistBusy (h : StoreOk cfg st) (xs : List (ℕ × BusyBlockValue))
    (hx : ∀ x ∈ xs, ∃ r ∈ st.busy, r.segment = entrySegment x) :
    StoreOk cfg (st.persistBusy cfg xs) ∧ Later st (st.persistBusy cfg xs) [] := by
  have hw := Rewrites.putAll (st.slot + 1) h.busy xs hx
  refine ⟨h.log (hw.busyOk h.busy) fun r hr => ?_, Later.of_rewrites hw rfl⟩
  obtain ⟨x, -, hx⟩ := mem_map.mp hr
  cases hx
  rfl

section
variable (h : ZoneInv cfg s) (hm : s.memory = some m)
include h hm

/-- Such a write, if it takes place at all. -/
theorem ZoneInv.settled {p : Prop} [Decidable p] {st : ZoneStore}
    (hst : p → StoreOk cfg st ∧ Later s.store st [])
    (hfree : ∀ f ∈ st.free, f ∈ s.store.free ∨ f.segment ∈ s.freeRequested)
    (hsame : m.SameHolders m') (hmarks : MarksOk s.store m.marks → MarksOk s.store m'.marks)
    (hfrees : FreesOk s.freeRequested m.frees → FreesOk s.freeRequested m'.frees) :
    ZoneStep cfg s a
      { s with store := if p then st else s.store, memory := some m' } := by
  refine ⟨?_, fun _ => .rewrite hm hsame.allocs hst⟩
  split
  · next hp => exact h.rewrite hm (hst hp).1 (hst hp).2 hfree hsame hmarks hfrees
  · exact (h.frame (a := .closeGate) hm hsame hmarks hfrees).inv

lemma ZoneInv.readCommit (ht : s.readCommit m k = some t) : ZoneStep cfg s a t := by
  obtain ⟨c, -, ht⟩ := bind_eq_some_iff.mp ht
  split at ht
  · cases ht
  · cases ht
    exact h.frame hm ⟨rfl, rfl, rfl, id⟩ id id

lemma ZoneInv.admitCommit (ht : s.admitCommit m k = some t) : ZoneStep cfg s a t := by
  obtain ⟨c, -, ht⟩ := bind_eq_some_iff.mp ht
  split at ht
  · split at ht
    · cases ht
      obtain ⟨tentative, -, heq⟩ := foldl_forget removeTentative_forgets c.cached
        { m with commits := m.commits.eraseIdx k }
      rw [heq]
      exact h.frame hm ⟨rfl, rfl, rfl, id⟩ id id
    · split at ht <;> cases ht <;> exact h.frame hm ⟨rfl, rfl, rfl, id⟩ id id
  · cases ht

/-- The write of a commit whose records are still those of its segments. -/
theorem ZoneInv.writeCommit
    (hsame : o.applied = true → ∀ c, m.commits[k]? = some c → ∀ x ∈ c.records,
      ∃ r ∈ s.store.busy, r.segment = entrySegment x)
    (ht : s.writeCommit cfg m k o = some t) : ZoneStep cfg s a t := by
  obtain ⟨c, hk, ht⟩ := bind_eq_some_iff.mp ht
  split at ht
  · cases ht
    obtain ⟨tentative, -, heq⟩ := foldl_forget removeTentative_forgets c.cached
      (({ m with commits := m.commits.eraseIdx k }).settle o)
    rw [heq]
    refine h.settled hm (fun happ => h.store.persistBusy c.records (hsame happ c hk))
      (fun f hf => .inl hf) ?_ ?_ ?_ <;> split
    · exact ⟨rfl, rfl, rfl, gate_settle o⟩
    · exact ⟨rfl, rfl, rfl, gate_settle o⟩
    all_goals exact id
  · cases ht

/-- The write of a mark whose revision is the current one is about the record it has read. -/
theorem ZoneInv.persistMark {c : MarkCall} (hk : m.marks[k]? = some c) {v : BusyBlockValue}
    {revision : ℕ} (hread : c.read = some (v, revision))
    (hcur : (s.store.busyAt c.segment.unitOffset).any (fun r => r.commitSlot = revision) = true)
    (state : ℤ) :
    StoreOk cfg (s.store.persistBusy cfg [(c.segment.unitOffset, { v with state })]) ∧
      Later s.store (s.store.persistBusy cfg [(c.segment.unitOffset, { v with state })]) [] := by
  apply h.store.persistBusy
  obtain ⟨lost, hok⟩ := h.memory m hm
  obtain ⟨-, -, hsame⟩ := hok.marks c (mem_of_getElem? hk) v revision hread
  cases hr : s.store.busyAt c.segment.unitOffset with
  | none => simp [hr] at hcur
  | some r =>
    obtain ⟨hmem, hoff⟩ := busyAt_some hr
    have hv := hsame r hmem hoff (by simpa [hr] using hcur)
    exact forall_mem_singleton.mpr ⟨r, hmem, by simp [BusyRecord.segment, entrySegment, hoff, hv]⟩

/-- A mark replaces the record it has read, or nothing. -/
theorem ZoneInv.writeMark (ht : s.writeMark cfg m k o = some t) : ZoneStep cfg s a t := by
  obtain ⟨c, hk, ht⟩ := bind_eq_some_iff.mp ht
  split at ht
  · next v revision hread =>
    split at ht
    · cases ht
      exact h.settled hm
        (fun hc => h.persistMark hm hk hread hc.2 BlockState.corrupt.toI32) (fun f => .inl)
        ⟨rfl, rfl, rfl, gate_settle o⟩ (fun hmarks => hmarks.erase k) id
    · cases ht
  · cases ht

end

/-- A call is replaced by one that is fine too. -/
theorem MarksOk.set (h : MarksOk st marks) {c : MarkCall} (hc : MarksOk st [c]) :
    MarksOk st (marks.set k c) :=
  forall_mem_set h (hc c (mem_singleton_self c))

section
variable (h : ZoneInv cfg s) (hm : s.memory = some m)
include h hm

lemma ZoneInv.readMark (ht : s.readMark m k = some t) : ZoneStep cfg s a t := by
  obtain ⟨c, -, ht⟩ := bind_eq_some_iff.mp ht
  split at ht
  · cases ht
    refine h.frame hm ⟨rfl, rfl, rfl, id⟩ (fun hmarks => ?_) id
    split
    · exact hmarks.erase k
    · next r hr =>
      obtain ⟨hmem, hoff⟩ := busyAt_some hr
      split
      · next hread =>
        refine hmarks.set fun x hx v revision hv => ?_
        rw [mem_singleton.mp hx] at hv ⊢
        cases hv
        refine ⟨hread.1, (h.store.slots r hmem).2, fun r' hr' hoff' _ => ?_⟩
        rw [h.store.busy.eq_of_offset hr' hmem (hoff'.trans hoff.symm)]
      · exact hmarks.erase k
  · cases ht

lemma ZoneInv.admitMark (ht : s.admitMark m k = some t) : ZoneStep cfg s a t := by
  obtain ⟨c, hk, ht⟩ := bind_eq_some_iff.mp ht
  split at ht
  · cases ht
    refine h.frame hm ⟨rfl, rfl, rfl, id⟩ (fun hmarks => ?_) id
    split
    · exact hmarks.erase k
    · refine hmarks.set fun x hx v revision hv => ?_
      rw [mem_singleton.mp hx] at hv ⊢
      exact hmarks c (mem_of_getElem? hk) v revision hv
  · cases ht

lemma ZoneInv.requestFree (records : List (Segment × ℕ)) :
    ZoneStep cfg s a (s.requestFree m records) := by
  obtain ⟨lost, hok⟩ := h.memory m hm
  have hreq : s.freeRequested ⊆ s.freeRequested ++ records.map Prod.fst := subset_append_left _ _
  refine ⟨⟨h.store, ⟨fun f hf => hreq (h.ledger.requested f hf), fun g hg hlive => ?_, ?_⟩,
    fun _ hx => ?_⟩, fun _ => .of_busy rfl rfl rfl ?_⟩
  · exact h.ledger.present g hg fun hmem => hlive (hreq hmem)
  · refine h.ledger.apart.sublist (monotone_filter_right _ fun g hg => ?_)
    simp only [decide_eq_true_eq] at hg ⊢
    exact fun hmem => hg (hreq hmem)
  · cases hx
    refine ⟨lost, hok.later h.store.busy h.store.busy (Later.of_busy le_rfl rfl) hreq
      ⟨rfl, rfl, rfl, id⟩ hok.marks (forall_mem_concat ?_ fun x hx => ?_)⟩
    · exact fun c hc x hx => hreq (hok.frees c hc x hx)
    · exact mem_append_right _ (mem_map_of_mem hx)
  · rw [inflight_of_memory hm]
    exact Subperm.refl _

lemma ZoneInv.admitFree (ht : s.admitFree m k = some t) : ZoneStep cfg s a t := by
  obtain ⟨c, hk, ht⟩ := bind_eq_some_iff.mp ht
  split at ht
  · cases ht
    refine h.frame hm ⟨rfl, rfl, rfl, id⟩ id fun hfrees => ?_
    split
    · exact hfrees.erase k
    · exact forall_mem_set (a := { c with admitted := true }) hfrees (hfrees c (mem_of_getElem? hk))
  · cases ht

lemma ZoneInv.writeFree (ht : s.writeFree cfg m k o = some t) : ZoneStep cfg s a t := by
  obtain ⟨c, hk, ht⟩ := bind_eq_some_iff.mp ht
  obtain ⟨lost, hok⟩ := h.memory m hm
  split at ht
  · cases ht
    obtain ⟨tentative, -, heq⟩ := foldl_forget removeMatchingTentative_forgets
      c.records (({ m with frees := m.frees.eraseIdx k }).settle o)
    rw [heq]
    refine h.settled hm
      (fun _ => ⟨h.store.persistFree c.records, Later.of_busy (Nat.le_succ _) rfl⟩) (fun f hf => ?_)
      ?_ ?_ ?_
    · refine (segment_of_mem_putFree hf).imp_right fun ⟨x, hx, hseg⟩ => ?_
      rw [hseg]
      exact hok.frees c (mem_of_getElem? hk) x hx
    all_goals split
    · exact ⟨rfl, rfl, rfl, gate_settle o⟩
    · exact ⟨rfl, rfl, rfl, gate_settle o⟩
    · exact id
    · exact id
    all_goals exact fun hfrees => hfrees.erase k
  · cases ht

end

end Updates

end Steps

end CrowDB.DiskDb
