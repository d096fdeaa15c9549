import CrowDB.Cluster.FenceMove

/-!
# Handover of an owner fence

While a drained change holds the admission no write is inside it, so no write is
admitted on a value that the change is about to replace. What a write has read is
at or above every change decided before it was admitted, and its slot is below the
slot of every change that starts after it has left.
-/
namespace CrowDB.Cluster
open Paxos Lib List Option FenceWorld ChangePhase GateWord

variable {i : ℕ}

lemma countP_set_add {α : Type*} {p : α → Bool} {l : List α} {a a' : α} (h : l[i]? = some a) :
    (l.set i a').countP p + (if p a then 1 else 0) = l.countP p + (if p a' then 1 else 0) := by
  obtain ⟨hi, rfl⟩ := List.getElem?_eq_some_iff.mp h
  rw [countP_set hi]
  split
  · next hp =>
    have : 0 < l.countP p := countP_pos_iff.mpr ⟨l[i], getElem_mem hi, hp⟩
    omega
  · omega

variable {r : ℕ}

namespace FenceWorld
variable {c d : FenceWorld}

/-! ## The admission word -/

def liveCount (c : FenceWorld) : ℕ := c.writes.countP (·.phase.live)

def holderCount (c : FenceWorld) : ℕ := c.changes.countP (·.phase.holds)

/-- Where a change may be while this many writes are inside the admission. -/
structure ChangeCall.Kept (b : ChangeCall) (live : ℕ) : Prop where
  window : b.drained = true → b.phase.holds = true → live = 0
  past : b.phase.past = true → b.drained = true
  begun : b.phase = .admitted → b.drained = false
  parked : b.phase = .parked false → 0 < live

structure GateInv (c : FenceWorld) : Prop where
  word : GateWord.Packed c.word (decide (0 < c.holderCount)) c.liveCount
  one : c.holderCount ≤ 1
  calls : ∀ b ∈ c.changes, ChangeCall.Kept b c.liveCount

lemma gateInv_boot : GateInv boot := by
  constructor
  case word => exact packed_zero
  all_goals simp [boot, holderCount]

variable {b : ChangeCall}

lemma holder_pos (hb : b ∈ c.changes) (hh : b.phase.holds = true) : 0 < c.holderCount :=
  countP_pos_iff.mpr ⟨b, hb, hh⟩

variable {a : WriteCall}

lemma live_pos (ha : a ∈ c.writes) (hl : a.phase.live = true) : 0 < c.liveCount :=
  countP_pos_iff.mpr ⟨a, ha, hl⟩

lemma liveCount_setWrite {w : WriteCall} (ha : c.writes[i]? = some a) :
    (c.setWrite i w).liveCount + (if a.phase.live then 1 else 0) =
      c.liveCount + (if w.phase.live then 1 else 0) := countP_set_add ha

variable {k : ℕ} {w : ChangeCall}

lemma holderCount_setChange (hb : c.changes[k]? = some b) :
    (c.setChange k w).holderCount + (if b.phase.holds then 1 else 0) =
      c.holderCount + (if w.phase.holds then 1 else 0) := countP_set_add hb

section
variable (h : GateInv c)
include h

/-- A closed admission whose word is not bare has somebody inside. -/
theorem GateInv.live_of_ne (hb : b ∈ c.changes) (hh : b.phase.holds = true)
    (hw : c.word ≠ closedBit) : 0 < c.liveCount := by
  rw [ne_eq, h.word.eq_closedBit_iff, decide_eq_true_iff] at hw
  have := holder_pos hb hh
  omega

lemma GateInv.setWrite {w : WriteCall} (ha : c.writes[i]? = some a)
    (hl : w.phase.live = a.phase.live) : GateInv (c.setWrite i w) := by
  have hcount : (c.setWrite i w).liveCount = c.liveCount := by
    have := liveCount_setWrite (w := w) ha
    rw [hl] at this
    omega
  exact ⟨hcount ▸ h.word, h.one, hcount ▸ h.calls⟩

section
variable (hb : c.changes[k]? = some b)
include hb

/-- One change is replaced, and the word with it. -/
theorem GateInv.replace {word : UInt64} (hw : ChangeCall.Kept w c.liveCount)
    (hword : ∀ n, n + (if b.phase.holds then 1 else 0) =
      c.holderCount + (if w.phase.holds then 1 else 0) → n ≤ 1 ∧
      Packed word (decide (0 < n)) c.liveCount) :
    GateInv { c.setChange k w with word := word } := by
  obtain ⟨hone, hpacked⟩ := hword _ (holderCount_setChange hb)
  exact ⟨hpacked, hone, forall_mem_set h.calls hw⟩

lemma GateInv.setChange (hh : w.phase.holds = b.phase.holds)
    (hw : ChangeCall.Kept w c.liveCount) :
    GateInv (c.setChange k w) := by
  refine h.replace hb hw fun n hn => ?_
  obtain rfl : n = c.holderCount := by rw [hh] at hn; omega
  exact ⟨h.one, h.word⟩

/-- A change goes on without a drain. -/
theorem GateInv.goes (hh : w.phase.holds = b.phase.holds) (hd : w.drained = b.drained)
    (hpast : w.phase.past = true → b.phase.past = true) (hbeg : w.phase ≠ .admitted)
    (hpark : w.phase = .parked false → b.phase.holds = true ∧ c.word ≠ closedBit) :
    GateInv (c.setChange k w) := by
  have hmem : b ∈ c.changes := mem_of_getElem? hb
  have hk := h.calls b hmem
  refine h.setChange hb hh ⟨?_, fun hp => ?_, fun hp => absurd hp hbeg, fun hp => ?_⟩
  · rw [hd, hh]; exact hk.window
  · rw [hd]; exact hk.past (hpast hp)
  · exact h.live_of_ne hmem (hpark hp).1 (hpark hp).2

end

lemma GateInv.beginWrite {word : UInt64} (ha : c.writes[i]? = some a) (hp : a.phase = .checked)
    (hw : enter c.word = some word) : GateInv { c.writeTo i a .reading with word := word } := by
  obtain ⟨hclosed, hpack⟩ := h.word.enter hw
  have hnone : c.holderCount = 0 := by
    rw [decide_eq_false_iff_not] at hclosed
    omega
  have hcount : (c.writeTo i a .reading).liveCount = c.liveCount + 1 := by
    have := liveCount_setWrite (w := { a with phase := .reading }) ha
    simp only [hp] at this
    exact this
  refine ⟨?_, h.one,
    fun b hb => ⟨fun _ hh => ?_, (h.calls b hb).past, (h.calls b hb).begun, fun _ => ?_⟩⟩
  · show Packed word (decide (0 < c.holderCount)) (c.writeTo i a .reading).liveCount
    rw [hcount, hclosed]
    exact hpack
  · exact absurd hnone (holder_pos hb hh).ne'
  · exact hcount ▸ Nat.succ_pos _

end

lemma notify_holds (p : ChangePhase) : p.notify.holds = p.holds := by cases p <;> rfl

lemma notify_past (p : ChangePhase) : p.notify.past = p.past := by cases p <;> rfl

lemma holderCount_notify (l : List ChangeCall) :
    (l.map fun b => { b with phase := b.phase.notify }).countP (·.phase.holds) =
      l.countP (·.phase.holds) := by
  simp [Function.comp_def, notify_holds]

variable {res : Option ProposeResult}

section
variable (h : GateInv c)
include h

lemma GateInv.release (ha : c.writes[i]? = some a) (hp : a.phase = .leaving false res) :
    GateInv (c.releaseWrite i a res) := by
  have hlive := live_pos (mem_of_getElem? ha) (by rw [hp]; rfl)
  have hcount : (c.releaseWrite i a res).liveCount + 1 = c.liveCount := by
    have := liveCount_setWrite (w := { a with phase := .returned res }) ha
    simp only [hp] at this
    exact this
  have hhold : (c.releaseWrite i a res).holderCount = c.holderCount := by
    simp only [releaseWrite]
    split
    · exact holderCount_notify c.changes
    · rfl
  -- nobody drains while this write is inside
  have hkept : ∀ b ∈ c.changes, (b.phase = .parked false → c.word ≠ closedBit + 1) →
      ChangeCall.Kept b (c.releaseWrite i a res).liveCount := by
    intro b hb hpk
    have hk := h.calls b hb
    refine ⟨fun hd hh => absurd (hk.window hd hh) hlive.ne', hk.past, hk.begun, fun hp => ?_⟩
    have hpos := holder_pos hb (by rw [hp]; rfl)
    have hne := hpk hp
    rw [ne_eq, h.word.eq_closedBit_add_one_iff, decide_eq_true_iff] at hne
    omega
  refine ⟨hhold ▸ (hcount ▸ h.word).leave, hhold ▸ h.one, fun b hb => ?_⟩
  simp only [releaseWrite] at hb
  split at hb
  · -- the last one out of a closed admission has notified
    obtain ⟨b₀, hb₀, rfl⟩ := mem_map.mp hb
    by_cases hpk : b₀.phase = .parked false
    · exact ⟨fun hd hh => absurd ((h.calls b₀ hb₀).window hd (by rw [hpk]; rfl)) hlive.ne',
        by simp [hpk, notify, past], by simp [hpk, notify],
        by simp [hpk, notify]⟩
    · have hk := hkept b₀ hb₀ fun hp => absurd hp hpk
      refine ⟨fun hd hh => hk.window hd (notify_holds _ ▸ hh),
        fun hp => hk.past (notify_past _ ▸ hp), fun hp => hk.begun ?_, fun hp => ?_⟩
      all_goals cases hph : b₀.phase <;> simp_all [notify]
  · next hne => exact hkept b hb fun _ => hne

section
variable (hb : c.changes[k]? = some b)
include hb

lemma GateInv.close (hp : b.phase = .admitted) (hw : c.word < closedBit) :
    GateInv { c.changeTo k b .arming with word := close c.word } := by
  have hnone : c.holderCount = 0 := by
    rw [h.word.lt_closedBit_iff, decide_eq_false_iff_not] at hw
    omega
  have hdrained := (h.calls b (mem_of_getElem? hb)).begun hp
  refine h.replace hb ⟨fun hd => ?_, nofun, nofun, nofun⟩ fun n hn => ?_
  · exact absurd (hdrained.symm.trans hd) Bool.false_ne_true
  · obtain rfl : n = 1 := by simpa [hp, holds, hnone] using hn
    exact ⟨le_rfl, h.word.close⟩

lemma GateInv.drain {notified : Bool} (hp : b.phase = .armed notified) (hw : c.word = closedBit) :
    GateInv (c.setChange k { b with drained := true, phase := .drained }) :=
  h.setChange hb (by rw [hp]; rfl)
    ⟨fun _ _ => (h.word.eq_closedBit_iff.mp hw).2, fun _ => rfl, nofun, nofun⟩

lemma GateInv.reopen (hp : b.phase = .leaving false res) :
    GateInv { c.changeTo k b (.returned res) with word := reopen c.word } := by
  have hone := h.one
  refine h.replace hb ⟨nofun, nofun, nofun, nofun⟩ fun n hn => ?_
  obtain rfl : n = 0 := by
    simp only [hp, holds, Bool.false_eq_true, reduceIte] at hn
    omega
  exact ⟨Nat.zero_le 1, h.word.reopen⟩

end

lemma GateInv.move (hm : Move c d) : GateInv d := by
  cases hm with
  | env | token | mark | decide | skip | store | proposeWrite => exact ⟨h.word, h.one, h.calls⟩
  | enrollWrite a hl =>
    have hcount : { c with writes := c.writes ++ [a] }.liveCount = c.liveCount := by
      simp [liveCount, hl]
    exact ⟨hcount ▸ h.word, h.one, hcount ▸ h.calls⟩
  | enrollChange b hh hd =>
    have hcount : { c with changes := c.changes ++ [b] }.holderCount =
        c.holderCount := by simp [holderCount, hh]
    refine ⟨hcount ▸ h.word, hcount ▸ h.one, forall_mem_concat h.calls
      ⟨fun _ hh' => absurd (hh.symm.trans hh') Bool.false_ne_true, fun hp => ?_, fun _ => hd,
        fun hp => ?_⟩⟩
    · cases hph : b.phase <;> simp_all [past, holds]
    · rw [hp] at hh
      cases hh
  | write _ _ _ ha hgo => exact h.setWrite ha hgo.live
  | beginWrite _ _ _ ha hp hw => exact h.beginWrite ha hp hw
  | release _ _ _ ha hp => exact h.release ha hp
  | change _ _ _ hb hgo => exact h.goes hb hgo.holds hgo.drained hgo.past hgo.begun hgo.parked
  | proposeChange k b hb hp =>
    have h' : GateInv (c.propose (.change k b.value)) := ⟨h.word, h.one, h.calls⟩
    refine h'.goes hb ?_ rfl (fun _ => ?_) (fun h => by cases h) fun h => by cases h
    all_goals rcases hp with hp | ⟨s, hp⟩ <;> rw [hp] <;> rfl
  | choose k b slot hb hp hd | lose k b slot hb hp hd | finish k b slot hb hp hd =>
    exact h.goes hb (by rw [hp]; rfl) rfl (fun _ => by rw [hp]; rfl) (fun h => by cases h)
      fun h => by cases h
  | close _ _ hb hp hw => exact h.close hb hp hw
  | drain _ _ _ hb hp hw => exact h.drain hb hp hw
  | reopen _ _ _ hb hp => exact h.reopen hb hp

end

/-! ## Entries and the engine -/

structure LogInv (c : FenceWorld) : Prop where
  slots : ∀ e ∈ c.entries, (∀ v, e.party ≠ .other v) → e.slot < c.nextSlot
  once : ∀ e ∈ c.decided, ∀ f ∈ c.decided, e.slot = f.slot → e = f
  fresh : ∀ e ∈ c.inflight, ∀ f ∈ c.decided, e.slot ≠ f.slot
  applied : ∀ e ∈ c.decided, ∀ v, e.party.stores = some v → c.applied.covers e.slot →
    e.slot ≤ c.revision
  covered : ∀ s, c.applied.covers s → s = 0 ∨ ∃ e ∈ c.decided, e.slot = s
  stored : ∀ v, c.owner = some v → ∃ e ∈ c.decided, e.slot = c.revision ∧ e.party.stores = some v

lemma logInv_boot : LogInv boot := by
  constructor <;> simp [boot, entries]

variable {e : FenceEntry}

lemma mem_entries_decide {x : FenceEntry} (hx : x ∈ ({ c with
      decided := e :: c.decided
      inflight := c.inflight.filter (·.slot ≠ e.slot) } : FenceWorld).entries) :
    x = e ∨ x ∈ c.entries := by
  rcases mem_append.mp hx with hx | hx
  · exact .inr (mem_append_left _ (mem_filter.mp hx).1)
  · exact (mem_cons.mp hx).imp_right (mem_append_right _)

lemma mem_entries_propose {p : FenceParty} {x : FenceEntry} (hx : x ∈ (c.propose p).entries) :
    x = ⟨c.nextSlot, p⟩ ∨ x ∈ c.entries := by
  rcases mem_append.mp hx with hx | hx
  · simp only [propose] at hx
    split at hx
    · exact .inr (mem_append_left _ hx)
    · exact (mem_cons.mp hx).imp_right (mem_append_left _)
  · exact .inr (mem_append_right _ hx)

lemma LogInv.propose (h : LogInv c) (p : FenceParty) : LogInv (c.propose p) := by
  refine ⟨fun e he hp => ?_, h.once, fun e he f hf => ?_, h.applied, h.covered, h.stored⟩
  · rcases mem_entries_propose he with rfl | he
    · exact Nat.lt_succ_self _
    · exact (h.slots e he hp).trans (Nat.lt_succ_self _)
  · simp only [FenceWorld.propose] at he
    split at he
    · exact h.fresh e he f hf
    · next hno =>
      rcases mem_cons.mp he with rfl | he
      · exact fun heq => hno ⟨f, hf, heq.symm⟩
      · exact h.fresh e he f hf

/-- An entry of a write or a change was in flight when it is decided. -/
theorem inflight_of_own
    (he : e ∈ c.inflight ∨ e.party.isChange = false ∧ ∀ r v, e.party ≠ .write r v)
    (hp : ∀ v, e.party ≠ .other v) : e ∈ c.inflight := by
  refine he.resolve_right fun ⟨hch, hwr⟩ => ?_
  cases hpe : e.party with
  | write r v => exact hwr r v hpe
  | change => simp [hpe, FenceParty.isChange] at hch
  | other v => exact hp v hpe

lemma LogInv.decide (h : LogInv c)
    (he : e ∈ c.inflight ∨ e.party.isChange = false ∧ ∀ r v, e.party ≠ .write r v)
    (hn : ∀ f ∈ c.decided, f.slot ≠ e.slot) :
    LogInv { c with
      decided := e :: c.decided
      inflight := c.inflight.filter (·.slot ≠ e.slot) } := by
  refine ⟨fun x hx hp => ?_, fun x hx y hy hs => ?_, fun x hx f hf => ?_, fun x hx v hv hc => ?_,
    fun s hc => ?_, fun v hv => ?_⟩
  · rcases mem_entries_decide hx with rfl | hx
    · exact h.slots x (mem_append_left _ (inflight_of_own he hp)) hp
    · exact h.slots x hx hp
  · rcases mem_cons.mp hx with rfl | hx' <;> rcases mem_cons.mp hy with rfl | hy'
    · rfl
    · exact absurd hs.symm (hn y hy')
    · exact absurd hs (hn x hx')
    · exact h.once x hx' y hy' hs
  · obtain ⟨hx, hne⟩ := mem_filter.mp hx
    rcases mem_cons.mp hf with rfl | hf
    · simpa using hne
    · exact h.fresh x hx f hf
  · rcases mem_cons.mp hx with rfl | hx
    · -- nothing is applied at an open slot
      rcases h.covered x.slot hc with h0 | ⟨f, hf, hs⟩
      · exact h0.trans_le (Nat.zero_le _)
      · exact absurd hs (hn f hf)
    · exact h.applied x hx v hv hc
  · exact (h.covered s hc).imp_right fun ⟨f, hf, hs⟩ => ⟨f, mem_cons_of_mem _ hf, hs⟩
  · obtain ⟨f, hf, h'⟩ := h.stored v hv
    exact ⟨f, mem_cons_of_mem _ hf, h'⟩

lemma LogInv.move (h : LogInv c) (hm : Move c d) : LogInv d := by
  cases hm with
  | env _ _ _ _ _ _ hle =>
    exact { h with slots := fun e he hp => (h.slots e he hp).trans_le hle }
  | decide _ he hn => exact h.decide he hn
  | skip slot hs =>
    obtain ⟨e, he, rfl, hle⟩ := hs
    refine { h with applied := fun x hx v hv hc => ?_, covered := fun s hc => ?_ }
    · rcases (c.applied.note_covers e.slot x.slot).mp hc with hc | heq
      · exact h.applied x hx v hv hc
      · obtain rfl := h.once x hx e he heq
        exact hle v hv
    · rcases (c.applied.note_covers e.slot s).mp hc with hc | rfl
      · exact h.covered s hc
      · exact .inr ⟨e, he, rfl⟩
  | store e _ he hv hlt =>
    refine ⟨h.slots, h.once, h.fresh, fun x hx v hv hc => ?_, fun s hc => ?_, fun v hv' => ?_⟩
    · rcases (c.applied.note_covers e.slot x.slot).mp hc with hc | heq
      · exact (h.applied x hx v hv hc).trans hlt.le
      · exact heq.le
    · rcases (c.applied.note_covers e.slot s).mp hc with hc | rfl
      · exact h.covered s hc
      · exact .inr ⟨e, he, rfl⟩
    · exact ⟨e, he, rfl, some.inj hv' ▸ hv⟩
  | proposeWrite => exact h.propose _
  | proposeChange k b =>
    exact { h.propose (.change k b.value) with }
  | _ => exact { h with }

/-! ## The order of writes and changes -/

/-- What a write goes on with: the revision it has read, or left to its task. -/
def WriteCall.Carries (a : WriteCall) (r : ℕ) : Prop :=
  a.phase.revision? = some r ∨ a.detached = some r

structure FenceInv (c : FenceWorld) : Prop where
  owned : ∀ e ∈ c.entries, ∀ k v, e.party = .change k v → ∃ b, c.changes[k]? = some b ∧
    v = b.value ∧ (c.unresolved = true ∨ e.slot ≤ c.revision ∨ b.phase.allows e.slot)
  applying : ∀ (k : ℕ) b s, c.changes[k]? = some b → b.phase = .applying s →
    ∃ e ∈ c.decided, e.slot = s
  behind : c.unresolved = true ∨ ∀ a ∈ c.writes, ∀ r, WriteCall.Carries a r →
    ∀ e ∈ c.entries, e.party.isChange = true → e.slot ≤ r
  matched : ∀ a ∈ c.writes, ∀ r, WriteCall.Carries a r →
    ∃ f ∈ c.decided, f.slot = r ∧ f.party.stores = some a.expected
  detached : ∀ a ∈ c.writes, ∀ r, a.detached = some r →
    c.unresolved = true ∨ ∃ res, a.phase = .leaving true res
  apart : c.unresolved = true ∨ ∀ e ∈ c.entries, ∀ r v, e.party = .write r v →
    ∀ f ∈ c.entries, f.party.isChange = true → f.slot ≤ r ∨ e.slot < f.slot
  read : ∀ e ∈ c.entries, ∀ r v, e.party = .write r v →
    ∃ f ∈ c.decided, f.slot = r ∧ f.party.stores = some v

lemma FenceInv.reword (h : FenceInv c) (word : UInt64) : FenceInv { c with word := word } :=
  { h with }

lemma fenceInv_boot : FenceInv boot := by
  constructor <;> simp [boot, entries]

lemma allows_past {p : ChangePhase} {s : ℕ} (h : p.allows s) :
    p.past = true ∧ p.holds = true := by
  cases p with
  | settled pending r | leaving pending r =>
      cases pending <;> first | exact ⟨rfl, rfl⟩ | exact h.elim
  | trying | applying => exact ⟨rfl, rfl⟩
  | _ => exact h.elim

section
variable (h : FenceInv c) (hG : GateInv c)
include h hG

/-- With a write inside, every change is behind the engine. -/
theorem FenceInv.behind_engine (hlive : 0 < c.liveCount) (he : e ∈ c.entries)
    (hch : e.party.isChange = true) : c.unresolved = true ∨ e.slot ≤ c.revision := by
  cases hp : e.party with
  | change k v =>
    obtain ⟨b, hb, -, hu | hle | hal⟩ := h.owned e he k v hp
    · exact .inl hu
    · exact .inr hle
    · obtain ⟨hpast, hh⟩ := allows_past hal
      have hk := hG.calls b (mem_of_getElem? hb)
      have := hk.window (hk.past hpast) hh
      omega
  | _ => simp [hp, FenceParty.isChange] at hch

/-- No new entry of a write or a change: only the calls have to be looked at. -/
theorem FenceInv.frame (hL : LogInv c)
    (hent : ∀ e ∈ d.entries, (∀ v, e.party ≠ .other v) → e ∈ c.entries)
    (hdec : ∀ e ∈ c.decided, e ∈ d.decided) (hrev : c.revision ≤ d.revision)
    (hun : c.unresolved = true → d.unresolved = true)
    (hchg : ∀ (k : ℕ) b, c.changes[k]? = some b → ∃ b', d.changes[k]? = some b' ∧
      b'.value = b.value ∧ ∀ e ∈ c.entries, e.party = .change k b.value → b.phase.allows e.slot →
      d.unresolved = true ∨ e.slot ≤ d.revision ∨ b'.phase.allows e.slot)
    (happ : ∀ (k : ℕ) b s, d.changes[k]? = some b → b.phase = .applying s →
      ∃ e ∈ d.decided, e.slot = s)
    (hwr : ∀ a' ∈ d.writes, ∀ r, WriteCall.Carries a' r →
      (∃ a ∈ c.writes, a.expected = a'.expected ∧ WriteCall.Carries a r) ∨
      (r = c.revision ∧ c.owner = some a'.expected ∧ 0 < c.liveCount))
    (hdet : ∀ a ∈ d.writes, ∀ r, a.detached = some r → d.unresolved = true ∨ ∃ res, a.phase =
      .leaving true res) :
    FenceInv d := by
  have hchange : ∀ e ∈ d.entries, e.party.isChange = true → e ∈ c.entries := fun e he hch =>
    hent e he fun v hv => by simp [hv, FenceParty.isChange] at hch
  have hwrite : ∀ e ∈ d.entries, ∀ r v, e.party = .write r v → e ∈ c.entries := fun e he r v hp =>
    hent e he fun v' hv' => by simp [hp] at hv'
  refine ⟨fun e he k v hp => ?_, happ, ?_, fun a' ha' r hr => ?_, hdet, ?_, fun e he r v hp => ?_⟩
  · have he' := hchange e he (by rw [hp]; rfl)
    obtain ⟨b, hb, rfl, hcase⟩ := h.owned e he' k v hp
    obtain ⟨b', hb', hv, hal⟩ := hchg k b hb
    refine ⟨b', hb', hv.symm, ?_⟩
    rcases hcase with hu | hle | hal'
    · exact .inl (hun hu)
    · exact .inr (.inl (hle.trans hrev))
    · exact hal e he' hp hal'
  · by_cases hu : d.unresolved = true
    · exact .inl hu
    · refine .inr fun a' ha' r hr e he hch => ?_
      have he' := hchange e he hch
      rcases hwr a' ha' r hr with ⟨a, ha, -, hra⟩ | ⟨rfl, -, hlive⟩
      · exact (h.behind.resolve_left fun h' => hu (hun h')) a ha r hra e he' hch
      · exact (h.behind_engine hG hlive he' hch).resolve_left fun h' => hu (hun h')
  · rcases hwr a' ha' r hr with ⟨a, ha, hexp, hra⟩ | ⟨rfl, hown, -⟩
    · obtain ⟨f, hf, h'⟩ := h.matched a ha r hra
      exact ⟨f, hdec f hf, hexp ▸ h'⟩
    · obtain ⟨f, hf, h'⟩ := hL.stored _ hown
      exact ⟨f, hdec f hf, h'⟩
  · by_cases hu : d.unresolved = true
    · exact .inl hu
    · exact .inr fun e he r v hp f hf hch =>
        (h.apart.resolve_left fun h' => hu (hun h')) e (hwrite e he r v hp) r v hp f
          (hchange f hf hch) hch
  · obtain ⟨f, hf, h'⟩ := h.read e (hwrite e he r v hp) r v hp
    exact ⟨f, hdec f hf, h'⟩

/-- One change takes another phase. -/
theorem FenceInv.setChange (hL : LogInv c) (hb : c.changes[k]? = some b) (hv : w.value = b.value)
    (hal : ∀ e ∈ c.entries, e.party = .change k b.value → b.phase.allows e.slot →
      c.unresolved = true ∨ e.slot ≤ c.revision ∨ w.phase.allows e.slot)
    (happ : ∀ s, w.phase = .applying s → ∃ e ∈ c.decided, e.slot = s) :
    FenceInv (c.setChange k w) := by
  have hlt : k < c.changes.length := (List.getElem?_eq_some_iff.mp hb).1
  refine h.frame hG hL (fun e he _ => he) (fun e he => he) le_rfl id
    (fun j x hx => ?_) (fun j x s hx hp => ?_) (fun a ha r hr => .inl ⟨a, ha, rfl, hr⟩) h.detached
  · by_cases hj : j = k
    · subst j
      obtain rfl := some.inj (hb.symm.trans hx)
      exact ⟨w, by simp [FenceWorld.setChange, hlt], hv, hal⟩
    · exact ⟨x, by simpa [FenceWorld.setChange, Ne.symm hj] using hx, rfl,
        fun e he hp hx => .inr (.inr hx)⟩
  · by_cases hj : j = k
    · subst j
      obtain rfl : w = x := by simpa [FenceWorld.setChange, hlt] using hx
      exact happ s hp
    · exact h.applying j x s (by simpa [FenceWorld.setChange, Ne.symm hj] using hx) hp

/-- One write takes another phase. -/
theorem FenceInv.setWrite (hL : LogInv c) {w : WriteCall} (ha : c.writes[i]? = some a)
    (hr : ∀ r, WriteCall.Carries w r → (a.expected = w.expected ∧ WriteCall.Carries a r) ∨
      (r = c.revision ∧ c.owner = some w.expected ∧ 0 < c.liveCount))
    (hdet : ∀ r, w.detached = some r → c.unresolved = true ∨ ∃ res, w.phase = .leaving true res) :
    FenceInv (c.setWrite i w) := by
  refine h.frame hG hL (fun e he _ => he) (fun e he => he) le_rfl id
    (fun k b hb => ⟨b, hb, rfl, fun e he hp hx => .inr (.inr hx)⟩) h.applying (forall_mem_set ?_ ?_)
    (forall_mem_set h.detached hdet)
  · exact fun x hx r hrx => .inl ⟨x, hx, rfl, hrx⟩
  · exact fun r hrx => (hr r hrx).imp_left fun h' => ⟨a, mem_of_getElem? ha, h'⟩

end

/-- A write that is not inside carries nothing, unless its task was left behind. -/
theorem not_carries (hl : a.phase.live = false) (hd : a.detached = none) :
    ¬ WriteCall.Carries a r := by
  rintro (h | h)
  · cases hp : a.phase <;> simp_all [WritePhase.live, WritePhase.revision?]
  · simp [hd] at h

lemma live_of_revision (h : a.phase.revision? = some r) : a.phase.live = true := by
  cases hp : a.phase <;> simp_all [WritePhase.live, WritePhase.revision?]

section
variable (h : FenceInv c)
include h

lemma FenceInv.proposeWrite (ha : c.writes[i]? = some a) (hr : WriteCall.Carries a r) :
    FenceInv (c.propose (.write r a.expected)) := by
  have hmem : a ∈ c.writes := mem_of_getElem? ha
  have hchange : ∀ e ∈ (c.propose (.write r a.expected)).entries, e.party.isChange = true →
      e ∈ c.entries := fun e he hch => by
    rcases mem_entries_propose he with rfl | he
    · cases hch
    · exact he
  refine ⟨fun e he k v hp => ?_, h.applying, ?_, h.matched, h.detached, ?_, fun e he r' v hp => ?_⟩
  · exact h.owned e (hchange e he (by rw [hp]; rfl)) k v hp
  · exact h.behind.imp_right fun h' x hx r' hr' e he hch => h' x hx r' hr' e (hchange e he hch) hch
  · rcases h.apart with hu | hapart
    · exact .inl hu
    rcases h.behind with hu | hbehind
    · exact .inl hu
    refine .inr fun e he r' v hp f hf hch => ?_
    have hf' := hchange f hf hch
    rcases mem_entries_propose he with rfl | he
    · obtain ⟨rfl, rfl⟩ := FenceParty.write.inj hp
      exact .inl (hbehind a hmem r hr f hf' hch)
    · exact hapart e he r' v hp f hf' hch
  · rcases mem_entries_propose he with rfl | he
    · obtain ⟨rfl, rfl⟩ := FenceParty.write.inj hp
      exact h.matched a hmem r hr
    · exact h.read e he r' v hp

section
variable (hG : GateInv c) (hL : LogInv c)
include hG hL

/-- No write is inside when a change takes a slot, and the slot is above all of
theirs. -/
theorem FenceInv.proposeChange (hb : c.changes[k]? = some b)
    (hp : b.phase = .waiting ∨ ∃ s, b.phase = .refencing s) : FenceInv (c.tryChange k b) := by
  have hlt : k < c.changes.length := (List.getElem?_eq_some_iff.mp hb).1
  have hself : (c.tryChange k b).changes[k]? = some { b with phase := .trying c.nextSlot } := by
    simp [tryChange, changeTo, FenceWorld.setChange, propose, hlt]
  have hother : ∀ j, j ≠ k → (c.tryChange k b).changes[j]? = c.changes[j]? := fun j hj => by
    simp [tryChange, changeTo, FenceWorld.setChange, propose, Ne.symm hj]
  have hnone : ∀ s, ¬ b.phase.allows s := by
    rcases hp with hp | ⟨s, hp⟩ <;> rw [hp] <;> exact fun _ h => h
  have hempty : c.liveCount = 0 := by
    have hk := hG.calls b (mem_of_getElem? hb)
    refine hk.window (hk.past ?_) ?_
    all_goals rcases hp with hp | ⟨s, hp⟩ <;> rw [hp] <;> rfl
  have hent : ∀ e ∈ (c.tryChange k b).entries, e = ⟨c.nextSlot, .change k b.value⟩ ∨
    e ∈ c.entries :=
    fun e => mem_entries_propose
  have hwrite : ∀ e ∈ (c.tryChange k b).entries, ∀ r v, e.party = .write r v → e ∈ c.entries :=
    fun e he r v hpe => (hent e he).resolve_left fun h' => by simp [h'] at hpe
  refine ⟨fun e he j v hpe => ?_, fun j x s hx hps => ?_, ?_, h.matched, h.detached, ?_,
    fun e he r v hpe => h.read e (hwrite e he r v hpe) r v hpe⟩
  · rcases hent e he with rfl | he
    · obtain ⟨rfl, rfl⟩ := FenceParty.change.inj hpe
      exact ⟨_, hself, rfl, .inr (.inr rfl)⟩
    · obtain ⟨x, hx, hv, hcase⟩ := h.owned e he j v hpe
      by_cases hj : j = k
      · subst j
        obtain rfl := some.inj (hb.symm.trans hx)
        exact ⟨_, hself, hv, hcase.imp_right fun h' => .inl (h'.resolve_right (hnone _))⟩
      · exact ⟨x, (hother j hj).trans hx, hv, hcase⟩
  · by_cases hj : j = k
    · subst j
      obtain rfl := some.inj (hself.symm.trans hx)
      cases hps
    · exact h.applying j x s ((hother j hj).symm.trans hx) hps
  · by_cases hu : c.unresolved = true
    · exact .inl hu
    · refine .inr fun a ha r hr => ?_
      have hlive : a.phase.live = true := by
        rcases hr with hr | hr
        · exact live_of_revision hr
        · obtain ⟨res, hres⟩ := (h.detached a ha r hr).resolve_left hu
          rw [hres]
          rfl
      exact absurd hempty (live_pos ha hlive).ne'
  · refine h.apart.imp_right fun hapart e he r v hpe f hf hch => ?_
    have he' := hwrite e he r v hpe
    rcases hent f hf with rfl | hf
    · exact .inr (hL.slots e he' (by simp [hpe]))
    · exact hapart e he' r v hpe f hf hch

lemma FenceInv.release (ha : c.writes[i]? = some a) (hp : a.phase = .leaving false res) :
    FenceInv (c.releaseWrite i a res) := by
  have hdet : ∀ r, a.detached = some r → c.unresolved = true := fun r hr =>
    (h.detached a (mem_of_getElem? ha) r hr).resolve_right fun ⟨_, h'⟩ => by simp [hp] at h'
  have h₁ := h.setWrite hG hL (w := { a with phase := .returned res }) ha
    (fun r hr => .inl ⟨rfl, .inr (hr.resolve_left nofun)⟩) fun r hr => .inl (hdet r hr)
  have hallow : ∀ (p : ChangePhase) s, p.notify.allows s ↔ p.allows s := fun p s => by
    cases p <;> exact Iff.rfl
  unfold releaseWrite
  split
  · have hget : ∀ k : ℕ, (c.changes.map fun b => { b with phase := b.phase.notify })[k]? =
        (c.changes[k]?).map fun b => { b with phase := b.phase.notify } := fun k => getElem?_map
    refine { h₁ with owned := fun e he k v hpe => ?_, applying := fun k b s hb hps => ?_ }
    · obtain ⟨b, hb, hv, hcase⟩ := h₁.owned e he k v hpe
      refine ⟨{ b with phase := b.phase.notify }, ?_, hv, ?_⟩
      · exact (hget k).trans (by rw [show c.changes[k]? = some b from hb]; rfl)
      · exact hcase.imp_right fun h' => h'.imp_right (hallow _ _).mpr
    · obtain ⟨b₀, hb₀, rfl⟩ := map_eq_some_iff.mp ((hget k).symm.trans hb)
      refine h₁.applying k b₀ s hb₀ ?_
      cases hph : b₀.phase <;> simp_all [notify]
  · exact h₁.reword _

lemma FenceInv.move (hm : Move c d) : FenceInv d := by
  have hkeep : ∀ (k : ℕ) b, c.changes[k]? = some b → ∃ b', c.changes[k]? = some b' ∧
      b'.value = b.value ∧ ∀ e ∈ c.entries, e.party = .change k b.value → b.phase.allows e.slot →
        c.unresolved = true ∨ e.slot ≤ c.revision ∨ b'.phase.allows e.slot :=
    fun k b hb => ⟨b, hb, rfl, fun _ _ _ hx => .inr (.inr hx)⟩
  cases hm with
  | env | token | skip => exact { h with }
  | mark =>
    refine { h with
      owned := fun e he k v hp => ?_, behind := .inl rfl, detached := fun _ _ _ _ => .inl rfl
      apart := .inl rfl }
    obtain ⟨b, hb, hv, -⟩ := h.owned e he k v hp
    exact ⟨b, hb, hv, .inl rfl⟩
  | decide _ he =>
    refine h.frame hG hL (fun x hx hp => ?_) (fun x => mem_cons_of_mem _) le_rfl id hkeep
      (fun k b s hb hp => ?_) (fun a ha r hr => .inl ⟨a, ha, rfl, hr⟩) h.detached
    · rcases mem_entries_decide hx with rfl | hx
      · exact mem_append_left _ (inflight_of_own he hp)
      · exact hx
    · obtain ⟨f, hf, hs⟩ := h.applying k b s hb hp
      exact ⟨f, mem_cons_of_mem _ hf, hs⟩
  | store _ _ he _ hlt =>
    exact h.frame hG hL (fun _ he _ => he) (fun _ he => he) hlt.le id
      (fun k b hb => ⟨b, hb, rfl, fun _ _ _ hx => .inr (.inr hx)⟩) h.applying
      (fun a ha r hr => .inl ⟨a, ha, rfl, hr⟩) h.detached
  | enrollWrite a hl hd =>
    have hmem : ∀ x ∈ c.writes ++ [a], x ∈ c.writes ∨ x = a := by simp
    refine h.frame hG hL (fun _ he _ => he) (fun _ he => he) le_rfl id hkeep h.applying
      (fun x hx r hr => ?_) fun x hx r hr => ?_
    · rcases hmem x hx with hx | rfl
      · exact .inl ⟨x, hx, rfl, hr⟩
      · exact absurd hr (not_carries hl hd)
    · rcases hmem x hx with hx | rfl
      · exact h.detached x hx r hr
      · simp [hd] at hr
  | enrollChange b hh =>
    refine h.frame hG hL (fun _ he _ => he) (fun _ he => he) le_rfl id (fun k x hx => ?_)
      (fun k x s hx hp => ?_) (fun a ha r hr => .inl ⟨a, ha, rfl, hr⟩) h.detached
    · have hk := (List.getElem?_eq_some_iff.mp hx).1
      exact ⟨x, (getElem?_append_left hk).trans hx, rfl, fun _ _ _ hx => .inr (.inr hx)⟩
    · by_cases hk : k < c.changes.length
      · exact h.applying k x s ((getElem?_append_left hk).symm.trans hx) hp
      · have hx' : [b][k - c.changes.length]? = some x :=
          (getElem?_append_right (not_lt.mp hk)).symm.trans hx
        obtain rfl := mem_singleton.mp (mem_of_getElem? hx')
        rw [hp] at hh
        cases hh
  | write _ a _ ha hgo =>
    refine h.setWrite hG hL ha (fun r hr => ?_) fun r hr => ?_
    · rcases hr with hr | hr
      · rcases hgo.revision r hr with hr' | ⟨rfl, hown⟩
        · exact .inl ⟨hgo.expected.symm, .inl hr'⟩
        · have hlive := live_pos (mem_of_getElem? ha) (hgo.live ▸ live_of_revision hr)
          exact .inr ⟨rfl, hgo.expected ▸ hown, hlive⟩
      · exact .inl ⟨hgo.expected.symm, (hgo.detached r hr).1.symm⟩
    · rcases (hgo.detached r hr).2 with hu | hl | ⟨hd, hne⟩
      · exact .inl hu
      · exact .inr hl
      · exact .inl ((h.detached a (mem_of_getElem? ha) r hd).resolve_right
          fun ⟨res, h'⟩ => hne res h')
  | beginWrite _ a word ha hp =>
    have h₁ := h.setWrite hG hL (w := { a with phase := .reading }) ha
      (fun r hr => .inl ⟨rfl, .inr (hr.resolve_left nofun)⟩) fun r hr => ?_
    · exact h₁.reword word
    · exact .inl ((h.detached a (mem_of_getElem? ha) r hr).resolve_right
        fun ⟨_, h'⟩ => by simp [hp] at h')
  | release _ _ _ ha hp => exact h.release hG hL ha hp
  | proposeWrite _ _ _ ha hr => exact h.proposeWrite ha hr
  | change _ _ _ hb hgo =>
    exact h.setChange hG hL hb hgo.value
      (fun e _ _ hal => (hgo.allows e.slot hal).elim (fun h' => .inr (.inr h')) .inl)
      fun s hp => absurd hp (hgo.applying s)
  | proposeChange _ _ hb hp => exact h.proposeChange hG hL hb hp
  | choose _ _ _ hb hp hd =>
    refine h.setChange hG hL hb rfl (fun e _ _ hal => .inr (.inr ?_)) fun s hs => ⟨_, hd, ?_⟩
    · rwa [hp] at hal
    · exact applying.inj hs
  | lose _ _ slot hb hp hl =>
    -- the slot is decided for another entry, so this one is nowhere
    refine h.setChange hG hL hb rfl (fun e he hpe hal => ?_) nofun
    rw [hp] at hal
    obtain rfl : e.slot = slot := hal
    obtain ⟨f, hf, hfs, hne⟩ := hl
    rcases mem_append.mp he with he | he
    · exact absurd hfs.symm (hL.fresh e he f hf)
    · obtain rfl := hL.once f hf e he hfs
      exact absurd (by rw [← hpe]) hne
  | finish k b slot hb hp hs =>
    refine h.setChange hG hL hb rfl (fun e he hpe hal => ?_) nofun
    rw [hp] at hal
    obtain rfl : e.slot = slot := hal
    obtain ⟨f, hf, hfs⟩ := h.applying k b e.slot hb hp
    rcases mem_append.mp he with he | he
    · exact absurd hfs.symm (hL.fresh e he f hf)
    · exact .inr (.inl (hL.applied e he b.value (by rw [hpe]; rfl) (.inl hs)))
  | close _ b hb hp =>
    exact (h.setChange hG hL (w := { b with phase := .arming }) hb rfl
      (fun e _ _ hal => by rw [hp] at hal; exact hal.elim) nofun).reword _
  | drain _ _ _ hb hp =>
    exact h.setChange hG hL hb rfl (fun e _ _ hal => by rw [hp] at hal; exact hal.elim) nofun
  | reopen _ b res hb hp =>
    exact (h.setChange hG hL (w := { b with phase := .returned res }) hb rfl
      (fun e _ _ hal => by rw [hp] at hal; exact hal.elim) nofun).reword _

end

end

/-! ## Calls under an unresolved admission -/

structure LateInv (c : FenceWorld) : Prop where
  write : ∀ a ∈ c.writes, a.late = true → a.phase = .returned (some .outcomeUnknown)
  change : ∀ b ∈ c.changes, b.late = true → c.unresolved = true ∧ b.phase.quiet

lemma lateInv_boot : LateInv boot := by
  constructor <;> simp [boot]

lemma LateInv.setWrite (h : LateInv c) {w : WriteCall} (ha : c.writes[i]? = some a)
    (hlate : w.late = a.late) (hp : ∀ r, a.phase ≠ .returned r) : LateInv (c.setWrite i w) := by
  refine ⟨forall_mem_set h.write fun hl => ?_, h.change⟩
  exact absurd (h.write a (mem_of_getElem? ha) (hlate ▸ hl)) (hp _)

lemma LateInv.setChange (h : LateInv c) (hb : c.changes[k]? = some b) (hlate : w.late = b.late)
    (hq : c.unresolved = true → b.phase.quiet → w.phase.quiet) : LateInv (c.setChange k w) := by
  refine ⟨h.write, forall_mem_set h.change fun hl => ?_⟩
  obtain ⟨hu, hqb⟩ := h.change b (mem_of_getElem? hb) (hlate ▸ hl)
  exact ⟨hu, hq hu hqb⟩

lemma LateInv.move (h : LateInv c) (hm : Move c d) : LateInv d := by
  cases hm with
  | env | token | decide | skip | store | proposeWrite => exact ⟨h.write, h.change⟩
  | mark => exact ⟨h.write, fun b hb hl => ⟨rfl, (h.change b hb hl).2⟩⟩
  | enrollWrite _ _ _ hlate =>
    exact ⟨forall_mem_concat h.write hlate, h.change⟩
  | enrollChange _ _ _ hlate =>
    exact ⟨h.write, forall_mem_concat h.change hlate⟩
  | write _ _ _ ha hgo => exact h.setWrite ha hgo.late hgo.open_
  | beginWrite _ a _ ha hp =>
    have h₁ := h.setWrite (w := { a with phase := .reading }) ha rfl (by simp [hp])
    exact ⟨h₁.write, h₁.change⟩
  | release _ a res ha hp =>
    have h₁ := h.setWrite (w := { a with phase := .returned res }) ha rfl (by simp [hp])
    refine ⟨h₁.write, fun x hx hl => ?_⟩
    simp only [releaseWrite] at hx
    split at hx
    · obtain ⟨b, hb, rfl⟩ := mem_map.mp hx
      obtain ⟨hu, hq⟩ := h.change b hb hl
      refine ⟨hu, ?_⟩
      cases hph : b.phase <;> simp_all [notify, quiet]
    · exact h.change x hx hl
  | change _ _ _ hb hgo => exact h.setChange hb hgo.late hgo.quiet
  | proposeChange k b hb hp =>
    have h₁ : LateInv (c.propose (.change k b.value)) := ⟨h.write, h.change⟩
    refine h₁.setChange hb rfl fun _ hq => ?_
    rcases hp with hp | ⟨s, hp⟩ <;> rw [hp] at hq <;> exact hq.elim
  | choose k b slot hb hp hd | lose k b slot hb hp hd | finish k b slot hb hp hd =>
    refine h.setChange hb rfl fun _ hq => ?_
    rw [hp] at hq
    exact hq.elim
  | close _ b hb =>
    have h₁ := h.setChange (w := { b with phase := .arming }) hb rfl fun _ _ => trivial
    exact ⟨h₁.write, h₁.change⟩
  | drain _ _ _ hb => exact h.setChange hb rfl fun _ _ => trivial
  | reopen _ b res hb hp =>
    have h₁ := h.setChange (w := { b with phase := .returned res }) hb rfl fun _ hq => by
      rwa [hp] at hq
    exact ⟨h₁.write, h₁.change⟩

structure HandoverInv (c : FenceWorld) : Prop where
  gate : GateInv c
  log : LogInv c
  fence : FenceInv c
  late : LateInv c

lemma handoverInv_of_reach (h : ownerFence.Reach (fun c act => fenceGuard c act = true) c) :
    HandoverInv c :=
  reach_invariant ⟨gateInv_boot, logInv_boot, fenceInv_boot, lateInv_boot⟩
    (fun _ _ h hm =>
      ⟨h.gate.move hm, h.log.move hm, h.fence.move h.gate h.log hm, h.late.move hm⟩) h

end FenceWorld

/-- In every run in which a change closes an open admission and calls under an
unresolved admission are new requests to the leader: no write is inside while a
drained change is, and a task left behind by a dropped write means unresolved;
a write decided at a slot above a change has read its value at or above that
change, unless the admission is unresolved; and calls under an unresolved
admission answer `OutcomeUnknown`. -/
theorem owner_handover_fenced {c : FenceWorld}
    (h : ownerFence.Reach (fun c act => FenceWorld.fenceGuard c act = true) c) :
    (∀ b ∈ c.changes, b.drained = true → b.phase.holds = true → ∀ a ∈ c.writes,
      a.phase.live = false ∧ (a.detached ≠ none → c.unresolved = true)) ∧
    (c.unresolved = true ∨ ∀ e ∈ c.decided, ∀ r v, e.party = .write r v →
      (∃ f ∈ c.decided, f.slot = r ∧ f.party.stores = some v) ∧
      ∀ f ∈ c.decided, f.party.isChange = true → f.slot ≤ r ∨ e.slot < f.slot) ∧
    (∀ a ∈ c.writes, a.late = true → a.phase = .returned (some .outcomeUnknown)) ∧
    ∀ b ∈ c.changes, b.late = true → ∀ r, b.phase = .returned (some r) → r = .outcomeUnknown := by
  obtain ⟨hG, -, hF, hL⟩ := handoverInv_of_reach h
  have hdec : ∀ e ∈ c.decided, e ∈ c.entries := fun e => mem_append_right _
  refine ⟨fun b hb hd hh a ha => ?_, ?_, hL.write, fun b hb hl r hr => ?_⟩
  · have hempty := (hG.calls b hb).window hd hh
    have hlive : a.phase.live = false :=
      Bool.eq_false_iff.mpr fun hl => (live_pos ha hl).ne' hempty
    refine ⟨hlive, fun hdet => ?_⟩
    obtain ⟨r, hr⟩ := ne_none_iff_exists'.mp hdet
    refine (hF.detached a ha r hr).resolve_right fun ⟨res, hres⟩ => ?_
    rw [hres] at hlive
    cases hlive
  · exact hF.apart.imp_right fun hap e he r v hp => ⟨hF.read e (hdec e he) r v hp,
      fun f hf => hap e (hdec e he) r v hp f (hdec f hf)⟩
  · have hq := (hL.change b hb hl).2
    rw [hr] at hq
    exact some.inj (hq.resolve_left nofun)

/-- Change 1 takes the token between the removal of change 0's token and the drop
of its `OwnerChange`, finds the admission closed and empty, and goes on; the drop
reopens it, a write is admitted on the old owner, and both are decided. -/
def reopenedUnderChange : List FenceAction :=
  [.decideOther 1 (some [1]), .takeSlot, .learn 1, .apply 1,
    .startChange 7 0 1 [2], .change 0 .close, .change 0 .arm, .change 0 .check, .change 0 .proceed,
    .change 0 .observe, .change 0 .enter, .change 0 .allocate, .decide ⟨2, .change 0 [2]⟩,
    .change 0 .chosen, .apply 2, .change 0 .finish, .change 0 .removeToken,
    .startChange 7 1 2 [3], .change 1 .close, .change 1 .arm, .change 1 .check, .change 0 .reopen,
    .change 1 .proceed, .change 1 .observe, .change 1 .enter, .change 1 .allocate,
    .startWrite 2 [2] false, .write 0 .beginWrite, .write 0 .observe, .write 0 .enter,
    .write 0 .allocate, .decide ⟨3, .change 1 [3]⟩, .decide ⟨4, .write 2 [2]⟩]

/-- A write proposes while a drained change holds the admission, and is decided
above that change on the value the change replaced; nothing is unresolved. -/
theorem stale_owner_write_decided : ∃ c, ownerFence.Reach System.Free c ∧ c.unresolved = false ∧
    (∃ b ∈ c.changes, b.drained = true ∧ b.phase.holds = true ∧
      ∃ a ∈ c.writes, a.phase = .trying 2 4) ∧
    ∃ e ∈ c.decided, ∃ f ∈ c.decided, ∃ r v, e.party = .write r v ∧ f.party.isChange = true ∧
      r < f.slot ∧ f.slot < e.slot :=
  ⟨_, System.reach_run reopenedUnderChange rfl, by decide +kernel, by decide +kernel,
    ⟨4, .write 2 [2]⟩, by decide +kernel, ⟨3, .change 1 [3]⟩, by decide +kernel, 2, [2], rfl, rfl,
    by decide, by decide⟩

/-- A write of owner 1, the handover to owner 2, and a write of owner 2. -/
def cleanHandover : List FenceAction :=
  [.decideOther 1 (some [1]), .takeSlot, .learn 1, .apply 1,
    .startWrite 5 [1] false, .write 0 .beginWrite, .write 0 .observe,
    .startChange 7 6 1 [2], .change 0 .close, .change 0 .arm, .change 0 .check,
    .write 0 .enter, .write 0 .allocate, .decide ⟨2, .write 1 [1]⟩, .write 0 .chosen, .apply 2,
    .write 0 .finish, .write 0 .release, .change 0 .wake, .change 0 .arm, .change 0 .check,
    .change 0 .proceed, .change 0 .observe, .change 0 .enter, .change 0 .allocate,
    .decide ⟨3, .change 0 [2]⟩, .change 0 .chosen, .apply 3, .change 0 .finish,
    .change 0 .removeToken, .change 0 .reopen, .startWrite 8 [2] false, .write 1 .beginWrite,
    .write 1 .observe, .write 1 .enter, .write 1 .allocate, .decide ⟨4, .write 3 [2]⟩]

theorem owner_handover_fenced_clean_run : ∃ c,
    ownerFence.Reach (fun c act => FenceWorld.fenceGuard c act = true) c ∧
      c.decided = [⟨4, .write 3 [2]⟩, ⟨3, .change 0 [2]⟩, ⟨2, .write 1 [1]⟩,
        ⟨1, .other (some [1])⟩] ∧
      c.unresolved = false ∧ ∀ e ∈ c.decided, ∀ r v, e.party = .write r v →
        ∀ f ∈ c.decided, f.party.isChange = true → f.slot ≤ r ∨ e.slot < f.slot := by
  have hreach := System.reach_runGuarded (S := ownerFence) (g := fenceGuard) cleanHandover rfl
  have hord := (owner_handover_fenced hreach).2.1.resolve_left (by decide +kernel)
  exact ⟨_, hreach, by decide +kernel, by decide +kernel, fun e he r v hp => (hord e he r v hp).2⟩

end CrowDB.Cluster
