import CrowDB.Cluster.OwnerFence

/-!
# What a step at the owner fence can do

Every step is a short sequence of moves: an entry, a leave, a close or a reopen of
the admission word, a call that changes its phase within its side of the word, a
proposal, a decision, an application. Invariants are proved of moves.
-/
namespace CrowDB.Cluster
open Paxos Lib Option WritePhase ChangePhase

namespace ChangePhase

/-- `begin_owner_change` has returned and the `OwnerChange` may be proposing. -/
def past : ChangePhase → Bool
  | .admitted | .arming | .armed _ | .parked _ | .returned _ => false
  | .leaving pending _ => pending
  | _ => true

/-- An entry of the change at this slot may be ahead of the engine. -/
def allows : ChangePhase → ℕ → Prop
  | .trying slot, s | .applying slot, s => s = slot
  | .settled true _, _ | .leaving true _, _ => True
  | _, _ => False

/-- Where a change under an unresolved admission may be. -/
def quiet : ChangePhase → Prop
  | .admitted | .arming | .armed _ | .parked _ | .drained => True
  | .settled _ r | .leaving _ r | .returned r => r = none ∨ r = some .outcomeUnknown
  | _ => False

end ChangePhase

def FenceParty.isChange : FenceParty → Bool
  | .change _ _ => true
  | _ => false

namespace FenceWorld

/-- A write changes its phase within one side of the admission. -/
structure WriteGoes (c : FenceWorld) (a a' : WriteCall) : Prop where
  expected : a'.expected = a.expected
  late : a'.late = a.late
  open_ : ∀ r, a.phase ≠ .returned r
  live : a'.phase.live = a.phase.live
  revision : ∀ r, a'.phase.revision? = some r →
    a.phase.revision? = some r ∨ (r = c.revision ∧ c.owner = some a.expected)
  detached : ∀ r, a'.detached = some r → (a.detached = some r ∨ a.phase.revision? = some r) ∧
    (c.unresolved = true ∨ (∃ res, a'.phase = .leaving true res) ∨
      (a.detached = some r ∧ ∀ res, a.phase ≠ .leaving true res))

/-- A change changes its phase and keeps or has no hold on the admission. -/
structure ChangeGoes (c : FenceWorld) (b b' : ChangeCall) : Prop where
  late : b'.late = b.late
  holds : b'.phase.holds = b.phase.holds
  drained : b'.drained = b.drained
  past : b'.phase.past = true → b.phase.past = true
  parked : b'.phase = .parked false → b.phase.holds = true ∧ c.word ≠ GateWord.closedBit
  allows : ∀ s, b.phase.allows s → b'.phase.allows s ∨ c.unresolved = true
  applying : ∀ s, b'.phase ≠ .applying s
  value : b'.value = b.value
  begun : b'.phase ≠ .admitted
  quiet : c.unresolved = true → b.phase.quiet → b'.phase.quiet

inductive Move (c : FenceWorld) : FenceWorld → Prop
  | env (ready leader inTenure : Bool) (lastChosen : ℕ) (results : List (ℕ × ℕ)) (next : ℕ)
      (h : c.nextSlot ≤ next) :
      Move c { c with
        leaderReadReady := ready
        leader := leader
        inTenure := inTenure
        lastChosenSlot := lastChosen
        requestResults := results
        nextSlot := next }
  | token (held : Bool) : Move c { c with token := held }
  | mark : Move c { c with unresolved := true }
  | decide (e : FenceEntry)
      (he : e ∈ c.inflight ∨ e.party.isChange = false ∧ ∀ r v, e.party ≠ .write r v)
      (hn : ∀ f ∈ c.decided, f.slot ≠ e.slot) :
      Move c { c with decided := e :: c.decided, inflight := c.inflight.filter (·.slot ≠ e.slot) }
  | skip (slot : ℕ)
      (h : ∃ e ∈ c.decided, e.slot = slot ∧ ∀ v, e.party.stores = some v → slot ≤ c.revision) :
      Move c { c with applied := c.applied.note slot }
  | store (e : FenceEntry) (value : Bytes) (he : e ∈ c.decided) (hv : e.party.stores = some value)
      (hlt : c.revision < e.slot) :
      Move c { c with applied := c.applied.note e.slot, revision := e.slot, owner := some value }
  | enrollWrite (a : WriteCall) (hl : a.phase.live = false) (hd : a.detached = none)
      (hlate : a.late = true → a.phase = .returned (some .outcomeUnknown)) :
      Move c { c with writes := c.writes ++ [a] }
  | enrollChange (b : ChangeCall) (hh : b.phase.holds = false) (hd : b.drained = false)
      (hlate : b.late = true → c.unresolved = true ∧ b.phase.quiet) :
      Move c { c with changes := c.changes ++ [b] }
  | write (i : ℕ) (a a' : WriteCall) (ha : c.writes[i]? = some a) (h : c.WriteGoes a a') :
      Move c (c.setWrite i a')
  | beginWrite (i : ℕ) (a : WriteCall) (word : UInt64) (ha : c.writes[i]? = some a)
      (hp : a.phase = .checked) (hw : GateWord.enter c.word = some word) :
      Move c { c.writeTo i a .reading with word := word }
  | release (i : ℕ) (a : WriteCall) (res : Option ProposeResult) (ha : c.writes[i]? = some a)
      (hp : a.phase = .leaving false res) : Move c (c.releaseWrite i a res)
  | proposeWrite (i : ℕ) (a : WriteCall) (r : ℕ) (ha : c.writes[i]? = some a)
      (hr : a.phase.revision? = some r ∨ a.detached = some r) :
      Move c (c.propose (.write r a.expected))
  | change (k : ℕ) (b b' : ChangeCall) (hb : c.changes[k]? = some b) (h : c.ChangeGoes b b') :
      Move c (c.setChange k b')
  | proposeChange (k : ℕ) (b : ChangeCall) (hb : c.changes[k]? = some b)
      (hp : b.phase = .waiting ∨ ∃ s, b.phase = .refencing s) : Move c (c.tryChange k b)
  | choose (k : ℕ) (b : ChangeCall) (slot : ℕ) (hb : c.changes[k]? = some b)
      (hp : b.phase = .trying slot) (hd : ⟨slot, .change k b.value⟩ ∈ c.decided) :
      Move c (c.changeTo k b (.applying slot))
  | lose (k : ℕ) (b : ChangeCall) (slot : ℕ) (hb : c.changes[k]? = some b)
      (hp : b.phase = .trying slot) (hl : c.lost ⟨slot, .change k b.value⟩) :
      Move c (c.changeTo k b (.refencing slot))
  | finish (k : ℕ) (b : ChangeCall) (slot : ℕ) (hb : c.changes[k]? = some b)
      (hp : b.phase = .applying slot) (hs : slot ≤ c.applied.contiguous) :
      Move c (c.changeTo k b (.settled false (some (.chosen slot))))
  | close (k : ℕ) (b : ChangeCall) (hb : c.changes[k]? = some b) (hp : b.phase = .admitted)
      (hw : c.word < GateWord.closedBit) :
      Move c { c.changeTo k b .arming with word := GateWord.close c.word }
  | drain (k : ℕ) (b : ChangeCall) (notified : Bool) (hb : c.changes[k]? = some b)
      (hp : b.phase = .armed notified) (hw : c.word = GateWord.closedBit) :
      Move c (c.setChange k { b with drained := true, phase := .drained })
  | reopen (k : ℕ) (b : ChangeCall) (res : Option ProposeResult) (hb : c.changes[k]? = some b)
      (hp : b.phase = .leaving false res) :
      Move c { c.changeTo k b (.returned res) with word := GateWord.reopen c.word }

/-- A sequence of moves. -/
def Moves : FenceWorld → FenceWorld → Prop := Relation.ReflTransGen Move

variable {c d : FenceWorld}

lemma Moves.of_move (h : Move c d) : Moves c d := .single h

lemma Moves.then {e : FenceWorld} (h : Moves c d) (h' : Move d e) : Moves c e := h.tail h'

lemma Moves.trans {e : FenceWorld} (h : Moves c d) (h' : Moves d e) : Moves c e :=
  Relation.ReflTransGen.trans h h'

lemma closeReads_move : Move c { c with leaderReadReady := false } :=
  .env false c.leader c.inTenure c.lastChosenSlot c.requestResults c.nextSlot le_rfl

lemma poison_moves : Moves c c.poison := (Moves.of_move .mark).then closeReads_move

/-! ## Owner writes -/

section Write
variable {i : ℕ} {a : WriteCall}

section
variable (ha : c.writes[i]? = some a)
include ha

lemma writeTo_moves (ho : ∀ r, a.phase ≠ .returned r) (hl : ∀ r, a.phase ≠ .leaving true r)
    {phase : WritePhase} (hlive : phase.live = a.phase.live) (hr : ∀ r, phase.revision? = some r →
      a.phase.revision? = some r ∨ (r = c.revision ∧ c.owner = some a.expected)) :
    Moves c (c.writeTo i a phase) :=
  .of_move (.write i a _ ha ⟨rfl, rfl, ho, hlive, hr, fun _ hd => ⟨.inl hd, .inr (.inr ⟨hd, hl⟩)⟩⟩)

/-- The write starts to leave. -/
theorem leave_moves (hrun : a.phase.running = true) {pending : Bool}
    {result : Option ProposeResult} : Moves c (c.writeTo i a (.leaving pending result)) := by
  refine writeTo_moves ha ?_ ?_ ?_ ?_
  · rintro r h; simp [h, WritePhase.running] at hrun
  · rintro r h; simp [h, WritePhase.running] at hrun
  · cases h : a.phase <;> simp_all [WritePhase.running, live]
  · simp [revision?]

lemma settleWrite_moves (hrun : a.phase.running = true) (result : ProposeResult) :
    Moves c (c.settleWrite i a result) := by
  have hp : ∀ res, Moves c (c.poison.writeTo i a (.leaving true res)) := fun res =>
    poison_moves.trans (leave_moves (c := c.poison) ha hrun)
  cases result with
  | outcomeUnknown | err => exact hp _
  | _ => exact leave_moves ha hrun

lemma tryWrite_moves {r : ℕ} (hr : a.phase.revision? = some r) (hl : a.phase.live = true) :
    Moves c (c.tryWrite i a r) := by
  refine (Moves.of_move (.proposeWrite i a r ha (.inl hr))).trans
    (writeTo_moves (c := c.propose (.write r a.expected)) ha ?_ ?_ ?_ ?_)
  · rintro res h; simp [h, revision?] at hr
  · rintro res h; simp [h, revision?] at hr
  · exact hl.symm
  · intro r' h
    exact .inl (hr.trans h)

lemma abortWrite_moves (hrun : a.phase.running = true) :
    Moves c ({ c with leaderReadReady := false }.setWrite i { a with
      detached := if a.record then a.phase.proposing? else none
      phase := .leaving a.phase.pending none }) := by
  refine (Moves.of_move closeReads_move).then (.write i a _ ha ⟨rfl, rfl, ?_, ?_, ?_, ?_⟩)
  · rintro r h; simp [h, WritePhase.running] at hrun
  · cases h : a.phase <;> simp_all [WritePhase.running, live]
  · simp [revision?]
  · intro r hd
    -- only a running proposal leaves a task behind, and it is pending
    cases h : a.phase <;> simp_all [proposing?, revision?, WritePhase.pending]

lemma stepWrite_moves {s : WriteStep} (hs : c.stepWrite i a s a.phase = some d) : Moves c d := by
  generalize hp : a.phase = phase at hs
  have hleave : phase.running = true → ∀ p r, Moves c (c.writeTo i a (.leaving p r)) :=
    fun h p r => leave_moves ha (hp ▸ h)
  have hsettle : phase.running = true → ∀ r, Moves c (c.settleWrite i a r) :=
    fun h => settleWrite_moves ha (hp ▸ h)
  have hgo : ∀ next : WritePhase, phase.running = true → next.live = true →
      (∀ r, next.revision? = some r → phase.revision? = some r) → Moves c (c.writeTo i a next) := by
    intro next hrun hl hr
    refine writeTo_moves ha ?_ ?_ ?_ fun r h => .inl (hp ▸ hr r h)
    · rintro r h; simp [← hp, h, WritePhase.running] at hrun
    · rintro r h; simp [← hp, h, WritePhase.running] at hrun
    · cases phase <;> simp_all [WritePhase.running, live]
  unfold stepWrite at hs
  split at hs
  all_goals try simp only [ite_none_right_eq_some, map_eq_some_iff, some.injEq] at hs
  · -- beginWrite
    split at hs <;> cases hs
    · next word hw => exact .of_move (.beginWrite i a word ha hp hw)
    · exact writeTo_moves ha (by simp [hp]) (by simp [hp]) (by simp [hp, live])
        (by simp [revision?])
  · -- observe
    split at hs <;> cases hs
    · next hown =>
      refine writeTo_moves ha (by simp [hp]) (by simp [hp]) (by simp [hp, live]) fun r h => ?_
      exact .inr ⟨(some.inj h).symm, hown⟩
    · exact hleave rfl _ _
  · exact hs ▸ hleave rfl _ _
  · -- enter
    split at hs <;> cases hs
    · exact hgo _ rfl rfl fun r h => h
    · exact hleave rfl _ _
  · exact hs ▸ tryWrite_moves ha (by rw [hp]; rfl) (by rw [hp]; rfl)
  · -- cached
    obtain ⟨-, slot, -, rfl⟩ := hs
    exact hgo _ rfl rfl nofun
  · -- chosen
    exact hs.2 ▸ hgo _ rfl rfl nofun
  · -- lose
    exact hs.2 ▸ hgo _ rfl rfl fun r h => h
  · -- reobserve
    obtain ⟨-, hs⟩ := hs
    split at hs <;> cases hs
    · exact tryWrite_moves ha (by rw [hp]; rfl) (by rw [hp]; rfl)
    · exact hsettle rfl _
  · exact hs.2 ▸ hsettle rfl _
  · -- fail
    next result =>
    obtain ⟨hf, rfl⟩ := hs
    refine hsettle ?_ _
    cases result <;> cases phase <;> first | rfl | exact hf.elim
  · -- finish
    exact hs.2 ▸ hleave rfl _ _
  · -- abort
    obtain ⟨hrun, rfl⟩ := hs
    subst hp
    exact abortWrite_moves ha hrun
  · -- wander
    obtain ⟨r, hr, rfl⟩ := hs
    exact .of_move (.proposeWrite i a r ha (.inr hr))
  · -- mark
    subst hs
    refine (Moves.of_move .mark).then (.write i a _ ha ⟨rfl, rfl, by simp [hp], by simp [hp, live],
      by simp [revision?], fun r hd => ⟨.inl hd, .inl rfl⟩⟩)
  · -- release
    exact hs ▸ .of_move (.release i a _ ha hp)
  · cases hs

end

end Write

/-! ## Ownership changes -/

section Change
variable {k : ℕ} {b : ChangeCall}

section
variable (hb : c.changes[k]? = some b)
include hb

/-- A change that is past its drain goes on or settles without an entry of its own
left ahead of the engine. -/
theorem changeTo_moves {phase : ChangePhase} (hh : phase.holds = b.phase.holds)
    (hpast : phase.past = true → b.phase.past = true)
    (hpark : phase = .parked false → b.phase.holds = true ∧ c.word ≠ GateWord.closedBit)
    (hal : ∀ s, b.phase.allows s → phase.allows s ∨ c.unresolved = true)
    (happ : ∀ s, phase ≠ .applying s) (hbeg : phase ≠ .admitted)
    (hq : c.unresolved = true → b.phase.quiet → phase.quiet) : Moves c (c.changeTo k b phase) :=
  .of_move (.change k b _ hb ⟨rfl, hh, rfl, hpast, hpark, hal, happ, rfl, hbeg, hq⟩)

lemma settleChange_moves (hrun : b.phase.past = true) (hh : b.phase.holds = true) {pending : Bool}
    (hal : pending = true ∨ ∀ s, ¬ b.phase.allows s) (hq : ¬ b.phase.quiet) {result : ProposeResult}
    (hpend : (∀ s, ¬ b.phase.allows s) ∨ result = .notLeader ∨ result = .outcomeUnknown ∨
      result = .err) :
    Moves c (c.settleChange k b pending result) := by
  have hgo : ∀ (d : FenceWorld) p r, d.changes = c.changes → (p = true ∨ ∀ s, ¬ b.phase.allows s) →
      Moves d (d.changeTo k b (.settled p r)) := by
    intro d p r hd hp
    refine changeTo_moves (hd ▸ hb) hh.symm (fun _ => hrun) nofun (fun s hs => ?_) nofun nofun
      fun _ h => absurd h hq
    rcases hp with rfl | hp
    · exact .inl trivial
    · exact absurd hs (hp s)
  cases result with
  | outcomeUnknown | err => exact poison_moves.trans (hgo _ _ _ rfl hal)
  | notLeader => exact hgo _ _ _ rfl hal
  | _ => exact hgo _ _ _ rfl (.inr (by simpa using hpend))

lemma abortChange_moves (hrun : b.phase.running = true) :
    Moves c ({ c with leaderReadReady := false }.changeTo k b (.leaving b.phase.pending none)) := by
  have hpend : b.phase.pending = true → b.phase.past = true := by
    cases h : b.phase <;> simp_all [ChangePhase.pending, past]
  refine (Moves.of_move closeReads_move).trans (changeTo_moves (c := { c with
    leaderReadReady := false }) hb ?_ hpend nofun (fun s h => .inl ?_)
      nofun nofun fun _ _ => .inl rfl)
  · cases h : b.phase <;> simp_all [ChangePhase.running, holds]
  · cases h' : b.phase with
    | trying | applying => trivial
    | _ => simp_all [ChangePhase.running, allows]

lemma stepChange_moves {s : ChangeStep} (hg : c.fenceGuard (.change k s) = true)
    (hs : c.stepChange k b s b.phase = some d) : Moves c d := by
  generalize hp : b.phase = phase at hs
  -- settling from a phase with nothing ahead of the engine
  have hsettle : ∀ pending result, phase.past = true → phase.holds = true → ¬ phase.quiet →
      (∀ s, ¬ phase.allows s) → Moves c (c.settleChange k b pending result) :=
    fun pending result h1 h2 h3 h4 => settleChange_moves hb (hp ▸ h1) (hp ▸ h2) (.inr (hp ▸ h4))
      (hp ▸ h3) (.inl (hp ▸ h4))
  have hgo : ∀ next : ChangePhase, next.holds = phase.holds →
    (next.past = true → phase.past = true) →
      (∀ s, phase.allows s → next.allows s) → (∀ n, next ≠ .parked n) → (∀ s, next ≠ .applying s) →
      next ≠ .admitted → (c.unresolved = true → phase.quiet → next.quiet) →
        Moves c (c.changeTo k b next) :=
    fun next h1 h2 h3 h4 h5 h6 h7 => changeTo_moves hb (hp ▸ h1) (hp ▸ h2)
      (fun h => absurd h (h4 false)) (fun s hs => .inl (h3 s (hp ▸ hs))) h5 h6 (hp ▸ h7)
  unfold stepChange at hs
  split at hs
  all_goals try simp only [ite_none_right_eq_some, some.injEq] at hs
  · -- close
    refine hs ▸ .of_move (.close k b hb hp ?_)
    simpa [fenceGuard, hb, hp] using hg
  · exact hs ▸ hgo _ rfl nofun nofun nofun nofun nofun fun _ _ => trivial
  · -- check
    split at hs <;> cases hs
    · next notified hw => exact .of_move (.drain k b notified hb hp hw)
    · next hw =>
      exact changeTo_moves hb (by rw [hp]; rfl) nofun (fun _ => ⟨by rw [hp]; rfl, hw⟩)
        (by simp [hp, allows]) nofun nofun fun _ _ => trivial
  · exact hs ▸ hgo _ rfl nofun nofun nofun nofun nofun fun _ _ => trivial
  · -- proceed
    split at hs <;> cases hs
    · refine (Moves.of_move closeReads_move).trans (changeTo_moves (c := { c with
        leaderReadReady := false }) hb (by rw [hp]; rfl) (fun _ => by rw [hp]; rfl) nofun
        (by simp [hp, allows]) nofun nofun fun _ _ => .inr rfl)
    · next hu => exact hgo _ rfl (fun _ => rfl) nofun nofun nofun nofun fun h => absurd h hu
  · -- observe
    obtain ⟨-, hs⟩ := hs
    split at hs <;> cases hs
    · exact hgo _ rfl (fun _ => rfl) nofun nofun nofun nofun fun _ h => h
    · exact hsettle _ _ rfl rfl nofun nofun
  · exact hs ▸ hsettle _ _ rfl rfl nofun nofun
  · -- enter
    split at hs <;> cases hs
    · exact hgo _ rfl (fun _ => rfl) nofun nofun nofun nofun fun _ h => h
    · exact hsettle _ _ rfl rfl nofun nofun
  · exact hs ▸ .of_move (.proposeChange k b hb (.inl hp))
  · -- chosen
    exact hs.2 ▸ .of_move (.choose k b _ hb hp hs.1)
  · -- lose
    exact hs.2 ▸ .of_move (.lose k b _ hb hp hs.1)
  · -- reobserve
    obtain ⟨-, hs⟩ := hs
    split at hs <;> cases hs
    · exact .of_move (.proposeChange k b hb (.inr ⟨_, hp⟩))
    · exact hsettle _ _ rfl rfl nofun nofun
  · -- fail
    next result =>
    obtain ⟨hf, rfl⟩ := hs
    cases phase with
    | waiting | refencing => exact hsettle _ _ rfl rfl nofun nofun
    | trying =>
      refine settleChange_moves hb (by rw [hp]; rfl) (by rw [hp]; rfl) (.inl rfl)
        (by rw [hp]; nofun)
        (.inr ?_)
      cases result <;> first | exact hf.elim | simp
    | _ => cases result <;> exact hf.elim
  · -- finish
    exact hs.2 ▸ .of_move (.finish k b _ hb hp hs.1)
  · -- removeToken
    next pending result =>
    subst hs
    refine (Moves.of_move (.token false)).trans (changeTo_moves (c := { c with token := false }) hb
      (by rw [hp]; rfl)
      (fun _ => by rw [hp]; rfl) nofun (fun s h => .inl ?_) nofun nofun fun _ h => ?_)
    · rw [hp] at h
      cases pending <;> exact h
    · rwa [hp] at h
  · -- abort
    obtain ⟨hrun, rfl⟩ := hs
    subst hp
    exact abortChange_moves hb hrun
  · -- mark
    subst hs
    refine (Moves.of_move .mark).trans (changeTo_moves (c := { c with unresolved := true }) hb
      (by rw [hp]; rfl) nofun nofun (fun _ _ => .inr rfl) nofun nofun fun _ h => ?_)
    rwa [hp] at h
  · -- reopen
    exact hs ▸ .of_move (.reopen k b _ hb hp)
  · cases hs

end

end Change

/-! ## Every step -/

lemma startWrite_moves {identity : ℕ} {expected : Bytes} {record : Bool}
    (hg : c.fenceGuard (.startWrite identity expected record) = true) :
    Moves c (c.startWrite identity expected record) := by
  have hadd : ∀ phase : WritePhase, phase.live = false →
      (c.unresolved = true → phase = .returned (some .outcomeUnknown)) →
      Moves c { c with writes := c.writes ++
        [⟨identity, expected, record, c.unresolved, none, phase⟩] } :=
    fun phase hl hlate => .of_move (.enrollWrite _ hl rfl hlate)
  simp only [fenceGuard] at hg
  unfold startWrite
  split
  · refine hadd _ rfl fun hu => ?_
    simp_all [casNotReadyResult]
  · split
    · refine hadd _ rfl fun hu => ?_
      simp_all
    · split
      · refine (Moves.of_move closeReads_move).then (.enrollWrite _ rfl rfl fun _ => rfl)
      · next hu => exact hadd _ rfl fun h => absurd h hu

lemma startChange_moves {clientId identity expectedRevision : ℕ} {value : Bytes}
    (hg : c.fenceGuard (.startChange clientId identity expectedRevision value) = true) :
    Moves c (c.startChange clientId identity expectedRevision value) := by
  have hadd : ∀ phase : ChangePhase, phase.holds = false → (c.unresolved = true → phase.quiet) →
      Moves c { c with changes := c.changes ++
        [⟨identity, expectedRevision, value, c.unresolved, false, phase⟩] } :=
    fun phase hh hlate => .of_move (.enrollChange _ hh rfl fun h => ⟨h, hlate h⟩)
  simp only [fenceGuard] at hg
  unfold startChange
  split
  · exact hadd _ rfl fun hu => by simp_all
  · split
    · exact hadd _ rfl fun hu => by simp_all
    · split
      · refine hadd _ rfl fun hu => .inr ?_
        simp_all [casNotReadyResult]
      · split
        · exact hadd _ rfl fun hu => by simp_all
        · exact (Moves.of_move (.token true)).then (.enrollChange _ rfl rfl fun h => ⟨h, trivial⟩)

lemma apply_moves {slot : ℕ} (hs : c.apply slot = some d) : Moves c d := by
  obtain ⟨e, he, rfl⟩ := map_eq_some_iff.mp hs
  have hmem := List.mem_of_find?_eq_some he
  have hslot : e.slot = slot := by simpa using List.find?_some he
  split
  · next value hv =>
    split
    · next hlt =>
      subst hslot
      exact .of_move (.store e value hmem hv hlt)
    · next hle => exact .of_move (.skip slot ⟨e, hmem, hslot, fun _ _ => not_lt.mp hle⟩)
  · next hv => exact .of_move (.skip slot ⟨e, hmem, hslot, fun v h => by simp [hv] at h⟩)

lemma step_moves {act : FenceAction} (hg : c.fenceGuard act = true)
    (hs : c.step act = some d) : Moves c d := by
  cases act with
  | startWrite => exact some.inj hs ▸ startWrite_moves hg
  | write =>
    obtain ⟨a, ha, hs⟩ := bind_eq_some_iff.mp hs
    exact stepWrite_moves ha hs
  | startChange => exact some.inj hs ▸ startChange_moves hg
  | change =>
    obtain ⟨b, hb, hs⟩ := bind_eq_some_iff.mp hs
    exact stepChange_moves hb hg hs
  | decide e =>
    obtain ⟨⟨he, hn⟩, hs⟩ := ite_none_right_eq_some.mp hs
    exact some.inj hs ▸ .of_move (.decide e (.inl he) hn)
  | decideOther slot value =>
    obtain ⟨hn, hs⟩ := ite_none_right_eq_some.mp hs
    exact some.inj hs ▸ .of_move (.decide ⟨slot, .other value⟩ (.inr ⟨rfl, nofun⟩) hn)
  | apply => exact apply_moves hs
  | takeSlot => exact some.inj hs ▸ .of_move (.env _ _ _ _ _ _ (Nat.le_succ _))
  | learn | remember | setGate => exact some.inj hs ▸ .of_move (.env _ _ _ _ _ _ le_rfl)

/-- What holds at boot and is kept by every move holds in every guarded run. -/
theorem reach_invariant {I : FenceWorld → Prop} (hboot : I boot)
    (hmove : ∀ c d, I c → Move c d → I d)
    (h : ownerFence.Reach (fun c act => fenceGuard c act = true) c) : I c := by
  refine System.Reach.invariant (fun s hs => hs ▸ hboot) (fun s a t hI hg ht => ?_) h
  have hm := step_moves hg ht
  clear ht
  induction hm with
  | refl => exact hI
  | tail _ hm ih => exact hmove _ _ ih hm

end FenceWorld
end CrowDB.Cluster
