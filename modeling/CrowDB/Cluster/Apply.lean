import CrowDB.Cluster.Group

/-!
# Live replicas: how a batch reaches the engine

A replica hands a batch to its engine when its own proposal is chosen, or when
the apply loop finds an accepted entry at a slot it takes for chosen. The loop's
evidence is a notice whose ballot matches the accepted entry, a value installed
by `FetchGap`, or only a commit slot from a heartbeat; in the last case nothing
ties the accepted entry to the chosen one, and an entry left over from an older
leader is applied.

The traffic is free: any accept, any election outcome, any delivery of a notice,
heartbeat or reply that was sent, in any order and any number of times.
-/
namespace CrowDB.Cluster
open Paxos Lib List Option PxAcceptor PxLearner PxLocalReplica

structure HeartbeatRequestPayload where
  term : ℕ
  leaderId : ℕ
  committedSafeSlot : ℕ
  deriving DecidableEq, Repr

/-- A replica with the fields its apply loop and its gap driver use. -/
structure LiveReplica extends PxLocalReplica where
  knownCommitSlot : ℕ
  gapSlots : List ℕ
  leaderReadReady : Bool

namespace LiveReplica

def fresh (id : ℕ) : LiveReplica := ⟨.fresh id, 0, [], false⟩

section
variable (R : LiveReplica)

def recordGap (slot : ℕ) : LiveReplica :=
  { R with gapSlots := R.gapSlots.insert slot }

/-- One slot of a chosen notice or of a batch of them. -/
def onChosenNotice (slot term : ℕ) (ballot : PxBallot) : LiveReplica :=
  if (R.acceptor.acceptedAt slot).any (·.ballot == ballot) then
    { R with learner := R.learner.updateChosenFrontier slot term }
  else { R with learner := R.learner.noteChosen slot term }.recordGap slot

def onBatchChosen (slots : List ℕ) (term : ℕ) (ballot : PxBallot) : LiveReplica :=
  slots.foldl (fun R slot => R.onChosenNotice slot term ballot) R

def onHeartbeat (lease now : ℕ) (hb : HeartbeatRequestPayload) : LiveReplica :=
  match R.toPxLocalReplica.handleHeartbeat lease now hb.term hb.leaderId with
  | none => R
  | some S =>
    { R with toPxLocalReplica := S, knownCommitSlot := max R.knownCommitSlot hb.committedSafeSlot }

/-- One turn of the apply loop at `slot`; `ok` is the engine's answer. -/
def applySlot (slot : ℕ) (ok : Bool) : LiveReplica :=
  if slot ≤ R.knownCommitSlot ∨ R.learner.isChosen slot then
    match R.acceptor.acceptedAt slot with
    | some entry => { R with learner := R.learner.applyAndAdvance entry.slot entry.payload ok }
    | none => R.recordGap slot
  else R

/-- The leader's answer to `FetchGap`: only from its contiguous chosen prefix. -/
def handleFetchGap (slot : ℕ) : Option PxLogEntry :=
  if R.role = .leader ∧ R.leaderReadReady ∧ slot ≤ R.learner.chosen.contiguous then
    R.acceptor.acceptedAt slot
  else none

/-- The follower's end: persist, install, and only then move the frontier. -/
def installGap (slot : ℕ) (entry : PxLogEntry) (persisted : Bool) : LiveReplica :=
  if persisted then
    let R' := { R with acceptor := (R.acceptor.installChosen entry).1 }
    if (R.acceptor.installChosen entry).2 then
      { R' with learner := R.learner.updateChosenFrontier entry.slot entry.term }
    else R'.recordGap slot
  else R.recordGap slot

end

end LiveReplica

structure Live where
  nodes : ℕ → LiveReplica
  /-- Accepts answered `Accepted`, by replica. -/
  accepts : List (ℕ × PxLogEntry)
  /-- Entries for which `run_accept_phase` returned `Chosen`. -/
  chosen : List PxLogEntry
  heartbeats : List HeartbeatRequestPayload
  gapRequests : List ℕ
  gapReplies : List PxLogEntry
  /-- Applies deferred to a spawned task. -/
  spawned : List (ℕ × PxLogEntry)

inductive LiveAction
  | prepare (a now slot : ℕ) (ballot : PxBallot) (term : ℕ)
  | accept (a now : ℕ) (entry : PxLogEntry)
  | choose (r : ℕ) (entry : PxLogEntry) (asyncEngineApply ok : Bool)
  | runSpawned (r : ℕ) (entry : PxLogEntry) (ok : Bool)
  | chosenNotice (a : ℕ) (entry : PxLogEntry)
  | batchChosen (a startSlot endSlot term : ℕ) (ballot : PxBallot)
  | elect (r now term : ℕ)
  | recovered (r : ℕ)
  | stepDown (r now : ℕ)
  | sendHeartbeat (r : ℕ)
  | heartbeat (a now : ℕ) (hb : HeartbeatRequestPayload)
  | applySlot (a slot : ℕ) (ok : Bool)
  | requestGap (a slot : ℕ)
  | answerGap (r slot : ℕ)
  | installGap (a slot : ℕ) (entry : PxLogEntry) (persisted : Bool)
  | failGap (a slot : ℕ)
  deriving DecidableEq, Repr

namespace Live

def boot : Live := ⟨LiveReplica.fresh, [], [], [], [], [], []⟩

def setNode (c : Live) (a : ℕ) (R : LiveReplica) : Live :=
  { c with nodes := Function.update c.nodes a R }

def slotsBetween (startSlot endSlot : ℕ) : List ℕ := List.range' startSlot (endSlot + 1 - startSlot)

/-- The accept phase of `entry` has its quorum. -/
def quorumAccepted (cfg : GroupConfig) (c : Live) (entry : PxLogEntry) : Bool :=
  cfg.quorum ≤ ((cfg.members.filter cfg.voting).filter fun a => (a, entry) ∈ c.accepts).length

variable (cfg : GroupConfig)

def step (c : Live) : LiveAction → Option Live
  | .prepare a now slot ballot term =>
    some (c.setNode a { c.nodes a with
      toPxLocalReplica := ((c.nodes a).onPrepare now slot ballot term).1 })
  | .accept a now entry =>
    -- slots are numbered from one
    if 0 < entry.slot then
      some { c.setNode a { c.nodes a with
          toPxLocalReplica := ((c.nodes a).onAccept now entry).1 } with
        accepts := if ((c.nodes a).onAccept now entry).2 = .accepted entry.slot entry.ballot then
          (a, entry) :: c.accepts else c.accepts }
    else none
  | .choose r entry asyncEngineApply ok =>
    if c.quorumAccepted cfg entry then
      if asyncEngineApply then
        some { c.setNode r { c.nodes r with
            learner := (c.nodes r).learner.updateChosenFrontier entry.slot entry.term } with
          chosen := entry :: c.chosen
          spawned := (r, entry) :: c.spawned }
      else
        some { c.setNode r { c.nodes r with learner := (c.nodes r).learner.learn entry ok } with
          chosen := entry :: c.chosen }
    else none
  | .runSpawned r entry ok =>
    if (r, entry) ∈ c.spawned then
      some { c.setNode r { c.nodes r with
          learner := (c.nodes r).learner.applyAndAdvance entry.slot entry.payload ok } with
        spawned := c.spawned.erase (r, entry) }
    else none
  | .chosenNotice a entry =>
    if entry ∈ c.chosen then
      some (c.setNode a ((c.nodes a).onChosenNotice entry.slot entry.term entry.ballot))
    else none
  | .batchChosen a startSlot endSlot term ballot =>
    if ∀ s ∈ slotsBetween startSlot endSlot, ∃ e ∈ c.chosen, e.slot = s ∧ e.ballot = ballot then
      some (c.setNode a ((c.nodes a).onBatchChosen (slotsBetween startSlot endSlot) term ballot))
    else none
  | .elect r now term =>
    some (c.setNode r { c.nodes r with
      toPxLocalReplica := { (c.nodes r).toPxLocalReplica with
        currentTerm := max (c.nodes r).currentTerm term }.becomeLeader now
      leaderReadReady := false })
  | .recovered r =>
    if (c.nodes r).role = .leader then
      some (c.setNode r { c.nodes r with
        leaderReadReady := true
        knownCommitSlot := max (c.nodes r).knownCommitSlot (c.nodes r).learner.chosen.contiguous })
    else none
  | .stepDown r now =>
    some (c.setNode r { c.nodes r with
      toPxLocalReplica := (c.nodes r).becomeFollower now (c.nodes r).currentTerm
      leaderReadReady := false })
  | .sendHeartbeat r =>
    if (c.nodes r).role = .leader then
      some { c with heartbeats :=
        ⟨(c.nodes r).currentTerm, r, (c.nodes r).learner.chosen.contiguous⟩ :: c.heartbeats }
    else none
  | .heartbeat a now hb =>
    if hb ∈ c.heartbeats then
      some (c.setNode a ((c.nodes a).onHeartbeat cfg.leaseDurationMs now hb))
    else none
  | .applySlot a slot ok =>
    -- the loop runs from the applied frontier it read up to this target
    if 0 < slot ∧ slot ≤ max (c.nodes a).knownCommitSlot (c.nodes a).learner.lastChosenSlot then
      some (c.setNode a ((c.nodes a).applySlot slot ok))
    else none
  | .requestGap a slot =>
    if slot ∈ (c.nodes a).gapSlots ∧ (c.nodes a).role ≠ .leader then
      some { c.setNode a { c.nodes a with gapSlots := (c.nodes a).gapSlots.erase slot } with
        gapRequests := slot :: c.gapRequests }
    else none
  | .answerGap r slot =>
    if slot ∈ c.gapRequests then
      ((c.nodes r).handleFetchGap slot).map fun e => { c with gapReplies := e :: c.gapReplies }
    else none
  | .installGap a slot entry persisted =>
    if entry ∈ c.gapReplies ∧ slot ∈ c.gapRequests ∧ entry.slot = slot then
      some (c.setNode a ((c.nodes a).installGap slot entry persisted))
    else none
  | .failGap a slot =>
    if slot ∈ c.gapRequests then some (c.setNode a ((c.nodes a).recordGap slot)) else none

end Live

def live (cfg : GroupConfig) : System Live LiveAction where
  init c := c = Live.boot
  step := Live.step cfg

variable {ballot : PxBallot}

namespace Live
variable {cfg : GroupConfig} {c d : Live}

/-- The entry is at or above a chosen entry of its slot. -/
def Reaches (chosen : List PxLogEntry) (y : PxLogEntry) : Prop :=
  ∃ x ∈ chosen, x.slot = y.slot ∧ x.rank ≤ y.rank

instance (l : List PxLogEntry) (y : PxLogEntry) : Decidable (Reaches l y) :=
  inferInstanceAs (Decidable (∃ x ∈ l, x.slot = y.slot ∧ x.rank ≤ y.rank))

/-- The condition on a step. Accepts and decisions are consistent, in the order
of terms and ballots. A proposer whose entry is chosen has taken it itself. A
fetched entry is installed by a replica that has reached its term, and an entry
that is kept instead is not of an older term. At a slot it knows from a commit
slot alone, the apply loop finds an entry at or above a chosen one. -/
def applyGuard (c : Live) : LiveAction → Bool
  | .accept _ _ entry => c.chosen.all fun x => x.Consistent entry
  | .choose r entry _ _ => (c.accepts.all fun y => entry.Consistent y.2) &&
    ((c.nodes r).acceptor.acceptedAt entry.slot).any (entry.rank ≤ ·.rank)
  | .installGap a _ entry _ => entry.term ≤ (c.nodes a).currentTerm &&
    ((c.nodes a).acceptor.node entry.slot).accepted.all fun z =>
      z.ballot < entry.ballot || entry.term ≤ z.term
  | .applySlot a slot _ => (c.nodes a).learner.isChosen slot ||
    ((c.nodes a).acceptor.acceptedAt slot).all fun y => Reaches c.chosen y
  | _ => true

variable {y : PxLogEntry}

lemma Reaches.mono {l m : List PxLogEntry} (h : ∀ x ∈ l, x ∈ m) {z : PxLogEntry}
    (hs : y.slot = z.slot) (hb : y.rank ≤ z.rank) (hy : Reaches l y) : Reaches m z := by
  obtain ⟨x, hx, h1, h2⟩ := hy
  exact ⟨x, h x hx, h1.trans hs, h2.trans hb⟩

/-- What holds of one replica. -/
structure NodeInv (accepts : List (ℕ × PxLogEntry)) (chosen : List PxLogEntry) (R : LiveReplica) :
    Prop where
  held : ∀ s y, (R.acceptor.node s).accepted = some y →
    (∃ b, (b, y) ∈ accepts) ∧ y.term ≤ R.currentTerm
  known : ∀ s, 0 < s → R.learner.chosen.covers s →
    ∃ y, (R.acceptor.node s).accepted = some y ∧ Reaches chosen y
  log : ∀ s p, (s, p) ∈ R.learner.engineLog → ∃ x ∈ chosen, x.slot = s ∧ x.payload = p
  backed : R.learner.Backed
  gaps : ∀ s ∈ R.gapSlots, 0 < s

structure LiveInv (c : Live) : Prop where
  node : ∀ a, NodeInv c.accepts c.chosen (c.nodes a)
  pos : ∀ y ∈ c.accepts, 0 < y.2.slot
  taken : ∀ x ∈ c.chosen, ∃ b, (b, x) ∈ c.accepts
  agree : ∀ x ∈ c.chosen, ∀ y ∈ c.accepts, x.Consistent y.2
  asked : ∀ s ∈ c.gapRequests, 0 < s
  fetched : ∀ e ∈ c.gapReplies, (∃ b, (b, e) ∈ c.accepts) ∧ Reaches c.chosen e
  spawned : ∀ x ∈ c.spawned, x.2 ∈ c.chosen

variable {R : LiveReplica}

lemma NodeInv.mono {accepts accepts' : List (ℕ × PxLogEntry)} {chosen chosen' : List PxLogEntry}
    (ha : ∀ y ∈ accepts, y ∈ accepts') (hc : ∀ x ∈ chosen, x ∈ chosen')
    (h : NodeInv accepts chosen R) : NodeInv accepts' chosen' R where
  held s y hy := by
    obtain ⟨⟨b, hb⟩, ht⟩ := h.held s y hy
    exact ⟨⟨b, ha _ hb⟩, ht⟩
  known s hs hcov := by
    obtain ⟨y, hy, hr⟩ := h.known s hs hcov
    exact ⟨y, hy, hr.mono hc rfl le_rfl⟩
  log s p hp := by
    obtain ⟨x, hx, h1⟩ := h.log s p hp
    exact ⟨x, hc x hx, h1⟩
  backed := h.backed
  gaps := h.gaps

variable {e x : PxLogEntry}

section Node
variable {accepts : List (ℕ × PxLogEntry)} {chosen : List PxLogEntry} {R : LiveReplica}

section
variable (h : NodeInv accepts chosen R)
include h

/-- The acceptor advances and the learner stays. A new entry has a term the
replica had not passed, or reaches a chosen one. -/
theorem NodeInv.advance {S : LiveReplica} {new : Option PxLogEntry}
    (hA : R.acceptor.Advances new S.acceptor) (hT : R.currentTerm ≤ S.currentTerm)
    (hnew : ∀ y ∈ new, (∃ b, (b, y) ∈ accepts) ∧ y.term ≤ S.currentTerm ∧
      (R.currentTerm ≤ y.term ∨ Reaches chosen y)) (hL : S.learner = R.learner)
    (hG : ∀ s ∈ S.gapSlots, s ∈ R.gapSlots) : NodeInv accepts chosen S where
  held s y hy := by
    rcases hA.origin s y hy with hy | hy
    · exact ⟨(h.held s y hy).1, (h.held s y hy).2.trans hT⟩
    · exact ⟨(hnew y hy).1, (hnew y hy).2.1⟩
  known s hs hcov := by
    obtain ⟨y, hy, hr⟩ := h.known s hs (hL ▸ hcov)
    obtain ⟨z, hz, hle⟩ := hA.kept s y hy
    have hslot : y.slot = z.slot := by
      rw [slot_of_node_accepted hy, slot_of_node_accepted hz]
    refine ⟨z, hz, ?_⟩
    rcases hA.origin s z hz with hz' | hz'
    · exact some.inj (hy.symm.trans hz') ▸ hr
    · rcases (hnew z hz').2.2 with ht | hr'
      · exact hr.mono (fun _ hx => hx) hslot
          (PxLogEntry.rank_le ((h.held s y hy).2.trans ht) hle)
      · exact hr'
  log := by rw [hL]; exact h.log
  backed := hL ▸ h.backed
  gaps s hs := h.gaps s (hG s hs)

/-- The learner changes and the acceptor stays. -/
theorem NodeInv.relearn {L : PxLearner}
    (hknown : ∀ s, 0 < s → L.chosen.covers s → R.learner.chosen.covers s ∨
      ∃ y, (R.acceptor.node s).accepted = some y ∧ Reaches chosen y)
    (hlog : ∀ s p, (s, p) ∈ L.engineLog → (s, p) ∈ R.learner.engineLog ∨
      ∃ x ∈ chosen, x.slot = s ∧ x.payload = p) (hb : L.Backed) :
    NodeInv accepts chosen { R with learner := L } where
  held := h.held
  known s hs hcov := (hknown s hs hcov).elim (h.known s hs) id
  log s p hp := (hlog s p hp).elim (h.log s p) id
  backed := hb
  gaps := h.gaps

lemma NodeInv.recordGap {s : ℕ} (hs : 0 < s) : NodeInv accepts chosen (R.recordGap s) where
  held := h.held
  known := h.known
  log := h.log
  backed := h.backed
  gaps t ht := by
    rcases mem_insert_iff.mp ht with rfl | ht
    · exact hs
    · exact h.gaps t ht

section
variable (hagree : ∀ x ∈ chosen, ∀ y ∈ accepts, x.Consistent y.2)
include hagree

/-- A matched notice names an accepted entry of a chosen ballot. -/
theorem NodeInv.onChosenNotice {slot term : ℕ} (hx : x ∈ chosen) (hs : x.slot = slot)
    (hb : x.ballot = ballot) (hpos : 0 < slot) :
    NodeInv accepts chosen (R.onChosenNotice slot term ballot) := by
  unfold LiveReplica.onChosenNotice
  split
  · next hm =>
    obtain ⟨y, hy, hyb⟩ : ∃ y, (R.acceptor.node slot).accepted = some y ∧ y.ballot = ballot := by
      cases he : R.acceptor.acceptedAt slot with
      | none => simp [he] at hm
      | some y => exact ⟨y, acceptedAt_some he, by simpa [he] using hm⟩
    refine h.relearn (fun s _ hcov => ?_) (fun _ _ => .inl) h.backed
    rcases (updateChosenFrontier_covers _ _ _ _).mp hcov with hcov | rfl
    · exact .inl hcov
    · obtain ⟨b, hacc⟩ := (h.held _ y hy).1
      have hslot : x.slot = y.slot := by rw [hs, slot_of_node_accepted hy]
      obtain rfl := (hagree x hx _ hacc hslot).2 (hb.trans hyb.symm)
      exact .inr ⟨x, hy, x, hx, rfl, le_rfl⟩
  · refine NodeInv.recordGap (h.relearn (L := R.learner.noteChosen slot term) ?_ ?_ h.backed) hpos
    · exact fun _ _ => .inl
    · exact fun _ _ => .inl

lemma NodeInv.onBatchChosen {slots : List ℕ} {term : ℕ}
    (hs : ∀ s ∈ slots, 0 < s ∧ ∃ x ∈ chosen, x.slot = s ∧ x.ballot = ballot) :
    NodeInv accepts chosen (R.onBatchChosen slots term ballot) := by
  induction slots generalizing R with
  | nil => exact h
  | cons s slots ih =>
    obtain ⟨hpos, x, hx, hxs, hxb⟩ := hs s mem_cons_self
    exact ih (h.onChosenNotice hagree hx hxs hxb hpos) fun t ht => hs t (mem_cons_of_mem _ ht)

end

/-- The apply loop hands over an accepted entry that reaches a chosen ballot. -/
theorem NodeInv.applySlot {slot : ℕ} {ok : Bool} (hpos : 0 < slot)
    (hagree : ∀ x ∈ chosen, ∀ y ∈ accepts, x.Consistent y.2)
    (hreach : R.learner.isChosen slot = true ∨ ∀ y, R.acceptor.acceptedAt slot = some y →
      Reaches chosen y) : NodeInv accepts chosen (R.applySlot slot ok) := by
  unfold LiveReplica.applySlot
  split
  · cases he : R.acceptor.acceptedAt slot with
    | none => exact h.recordGap hpos
    | some y =>
      have hy := acceptedAt_some he
      have hr : Reaches chosen y := by
        rcases hreach with hc | hr
        · obtain ⟨z, hz, hr⟩ := h.known slot hpos ((isChosen_iff _ _).mp hc)
          rw [hy] at hz
          exact some.inj hz ▸ hr
        · exact hr y he
      obtain ⟨x, hx, hs, hb⟩ := hr
      obtain ⟨⟨b, hacc⟩, -⟩ := h.held slot y hy
      refine h.relearn (fun s _ hcov => .inl (by simpa using hcov)) (fun s p hp => ?_)
        (h.backed.applyAndAdvance _ _ _)
      rw [applyAndAdvance_engineLog] at hp
      rcases mem_cons.mp hp with hp | hp
      · cases hp
        exact .inr ⟨x, hx, hs, ((hagree x hx _ hacc hs).1 hb).symm⟩
      · exact .inl hp
  · exact h

lemma NodeInv.installGap {persisted : Bool} (hpos : 0 < e.slot) (hacc : ∃ b, (b, e) ∈ accepts)
    (hr : Reaches chosen e) (hterm : e.term ≤ R.currentTerm)
    (hkept : ∀ z, (R.acceptor.node e.slot).accepted = some z → e.ballot ≤ z.ballot →
      e.term ≤ z.term) : NodeInv accepts chosen (R.installGap e.slot e persisted) := by
  have hadv : NodeInv accepts chosen { R with acceptor := (R.acceptor.installChosen e).1 } :=
    h.advance (R.acceptor.advances_installChosen e) le_rfl
      (by rintro y ⟨⟩; exact ⟨hacc, hterm, .inr hr⟩) rfl fun _ h => h
  unfold LiveReplica.installGap
  split
  · split
    · next hok =>
      obtain ⟨z, hz, hle⟩ := installChosen_true hok
      refine hadv.relearn (fun s _ hcov => ?_) (fun _ _ => .inl) h.backed
      rcases (updateChosenFrontier_covers _ _ _ _).mp hcov with hcov | rfl
      · exact .inl hcov
      · refine .inr ⟨z, hz, hr.mono (fun _ hx => hx) (slot_of_node_accepted hz).symm ?_⟩
        rcases (R.acceptor.advances_installChosen e).origin _ z hz with hz' | hz'
        · exact PxLogEntry.rank_le (hkept z hz' hle) hle
        · exact some.inj hz' ▸ le_rfl
    · exact hadv.recordGap hpos
  · exact h.recordGap hpos

end

end Node

lemma liveInv_boot : LiveInv boot := by
  refine ⟨fun a => ⟨?_, ?_, ?_, backed_fresh, ?_⟩, ?_, ?_, ?_, ?_, ?_, ?_⟩ <;>
    simp [boot, LiveReplica.fresh, PxLocalReplica.fresh, PxLearner.fresh, node, default]
  omega

section
variable (hI : LiveInv c)
include hI

/-- One replica changes, and nothing is accepted, chosen, asked or answered. -/
theorem LiveInv.set {a : ℕ} (h : NodeInv c.accepts c.chosen R) : LiveInv (c.setNode a R) where
  node b := by
    by_cases hb : b = a
    · subst b; simpa [setNode] using h
    · simpa [setNode, hb] using hI.node b
  pos := hI.pos
  taken := hI.taken
  agree := hI.agree
  asked := hI.asked
  fetched := hI.fetched
  spawned := hI.spawned

lemma LiveInv.chosen_pos (hx : x ∈ c.chosen) : 0 < x.slot := by
  obtain ⟨b, hb⟩ := hI.taken x hx
  exact hI.pos _ hb

/-- Accepting an entry that keeps the discipline. -/
theorem LiveInv.addAccept {a : ℕ} (hpos : 0 < e.slot) (hg : ∀ x ∈ c.chosen, x.Consistent e) :
    LiveInv { c with accepts := (a, e) :: c.accepts } where
  node b := (hI.node b).mono (fun _ => mem_cons_of_mem _) fun _ h => h
  pos := forall_mem_cons.mpr ⟨hpos, hI.pos⟩
  taken x hx := by
    obtain ⟨b, hb⟩ := hI.taken x hx
    exact ⟨b, mem_cons_of_mem _ hb⟩
  agree x hx := forall_mem_cons.mpr ⟨hg x hx, hI.agree x hx⟩
  asked := hI.asked
  fetched x hx := by
    obtain ⟨⟨b, hb⟩, hr⟩ := hI.fetched x hx
    exact ⟨⟨b, mem_cons_of_mem _ hb⟩, hr⟩
  spawned := hI.spawned

/-- A decision that keeps the discipline. -/
theorem LiveInv.addChosen (ht : ∃ b, (b, e) ∈ c.accepts) (hg : ∀ y ∈ c.accepts, e.Consistent y.2) :
    LiveInv { c with chosen := e :: c.chosen } where
  node b := (hI.node b).mono (fun _ h => h) fun _ => mem_cons_of_mem _
  pos := hI.pos
  taken := forall_mem_cons.mpr ⟨ht, hI.taken⟩
  agree := forall_mem_cons.mpr ⟨hg, hI.agree⟩
  asked := hI.asked
  fetched x hx := by
    obtain ⟨h1, h2⟩ := hI.fetched x hx
    exact ⟨h1, h2.mono (fun _ => mem_cons_of_mem _) rfl le_rfl⟩
  spawned x hx := mem_cons_of_mem _ (hI.spawned x hx)

end

lemma exists_of_quorumAccepted (h : c.quorumAccepted cfg e = true) :
    ∃ b, (b, e) ∈ c.accepts := by
  have hq : cfg.quorum ≤
      ((cfg.members.filter cfg.voting).filter fun a => (a, e) ∈ c.accepts).length :=
    of_decide_eq_true h
  have hlen := (Nat.succ_pos _).trans_le hq
  obtain ⟨b, hb⟩ := exists_mem_of_length_pos hlen
  exact ⟨b, by simpa using (mem_filter.mp hb).2⟩

/-- The proposer learns its own decision, which its acceptor holds. -/
theorem LiveInv.choose (hI : LiveInv c) {r : ℕ} (hq : c.quorumAccepted cfg e = true)
    (hg : ∀ y ∈ c.accepts, e.Consistent y.2)
    (hy : ((c.nodes r).acceptor.node e.slot).accepted = some y) (hle : e.rank ≤ y.rank)
    {L : PxLearner}
    (hcov : ∀ s, L.chosen.covers s → (c.nodes r).learner.chosen.covers s ∨ s = e.slot)
    (hlog : ∀ x ∈ L.engineLog, x ∈ (c.nodes r).learner.engineLog ∨ x = (e.slot, e.payload))
    (hb : L.Backed) :
    LiveInv ({ c with chosen := e :: c.chosen }.setNode r { c.nodes r with learner := L }) := by
  have hI' := hI.addChosen (exists_of_quorumAccepted hq) hg
  refine hI'.set ((hI'.node r).relearn (fun s _ hs => ?_) (fun s p hp => ?_) hb)
  · rcases hcov s hs with hs | rfl
    · exact .inl hs
    · exact .inr ⟨y, hy, e, mem_cons_self, (slot_of_node_accepted hy).symm, hle⟩
  · rcases hlog _ hp with hp | hp
    · exact .inl hp
    · cases hp
      exact .inr ⟨e, mem_cons_self, rfl, rfl⟩

/-- One replica changes outside its acceptor and learner. -/
theorem LiveInv.quiet (hI : LiveInv c) {r : ℕ} (hL : R.learner = (c.nodes r).learner)
    (hA : R.acceptor = (c.nodes r).acceptor) (hT : (c.nodes r).currentTerm ≤ R.currentTerm)
    (hG : ∀ s ∈ R.gapSlots, s ∈ (c.nodes r).gapSlots) : LiveInv (c.setNode r R) :=
  hI.set ((hI.node r).advance (.of_eq none fun s => by rw [hA]) hT (by simp) hL hG)

lemma LiveInv.step (hI : LiveInv c) {a : LiveAction} (hg : applyGuard c a = true)
    (hs : step cfg c a = some d) : LiveInv d := by
  cases a <;> simp only [Live.step, ite_none_right_eq_some,
    map_eq_some_iff, some.injEq] at hs
  case prepare a now slot ballot term =>
    cases hs
    exact hI.set ((hI.node a).advance (.of_eq none fun s => by simp)
      (evolves_onPrepare _ _ _ _ _).term (by simp) (by simp) fun _ h => h)
  case accept a now entry =>
    obtain ⟨hpos, rfl⟩ := hs
    have hadv := (c.nodes a).onAccept_advances now entry
    have hE := evolves_onAccept (c.nodes a).toPxLocalReplica now entry
    split
    · next hr =>
      rw [if_pos hr] at hadv
      have hI' := hI.addAccept (a := a) hpos fun x hx =>
        of_decide_eq_true (all_eq_true.mp hg x hx)
      refine hI'.set ((hI'.node a).advance hadv hE.term ?_ (by simp) fun _ h => h)
      rintro y ⟨⟩
      have hterm := (onAccept_accepted hr).2.2.2.2
      exact ⟨⟨a, mem_cons_self⟩, hterm.ge, .inl (hterm ▸ hE.term)⟩
    · next hr =>
      rw [if_neg hr] at hadv
      exact hI.set ((hI.node a).advance hadv hE.term (by simp) (by simp) fun _ h => h)
  case choose r entry async ok =>
    obtain ⟨hq, hs⟩ := hs
    simp only [applyGuard, Bool.and_eq_true, List.all_eq_true, decide_eq_true_eq] at hg
    obtain ⟨hdisc, hown⟩ := hg
    obtain ⟨y, hy, hle⟩ : ∃ y, ((c.nodes r).acceptor.node entry.slot).accepted = some y ∧
        entry.rank ≤ y.rank := by
      cases he : (c.nodes r).acceptor.acceptedAt entry.slot with
      | none => simp [he] at hown
      | some y => exact ⟨y, acceptedAt_some he, by simpa [he] using hown⟩
    cases async with
    | true =>
      cases hs
      have h := hI.choose hq hdisc hy hle
        (L := (c.nodes r).learner.updateChosenFrontier entry.slot entry.term)
        (fun s => (updateChosenFrontier_covers _ _ _ _).mp) (fun _ => .inl)
        (hI.node r).backed
      exact { h with spawned := forall_mem_cons.mpr ⟨mem_cons_self, h.spawned⟩ }
    | false =>
      cases hs
      refine hI.choose hq hdisc hy hle (fun s => (learn_covers _ _ _ _).mp)
        (fun x hx => ?_) ((hI.node r).backed.learn entry ok)
      rw [learn_engineLog] at hx
      exact (mem_cons.mp hx).symm
  case runSpawned r entry ok =>
    obtain ⟨hm, rfl⟩ := hs
    have h := hI.set (a := r) ((hI.node r).relearn
      (L := (c.nodes r).learner.applyAndAdvance entry.slot entry.payload ok)
      (fun s _ hc => .inl (by simpa using hc))
      (fun s p hp => by
        rw [applyAndAdvance_engineLog] at hp
        rcases mem_cons.mp hp with hp | hp
        · cases hp
          exact .inr ⟨entry, hI.spawned _ hm, rfl, rfl⟩
        · exact .inl hp)
      ((hI.node r).backed.applyAndAdvance _ _ _))
    exact { h with spawned := fun x hx => h.spawned x (mem_of_mem_erase hx) }
  case chosenNotice a entry =>
    obtain ⟨hm, rfl⟩ := hs
    exact hI.set ((hI.node a).onChosenNotice hI.agree hm rfl rfl (hI.chosen_pos hm))
  case batchChosen a startSlot endSlot term ballot =>
    obtain ⟨hm, rfl⟩ := hs
    refine hI.set ((hI.node a).onBatchChosen hI.agree fun s hs => ?_)
    obtain ⟨x, hx, hxs, hxb⟩ := hm s hs
    exact ⟨hxs ▸ hI.chosen_pos hx, x, hx, hxs, hxb⟩
  case elect r now term =>
    cases hs
    exact hI.quiet rfl rfl (le_max_left _ _) fun _ h => h
  case recovered r =>
    obtain ⟨-, rfl⟩ := hs
    exact hI.quiet rfl rfl le_rfl fun _ h => h
  case stepDown r now =>
    cases hs
    exact hI.quiet rfl rfl (evolves_becomeFollower _ _ _).term fun _ h => h
  case sendHeartbeat r =>
    obtain ⟨-, rfl⟩ := hs
    exact { hI with }
  case heartbeat a now hb =>
    obtain ⟨-, rfl⟩ := hs
    unfold LiveReplica.onHeartbeat
    split
    · exact hI.set (hI.node a)
    · next S hS =>
      exact hI.quiet (handleHeartbeat_learner hS)
        (handleHeartbeat_some hS).2.1
        (handleHeartbeat_some hS).1.term fun _ h => h
  case applySlot a slot ok =>
    obtain ⟨⟨hpos, -⟩, rfl⟩ := hs
    refine hI.set ((hI.node a).applySlot hpos hI.agree ?_)
    simp only [applyGuard, Bool.or_eq_true] at hg
    refine hg.imp id fun hall y hy => ?_
    simpa [hy] using hall
  case requestGap a slot =>
    obtain ⟨⟨hm, -⟩, rfl⟩ := hs
    have h := hI.quiet
      (R := { c.nodes a with gapSlots := (c.nodes a).gapSlots.erase slot }) rfl rfl le_rfl
      fun _ => mem_of_mem_erase
    exact { h with asked := forall_mem_cons.mpr ⟨(hI.node a).gaps slot hm, h.asked⟩ }
  case answerGap r slot =>
    obtain ⟨hm, e, he, rfl⟩ := hs
    refine { hI with fetched := forall_mem_cons.mpr ⟨?_, hI.fetched⟩ }
    simp only [LiveReplica.handleFetchGap, ite_none_right_eq_some] at he
    obtain ⟨⟨-, -, hle⟩, hacc⟩ := he
    have hacc := acceptedAt_some hacc
    obtain ⟨y, hy, hr⟩ := (hI.node r).known slot (hI.asked slot hm) (.inl hle)
    rw [hacc] at hy
    exact ⟨((hI.node r).held slot e hacc).1, some.inj hy ▸ hr⟩
  case installGap a slot entry persisted =>
    obtain ⟨⟨hm, hr, rfl⟩, rfl⟩ := hs
    obtain ⟨hacc, hreach⟩ := hI.fetched entry hm
    simp only [applyGuard, Bool.and_eq_true, decide_eq_true_eq] at hg
    refine hI.set ((hI.node a).installGap (hI.asked _ hr) hacc hreach hg.1 fun z hz hle => ?_)
    have := hg.2
    rw [hz] at this
    simpa [not_lt.mpr hle] using this
  case failGap a slot =>
    obtain ⟨hr, rfl⟩ := hs
    exact hI.set ((hI.node a).recordGap (hI.asked slot hr))

lemma liveInv_of_reach (h : (live cfg).Reach (fun c a => applyGuard c a = true) c) : LiveInv c :=
  System.Reach.invariant (fun _ hs => hs ▸ liveInv_boot) (fun _ _ _ hI hg => hI.step hg) h

/-- Under the discipline a slot has one chosen payload. -/
theorem LiveInv.chosen_unique (hI : LiveInv c) (hx : x ∈ c.chosen) (hy : y ∈ c.chosen)
    (hs : x.slot = y.slot) : x.payload = y.payload := by
  obtain ⟨a, ha⟩ := hI.taken x hx
  obtain ⟨b, hb⟩ := hI.taken y hy
  rcases le_total x.rank y.rank with h | h
  · exact ((hI.agree x hx _ hb hs).1 h).symm
  · exact (hI.agree y hy _ ha hs.symm).1 h

end Live

/-- In every run whose steps meet `applyGuard`: every batch handed to an
engine is the payload chosen at its slot, and replicas whose applied frontiers
cover a slot have applied one and the same payload there. -/
theorem applied_is_chosen (cfg : GroupConfig) {c : Live}
    (h : (live cfg).Reach (fun c a => Live.applyGuard c a = true) c) :
    (∀ a s p, (s, p) ∈ (c.nodes a).learner.engineLog → ∃ x ∈ c.chosen, x.slot = s ∧ x.payload = p) ∧
      ∀ a b s, 0 < s → s ≤ (c.nodes a).learner.applied.contiguous →
        s ≤ (c.nodes b).learner.applied.contiguous →
        ∃ p, (s, p) ∈ (c.nodes a).learner.engineLog ∧ (s, p) ∈ (c.nodes b).learner.engineLog ∧
          ∀ q, (s, q) ∈ (c.nodes a).learner.engineLog ∨ (s, q) ∈ (c.nodes b).learner.engineLog →
            q = p := by
  have hI := Live.liveInv_of_reach h
  have hlog := fun a => (hI.node a).log
  have hone : ∀ a b s p q, (s, p) ∈ (c.nodes a).learner.engineLog →
      (s, q) ∈ (c.nodes b).learner.engineLog → p = q := by
    intro a b s p q hp hq
    obtain ⟨x, hx, hxs, rfl⟩ := hlog a s p hp
    obtain ⟨y, hy, hys, rfl⟩ := hlog b s q hq
    exact hI.chosen_unique hx hy (hxs.trans hys.symm)
  refine ⟨hlog, fun a b s hs ha hb => ?_⟩
  obtain ⟨p, hp⟩ := (hI.node a).backed s hs (.inl ha)
  obtain ⟨q, hq⟩ := (hI.node b).backed s hs (.inl hb)
  obtain rfl := hone a b s p q hp hq
  refine ⟨p, hp, hq, fun q hq' => ?_⟩
  rcases hq' with hq' | hq'
  · exact hone a a s q p hq' hp
  · exact hone b a s q p hq' hp

def liveTrio : GroupConfig := ⟨[1, 2, 3], nodup_trio, fun _ => true, 10, false, false⟩

/-- Replica 3 accepted a steady-state entry of term 1 that went nowhere. In term 2
replica 1 has another payload chosen at the slot and announces the commit slot;
replica 3 applies what it holds. -/
def staleApply : List LiveAction :=
  let old : PxLogEntry := ⟨1, ⟨0, 3⟩, 1, [1]⟩
  let new : PxLogEntry := ⟨1, ⟨0, 1⟩, 2, [2]⟩
  [.elect 3 0 1, .accept 3 1 old, .elect 1 20 2, .accept 1 21 new, .accept 2 21 new,
    .choose 1 new false true, .sendHeartbeat 1, .heartbeat 3 30 ⟨2, 1, 1⟩, .applySlot 3 1 true]

/-- One payload is chosen at the slot, and a replica applies another one. -/
theorem unchosen_payload_applied : ∃ c, (live liveTrio).Reach System.Free c ∧
    (∀ x ∈ c.chosen, ∀ y ∈ c.chosen, x.slot = y.slot → x.payload = y.payload) ∧
      ∃ s p, (s, p) ∈ (c.nodes 3).learner.engineLog ∧
        ∀ x ∈ c.chosen, x.slot = s → x.payload ≠ p :=
  ⟨_, System.reach_run staleApply rfl, by decide +kernel, 1, [1], by decide +kernel⟩

/-- Replica 2 applies the same slot on a matching notice, and all is well. -/
theorem applied_is_chosen_clean_run : ∃ c,
    (live liveTrio).Reach (fun c a => Live.applyGuard c a = true) c ∧
      (c.nodes 2).learner.engineLog = [(1, [2])] ∧ ∃ x ∈ c.chosen, x.slot = 1 ∧
      x.payload = [2] := by
  have hr := System.reach_runGuarded (S := live liveTrio) (g := Live.applyGuard)
    (staleApply.take 8 ++ [.chosenNotice 2 ⟨1, ⟨0, 1⟩, 2, [2]⟩, .applySlot 2 1 true]) rfl
  exact ⟨_, hr, by decide +kernel,
    (applied_is_chosen liveTrio hr).1 2 1 [2] (by decide +kernel)⟩

/-- A fetched entry has the payload that was chosen at its slot, and so has what a replica holds at
a slot that it knows to be chosen. -/
theorem fetched_is_chosen (cfg : GroupConfig) {c : Live}
    (h : (live cfg).Reach (fun c a => Live.applyGuard c a = true) c) :
    (∀ e ∈ c.gapReplies, ∃ x ∈ c.chosen, x.slot = e.slot ∧ x.payload = e.payload) ∧
    ∀ a s, 0 < s → (c.nodes a).learner.chosen.covers s → ∃ y,
      ((c.nodes a).acceptor.node s).accepted = some y ∧
        ∃ x ∈ c.chosen, x.slot = y.slot ∧ x.payload = y.payload := by
  have hI := Live.liveInv_of_reach h
  have hpayload : ∀ y, (∃ b, (b, y) ∈ c.accepts) → Live.Reaches c.chosen y →
      ∃ x ∈ c.chosen, x.slot = y.slot ∧ x.payload = y.payload := by
    rintro y ⟨b, hb⟩ ⟨x, hx, hslot, hrank⟩
    exact ⟨x, hx, hslot, ((hI.agree x hx _ hb hslot).1 hrank).symm⟩
  constructor
  · intro e he
    exact hpayload e (hI.fetched e he).1 (hI.fetched e he).2
  · intro a s hs hcov
    obtain ⟨y, hy, hr⟩ := (hI.node a).known s hs hcov
    exact ⟨y, hy, hpayload y ((hI.node a).held s y hy).1 hr⟩

/-- Replica 3 has missed the accept and fetches the entry from the leader. -/
theorem fetched_is_chosen_gap : ∃ c,
    (live liveTrio).Reach (fun c a => Live.applyGuard c a = true) c ∧
      c.gapReplies ≠ [] ∧
        ∀ e ∈ c.gapReplies, ∃ x ∈ c.chosen, x.slot = e.slot ∧ x.payload = e.payload := by
  have hr := System.reach_runGuarded (S := live liveTrio) (g := Live.applyGuard)
    (let e : PxLogEntry := ⟨1, ⟨0, 1⟩, 1, [2]⟩
    [.elect 1 0 1, .accept 1 1 e, .accept 2 1 e, .choose 1 e false true, .recovered 1,
      .chosenNotice 3 e, .requestGap 3 1, .answerGap 1 1]) rfl
  exact ⟨_, hr, by decide +kernel, (fetched_is_chosen liveTrio hr).1⟩

end CrowDB.Cluster
