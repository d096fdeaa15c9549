import CrowDB.Lib.Quorum
import CrowDB.Lib.Transition

/-!
# The membership epoch

Voting-set changes reach the replicas one by one; each application replaces the
replica's group object by one with the new voting set and the epoch bumped by one.
A Prepare or Accept carries the epoch of the object it was sent from and is
processed when the receiving object has the same number. On a mismatch both sides
adopt the higher number, without the voting set it stands for, and a proposal on a
replaced object goes on with the voting set it was started with.
-/
namespace CrowDB.Cluster
open Lib Option
open List hiding Disjoint

inductive VoteChange
  | add (id : ℕ)
  | remove (id : ℕ)
  | demote (id : ℕ)
  deriving DecidableEq, Repr

namespace VoteChange

def member : VoteChange → ℕ
  | .add id | .remove id | .demote id => id

def on (V : Finset ℕ) : VoteChange → Finset ℕ
  | .add id => insert id V
  | .remove id | .demote id => V.erase id

/-- The change is one of this voting set. -/
def Genuine (V : Finset ℕ) : VoteChange → Prop
  | .add id => id ∉ V
  | .remove id | .demote id => id ∈ V

instance (V : Finset ℕ) : (ch : VoteChange) → Decidable (ch.Genuine V)
  | .add id => inferInstanceAs (Decidable (id ∉ V))
  | .remove id | .demote id => inferInstanceAs (Decidable (id ∈ V))

end VoteChange

/-- The voting set after the first `level` changes. -/
def votersAt (initial : List ℕ) (changes : List VoteChange) (level : ℕ) : Finset ℕ :=
  (changes.take level).foldl VoteChange.on initial.toFinset

/-- A group object as far as membership goes. `voting` holds the local replica when
it votes; `level` counts the changes that made the object and is not in the code. -/
structure GroupView where
  replica : ℕ
  voting : Finset ℕ
  nonVoting : Finset ℕ
  epoch : ℕ
  level : ℕ
  deriving DecidableEq

namespace GroupView

section
variable (V : GroupView)

def quorum : ℕ := V.voting.card / 2 + 1

def bumpMembershipEpoch : GroupView := { V with epoch := V.epoch + 1 }

def adoptMembershipEpoch (epoch : ℕ) : GroupView :=
  { V with epoch := max V.epoch epoch }

def addRemoteReplica (id : ℕ) (voting : Bool) : GroupView :=
  let V' := { V with
    voting := if voting then insert id V.voting else V.voting.erase id
    nonVoting := if voting then V.nonVoting.erase id else insert id V.nonVoting }
  if decide (id ∈ V.voting) ≠ voting then V'.bumpMembershipEpoch else V'

def removeRemoteReplica (id : ℕ) : GroupView × Bool :=
  if id ∈ V.voting then ({ V with voting := V.voting.erase id }.bumpMembershipEpoch, true)
  else if id ∈ V.nonVoting then ({ V with nonVoting := V.nonVoting.erase id }, true)
  else (V, false)

/-- Carry one voting-set change out. -/
def applyChange : VoteChange → GroupView
  | .add id => { V.addRemoteReplica id true with level := V.level + 1 }
  | .remove id => { (V.removeRemoteReplica id).1 with level := V.level + 1 }
  | .demote id => { V.addRemoteReplica id false with level := V.level + 1 }

end

/-- `apply_config` on the object of replica `r`. -/
def applyConfig (r : ℕ) (config : GroupView) : GroupView := { config with replica := r }

end GroupView

/-- A prepare or accept phase: the object it runs on, the epoch it stamps, and who
has granted it. -/
structure EpochPhase where
  view : ℕ
  epoch : ℕ
  granted : Finset ℕ
  deriving DecidableEq

/-- A request that passed the epoch check, with the object that processed it. -/
structure PassedRequest where
  phase : ℕ
  view : ℕ
  deriving DecidableEq, Repr

structure MembershipWorld where
  changes : List VoteChange
  views : List GroupView
  current : ℕ → Option ℕ
  saved : List GroupView
  phases : List EpochPhase
  sent : List (ℕ × ℕ)
  mismatches : List (ℕ × ℕ)
  passed : List PassedRequest

inductive MembershipAction
  | change (ch : VoteChange)
  | apply (r : ℕ)
  | setLearner (r id : ℕ) (present : Bool)
  | persist (r : ℕ)
  | restore (r s : ℕ)
  | start (i : ℕ)
  | grantLocal (p : ℕ)
  | send (p dst : ℕ)
  | deliver (p dst : ℕ) (granted : Bool)
  | receiveMismatch (p epoch : ℕ)
  deriving DecidableEq, Repr

namespace MembershipWorld

/-- Every initial voter starts from the same configuration, which is on disk. -/
def boot (initial : List ℕ) : MembershipWorld where
  changes := []
  views := initial.map fun r => ⟨r, initial.toFinset, ∅, 0, 0⟩
  current r := if r ∈ initial then some (initial.idxOf r) else none
  saved := initial.map fun r => ⟨r, initial.toFinset, ∅, 0, 0⟩
  phases := []
  sent := []
  mismatches := []
  passed := []

section
variable (c : MembershipWorld)

def view (r : ℕ) : Option GroupView :=
  (c.current r).bind fun i => c.views[i]?

/-- The replica's group object is replaced. -/
def publish (r : ℕ) (V : GroupView) : MembershipWorld :=
  { c with views := c.views ++ [V], current := Function.update c.current r (some c.views.length) }

def setPhase (p : ℕ) (P : EpochPhase) : MembershipWorld :=
  { c with phases := c.phases.set p P }

def grant (p : ℕ) (P : EpochPhase) (v : ℕ) : MembershipWorld :=
  c.setPhase p { P with granted := insert v P.granted }

def setView (i : ℕ) (V : GroupView) : MembershipWorld :=
  { c with views := c.views.set i V }

/-- The voting replies of a phase reach its quorum. -/
def Counted (P : EpochPhase) : Prop :=
  ∃ V ∈ c.views[P.view]?, V.quorum ≤ (P.granted ∩ V.voting).card

end

variable (initial : List ℕ)

section
variable (c : MembershipWorld)

/-- The handlers of Prepare and Accept up to the acceptor, whose answer is
`granted`. -/
def deliver (p dst : ℕ) (granted : Bool) : Option MembershipWorld :=
  (c.phases[p]?).bind fun P => (c.current dst).bind fun i => (c.views[i]?).bind fun V =>
    if (p, dst) ∉ c.sent then none
    else if P.epoch ≠ V.epoch then
      some { c.setView i (V.adoptMembershipEpoch P.epoch) with
        mismatches := (p, V.epoch) :: c.mismatches }
    else
      let c' := { c with passed := ⟨p, i⟩ :: c.passed }
      some (if granted then c'.grant p P dst else c')

def step : MembershipAction → Option MembershipWorld
  | .change ch =>
    if ch.Genuine (votersAt initial c.changes c.changes.length) then
      some { c with changes := c.changes ++ [ch] }
    else none
  | .apply r => (c.view r).bind fun V => (c.changes[V.level]?).bind fun ch =>
    if ch.member ≠ r then some (c.publish r (V.applyChange ch)) else none
  | .setLearner r id present => (c.view r).bind fun V =>
    if id ∈ V.voting then none
    else some (c.publish r (if present then V.addRemoteReplica id false
      else (V.removeRemoteReplica id).1))
  | .persist r => (c.view r).map fun V => { c with saved := c.saved ++ [V] }
  | .restore r s => (c.saved[s]?).map fun V => c.publish r (.applyConfig r V)
  | .start i => (c.views[i]?).map fun V => { c with phases := c.phases ++ [⟨i, V.epoch, ∅⟩] }
  | .grantLocal p => (c.phases[p]?).bind fun P => (c.views[P.view]?).map fun V =>
    c.grant p P V.replica
  | .send p dst => some { c with sent := (p, dst) :: c.sent }
  | .deliver p dst granted => c.deliver p dst granted
  | .receiveMismatch p epoch => (c.phases[p]?).bind fun P => (c.views[P.view]?).bind fun V =>
    if (p, epoch) ∈ c.mismatches then some (c.setView P.view (V.adoptMembershipEpoch epoch))
    else none

/-- The condition on epochs: nobody adopts a higher number. -/
def ownEpochGuard : MembershipAction → Bool
  | .deliver p dst _ => (c.phases[p]?).all fun P => (c.view dst).all fun V => P.epoch ≤ V.epoch
  | .receiveMismatch p epoch =>
    (c.phases[p]?).all fun P => (c.views[P.view]?).all fun V => epoch ≤ V.epoch
  | _ => true

/-- A change starts when every voter has carried out the one before. -/
def oneAtATime : MembershipAction → Bool
  | .change _ => decide (∀ r ∈ votersAt initial c.changes c.changes.length,
    (c.view r).any (·.level == c.changes.length) = true)
  | _ => true

end

end MembershipWorld

def membership (initial : List ℕ) : System MembershipWorld MembershipAction where
  init c := c = .boot initial
  step := MembershipWorld.step initial

/-! ## Epochs that are only bumped -/

variable {changes : List VoteChange}

lemma votersAt_append {initial : List ℕ} {level : ℕ} (h : level ≤ changes.length)
    (ch : VoteChange) :
    votersAt initial (changes ++ [ch]) level = votersAt initial changes level := by
  rw [votersAt, take_append_of_le_length h, votersAt]

lemma votersAt_succ {initial : List ℕ} {level : ℕ} {ch : VoteChange}
    (h : changes[level]? = some ch) :
    votersAt initial changes (level + 1) = ch.on (votersAt initial changes level) := by
  rw [votersAt, take_add_one, h]
  simp [votersAt]

/-- A genuine change bumps the epoch by one and changes the voting set as it says. -/
theorem GroupView.applyChange_spec (V : GroupView) {ch : VoteChange} (h : ch.Genuine V.voting) :
    (V.applyChange ch).voting = ch.on V.voting ∧ (V.applyChange ch).epoch = V.epoch + 1 ∧
      (V.applyChange ch).level = V.level + 1 := by
  cases ch with
  | add =>
    simp only [VoteChange.Genuine] at h
    simp [applyChange, addRemoteReplica, h, bumpMembershipEpoch, VoteChange.on]
  | remove =>
    simp only [VoteChange.Genuine] at h
    simp [applyChange, removeRemoteReplica, h, bumpMembershipEpoch, VoteChange.on]
  | demote =>
    simp only [VoteChange.Genuine] at h
    simp [applyChange, addRemoteReplica, h, bumpMembershipEpoch, VoteChange.on]

/-- Non-voting members leave the voting set and the epoch alone. -/
theorem GroupView.learner_spec (V : GroupView) {id : ℕ} (h : id ∉ V.voting) (present : Bool) :
    let V' := if present then V.addRemoteReplica id false else (V.removeRemoteReplica id).1
    V'.voting = V.voting ∧ V'.epoch = V.epoch ∧ V'.level = V.level := by
  cases present with
  | true => simp [addRemoteReplica, h]
  | false =>
    simp only [removeRemoteReplica, h, Bool.false_eq_true, reduceIte]
    split <;> exact ⟨rfl, rfl, rfl⟩

namespace MembershipWorld
variable {initial : List ℕ} {c d : MembershipWorld}

/-- The object is what its changes make of the initial one. -/
structure ViewOk (initial : List ℕ) (changes : List VoteChange) (V : GroupView) : Prop where
  voting : V.voting = votersAt initial changes V.level
  epoch : V.epoch = V.level
  level : V.level ≤ changes.length

structure EpochInv (initial : List ℕ) (c : MembershipWorld) : Prop where
  genuine : ∀ (l : ℕ) ch, c.changes[l]? = some ch → ch.Genuine (votersAt initial c.changes l)
  views : ∀ V ∈ c.views, ViewOk initial c.changes V
  saved : ∀ V ∈ c.saved, ViewOk initial c.changes V
  phases : ∀ P ∈ c.phases, ∃ V ∈ c.views[P.view]?, V.epoch = P.epoch
  passed : ∀ x ∈ c.passed, ∃ P ∈ c.phases[x.phase]?, ∃ V ∈ c.views[x.view]?, V.epoch = P.epoch

lemma epochInv_boot : EpochInv initial (boot initial) := by
  have hok : ∀ V ∈ initial.map fun r => (⟨r, initial.toFinset, ∅, 0, 0⟩ : GroupView),
      ViewOk initial [] V := by
    intro V hV
    obtain ⟨r, -, rfl⟩ := mem_map.mp hV
    exact ⟨rfl, rfl, le_rfl⟩
  exact ⟨by simp [boot], hok, hok, by simp [boot], by simp [boot]⟩

variable {V : GroupView}

lemma EpochInv.view_epoch (h : EpochInv initial c) {P : EpochPhase} (hP : P ∈ c.phases)
    (hV : V ∈ c.views[P.view]?) : V.epoch = P.epoch := by
  obtain ⟨U, hU, he⟩ := h.phases P hP
  obtain rfl : V = U := some.inj (hV.symm.trans hU)
  exact he

lemma EpochInv.publish (h : EpochInv initial c) {r : ℕ} (hV : ViewOk initial c.changes V) :
    EpochInv initial (c.publish r V) := by
  have hkeep : ∀ {i : ℕ} {U : GroupView}, U ∈ c.views[i]? → U ∈ (c.publish r V).views[i]? :=
    fun {i U} hU => (getElem?_append_left (List.getElem?_eq_some_iff.mp hU).1).trans hU
  refine ⟨h.genuine, forall_mem_concat h.views hV, h.saved, fun P hP => ?_, fun x hx => ?_⟩
  · obtain ⟨U, hU, he⟩ := h.phases P hP
    exact ⟨U, hkeep hU, he⟩
  · obtain ⟨P, hP, U, hU, he⟩ := h.passed x hx
    exact ⟨P, hP, U, hkeep hU, he⟩

lemma EpochInv.grant (h : EpochInv initial c) {p v : ℕ} {P : EpochPhase}
    (hP : c.phases[p]? = some P) : EpochInv initial (c.grant p P v) := by
  have hlt : p < c.phases.length := (List.getElem?_eq_some_iff.mp hP).1
  refine { h with phases := forall_mem_set h.phases ?_, passed := fun x hx => ?_ }
  · exact h.phases P (mem_of_getElem? hP)
  · obtain ⟨Q, hQ, V, hV, he⟩ := h.passed x hx
    by_cases hx' : x.phase = p
    · obtain rfl : P = Q := some.inj (hP.symm.trans (hx' ▸ hQ))
      exact ⟨{ P with granted := insert v P.granted },
        by simp [MembershipWorld.grant, setPhase, hx', hlt], V, hV, he⟩
    · exact ⟨Q, by simpa [MembershipWorld.grant, setPhase, Ne.symm hx'] using hQ, V, hV, he⟩

lemma adopt_eq_self {epoch : ℕ} (h : epoch ≤ V.epoch) : V.adoptMembershipEpoch epoch = V := by
  simp [GroupView.adoptMembershipEpoch, max_eq_left h]

lemma setView_self {i : ℕ} (h : c.views[i]? = some V) : c.setView i V = c := by
  obtain ⟨hi, rfl⟩ := List.getElem?_eq_some_iff.mp h
  simp [setView]

lemma EpochInv.deliver (h : EpochInv initial c) {p dst : ℕ} {granted : Bool}
    (hg : c.ownEpochGuard (.deliver p dst granted) = true)
    (hs : c.deliver p dst granted = some d) : EpochInv initial d := by
  simp only [MembershipWorld.deliver, bind_eq_some_iff] at hs
  obtain ⟨P, hP, i, hi, V, hV, hs⟩ := hs
  have hle : P.epoch ≤ V.epoch := by
    simpa [ownEpochGuard, view, hP, hi, hV] using hg
  split at hs
  · cases hs
  split at hs
  · cases hs
    rw [adopt_eq_self hle, setView_self hV]
    exact { h with }
  · next heq =>
    cases hs
    have h' : EpochInv initial { c with passed := ⟨p, i⟩ :: c.passed } :=
      { h with passed := forall_mem_cons.mpr ⟨⟨P, hP, V, hV, (not_not.mp heq).symm⟩, h.passed⟩ }
    split
    · exact h'.grant hP
    · exact h'

lemma EpochInv.step (h : EpochInv initial c) {act : MembershipAction}
    (hg : c.ownEpochGuard act = true) (hs : c.step initial act = some d) : EpochInv initial d := by
  cases act with
  | change ch =>
    obtain ⟨hgen, hs⟩ := ite_none_right_eq_some.mp hs
    cases hs
    have hok (V) (hV : ViewOk initial c.changes V) : ViewOk initial (c.changes ++ [ch]) V :=
      ⟨hV.voting.trans (votersAt_append hV.level ch).symm, hV.epoch, hV.level.trans (by simp)⟩
    refine ⟨fun l x hx => ?_, fun V hV => hok V (h.views V hV), fun V hV => hok V (h.saved V hV),
      h.phases, h.passed⟩
    by_cases hl : l < c.changes.length
    · rw [votersAt_append hl.le]
      exact h.genuine l x ((getElem?_append_left hl).symm.trans hx)
    · have hx' : [ch][l - c.changes.length]? = some x :=
        (getElem?_append_right (not_lt.mp hl)).symm.trans hx
      have hl' : l = c.changes.length := by
        have := (List.getElem?_eq_some_iff.mp hx').1
        simp only [length_singleton] at this
        omega
      obtain rfl := mem_singleton.mp (mem_of_getElem? hx')
      rw [hl', votersAt_append le_rfl]
      exact hgen
  | apply =>
    simp only [MembershipWorld.step, view, bind_eq_some_iff, ite_none_right_eq_some] at hs
    obtain ⟨V, ⟨i, -, hV⟩, ch, hch, -, hs⟩ := hs
    cases hs
    have hok := h.views V (mem_of_getElem? hV)
    have hgen : ch.Genuine V.voting := hok.voting ▸ h.genuine V.level ch hch
    obtain ⟨h1, h2, h3⟩ := V.applyChange_spec hgen
    refine h.publish ⟨?_, ?_, ?_⟩
    · rw [h1, h3, votersAt_succ hch, hok.voting]
    · rw [h2, h3, hok.epoch]
    · rw [h3]
      exact (List.getElem?_eq_some_iff.mp hch).1
  | setLearner _ _ present =>
    simp only [MembershipWorld.step, view, bind_eq_some_iff] at hs
    obtain ⟨V, ⟨i, -, hV⟩, hs⟩ := hs
    split at hs <;> cases hs
    next hid =>
    have hok := h.views V (mem_of_getElem? hV)
    obtain ⟨h1, h2, h3⟩ := V.learner_spec hid present
    refine h.publish ⟨?_, ?_, ?_⟩
    · rw [h1, h3, hok.voting]
    · rw [h2, h3, hok.epoch]
    · rw [h3]
      exact hok.level
  | persist =>
    simp only [MembershipWorld.step, view, map_eq_some_iff, bind_eq_some_iff] at hs
    obtain ⟨V, ⟨i, -, hV⟩, rfl⟩ := hs
    have hall : ∀ U ∈ c.saved ++ [V], ViewOk initial c.changes U :=
      forall_mem_concat h.saved (h.views V (mem_of_getElem? hV))
    exact { h with saved := hall }
  | restore =>
    obtain ⟨V, hV, rfl⟩ := map_eq_some_iff.mp hs
    have hok := h.saved V (mem_of_getElem? hV)
    exact h.publish { hok with }
  | start =>
    obtain ⟨V, hV, rfl⟩ := map_eq_some_iff.mp hs
    refine ⟨h.genuine, h.views, h.saved, forall_mem_concat h.phases ⟨V, hV, rfl⟩, fun x hx => ?_⟩
    · obtain ⟨P, hP, h'⟩ := h.passed x hx
      exact ⟨P, (getElem?_append_left (List.getElem?_eq_some_iff.mp hP).1).trans hP, h'⟩
  | grantLocal =>
    simp only [MembershipWorld.step, bind_eq_some_iff, map_eq_some_iff] at hs
    obtain ⟨P, hP, V, -, rfl⟩ := hs
    exact h.grant hP
  | send =>
    cases hs
    exact { h with }
  | deliver => exact h.deliver hg hs
  | receiveMismatch _ epoch =>
    simp only [MembershipWorld.step, bind_eq_some_iff, ite_none_right_eq_some] at hs
    obtain ⟨P, hP, V, hV, -, hs⟩ := hs
    cases hs
    have hle : epoch ≤ V.epoch := by simpa [ownEpochGuard, hP, hV] using hg
    rw [adopt_eq_self hle, setView_self hV]
    exact h

lemma epochInv_of_reach
    (h : (membership initial).Reach (fun c act => ownEpochGuard c act = true) c) :
    EpochInv initial c :=
  h.invariant (fun _ h0 => h0 ▸ epochInv_boot) fun _ _ _ hI hg => hI.step hg

lemma EpochInv.voting_eq (h : EpochInv initial c) {U : GroupView} (hU : U ∈ c.views)
    (hV : V ∈ c.views) (he : U.epoch = V.epoch) : U.voting = V.voting := by
  have hU := h.views U hU
  have hV := h.views V hV
  have hlevel : U.level = V.level := hU.epoch.symm.trans (he.trans hV.epoch)
  rw [hU.voting, hV.voting, hlevel]

end MembershipWorld

/-! ## Quorums at one epoch -/

/-- In a run in which nobody adopts an epoch, a request that passes the epoch check
meets an acceptor with the voting set and quorum of its proposer, and two quorums
counted at one epoch share a voting member of both. -/
theorem equal_epochs_share_quorums {initial : List ℕ} {c : MembershipWorld}
    (h : (membership initial).Reach (fun c act => MembershipWorld.ownEpochGuard c act = true) c) :
    (∀ x ∈ c.passed, ∃ P ∈ c.phases[x.phase]?, ∃ U ∈ c.views[P.view]?, ∃ V ∈ c.views[x.view]?,
      U.voting = V.voting ∧ U.quorum = V.quorum) ∧
    ∀ P ∈ c.phases, ∀ P' ∈ c.phases, P.epoch = P'.epoch → c.Counted P → c.Counted P' →
      ∃ U ∈ c.views[P.view]?, ∃ V ∈ c.views[P'.view]?, ∃ a,
        (a ∈ P.granted ∧ a ∈ U.voting) ∧ a ∈ P'.granted ∧ a ∈ V.voting := by
  have hinv := MembershipWorld.epochInv_of_reach h
  refine ⟨fun x hx => ?_, fun P hP P' hP' he hc hc' => ?_⟩
  · obtain ⟨P, hP, V, hV, heV⟩ := hinv.passed x hx
    obtain ⟨U, hU, heU⟩ := hinv.phases P (mem_of_getElem? hP)
    have heq : U.voting = V.voting :=
      hinv.voting_eq (mem_of_getElem? hU) (mem_of_getElem? hV) (heU.trans heV.symm)
    exact ⟨P, hP, U, hU, V, hV, heq, by rw [GroupView.quorum, heq, GroupView.quorum]⟩
  · obtain ⟨U, hU, hq⟩ := hc
    obtain ⟨V, hV, hq'⟩ := hc'
    have hUe : U.epoch = P.epoch := hinv.view_epoch hP hU
    have hVe : V.epoch = P'.epoch := hinv.view_epoch hP' hV
    have heq : U.voting = V.voting := hinv.voting_eq (mem_of_getElem? hU)
      (mem_of_getElem? hV) (hUe.trans (he.trans hVe.symm))
    have hmaj : Majority V.voting (P.granted ∩ V.voting) :=
      ⟨Finset.inter_subset_right, by rw [← heq]; exact hq⟩
    have hmaj' : Majority V.voting (P'.granted ∩ V.voting) := ⟨Finset.inter_subset_right, hq'⟩
    obtain ⟨a, ha, ha'⟩ := hmaj.inter_nonempty hmaj'
    rw [Finset.mem_inter] at ha ha'
    exact ⟨U, hU, V, hV, a, ⟨ha.1, heq ▸ ha.2⟩, ha'⟩

/-- Two prepare phases of a group that has grown from three to four voters. -/
theorem equal_epochs_share_quorums_grown : ∃ c,
    (membership [1, 2, 3]).Reach (fun c act => MembershipWorld.ownEpochGuard c act = true) c ∧
      c.passed.length = 4 ∧
      c.phases.map (fun P => (P.view, P.epoch, P.granted)) =
        [(2, 0, ∅), (3, 1, {1, 2, 3}), (6, 1, {2, 3, 4})] ∧
      c.views.map (·.voting) = [{1, 2, 3}, {1, 2, 3}, {1, 2, 3}, {1, 2, 3, 4}, {1, 2, 3, 4},
        {1, 2, 3, 4}, {1, 2, 3, 4}] ∧
      ∀ x ∈ c.passed, ∃ P ∈ c.phases[x.phase]?, ∃ U ∈ c.views[P.view]?, ∃ V ∈ c.views[x.view]?,
        U.voting = V.voting ∧ U.quorum = V.quorum := by
  have hreach := System.reach_runGuarded (S := membership [1, 2, 3])
    (g := MembershipWorld.ownEpochGuard)
    [.change (.add 4), .apply 1, .apply 2, .start 2, .send 0 2, .deliver 0 2 true, .apply 3,
      .persist 3, .restore 4 3, .start 3, .send 1 2, .deliver 1 2 true, .send 1 3,
      .deliver 1 3 true, .grantLocal 1, .start 6, .send 2 3, .deliver 2 3 true, .send 2 2,
      .deliver 2 2 true, .grantLocal 2] rfl
  exact ⟨_, hreach, by decide +kernel, by decide +kernel, by decide +kernel,
    (equal_epochs_share_quorums hreach).1⟩

/-- A proposal runs on the object replica 1 had before two voters were added. The
answer of replica 2 lifts the epoch of that object, the retry passes the check and
reaches the old quorum of two; replica 5 reaches the new quorum of three. -/
def liftedEpoch : List MembershipAction :=
  [.start 0, .change (.add 4), .apply 1, .apply 2, .apply 3, .persist 3, .restore 4 3,
    .change (.add 5), .apply 1, .apply 2, .apply 3, .apply 4, .persist 4, .restore 5 4,
    .send 0 2, .deliver 0 2 true, .receiveMismatch 0 2, .start 0, .send 1 2, .deliver 1 2 true,
    .grantLocal 1, .start 11, .send 2 3, .deliver 2 3 true, .send 2 4, .deliver 2 4 true,
    .grantLocal 2]

/-- Changes are made one at a time, yet a request passes the check between voting sets
that differ by two members, and two quorums counted at one epoch are disjoint. -/
theorem disjoint_quorums_at_one_epoch : ∃ c, (membership [1, 2, 3]).Reach
      (fun c act => MembershipWorld.oneAtATime [1, 2, 3] c act = true) c ∧
    (∃ x ∈ c.passed, ∃ P ∈ c.phases[x.phase]?, ∃ U ∈ c.views[P.view]?, ∃ V ∈ c.views[x.view]?,
      (symmDiff U.voting V.voting).card = 2) ∧
    ∃ P ∈ c.phases, ∃ P' ∈ c.phases, P.epoch = P'.epoch ∧ c.Counted P ∧ c.Counted P' ∧
      Disjoint P.granted P'.granted := by
  refine ⟨_, System.reach_runGuarded liftedEpoch rfl, ⟨⟨1, 8⟩, ?_⟩, ?_⟩
  · decide +kernel
  · unfold MembershipWorld.Counted
    decide +kernel

end CrowDB.Cluster
