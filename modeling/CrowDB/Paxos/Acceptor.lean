import CrowDB.Paxos.Roles

/-!
# The acceptor of one consensus group

A slot node holds the promised ballot and the accepted entry of one slot, and
carries the fact that the accepted ballot never exceeds the promise. The slot
map is a partial function; every opened slot is at most `highestSeenSlot`, so
the ordered walks of the source are walks below that bound. Each call is one
step: the compare-and-swap loops of the source retry until they see no race.
-/
namespace CrowDB.Paxos

structure PxSlotNode where
  promised : Option PxBallot
  accepted : Option PxLogEntry
  accepted_le : ∀ e ∈ accepted, e.ballot ≤ promised.getD .zero

variable {n : PxSlotNode} {e : PxLogEntry} {b : PxBallot} {s slot : ℕ}
  {acc : Option PxLogEntry}

namespace PxSlotNode

instance : Inhabited PxSlotNode := ⟨⟨none, none, by simp⟩⟩

/-- The promise, with a missing one read as the zero ballot. -/
def floor (n : PxSlotNode) : PxBallot := n.promised.getD .zero

/-- `true` when a promise exists and `b` does not exceed it. -/
def refusesPrepare (n : PxSlotNode) (b : PxBallot) : Bool :=
  n.promised.any fun c => decide (b ≤ c)

def refusesAccept (n : PxSlotNode) (b : PxBallot) : Bool :=
  n.promised.any fun c => decide (b < c)

lemma le_floor_of_refusesPrepare (h : n.refusesPrepare b = true) : b ≤ n.floor := by
  cases hp : n.promised <;> simp_all [refusesPrepare, floor]

lemma floor_le_of_not_refusesPrepare (h : ¬ n.refusesPrepare b = true) : n.floor ≤ b := by
  cases hp : n.promised with
  | none => simp [floor, hp]
  | some c => simp [refusesPrepare, hp] at h
              simpa [floor, hp] using h.le

lemma floor_lt_of_not_refusesPrepare (hb : 0 < b.round) (h : ¬ n.refusesPrepare b = true) :
    n.floor < b := by
  cases hp : n.promised with
  | none => simpa [floor, hp] using PxBallot.zero_lt_of_round_pos hb
  | some c => simpa [refusesPrepare, floor, hp] using h

lemma floor_le_of_not_refusesAccept (h : ¬ n.refusesAccept b = true) : n.floor ≤ b := by
  cases hp : n.promised <;> simp_all [refusesAccept, floor]

/-- Phase 1 on one slot: promise a ballot above the current promise and report
the accepted entry. -/
def prepare (n : PxSlotNode) (slot : ℕ) (b : PxBallot) : PxSlotNode × PxPrepareReply :=
  if h : n.refusesPrepare b = true then (n, .rejected slot n.floor)
  else
    (⟨some b, n.accepted, fun e he =>
      (n.accepted_le e he).trans (floor_le_of_not_refusesPrepare h)⟩, .promised slot n.accepted)

/-- Phase 2 on one slot. A missing promise counts as the zero ballot, and the
promise is raised to the accepted ballot. -/
def accept (n : PxSlotNode) (e : PxLogEntry) : PxSlotNode × PxAcceptReply :=
  if n.refusesAccept e.ballot = true then (n, .rejected e.slot n.floor)
  else
    (⟨if n.floor < e.ballot then some e.ballot else n.promised, some e, by
      intro x hx
      obtain rfl : e = x := by simpa using hx
      split
      · exact le_rfl
      · next h => exact not_lt.mp h⟩, .accepted e.slot e.ballot)

/-- Keep a value proved chosen elsewhere, without answering an accept. The
promise has first been raised to the entry's ballot where it was lower. -/
def installChosen (n : PxSlotNode) (e : PxLogEntry) : PxSlotNode × Bool :=
  let m := (n.prepare e.slot e.ballot).1
  match m.accepted with
  | some a => if e.ballot ≤ a.ballot then (m, a.payload == e.payload) else (install, true)
  | none => (install, true)
where
  install : PxSlotNode := ⟨(n.prepare e.slot e.ballot).1.promised, some e, by
    intro x hx
    obtain rfl : e = x := by simpa using hx
    by_cases h : n.refusesPrepare e.ballot = true
    · simp only [prepare, h, dite_true]; exact le_floor_of_refusesPrepare h
    · simp [prepare, h]⟩

@[simp] lemma prepare_accepted (n : PxSlotNode) (slot : ℕ) (b : PxBallot) :
    (n.prepare slot b).1.accepted = n.accepted := by
  unfold prepare; split <;> rfl

lemma floor_le_prepare (n : PxSlotNode) (slot : ℕ) (b : PxBallot) :
    n.floor ≤ (n.prepare slot b).1.floor := by
  by_cases h : n.refusesPrepare b = true
  · simp [prepare, h]
  · simpa [prepare, h, floor] using floor_le_of_not_refusesPrepare h

/-- What a promise says: it reports the accepted entry, and the promise is now
the prepared ballot, above the old promise. -/
theorem prepare_promised (h : (n.prepare slot b).2 = .promised s acc) :
    ¬ n.refusesPrepare b = true ∧ acc = n.accepted ∧ (n.prepare slot b).1.floor = b := by
  by_cases hr : n.refusesPrepare b = true
  · simp [prepare, hr] at h
  · simp only [prepare, hr, Bool.false_eq_true, dite_false, PxPrepareReply.promised.injEq] at h
    exact ⟨hr, h.2.symm, by simp [prepare, hr, floor]⟩

lemma accept_floor (h : ¬ n.refusesAccept e.ballot = true) :
    (n.accept e).1.floor = e.ballot := by
  by_cases hlt : n.floor < e.ballot
  · simp [accept, h, floor, show n.promised.getD .zero < e.ballot from hlt]
  · have heq : n.floor = e.ballot := le_antisymm (floor_le_of_not_refusesAccept h) (not_lt.mp hlt)
    simp only [accept, h, hlt]
    exact heq

lemma floor_le_accept (n : PxSlotNode) (e : PxLogEntry) : n.floor ≤ (n.accept e).1.floor := by
  by_cases h : n.refusesAccept e.ballot = true
  · simp [accept, h]
  · rw [accept_floor h]; exact floor_le_of_not_refusesAccept h

/-- What an accept says: the entry is now the accepted one, and its ballot is
at or above the old promise. -/
theorem accept_accepted (h : (n.accept e).2 = .accepted s b) :
    n.floor ≤ e.ballot ∧ (n.accept e).1.accepted = some e ∧ (n.accept e).1.floor = e.ballot := by
  by_cases hr : n.refusesAccept e.ballot = true
  · simp [accept, hr] at h
  · exact ⟨floor_le_of_not_refusesAccept hr, by simp [accept, hr], accept_floor hr⟩

/-- Installing keeps the accepted entry or replaces it by one of higher ballot. -/
theorem installChosen_accepted (n : PxSlotNode) (e : PxLogEntry) :
    (n.installChosen e).1.accepted = n.accepted ∨
      ((n.installChosen e).1.accepted = some e ∧ ∀ a, n.accepted = some a →
        a.ballot < e.ballot) := by
  unfold installChosen
  dsimp only
  rw [prepare_accepted]
  cases ha : n.accepted with
  | none => exact .inr ⟨rfl, by simp⟩
  | some a =>
    dsimp only
    split
    · exact .inl ((n.prepare_accepted e.slot e.ballot).trans ha)
    · next h => exact .inr ⟨rfl, fun b hb => Option.some.inj hb ▸ not_le.mp h⟩

lemma le_installChosen (n : PxSlotNode) (e : PxLogEntry) :
    ∃ z, (n.installChosen e).1.accepted = some z ∧ e.ballot ≤ z.ballot := by
  unfold installChosen
  dsimp only
  rw [prepare_accepted]
  cases ha : n.accepted with
  | none => exact ⟨e, rfl, le_rfl⟩
  | some a =>
    dsimp only
    split
    · next h => exact ⟨a, (n.prepare_accepted e.slot e.ballot).trans ha, h⟩
    · exact ⟨e, rfl, le_rfl⟩

end PxSlotNode

/-- The slot map with its two watermarks. Opened slots lie at or below
`highestSeenSlot`, and an accepted entry sits under its own slot. -/
structure PxAcceptor where
  slots : ℕ → Option PxSlotNode
  trimSlot : ℕ
  highestSeenSlot : ℕ
  opened_le : ∀ s, (slots s).isSome = true → s ≤ highestSeenSlot
  keyed : ∀ s, ∀ n ∈ slots s, ∀ e ∈ n.accepted, e.slot = s

namespace PxAcceptor

instance : Inhabited PxAcceptor := ⟨⟨fun _ => none, 0, 0, by simp, by simp⟩⟩

def node (A : PxAcceptor) (s : ℕ) : PxSlotNode := (A.slots s).getD default

variable {A : PxAcceptor}

lemma slot_of_node_accepted (h : e ∈ (A.node s).accepted) : e.slot = s := by
  unfold node at h
  cases hn : A.slots s with
  | none => simp [hn] at h
  | some n => exact A.keyed s n hn e (by simpa [hn] using h)

section
variable (A : PxAcceptor)

def acceptedAt (s : ℕ) : Option PxLogEntry :=
  if s < A.trimSlot then none else (A.node s).accepted

def promisedAt (s : ℕ) : Option PxBallot :=
  if s < A.trimSlot then none else (A.node s).promised

/-- Slot and term of the highest accepted entry that is not trimmed. -/
def acceptedLogTip : Option (ℕ × ℕ) :=
  ((List.range (A.highestSeenSlot + 1)).reverse.takeWhile (A.trimSlot ≤ ·)).findSome? fun s =>
    (A.node s).accepted.map fun e => (e.slot, e.term)

/-- Write a node into the map, opening the slot. -/
def put (s : ℕ) (n : PxSlotNode) (h : ∀ e ∈ n.accepted, e.slot = s) :
    PxAcceptor where
  slots := Function.update A.slots s (some n)
  trimSlot := A.trimSlot
  highestSeenSlot := max A.highestSeenSlot s
  opened_le t ht := by
    by_cases hts : t = s
    · omega
    · have := A.opened_le t (by simpa [hts] using ht)
      omega
  keyed t m hm e he := by
    by_cases hts : t = s
    · subst t
      obtain rfl : n = m := by simpa using hm
      exact h e he
    · exact A.keyed t m (by simpa [hts] using hm) e he

end

@[simp] lemma put_highestSeenSlot (A : PxAcceptor) (s : ℕ) (n : PxSlotNode) (h) :
    (A.put s n h).highestSeenSlot = max A.highestSeenSlot s := rfl

lemma put_node (A : PxAcceptor) (s t : ℕ) (n : PxSlotNode) (h) :
    (A.put s n h).node t = if t = s then n else A.node t := by
  by_cases hts : t = s
  · subst t; simp [node, put]
  · simp [node, put, hts]

@[simp] lemma put_node_self (A : PxAcceptor) (s : ℕ) (n : PxSlotNode) (h) :
    (A.put s n h).node s = n := by simp [put_node]

lemma prepare_keyed (A : PxAcceptor) (slot : ℕ) (b : PxBallot) :
    ∀ e ∈ ((A.node slot).prepare slot b).1.accepted, e.slot = slot := by
  intro e he
  exact slot_of_node_accepted (by simpa using he)

lemma accept_keyed (A : PxAcceptor) (e : PxLogEntry) :
    ∀ x ∈ ((A.node e.slot).accept e).1.accepted, x.slot = e.slot := by
  intro x hx
  by_cases h : (A.node e.slot).refusesAccept e.ballot = true
  · exact slot_of_node_accepted (by simpa [PxSlotNode.accept, h] using hx)
  · obtain rfl : e = x := by simpa [PxSlotNode.accept, h] using hx
    rfl

def prepare (A : PxAcceptor) (slot : ℕ) (b : PxBallot) : PxAcceptor × PxPrepareReply :=
  if slot < A.trimSlot then (A, .rejected slot .zero)
  else
    (A.put slot ((A.node slot).prepare slot b).1 (A.prepare_keyed slot b),
      ((A.node slot).prepare slot b).2)

def accept (A : PxAcceptor) (e : PxLogEntry) : PxAcceptor × PxAcceptReply :=
  if e.slot < A.trimSlot then (A, .rejected e.slot .zero)
  else
    (A.put e.slot ((A.node e.slot).accept e).1 (A.accept_keyed e), ((A.node e.slot).accept e).2)

def trim (A : PxAcceptor) (before : ℕ) : PxAcceptor := { A with trimSlot := max A.trimSlot before }

/-- What no acceptor call undoes: the promises and the watermarks only grow. -/
structure Grows (A B : PxAcceptor) : Prop where
  trim : A.trimSlot ≤ B.trimSlot
  seen : A.highestSeenSlot ≤ B.highestSeenSlot
  floor : ∀ s, (A.node s).floor ≤ (B.node s).floor

lemma Grows.refl (A : PxAcceptor) : Grows A A := ⟨le_rfl, le_rfl, fun _ => le_rfl⟩

lemma Grows.trans {B C : PxAcceptor} (h : Grows A B) (h' : Grows B C) : Grows A C :=
  ⟨h.trim.trans h'.trim, h.seen.trans h'.seen, fun s => (h.floor s).trans (h'.floor s)⟩

lemma grows_put (h) (hn : (A.node s).floor ≤ n.floor) : Grows A (A.put s n h) := by
  refine ⟨le_rfl, le_max_left _ _, fun t => ?_⟩
  rw [put_node]
  split
  · next hts => subst t; exact hn
  · exact le_rfl

lemma grows_prepare (A : PxAcceptor) (slot : ℕ) (b : PxBallot) :
    Grows A (A.prepare slot b).1 := by
  unfold prepare
  split
  · exact Grows.refl A
  · exact grows_put (A.prepare_keyed slot b) (PxSlotNode.floor_le_prepare _ _ _)

lemma grows_accept (A : PxAcceptor) (e : PxLogEntry) : Grows A (A.accept e).1 := by
  unfold accept
  split
  · exact Grows.refl A
  · exact grows_put (A.accept_keyed e) (PxSlotNode.floor_le_accept _ _)

@[simp] lemma prepare_trimSlot (A : PxAcceptor) (slot : ℕ) (b : PxBallot) :
    (A.prepare slot b).1.trimSlot = A.trimSlot := by
  unfold prepare; split <;> rfl

/-- Promised or refused, the ballot does not exceed the promise afterwards. -/
theorem le_prepare_floor (A : PxAcceptor) (h : ¬ slot < A.trimSlot) (b : PxBallot) :
    b ≤ ((A.prepare slot b).1.node slot).floor := by
  simp only [prepare, h]
  by_cases hr : (A.node slot).refusesPrepare b = true
  · simpa [PxSlotNode.prepare, hr] using PxSlotNode.le_floor_of_refusesPrepare hr
  · simp [PxSlotNode.prepare, hr, PxSlotNode.floor]

/-- Phase 1 never changes an accepted entry. -/
@[simp] theorem prepare_node_accepted (A : PxAcceptor) (slot t : ℕ) (b : PxBallot) :
    ((A.prepare slot b).1.node t).accepted = (A.node t).accepted := by
  unfold prepare
  split
  · rfl
  · rw [put_node]
    split
    · next h => subst t; simp
    · rfl

/-- An accept changes the accepted entry of its own slot only, and only when
it answers `accepted`. -/
theorem accept_node_accepted (A : PxAcceptor) (e : PxLogEntry) (t : ℕ) :
    ((A.accept e).1.node t).accepted = (A.node t).accepted ∨
      (t = e.slot ∧ (A.accept e).2 = .accepted e.slot e.ballot ∧
        ((A.accept e).1.node t).accepted = some e) := by
  unfold accept
  split
  · exact .inl rfl
  · simp only [put_node]
    split
    · next h =>
      subst t
      by_cases hr : (A.node e.slot).refusesAccept e.ballot = true
      · exact .inl (by simp [PxSlotNode.accept, hr])
      · exact .inr ⟨rfl, by simp [PxSlotNode.accept, hr], by simp [PxSlotNode.accept, hr]⟩
    · exact .inl rfl

lemma prepare_promised (h : (A.prepare slot b).2 = .promised s acc) :
    ¬ (A.node slot).refusesPrepare b = true ∧ acc = (A.node slot).accepted ∧
      ((A.prepare slot b).1.node slot).floor = b := by
  unfold prepare at h ⊢
  split at h
  · simp at h
  · next ht =>
    obtain ⟨h1, h2, h3⟩ := PxSlotNode.prepare_promised h
    exact ⟨h1, h2, by simpa [ht] using h3⟩

lemma accept_accepted (h : (A.accept e).2 = .accepted s b) :
    (A.node e.slot).floor ≤ e.ballot ∧ ((A.accept e).1.node e.slot).accepted = some e ∧
      ((A.accept e).1.node e.slot).floor = e.ballot ∧
      e.slot ≤ (A.accept e).1.highestSeenSlot := by
  unfold accept at h ⊢
  split at h
  · simp at h
  · next ht =>
    obtain ⟨h1, h2, h3⟩ := PxSlotNode.accept_accepted h
    exact ⟨h1, by simpa [ht] using h2, by simpa [ht] using h3, by simp [ht]⟩

lemma acceptedAt_some (h : A.acceptedAt s = some e) : (A.node s).accepted = some e := by
  unfold acceptedAt at h
  split at h
  · simp at h
  · exact h

lemma le_highestSeen_of_accepted (h : (A.node s).accepted = some e) : s ≤ A.highestSeenSlot := by
  refine A.opened_le s ?_
  cases hn : A.slots s with
  | none => simp [node, hn] at h
  | some n => rfl

lemma installChosen_keyed (A : PxAcceptor) (e : PxLogEntry) :
    ∀ x ∈ ((A.node e.slot).installChosen e).1.accepted, x.slot = e.slot := by
  intro x hx
  rcases PxSlotNode.installChosen_accepted (A.node e.slot) e with h | ⟨h, -⟩
  · exact slot_of_node_accepted (h ▸ hx)
  · rw [h] at hx
    exact congrArg PxLogEntry.slot (Option.some.inj hx).symm

/-- `false` for a trimmed slot or for a conflicting value of no lower ballot. -/
def installChosen (A : PxAcceptor) (e : PxLogEntry) : PxAcceptor × Bool :=
  if e.slot < A.trimSlot then (A, false)
  else
    (A.put e.slot ((A.node e.slot).installChosen e).1 (A.installChosen_keyed e),
      ((A.node e.slot).installChosen e).2)

/-- From `A` to `B` an accepted entry is replaced only by `new`, at its own slot
and at no lower ballot. -/
structure Advances (new : Option PxLogEntry) (A B : PxAcceptor) : Prop where
  kept : ∀ s y, (A.node s).accepted = some y →
    ∃ z, (B.node s).accepted = some z ∧ y.ballot ≤ z.ballot
  origin : ∀ s z, (B.node s).accepted = some z → (A.node s).accepted = some z ∨ new = some z

lemma Advances.of_eq (new : Option PxLogEntry) {B : PxAcceptor}
    (h : ∀ s, (B.node s).accepted = (A.node s).accepted) : Advances new A B :=
  ⟨fun s y hy => ⟨y, (h s).trans hy, le_rfl⟩, fun s _ hz => .inl ((h s).symm.trans hz)⟩

lemma advances_accept (A : PxAcceptor) (e : PxLogEntry) :
    Advances (if (A.accept e).2 = .accepted e.slot e.ballot then some e else none) A
      (A.accept e).1 := by
  refine ⟨fun s y hy => ?_, fun s z hz => ?_⟩
  · rcases A.accept_node_accepted e s with h | ⟨rfl, hr, h⟩
    · exact ⟨y, h.trans hy, le_rfl⟩
    · exact ⟨e, h, ((A.node e.slot).accepted_le y hy).trans (accept_accepted hr).1⟩
  · rcases A.accept_node_accepted e s with h | ⟨rfl, hr, h⟩
    · exact .inl (h.symm.trans hz)
    · rw [if_pos hr]
      exact .inr (h.symm.trans hz)

lemma advances_installChosen (A : PxAcceptor) (e : PxLogEntry) :
    Advances (some e) A (A.installChosen e).1 := by
  unfold installChosen
  split
  · exact .of_eq _ fun _ => rfl
  · refine ⟨fun s y hy => ?_, fun s z hz => ?_⟩
    · rw [put_node]
      split
      · next h =>
        subst s
        rcases PxSlotNode.installChosen_accepted (A.node e.slot) e with h | ⟨h, hlt⟩
        · exact ⟨y, h.trans hy, le_rfl⟩
        · exact ⟨e, h, (hlt y hy).le⟩
      · exact ⟨y, hy, le_rfl⟩
    · rw [put_node] at hz
      split at hz
      · next h =>
        subst s
        rcases PxSlotNode.installChosen_accepted (A.node e.slot) e with h | ⟨h, -⟩
        · exact .inl (h.symm.trans hz)
        · exact .inr (h.symm.trans hz)
      · exact .inl hz

/-- A successful install leaves the payload at the slot, at the entry's ballot
or above. -/
theorem installChosen_true (h : (A.installChosen e).2 = true) :
    ∃ z, ((A.installChosen e).1.node e.slot).accepted = some z ∧ e.ballot ≤ z.ballot := by
  unfold installChosen at h ⊢
  split at h
  · simp at h
  · next ht =>
    obtain ⟨z, hz, hle⟩ := PxSlotNode.le_installChosen (A.node e.slot) e
    exact ⟨z, by simpa [ht] using hz, hle⟩

end PxAcceptor
end CrowDB.Paxos
