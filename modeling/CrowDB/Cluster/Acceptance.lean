import CrowDB.Cluster.Election

/-!
# What replies say about the acceptors

A reply on the wire is a lasting fact. An `Accepted` reply fixes that its sender
took the entry once and has since replaced it only by entries of no lower term
and ballot. A promise fixes a floor and a term under which its sender takes
nothing more, and reports something at least as new as everything it took
before. Both follow from the term fence and the ballot fence together: neither
order alone would do, since a steady-state entry of a new term has round zero.
-/
namespace CrowDB.Cluster
open Paxos Lib List PxLocalReplica

namespace World
variable {cfg : GroupConfig} {strict : Prop} {c d : World}

/-- Replica `a` answered an accept of `e` with `Accepted`. -/
def Took (c : World) (a : ℕ) (e : PxLogEntry) : Prop :=
  ∃ env s b, Packet.acceptReply env e (.accepted s b) ∈ c.sent ∧ env.dst = a

def slotNode (c : World) (a s : ℕ) : PxSlotNode := (c.nodes a).acceptor.node s

/-- `x` is no older than `e`, by term and by ballot. -/
structure Covers (x e : PxLogEntry) : Prop where
  term : e.term ≤ x.term
  ballot : e.ballot ≤ x.ballot

/-- What a promise of `b` at slot `s` in term `t`, reporting `acc`, means for
the rest of the run. -/
structure PromiseHolds (c : World) (a s : ℕ) (b : PxBallot) (t : ℕ) (acc : Option PxLogEntry) :
    Prop where
  round : 0 < b.round
  floor : b ≤ (c.slotNode a s).floor
  term : t ≤ (c.nodes a).currentTerm
  report : ∀ x ∈ acc, x.slot = s ∧ x.ballot < b ∧ x.term ≤ t ∧ c.Took a x
  fence : ∀ e, c.Took a e → e.slot = s → (b ≤ e.ballot ∧ t ≤ e.term) ∨ ∃ x ∈ acc, Covers x e

/-- What an `Accepted` reply means for the rest of the run. -/
structure TookHolds (c : World) (a : ℕ) (e : PxLogEntry) : Prop where
  floor : e.ballot ≤ (c.slotNode a e.slot).floor
  term : e.term ≤ (c.nodes a).currentTerm
  seen : e.slot ≤ (c.nodes a).acceptor.highestSeenSlot
  kept : ∃ x, (c.slotNode a e.slot).accepted = some x ∧ Covers x e

structure AcceptorInv (c : World) : Prop where
  asked : ∀ env s b t, .prepare env s b t ∈ c.sent → 0 < b.round
  held : ∀ a s e, (c.slotNode a s).accepted = some e → c.Took a e
  took : ∀ a e, c.Took a e → c.TookHolds a e
  promised : ∀ env s b t s' acc, .prepareReply env s b t (.promised s' acc) ∈ c.sent →
    c.PromiseHolds env.dst s b t acc
  once : ∀ env s b t s₁ acc env' t' s₂ acc', .prepareReply env s b t (.promised s₁ acc) ∈ c.sent →
    .prepareReply env' s b t' (.promised s₂ acc') ∈ c.sent → env.dst = env'.dst →
    env.tag = env'.tag

/-- Packets that no acceptor has to answer for: a prepare only has to ask for a
positive round, and a reply must neither promise nor accept. -/
def Packet.isHarmless : Packet → Prop
  | .prepare _ _ b _ => 0 < b.round
  | .prepareReply _ _ _ _ (.promised _ _) => False
  | .acceptReply _ _ (.accepted _ _) => False
  | _ => True

lemma Packet.isHarmless_of_isQuiet {p : Packet} (h : p.isQuiet) : Packet.isHarmless p := by
  cases p <;> trivial

variable {e : PxLogEntry} {a : ℕ}

lemma Took.mono (hs : ∀ p ∈ c.sent, p ∈ d.sent) (h : c.Took a e) : d.Took a e := by
  obtain ⟨env, s, b, hp, ha⟩ := h
  exact ⟨env, s, b, hs _ hp, ha⟩

lemma Took.of_harmless (hn : ∀ p ∈ d.sent, p ∈ c.sent ∨ Packet.isHarmless p) (h : d.Took a e) :
    c.Took a e := by
  obtain ⟨env, s, b, hp, ha⟩ := h
  exact ⟨env, s, b, (hn _ hp).resolve_right id, ha⟩

/-- Floors and terms only grow, so an old promise holds as long as every entry
taken since lies above it. -/
theorem PromiseHolds.grow (hE : ∀ r, (c.nodes r).Evolves (d.nodes r))
    (hs : ∀ p ∈ c.sent, p ∈ d.sent) {s : ℕ} {b : PxBallot} {t : ℕ} {acc : Option PxLogEntry}
    (h : c.PromiseHolds a s b t acc)
    (hnew : ∀ e, d.Took a e → e.slot = s → c.Took a e ∨ (b ≤ e.ballot ∧ t ≤ e.term)) :
    d.PromiseHolds a s b t acc where
  round := h.round
  floor := h.floor.trans ((hE a).acceptor.floor s)
  term := h.term.trans (hE a).term
  report x hx := by
    obtain ⟨h1, h2, h3, h4⟩ := h.report x hx
    exact ⟨h1, h2, h3, h4.mono hs⟩
  fence e he hslot := by
    rcases hnew e he hslot with he | he
    · exact h.fence e he hslot
    · exact .inl he

lemma TookHolds.grow (hE : ∀ r, (c.nodes r).Evolves (d.nodes r)) (h : c.TookHolds a e)
    (hkept : ∀ x, (c.slotNode a e.slot).accepted = some x → Covers x e →
      ∃ y, (d.slotNode a e.slot).accepted = some y ∧ Covers y e) : d.TookHolds a e where
  floor := h.floor.trans ((hE a).acceptor.floor e.slot)
  term := h.term.trans (hE a).term
  seen := h.seen.trans (hE a).acceptor.seen
  kept := by
    obtain ⟨x, hx, hc⟩ := h.kept
    exact hkept x hx hc

/-- Nothing changes for the acceptors when accepted entries stay and no new
packet promises or accepts. -/
theorem AcceptorInv.frame (hI : AcceptorInv c) (hE : ∀ r, (c.nodes r).Evolves (d.nodes r))
    (hA : ∀ a s, (d.slotNode a s).accepted = (c.slotNode a s).accepted)
    (hs : ∀ p ∈ c.sent, p ∈ d.sent)
    (hn : ∀ p ∈ d.sent, p ∈ c.sent ∨ Packet.isHarmless p) : AcceptorInv d where
  asked env s b t h := (hn _ h).elim (hI.asked env s b t) id
  held a s e h := (hI.held a s e (hA a s ▸ h)).mono hs
  took a e h := (hI.took a e (h.of_harmless hn)).grow hE fun x hx hc => ⟨x, (hA a _).trans hx, hc⟩
  promised env s b t s' acc h :=
    (hI.promised env s b t s' acc ((hn _ h).resolve_right id)).grow hE hs
      fun _ he _ => .inl (he.of_harmless hn)
  once env s b t s₁ acc env' t' s₂ acc' h h' :=
    hI.once env s b t s₁ acc env' t' s₂ acc' ((hn _ h).resolve_right id)
      ((hn _ h').resolve_right id)

lemma acceptorInv_boot : AcceptorInv boot := by
  constructor <;> simp [boot, PxLocalReplica.fresh, slotNode, Took, PxAcceptor.node, default]

lemma slotNode_setNode (c : World) (r a s : ℕ) (R : PxLocalReplica) :
    (c.setNode r R).slotNode a s = if a = r then R.acceptor.node s else c.slotNode a s := by
  by_cases h : a = r
  · subst a; simp [slotNode]
  · simp [slotNode, setNode, h]

/-- Phase 1 at replica `env.dst`, with its reply on the wire. -/
theorem AcceptorInv.promise (hI : AcceptorInv c) {env : Envelope} {slot : ℕ} {ballot : PxBallot}
    {term now : ℕ} (hp : .prepare env slot ballot term ∈ c.sent)
    (hd : d = (c.setNode env.dst ((c.nodes env.dst).onPrepare now slot ballot term).1).send
      [.prepareReply env slot ballot term ((c.nodes env.dst).onPrepare now slot ballot term).2])
    (hE : ∀ r, (c.nodes r).Evolves (d.nodes r)) : AcceptorInv d := by
  have hs : ∀ p ∈ c.sent, p ∈ d.sent := fun p h => hd ▸ mem_append_right _ h
  have hA : ∀ a s, (d.slotNode a s).accepted = (c.slotNode a s).accepted := by
    intro a s
    rw [hd]
    change ((c.setNode _ _).slotNode a s).accepted = _
    rw [slotNode_setNode]
    split
    · next h => subst a; simp [slotNode]
    · rfl
  cases hr : ((c.nodes env.dst).onPrepare now slot ballot term).2 with
  | promised s' acc =>
    obtain ⟨hf, rfl, hfloor, hterm⟩ := onPrepare_promised hr
    have hround := hI.asked _ _ _ _ hp
    have hlt : (c.slotNode env.dst slot).floor < ballot :=
      PxSlotNode.floor_lt_of_not_refusesPrepare hround hf
    have hnew : ∀ p ∈ d.sent, p ∈ c.sent ∨ p = .prepareReply env slot ballot term
        (.promised s' (c.slotNode env.dst slot).accepted) := by
      rw [hd, hr]
      exact forall_mem_cons.mpr ⟨.inr rfl, fun _ => .inl⟩
    have htook : ∀ a e, d.Took a e → c.Took a e := by
      rintro a e ⟨env', s, b, h, ha⟩
      exact ⟨env', s, b, (hnew _ h).resolve_right (by simp), ha⟩
    have hdn : (d.nodes env.dst) = ((c.nodes env.dst).onPrepare now slot ballot term).1 := by
      rw [hd]; simp [send]
    refine ⟨?_, ?_, ?_, ?_, ?_⟩
    · intro env' s b t h
      exact hI.asked env' s b t ((hnew _ h).resolve_right (by simp))
    · intro a s e h
      exact (hI.held a s e (hA a s ▸ h)).mono hs
    · intro a e h
      exact (hI.took a e (htook a e h)).grow hE fun x hx hc => ⟨x, (hA a _).trans hx, hc⟩
    · intro env' s b t s₁ acc h
      rcases hnew _ h with h | h
      · exact (hI.promised env' s b t s₁ acc h).grow hE hs fun e he _ => .inl (htook _ e he)
      · -- the new promise reports the accepted entry, which covers all it took
        cases h
        refine ⟨hround, ?_, ?_, ?_, ?_⟩
        · rw [slotNode, hdn, hfloor]
        · rw [hdn, hterm]
        · intro x hx
          have hT := hI.held _ _ _ hx
          refine ⟨PxAcceptor.slot_of_node_accepted hx, ?_, ?_, hT.mono hs⟩
          · exact ((c.slotNode env.dst slot).accepted_le x hx).trans_lt hlt
          · have h1 := (hI.took _ _ hT).term
            have h2 := (hE env.dst).term
            rw [hdn, hterm] at h2
            exact h1.trans h2
        · intro e he hslot
          obtain ⟨x, hx, hc⟩ := (hI.took _ _ (htook _ e he)).kept
          exact .inr ⟨x, hslot ▸ hx, hc⟩
    · -- the ballot was above the floor, so it had not been promised before
      have hfresh : ∀ {env' t' s₂ acc'}, .prepareReply env' slot ballot t'
        (.promised s₂ acc') ∈ c.sent → env'.dst ≠ env.dst := fun h ha =>
        absurd hlt (not_lt.mpr (ha ▸ (hI.promised _ _ _ _ _ _ h).floor))
      intro env₁ s b t s₁ acc₁ env₂ t₂ s₂ acc₂ h₁ h₂ ha
      rcases hnew _ h₁ with h₁ | h₁ <;> rcases hnew _ h₂ with h₂ | h₂
      · exact hI.once _ _ _ _ _ _ _ _ _ _ h₁ h₂ ha
      · cases h₂
        exact absurd ha (hfresh h₁)
      · cases h₁
        exact absurd ha.symm (hfresh h₂)
      · cases h₁; cases h₂; rfl
  | _ =>
    refine hI.frame hE hA hs ?_
    rw [hd, hr]
    exact forall_mem_cons.mpr ⟨.inr trivial, fun _ => .inl⟩

/-- Phase 2 at replica `env.dst`: the entry it takes is above every promise it
gave for the slot and replaces one of no higher term and ballot. -/
theorem AcceptorInv.take (hI : AcceptorInv c) {env : Envelope} {entry : PxLogEntry} {now : ℕ}
    (hd : d = (c.setNode env.dst ((c.nodes env.dst).onAccept now entry).1).send
      [.acceptReply env entry ((c.nodes env.dst).onAccept now entry).2])
    (hE : ∀ r, (c.nodes r).Evolves (d.nodes r)) : AcceptorInv d := by
  have hs : ∀ p ∈ c.sent, p ∈ d.sent := fun p h => hd ▸ mem_append_right _ h
  have hdn : d.nodes env.dst = ((c.nodes env.dst).onAccept now entry).1 := by
    rw [hd]; simp [send]
  have hA : ∀ a s, (d.slotNode a s).accepted = (c.slotNode a s).accepted ∨
      (a = env.dst ∧ s = entry.slot ∧ ((c.nodes env.dst).onAccept now entry).2 =
        .accepted entry.slot entry.ballot ∧ (d.slotNode a s).accepted = some entry) := by
    intro a s
    by_cases ha : a = env.dst
    · subst a
      rw [slotNode, hdn]
      rcases onAccept_node_accepted (c.nodes env.dst) now entry s with h | h
      · exact .inl h
      · exact .inr ⟨rfl, h⟩
    · have : d.nodes a = c.nodes a := by rw [hd]; simp [send, setNode, ha]
      exact .inl (by rw [slotNode, slotNode, this])
  cases hr : ((c.nodes env.dst).onAccept now entry).2 with
  | accepted s₀ b₀ =>
    obtain ⟨hle, hacc, hfloor, hseen, hterm⟩ := onAccept_accepted hr
    have hterm' : (c.nodes env.dst).currentTerm ≤ entry.term := by
      have := (hE env.dst).term
      rwa [hdn, hterm] at this
    have hnew : ∀ p ∈ d.sent, p ∈ c.sent ∨ p = .acceptReply env entry (.accepted s₀ b₀) := by
      rw [hd, hr]
      exact forall_mem_cons.mpr ⟨.inr rfl, fun _ => .inl⟩
    have htook : ∀ a e, d.Took a e → c.Took a e ∨ (a = env.dst ∧ entry = e) := by
      rintro a e ⟨env', s, b, h, ha⟩
      rcases hnew _ h with h | h
      · exact .inl ⟨env', s, b, h, ha⟩
      · cases h; exact .inr ⟨ha.symm, rfl⟩
    have hTook : d.Took env.dst entry :=
      ⟨env, s₀, b₀, by rw [hd, hr]; exact mem_append_left _ (by simp), rfl⟩
    have hnow : (d.slotNode env.dst entry.slot).accepted = some entry := by
      rw [slotNode, hdn]; exact hacc
    refine ⟨?_, ?_, ?_, ?_, ?_⟩
    · intro env' s b t h
      exact hI.asked env' s b t ((hnew _ h).resolve_right (by simp))
    · intro a s e h
      rcases hA a s with h' | ⟨rfl, -, -, h'⟩
      · exact (hI.held a s e (h' ▸ h)).mono hs
      · obtain rfl := Option.some.inj (h'.symm.trans h)
        exact hTook
    · intro a e h
      rcases htook a e h with h | ⟨rfl, rfl⟩
      · have hT := hI.took a e h
        refine hT.grow hE fun x hx hc => ?_
        rcases hA a e.slot with h' | ⟨rfl, hslot, -, h'⟩
        · exact ⟨x, h'.trans hx, hc⟩
        · refine ⟨entry, h', hT.term.trans hterm', ?_⟩
          have := hT.floor
          rw [hslot] at this
          exact this.trans hle
      · refine ⟨?_, ?_, ?_, entry, hnow, ⟨le_rfl, le_rfl⟩⟩
        · rw [slotNode, hdn, hfloor]
        · rw [hdn, hterm]
        · rw [hdn]; exact hseen
    · intro env' s b t s' acc h
      have hP := hI.promised env' s b t s' acc ((hnew _ h).resolve_right (by simp))
      refine hP.grow hE hs fun e he hslot => ?_
      rcases htook _ e he with he | ⟨ha, rfl⟩
      · exact .inl he
      · have h1 := hP.floor
        have h2 := hP.term
        rw [ha] at h1 h2
        subst s
        exact .inr ⟨h1.trans hle, h2.trans hterm'⟩
    · intro env₁ s b t s₁ acc₁ env₂ t₂ s₂ acc₂ h₁ h₂
      exact hI.once _ _ _ _ _ _ _ _ _ _ ((hnew _ h₁).resolve_right (by simp))
        ((hnew _ h₂).resolve_right (by simp))
  | _ =>
    refine hI.frame hE (fun a s => (hA a s).resolve_right (by simp [hr])) hs ?_
    rw [hd, hr]
    exact forall_mem_cons.mpr ⟨.inr trivial, fun _ => .inl⟩

lemma setNode_acceptor {r : ℕ} {R : PxLocalReplica} (h : R.acceptor = (c.nodes r).acceptor)
    (q : ℕ) : ((c.setNode r R).nodes q).acceptor = (c.nodes q).acceptor := by
  by_cases hq : q = r
  · subst q; simpa using h
  · simp [setNode, hq]

/-- No acceptor changes, and the new packets are harmless. -/
def Untouched (c d : World) : Prop :=
  (∀ r, (d.nodes r).acceptor = (c.nodes r).acceptor) ∧
    ∃ ps, d.sent = ps ++ c.sent ∧ ∀ p ∈ ps, Packet.isHarmless p

lemma Untouched.sent {p : Packet} (h : Untouched c d) (hp : p ∈ d.sent) :
    p ∈ c.sent ∨ Packet.isHarmless p := by
  obtain ⟨-, ps, hd, hps⟩ := h
  rw [hd] at hp
  exact (mem_append.mp hp).elim (fun h => .inr (hps p h)) .inl

/-- A move leaves the acceptors alone unless it is one of the two acceptor
calls. -/
theorem Move.acceptor_cases (hm : Move cfg strict c d) : Untouched c d ∨
    (∃ env slot ballot term now, .prepare env slot ballot term ∈ c.sent ∧
      d = (c.setNode env.dst ((c.nodes env.dst).onPrepare now slot ballot term).1).send
        [.prepareReply env slot ballot term ((c.nodes env.dst).onPrepare now slot ballot term).2]) ∨
    ∃ env entry now, .accept env entry ∈ c.sent ∧
      d = (c.setNode env.dst ((c.nodes env.dst).onAccept now entry).1).send
        [.acceptReply env entry ((c.nodes env.dst).onAccept now entry).2] := by
  cases hm with
  | promise env slot ballot term now hp => exact .inr (.inl ⟨env, slot, ballot, term, now, hp, rfl⟩)
  | take env entry now hp => exact .inr (.inr ⟨env, entry, now, hp, rfl⟩)
  | node _ _ _ hA => exact .inl ⟨setNode_acceptor hA, [], rfl, by simp⟩
  | lead | leadAlone => exact .inl ⟨setNode_acceptor rfl, [], rfl, by simp⟩
  | grant _ _ _ _ _ hR =>
    exact .inl ⟨setNode_acceptor (PxLocalReplica.grantVote_some hR).2.1, [], rfl, by simp⟩
  | selfVote _ hr =>
    exact .inl ⟨by simp [World.selfVote, hr], [], by simp [World.selfVote, hr], by simp⟩
  | task | tick | settle | enqueue | count | foldPrepare | foldAccept | choose =>
    exact .inl ⟨fun _ => rfl, [], rfl, by simp⟩
  | post ps h =>
      exact .inl ⟨fun _ => rfl, ps, rfl, fun p hp => Packet.isHarmless_of_isQuiet (h p hp)⟩
  | answer | gather | prepare | proceed =>
    exact .inl ⟨fun _ => rfl, _, rfl, by simp [Packet.isHarmless]⟩
  | base => exact .inl ⟨setNode_acceptor rfl, _, rfl, by simp [Packet.isHarmless]⟩

lemma AcceptorInv.move (hI : AcceptorInv c) (hm : Move cfg strict c d) : AcceptorInv d := by
  rcases hm.acceptor_cases
    with h | ⟨env, slot, ballot, term, now, hp, hd⟩ | ⟨env, entry, now, hp, hd⟩
  · exact hI.frame hm.evolves (fun a s => by rw [slotNode, slotNode, h.1])
      (fun p => hm.sent_subset) fun p => h.sent
  · exact hI.promise hp hd hm.evolves
  · exact hI.take hd hm.evolves

/-- An entry taken in a move has a term the replica had not passed. -/
theorem Move.took (hm : Move cfg strict c d) (h : d.Took a e) :
    c.Took a e ∨ (c.nodes a).currentTerm ≤ e.term := by
  have hE := hm.evolves
  rcases hm.acceptor_cases
    with hu | ⟨env, slot, ballot, term, now, -, rfl⟩ | ⟨env, entry, now, -, rfl⟩
  · exact .inl (h.of_harmless fun p => hu.sent)
  · obtain ⟨env', s, b, hp, ha⟩ := h
    rcases mem_append.mp hp with hp | hp
    · simp at hp
    · exact .inl ⟨env', s, b, hp, ha⟩
  · obtain ⟨env', s, b, hp, ha⟩ := h
    rcases mem_append.mp hp with hp | hp
    · simp only [mem_singleton, Packet.acceptReply.injEq] at hp
      obtain ⟨rfl, rfl, hr⟩ := hp
      subst a
      have hterm := (hE env'.dst).term
      simp only [send, setNode_nodes_self,
        (onAccept_accepted hr.symm).2.2.2.2] at hterm
      exact .inr hterm
    · exact .inl ⟨env', s, b, hp, ha⟩

end World
end CrowDB.Cluster
