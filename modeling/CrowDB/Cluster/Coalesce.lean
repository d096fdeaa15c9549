import CrowDB.Kv.Batch
import CrowDB.Lib.Transition

/-!
# Coalescing proposals

While a round is in flight, requests gather in a pending batch. The batch becomes a round
of its own when it is full, when a round ends and drains it, or when the watchdog finds
it. Every locked section and every access to the in-flight count is a step of its own, so
that the rounds interleave as the spawned tasks do.
-/
namespace CrowDB.Cluster
open Lib Paxos Kv List Option

structure RequestIdentity where
  clientId : ℕ
  seq : ℕ
  deriving DecidableEq, Repr

/-- A call of `coalesce_enqueue`. Its waiter is known by its place in the sequence of calls. -/
structure Request where
  payload : Bytes
  identity : Option RequestIdentity
  deriving DecidableEq, Repr

namespace Request

def opCount (q : Request) : ℕ :=
  if q.payload.length < 2 then 0 else fromLeBytes (q.payload.take 2)

def opBody (q : Request) : Bytes := q.payload.drop 2

end Request

structure PendingBatch where
  opBodies : Bytes := []
  opCount : ℕ := 0
  identities : List RequestIdentity := []
  waiters : List ℕ := []
  deriving DecidableEq, Repr

/-- Append a request; the operation count is a saturating `u16`. -/
def PendingBatch.push (b : PendingBatch) (q : Request) (waiter : ℕ) : PendingBatch where
  opBodies := b.opBodies ++ q.opBody
  opCount := min (b.opCount + q.opCount) (2 ^ 16 - 1)
  identities := b.identities ++ q.identity.toList
  waiters := b.waiters ++ [waiter]

/-- How far the task of a round has come. -/
inductive ProposalPhase
  | starting | running | finished | counted | draining | done
  deriving DecidableEq, Repr

structure Round (ρ : Type) where
  payload : Bytes
  identities : List RequestIdentity
  waiters : List ℕ
  phase : ProposalPhase := .starting
  result : Option ρ := none
  deriving DecidableEq, Repr

/-- The coalescer of a group, with every call and every round so far. -/
structure Coalescer (ρ : Type) where
  pending : Option PendingBatch := none
  roundsInflight : ℕ := 0
  rounds : List (Round ρ) := []
  requests : List Request := []
  received : List (ℕ × ρ) := []
  deriving DecidableEq, Repr

variable {roundsInflight : ℕ}

namespace Coalescer
variable {ρ : Type}

/-- The round that a batch becomes. -/
def spawnRound (b : PendingBatch) : Round ρ where
  payload := toLeBytes 2 b.opCount ++ b.opBodies
  identities := b.identities
  waiters := b.waiters

/-- The locked section of `coalesce_enqueue`. -/
def enqueue (s : Coalescer ρ) (q : Request) (maxKeys : ℕ) : Coalescer ρ :=
  let waiter := s.requests.length
  let s := { s with requests := s.requests ++ [q] }
  match s.pending with
  | none =>
    { s with
      pending := some {}
      rounds := s.rounds ++ [⟨toLeBytes 2 q.opCount ++ q.opBody, q.identity.toList, [waiter],
        .starting, none⟩] }
  | some b =>
    let b := b.push q waiter
    if maxKeys ≤ b.opCount then
      { s with pending := some {}, rounds := s.rounds ++ [spawnRound b] }
    else { s with pending := some b }

/-- The queue that `coalesce_take_pending` leaves when it takes `b`. -/
def nextPending (s : Coalescer ρ) (b : PendingBatch) : Option PendingBatch :=
  if 0 < b.opCount ∨ 0 < s.roundsInflight then some {} else none

/-- `coalesce_take_pending`, and a round unless the batch counts no operation: what both a
drain and the watchdog do. -/
def flush (s : Coalescer ρ) : Coalescer ρ :=
  match s.pending with
  | none => s
  | some b =>
    let s := { s with pending := s.nextPending b }
    if b.opCount = 0 then s else { s with rounds := s.rounds ++ [spawnRound b] }

inductive Action (ρ : Type)
  | enqueue (q : Request) (maxKeys : ℕ)
  | launch (k : ℕ)
  | complete (k : ℕ) (result : ρ)
  | countDown (k : ℕ)
  | checkDrain (k : ℕ)
  | drain (k : ℕ)
  | watchdog

/-- Round `k`, if it has come to `phase`. -/
def roundAt (s : Coalescer ρ) (k : ℕ) (phase : ProposalPhase) : Option (Round ρ) :=
  s.rounds[k]?.filter (·.phase = phase)

def setRound (s : Coalescer ρ) (k : ℕ) (r : Round ρ) : Coalescer ρ :=
  { s with rounds := s.rounds.set k r }

/-- One step; `threshold` is the configured drain threshold, `0` for none. -/
def step (threshold : ℕ) (s : Coalescer ρ) : Action ρ → Option (Coalescer ρ)
  | .enqueue q maxKeys => some (s.enqueue q maxKeys)
  | .launch k => (s.roundAt k .starting).map fun r =>
    { s.setRound k { r with phase := .running } with roundsInflight := s.roundsInflight + 1 }
  | .complete k result => (s.roundAt k .running).map fun r =>
    { s.setRound k { r with phase := .finished, result := some result } with
      received := s.received ++ r.waiters.map fun i => (i, result) }
  | .countDown k => (s.roundAt k .finished).map fun r =>
    { s.setRound k { r with phase := .counted } with roundsInflight := s.roundsInflight - 1 }
  | .checkDrain k => (s.roundAt k .counted).map fun r =>
    if 0 < threshold ∧ threshold ≤ s.roundsInflight then s.setRound k { r with phase := .done }
    else s.setRound k { r with phase := .draining }
  | .drain k => (s.roundAt k .draining).map fun r =>
    (s.setRound k { r with phase := .done }).flush
  | .watchdog => some s.flush

def system (ρ : Type) (threshold : ℕ) : System (Coalescer ρ) (Action ρ) :=
  ⟨fun s => s = {}, step threshold⟩

/-! ## What a batch holds -/

/-- The operations of the requests that wait for a batch or a round. -/
def mergedOps (requests : List Request) (waiters : List ℕ) : List BatchOp :=
  waiters.flatMap fun i => Batch.decode (requests.getD i ⟨[], none⟩).payload

def mergedIdentities (requests : List Request) (waiters : List ℕ) : List RequestIdentity :=
  waiters.flatMap fun i => (requests.getD i ⟨[], none⟩).identity.toList

/-- `opCount` and `opBodies` are those of the waiting requests, each of which brought an
operation. -/
structure Merged (requests : List Request) (waiters : List ℕ) (opCount : ℕ) (opBodies : Bytes)
    (identities : List RequestIdentity) : Prop where
  count : opCount = (mergedOps requests waiters).length
  bodies : opBodies = (mergedOps requests waiters).flatMap encodeBatchOp
  fits : ∀ o ∈ mergedOps requests waiters, o.Fits
  count_lt : opCount < 2 ^ 16
  waiters_le : waiters.length ≤ opCount
  identities : identities = mergedIdentities requests waiters

namespace Merged
variable {requests : List Request} {waiters : List ℕ} {opCount : ℕ} {opBodies : Bytes}
  {identities : List RequestIdentity}

lemma empty (requests : List Request) : Merged requests [] 0 [] [] :=
  ⟨rfl, rfl, nofun, by decide, le_rfl, rfl⟩

lemma decode (h : Merged requests waiters opCount opBodies identities) :
    Batch.decode (toLeBytes 2 opCount ++ opBodies) = mergedOps requests waiters := by
  refine Encodes.decode_eq ⟨?_, ?_, h.fits⟩
  · rw [h.count, h.bodies]
  · rw [← h.count]
    exact h.count_lt

lemma flatMap_concat {β : Type} (g : Request → List β) (hlt : ∀ i ∈ waiters, i < requests.length)
    (q : Request) :
    waiters.flatMap (fun i => g ((requests ++ [q]).getD i ⟨[], none⟩)) =
      waiters.flatMap fun i => g (requests.getD i ⟨[], none⟩) := by
  refine flatMap_congr fun i hi => ?_
  rw [getD_eq_getElem?_getD, getElem?_append_left (hlt i hi), ← getD_eq_getElem?_getD]

/-- Later requests change nothing. -/
theorem concat (h : Merged requests waiters opCount opBodies identities)
    (hlt : ∀ i ∈ waiters, i < requests.length) (q : Request) :
    Merged (requests ++ [q]) waiters opCount opBodies identities := by
  have hops : mergedOps (requests ++ [q]) waiters = mergedOps requests waiters :=
    flatMap_concat (fun q => Batch.decode q.payload) hlt q
  have hids : mergedIdentities (requests ++ [q]) waiters = mergedIdentities requests waiters :=
    flatMap_concat (fun q => q.identity.toList) hlt q
  exact ⟨hops ▸ h.count, hops ▸ h.bodies, hops ▸ h.fits, h.count_lt, h.waiters_le,
    hids ▸ h.identities⟩

variable {q : Request} {ops : List BatchOp}

lemma opCount_eq (h : Encodes q.payload ops) : q.opCount = ops.length := by
  have hlen := h.length_lt
  rw [Request.opCount, h.payload_eq, if_neg (by rw [length_append, length_toLeBytes]; omega),
    take_left' (length_toLeBytes 2 _),
    fromLeBytes_toLeBytes (by norm_num at hlen; exact hlen)]

/-- One more request, as long as the count does not saturate. -/
theorem push (h : Merged requests waiters opCount opBodies identities)
    (hlt : ∀ i ∈ waiters, i < requests.length) (hq : Encodes q.payload ops)
    (hpos : 0 < q.opCount) (hroom : opCount + q.opCount < 2 ^ 16) :
    Merged (requests ++ [q]) (waiters ++ [requests.length]) (opCount + q.opCount)
      (opBodies ++ q.opBody) (identities ++ q.identity.toList) := by
  have hnew : (requests ++ [q]).getD requests.length ⟨[], none⟩ = q := by simp
  have hold := h.concat hlt q
  have hops : mergedOps (requests ++ [q]) (waiters ++ [requests.length]) =
      mergedOps (requests ++ [q]) waiters ++ ops := by
    rw [mergedOps, mergedOps, flatMap_append, flatMap_singleton, hnew, hq.decode_eq]
  constructor
  · rw [hops, length_append, ← hold.count, opCount_eq hq]
  · rw [hops, flatMap_append, ← hold.bodies, Request.opBody, hq.drop_two]
  · rw [hops]
    exact forall_mem_append.mpr ⟨hold.fits, hq.fits⟩
  · exact hroom
  · rw [length_append, length_singleton]
    have := h.waiters_le
    omega
  · rw [mergedIdentities, flatMap_append, flatMap_singleton, hnew, hold.identities]
    rfl

end Merged

/-! ## Conservation -/

def pendingWaiters (s : Coalescer ρ) : List ℕ := s.pending.elim [] (·.waiters)

/-- Every request waits in one place, and what is there is what the requests brought. -/
structure Conserved (s : Coalescer ρ) : Prop where
  perm : (s.pendingWaiters ++ s.rounds.flatMap (·.waiters)).Perm (List.range s.requests.length)
  pending : ∀ b, s.pending = some b → Merged s.requests b.waiters b.opCount b.opBodies b.identities
  rounds : ∀ r ∈ s.rounds, ∃ opCount opBodies, r.payload = toLeBytes 2 opCount ++ opBodies ∧
    Merged s.requests r.waiters opCount opBodies r.identities
  waiting : ∀ r ∈ s.rounds, r.phase = .starting ∨ r.phase = .running ↔ r.result = none
  received : ∀ i v, (i, v) ∈ s.received ↔ ∃ r ∈ s.rounds, i ∈ r.waiters ∧ r.result = some v

/-- A request is taken in whole: its payload is what an encoder writes for at least one
operation, and the pending count has room for its operations. -/
def Fits (s : Coalescer ρ) : Action ρ → Prop
  | .enqueue q _ => (∃ ops, Encodes q.payload ops) ∧ 0 < q.opCount ∧
    ∀ b, s.pending = some b → b.opCount + q.opCount < 2 ^ 16
  | _ => True

namespace Conserved
variable {s : Coalescer ρ} {k : ℕ} {r : Round ρ}

lemma init : Conserved ({} : Coalescer ρ) :=
  ⟨.refl _, nofun, nofun, nofun, fun _ _ => ⟨nofun, nofun⟩⟩

section
variable (h : s.Conserved)
include h

lemma lt_of_mem {i : ℕ} (hi : i ∈ s.pendingWaiters ++ s.rounds.flatMap (·.waiters)) :
    i < s.requests.length :=
  mem_range.mp (h.perm.mem_iff.mp hi)

lemma lt_of_pending {b : PendingBatch} (hb : s.pending = some b) :
    ∀ i ∈ b.waiters, i < s.requests.length := by
  intro i hi
  refine h.lt_of_mem (mem_append_left _ ?_)
  rw [pendingWaiters, hb]
  exact hi

lemma lt_of_round (hr : r ∈ s.rounds) : ∀ i ∈ r.waiters, i < s.requests.length :=
  fun _ hi => h.lt_of_mem (mem_append_right _ (mem_flatMap.mpr ⟨r, hr, hi⟩))

/-- A new round with what was pending or has just come in. -/
theorem addRound {t : Coalescer ρ} {requests : List Request} {opCount : ℕ} {opBodies : Bytes}
    (hperm : (t.pendingWaiters ++ (s.rounds ++ [r]).flatMap (·.waiters)).Perm
      (range requests.length))
    (hpending : ∀ b, t.pending = some b →
      Merged requests b.waiters b.opCount b.opBodies b.identities)
    (hold : ∀ r ∈ s.rounds, ∃ opCount opBodies, r.payload = toLeBytes 2 opCount ++ opBodies ∧
      Merged requests r.waiters opCount opBodies r.identities)
    (hpayload : r.payload = toLeBytes 2 opCount ++ opBodies)
    (hmerged : Merged requests r.waiters opCount opBodies r.identities)
    (hphase : r.phase = .starting) (hresult : r.result = none) : Conserved { t with
      rounds := s.rounds ++ [r], requests := requests, received := s.received } where
  perm := hperm
  pending := hpending
  rounds := forall_mem_append.mpr ⟨hold, forall_mem_singleton.mpr ⟨_, _, hpayload, hmerged⟩⟩
  waiting := forall_mem_append.mpr
    ⟨h.waiting, forall_mem_singleton.mpr ⟨fun _ => hresult, fun _ => .inl hphase⟩⟩
  received := by
    intro i v
    rw [h.received]
    constructor
    · rintro ⟨r', hr', hi, hv⟩
      exact ⟨r', mem_append_left _ hr', hi, hv⟩
    · rintro ⟨r', hr', hi, hv⟩
      rcases mem_append.mp hr' with hr' | hr'
      · exact ⟨r', hr', hi, hv⟩
      · rw [mem_singleton.mp hr', hresult] at hv
        cases hv

lemma oldRounds (q : Request) : ∀ r ∈ s.rounds, ∃ opCount opBodies,
    r.payload = toLeBytes 2 opCount ++ opBodies ∧
      Merged (s.requests ++ [q]) r.waiters opCount opBodies r.identities := by
  intro r hr
  obtain ⟨opCount, opBodies, hpayload, hmerged⟩ := h.rounds r hr
  exact ⟨opCount, opBodies, hpayload, hmerged.concat (h.lt_of_round hr) q⟩

end

lemma range_concat (s : Coalescer ρ) (q : Request) :
    range (s.requests ++ [q]).length = range s.requests.length ++ [s.requests.length] := by
  rw [length_append, length_singleton, range_succ]

lemma enqueue (h : s.Conserved) {q : Request} {maxKeys : ℕ} {ops : List BatchOp}
    (hq : Encodes q.payload ops) (hpos : 0 < q.opCount)
    (hroom : ∀ b, s.pending = some b → b.opCount + q.opCount < 2 ^ 16) :
    (s.enqueue q maxKeys).Conserved := by
  have hperm := h.perm
  have hempty : ∀ b, some ({} : PendingBatch) = some b →
      Merged (s.requests ++ [q]) b.waiters b.opCount b.opBodies b.identities := by
    rintro b ⟨⟩
    exact .empty _
  unfold Coalescer.enqueue
  cases hp : s.pending with
  | none =>
    have hsize : q.opCount < 2 ^ 16 := by
      rw [Merged.opCount_eq hq]
      exact hq.length_lt
    have hone := (Merged.empty s.requests).push nofun hq hpos (by omega)
    rw [Nat.zero_add] at hone
    refine h.addRound (t := { s with pending := some {} }) ?_ hempty (h.oldRounds q) rfl hone
      rfl rfl
    rw [range_concat, flatMap_append]
    rw [pendingWaiters, hp] at hperm
    exact hperm.append_right _
  | some b =>
    have hb := (h.pending b hp).push (h.lt_of_pending hp) hq hpos (hroom b hp)
    have hcount : (b.push q s.requests.length).opCount = b.opCount + q.opCount := by
      have := hroom b hp
      show min (b.opCount + q.opCount) (2 ^ 16 - 1) = _
      omega
    rw [pendingWaiters, hp] at hperm
    simp only
    split
    · refine h.addRound (t := { s with pending := some {} }) ?_ hempty (h.oldRounds q) rfl
        (hcount.symm ▸ hb) rfl rfl
      rw [range_concat, flatMap_append, flatMap_singleton]
      refine (Perm.trans ?_ (hperm.append_right [s.requests.length]))
      show (s.rounds.flatMap (·.waiters) ++ (b.waiters ++ [s.requests.length])).Perm
        (b.waiters ++ s.rounds.flatMap (·.waiters) ++ [s.requests.length])
      rw [← append_assoc]
      exact perm_append_comm.append_right _
    · refine ⟨?_, ?_, h.oldRounds q, h.waiting, h.received⟩
      · rw [range_concat]
        refine (Perm.trans ?_ (hperm.append_right [s.requests.length]))
        show (b.waiters ++ [s.requests.length] ++ s.rounds.flatMap (·.waiters)).Perm
          (b.waiters ++ s.rounds.flatMap (·.waiters) ++ [s.requests.length])
        rw [append_assoc, append_assoc]
        exact perm_append_comm.append_left _
      · rintro b' ⟨⟩
        exact hcount.symm ▸ hb

lemma nextPending_waiters (s : Coalescer ρ) (b : PendingBatch) :
    (s.nextPending b).elim [] (·.waiters) = [] := by
  unfold nextPending
  split <;> rfl

/-- A flush moves the pending batch into a round, and drops it only when nobody waits. -/
theorem flush (h : s.Conserved) : s.flush.Conserved ∧ s.flush.pendingWaiters = [] := by
  unfold Coalescer.flush
  cases hp : s.pending with
  | none => exact ⟨h, by rw [pendingWaiters, hp]; rfl⟩
  | some b =>
    have hb := h.pending b hp
    have hperm := h.perm
    rw [pendingWaiters, hp] at hperm
    have hnone : { s with pending := s.nextPending b }.pendingWaiters = [] :=
      nextPending_waiters s b
    have hempty : ∀ b', s.nextPending b = some b' →
        Merged s.requests b'.waiters b'.opCount b'.opBodies b'.identities := by
      intro b' hb'
      unfold nextPending at hb'
      split at hb'
      · cases hb'
        exact .empty _
      · cases hb'
    dsimp only
    split
    · next hzero =>
      have hwaiters : b.waiters = [] :=
        length_eq_zero_iff.mp (Nat.le_zero.mp (hzero ▸ hb.waiters_le))
      refine ⟨⟨?_, hempty, h.rounds, h.waiting, h.received⟩, hnone⟩
      rw [hnone]
      rwa [elim_some, hwaiters] at hperm
    · refine ⟨h.addRound (t := { s with pending := s.nextPending b }) ?_ hempty h.rounds rfl hb
        rfl rfl, hnone⟩
      rw [hnone, flatMap_append, flatMap_singleton, nil_append]
      exact perm_append_comm.trans hperm

lemma mem_set_or {l : List (Round ρ)} (hr : l[k]? = some r) {r' : Round ρ} (hr' : r' ∈ l)
    (r₁ : Round ρ) : r' ∈ l.set k r₁ ∨ r' = r := by
  obtain ⟨j, hj⟩ := mem_iff_getElem?.mp hr'
  rcases eq_or_ne k j with rfl | hne
  · exact .inr (some.inj (hj.symm.trans hr))
  · exact .inl (mem_iff_getElem?.mpr ⟨j, by rw [getElem?_set_ne hne, hj]⟩)

/-- A round moves on: its result is set at most once, and told to its waiters. -/
theorem moveRound (h : s.Conserved) (hr : s.rounds[k]? = some r) {r₁ : Round ρ}
    {received : List (ℕ × ρ)} (hpayload : r₁.payload = r.payload)
    (hidentities : r₁.identities = r.identities) (hwaiters : r₁.waiters = r.waiters)
    (hwaiting : r₁.phase = .starting ∨ r₁.phase = .running ↔ r₁.result = none)
    (hresult : r.result = none ∨ r₁.result = r.result)
    (hreceived : ∀ i v, (i, v) ∈ received ↔ (i, v) ∈ s.received ∨ i ∈ r.waiters ∧
      r₁.result = some v) :
    Conserved { s.setRound k r₁ with roundsInflight := roundsInflight, received := received } := by
  have hmem := mem_of_getElem? hr
  obtain ⟨hk, hget⟩ := List.getElem?_eq_some_iff.mp hr
  have hnew : r₁ ∈ s.rounds.set k r₁ := mem_set hk r₁
  have hsame : (s.rounds.set k r₁).flatMap (·.waiters) = s.rounds.flatMap (·.waiters) := by
    have hlen : k < (s.rounds.map (·.waiters)).length := by rwa [length_map]
    have hold : r₁.waiters = (s.rounds.map (·.waiters))[k] := by
      rw [getElem_map, hget, hwaiters]
    rw [flatMap, flatMap, map_set, hold, set_getElem_self]
  refine ⟨?_, h.pending, forall_mem_set h.rounds ?_, forall_mem_set h.waiting hwaiting, ?_⟩
  · show (s.pendingWaiters ++ (s.rounds.set k r₁).flatMap (·.waiters)).Perm _
    rw [hsame]
    exact h.perm
  · obtain ⟨opCount, opBodies, hp, hm⟩ := h.rounds r hmem
    exact ⟨opCount, opBodies, hpayload.trans hp, by rw [hidentities, hwaiters]; exact hm⟩
  · intro i v
    rw [hreceived, h.received]
    constructor
    · rintro (⟨r', hr', hi, hv⟩ | ⟨hi, hv⟩)
      · rcases mem_set_or hr hr' r₁ with hset | rfl
        · exact ⟨r', hset, hi, hv⟩
        · refine ⟨r₁, hnew, hwaiters ▸ hi, ?_⟩
          rcases hresult with hnone | heq
          · cases hnone.symm.trans hv
          · exact heq.trans hv
      · exact ⟨r₁, hnew, hwaiters ▸ hi, hv⟩
    · rintro ⟨r', hr', hi, hv⟩
      rcases mem_or_eq_of_mem_set hr' with hr' | rfl
      · exact .inl ⟨r', hr', hi, hv⟩
      · exact .inr ⟨hwaiters ▸ hi, hv⟩

/-- A round moves on without a new result. -/
theorem setPhase (h : s.Conserved) {phase : ProposalPhase} {p₀ : ProposalPhase}
    (hr : s.roundAt k p₀ = some r)
    (hphase : phase = .starting ∨ phase = .running ↔ p₀ = .starting ∨ p₀ = .running) :
    Conserved { s.setRound k { r with phase := phase } with roundsInflight := roundsInflight } := by
  obtain ⟨hr, hp₀⟩ := filter_eq_some_iff.mp hr
  have hmem := mem_of_getElem? hr
  refine h.moveRound hr rfl rfl rfl ?_ (.inr rfl) fun i v => ?_
  · rw [hphase, ← of_decide_eq_true hp₀]
    exact h.waiting r hmem
  · exact (or_iff_left_of_imp fun hv => (h.received i v).mpr ⟨r, hmem, hv.1, hv.2⟩).symm

lemma step (h : s.Conserved) {threshold : ℕ} {a : Action ρ} {t : Coalescer ρ}
    (hfits : s.Fits a) (hstep : s.step threshold a = some t) : t.Conserved := by
  cases a with
  | enqueue =>
    obtain ⟨⟨ops, hq⟩, hpos, hroom⟩ := hfits
    rw [← some.inj hstep]
    exact h.enqueue hq hpos hroom
  | launch =>
    obtain ⟨r, hr, rfl⟩ := map_eq_some_iff.mp hstep
    exact h.setPhase hr (by decide)
  | complete _ result =>
    obtain ⟨r, hr, rfl⟩ := map_eq_some_iff.mp hstep
    obtain ⟨hr, hrunning⟩ := filter_eq_some_iff.mp hr
    have hnone : r.result = none :=
      (h.waiting r (mem_of_getElem? hr)).mp (.inr (of_decide_eq_true hrunning))
    refine h.moveRound hr rfl rfl rfl ⟨nofun, nofun⟩ (.inl hnone) fun i v => ?_
    simp only [mem_append, List.mem_map, Prod.mk.injEq, some.injEq]
    exact or_congr_right ⟨fun ⟨j, hj, hi, hv⟩ => ⟨hi ▸ hj, hv⟩, fun ⟨hi, hv⟩ => ⟨i, hi, rfl, hv⟩⟩
  | countDown =>
    obtain ⟨r, hr, rfl⟩ := map_eq_some_iff.mp hstep
    exact h.setPhase hr (by decide)
  | checkDrain =>
    obtain ⟨r, hr, rfl⟩ := map_eq_some_iff.mp hstep
    split <;> exact h.setPhase hr (by decide)
  | drain k =>
    obtain ⟨r, hr, rfl⟩ := map_eq_some_iff.mp hstep
    have hdone : (s.setRound k { r with phase := .done }).Conserved := h.setPhase hr (by decide)
    exact hdone.flush.1
  | watchdog =>
    rw [← some.inj hstep]
    exact h.flush.1

lemma of_reach {threshold : ℕ} (h : (system ρ threshold).Reach Fits s) : s.Conserved := by
  refine System.Reach.invariant ?_ ?_ h
  · rintro s rfl
    exact .init
  · exact fun s a t hs hfits => hs.step hfits

end Conserved

/-- As long as every request is taken in whole, each one waits in the pending batch or in
one round, once; a round's payload decodes to the operations of its requests, one request
after the other, and carries their identities; and a waiter receives a result exactly when
its round has it. The watchdog leaves no request behind in the pending batch. -/
theorem requests_conserved (threshold : ℕ) {s : Coalescer ρ}
    (h : (system ρ threshold).Reach Fits s) :
    (s.pendingWaiters ++ s.rounds.flatMap (·.waiters)).Perm (List.range s.requests.length) ∧
    (∀ r ∈ s.rounds, Batch.decode r.payload = mergedOps s.requests r.waiters ∧
      r.identities = mergedIdentities s.requests r.waiters) ∧
    (∀ i v, (i, v) ∈ s.received ↔ ∃ r ∈ s.rounds, i ∈ r.waiters ∧ r.result = some v) ∧
    ∀ t, s.step threshold .watchdog = some t → t.pendingWaiters = [] := by
  have hs := Conserved.of_reach h
  refine ⟨hs.perm, fun r hr => ?_, hs.received, fun t ht => ?_⟩
  · obtain ⟨opCount, opBodies, hpayload, hmerged⟩ := hs.rounds r hr
    exact ⟨hpayload ▸ hmerged.decode, hmerged.identities⟩
  · rw [← some.inj ht]
    exact hs.flush.2

/-- A request with one operation. -/
def putOne : Request := ⟨encodeKvPayload [([1], some [2])], some ⟨1, 1⟩⟩

lemma putOne_encodes : Encodes putOne.payload [⟨[1], .put [2]⟩] :=
  ⟨rfl, by decide, forall_mem_singleton.mpr ⟨by decide, by rintro _ ⟨⟩; decide⟩⟩

/-- Only such requests come in, and there is room for them. -/
def onlyPutOne (s : Coalescer ρ) : Action ρ → Bool
  | .enqueue q _ => q = putOne && s.pending.all (·.opCount + 1 < 2 ^ 16)
  | _ => true

lemma fits_of_onlyPutOne (s : Coalescer ρ) (a : Action ρ) (hg : s.onlyPutOne a = true) :
    s.Fits a := by
  cases a with
  | enqueue =>
    obtain ⟨hq, hroom⟩ := Bool.and_eq_true_iff.mp hg
    obtain rfl := of_decide_eq_true hq
    refine ⟨⟨_, putOne_encodes⟩, by decide, fun b hb => ?_⟩
    rw [hb] at hroom
    exact of_decide_eq_true hroom
  | _ => trivial

/-- Two requests, the second of which waits for the round of the first and gets its own. -/
theorem requests_conserved_drained : ∃ s : Coalescer ℕ,
    (system ℕ 1).Reach Fits s ∧ s.received = [(0, 7), (1, 8)] ∧
      (s.pendingWaiters ++ s.rounds.flatMap (·.waiters)).Perm (List.range s.requests.length) := by
  have hreach := (System.reach_runGuarded (S := system ℕ 1) (g := onlyPutOne)
    [.enqueue putOne 32, .launch 0, .enqueue putOne 32, .complete 0 7, .countDown 0,
      .checkDrain 0, .drain 0, .launch 1, .complete 1 8] rfl).mono fits_of_onlyPutOne
  exact ⟨_, hreach, by decide +kernel, (requests_conserved 1 hreach).1⟩

/-- When the count saturates and the batch is flushed, the round has lost operations. -/
theorem operations_lost {s : Coalescer ρ} (hs : s.Conserved) {b : PendingBatch}
    (hb : s.pending = some b) {q : Request} {ops : List BatchOp} (hq : Encodes q.payload ops)
    (hover : 2 ^ 16 ≤ b.opCount + q.opCount) {maxKeys : ℕ} (hmax : maxKeys < 2 ^ 16) :
    ∃ r ∈ (s.enqueue q maxKeys).rounds, (Batch.decode r.payload).length <
      (mergedOps (s.enqueue q maxKeys).requests r.waiters).length := by
  have hfull : maxKeys ≤ (b.push q s.requests.length).opCount := by
    show _ ≤ min (b.opCount + q.opCount) (2 ^ 16 - 1)
    omega
  have henqueue : s.enqueue q maxKeys = { s with
      requests := s.requests ++ [q], pending := some {},
      rounds := s.rounds ++ [spawnRound (b.push q s.requests.length)] } := by
    unfold enqueue
    simp only [hb, hfull, if_true]
  have hold := (hs.pending b hb).concat (hs.lt_of_pending hb) q
  rw [henqueue]
  refine ⟨_, mem_append_right _ (mem_singleton_self _), ?_⟩
  refine (length_decode_lt _).trans_le (hover.trans_eq ?_)
  show _ = (mergedOps (s.requests ++ [q]) (b.waiters ++ [s.requests.length])).length
  rw [mergedOps, hold.count, Merged.opCount_eq hq, mergedOps]
  simp [hq.decode_eq]

/-- A batch write with as many operations as the count can hold. -/
def fullRequest : Request := ⟨encodeKvPayload (List.replicate 65535 ([], none)), none⟩

lemma fullRequest_encodes : Encodes fullRequest.payload (replicate 65535 ⟨[], .delete⟩) := by
  refine ⟨?_, ?_, fun o ho => ?_⟩
  · rw [fullRequest, encodeKvPayload_eq, map_replicate]
    rfl
  · norm_num
  · rw [eq_of_mem_replicate ho]
    exact ⟨by decide, nofun⟩

/-- A request without operations. -/
def emptyRequest : Request := ⟨encodeKvPayload [], none⟩

/-- A full request that joins a pending one makes a round that decodes to fewer operations
than were merged into it; and a request without operations is dropped by the drain, so that
its waiter never receives a result. -/
theorem requests_lost : (∃ s : Coalescer ℕ, (system ℕ 1).Reach System.Free s ∧ ∃ r ∈ s.rounds,
      (Batch.decode r.payload).length < (mergedOps s.requests r.waiters).length) ∧
    ∃ s : Coalescer ℕ, (system ℕ 1).Reach System.Free s ∧ s.requests.length = 2 ∧
      s.pending = none ∧ s.rounds.map (·.phase) = [.done] ∧ s.received.map (·.1) = [0] := by
  constructor
  · have hrun : (system ℕ 1).execGuarded onlyPutOne {}
        [.enqueue putOne 32, .enqueue putOne 32] = some
        { pending := some ⟨putOne.opBody, 1, [⟨1, 1⟩], [1]⟩
          rounds := [⟨putOne.payload, [⟨1, 1⟩], [0], .starting, none⟩]
          requests := [putOne, putOne] } := by decide
    have hreach := (System.reach_execGuarded _ (.init rfl) hrun).mono fits_of_onlyPutOne
    have hfree : (system ℕ 1).Reach System.Free _ := hreach.mono fun _ _ _ => trivial
    refine ⟨_, hfree.step (.enqueue fullRequest 32) trivial rfl, ?_⟩
    refine operations_lost (.of_reach hreach) rfl fullRequest_encodes ?_ (by decide)
    rw [Merged.opCount_eq fullRequest_encodes]
    norm_num
  · exact ⟨_, System.reach_run [.enqueue putOne 32, .launch 0, .enqueue emptyRequest 32,
      .complete 0 7, .countDown 0, .checkDrain 0, .drain 0] rfl, by decide +kernel⟩

end Coalescer
end CrowDB.Cluster
